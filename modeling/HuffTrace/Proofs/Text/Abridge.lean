/-
  HuffTrace.Proofs.Text.Abridge

  Texts as sequences of maximal runs.  A run is a character with the number of
  its repetitions, and the runs of a text are maximal if touching ones differ in
  their characters; a text has exactly one such sequence.  Shortening a long run
  of a digit makes three runs of it, the digits before the ellipsis, the ellipsis
  and the digit after it.  Its first and its last character stay the same, so
  what results is again a sequence of maximal runs (`isMaximal_abridged`).  All
  that is said of the shortened text is read off these runs (`abridge_canonical`).
-/

import HuffTrace.Text.Abridge
import Mathlib.Data.List.SplitBy

namespace HuffTrace.Text

/-! ## Runs -/

/-- A character that is repeated. -/
structure Run where
  char : Char
  count : Nat
  positive : 0 < count
  deriving DecidableEq

/-- The characters of a run. -/
def Run.text (r : Run) : List Char :=
  List.replicate r.count r.char

/-- The characters of runs in order. -/
def spell (runs : List Run) : List Char :=
  runs.flatMap Run.text

/-- Touching runs differ in their characters. -/
def IsMaximal (runs : List Run) : Prop :=
  runs.IsChain fun r s => r.char ≠ s.char

@[simp] theorem spell_nil : spell [] = [] := rfl

@[simp] theorem spell_cons (r : Run) (runs : List Run) :
    spell (r :: runs) = r.text ++ spell runs := rfl

theorem Run.text_eq_cons (r : Run) : r.text = r.char :: List.replicate (r.count - 1) r.char := by
  have hcount : r.count = r.count - 1 + 1 := by have := r.positive; omega
  rw [text, hcount, List.replicate_succ, Nat.add_sub_cancel]

theorem Run.text_ne_nil (r : Run) : r.text ≠ [] := by
  rw [r.text_eq_cons]
  exact List.cons_ne_nil _ _

theorem Run.text_injective : Function.Injective Run.text := by
  intro r s h
  have hcount : r.count = s.count := by simpa [text] using congrArg List.length h
  have hchar : r.char = s.char := by
    rw [r.text_eq_cons, s.text_eq_cons] at h
    exact (List.cons.inj h).1
  cases r
  cases s
  simp_all

theorem head?_spell (runs : List Run) : (spell runs).head? = runs.head?.map Run.char := by
  cases runs with
  | nil => rfl
  | cons r runs => simp [r.text_eq_cons]

/-- Every text is made of maximal runs. -/
theorem exists_runs (cs : List Char) : ∃ runs, IsMaximal runs ∧ spell runs = cs := by
  induction cs with
  | nil => exact ⟨[], .nil, rfl⟩
  | cons c cs ih =>
    obtain ⟨runs, hmax, rfl⟩ := ih
    cases runs with
    | nil => exact ⟨[⟨c, 1, by decide⟩], .singleton _, rfl⟩
    | cons r runs =>
      by_cases hc : c = r.char
      · -- The character continues the first run.
        refine ⟨⟨r.char, r.count + 1, by omega⟩ :: runs, ?_, ?_⟩
        · exact List.isChain_cons.2 ⟨(List.isChain_cons.1 hmax).1, hmax.tail⟩
        · simp [Run.text, List.replicate_succ, hc]
      · exact ⟨⟨c, 1, by decide⟩ :: r :: runs, List.isChain_cons_cons.2 ⟨hc, hmax⟩, rfl⟩

/-- A text is cut into its maximal runs. -/
theorem splitBy_spell {runs : List Run} (h : IsMaximal runs) :
    (spell runs).splitBy (· == ·) = runs.map Run.text := by
  rw [spell, List.flatMap_def]
  refine List.splitBy_flatten ?_ ?_ ?_
  · simp [Run.text_ne_nil]
  · intro m hm
    obtain ⟨r, -, rfl⟩ := List.mem_map.1 hm
    exact List.isChain_replicate_of_rel r.count (beq_self_eq_true r.char)
  · refine List.isChain_map_of_isChain _ ?_ h
    intro r s hrs
    exact ⟨r.text_ne_nil, s.text_ne_nil, by simpa [Run.text] using hrs⟩

/-- A text is made of maximal runs in one way. -/
theorem runs_unique {runs others : List Run} (hruns : IsMaximal runs) (hothers : IsMaximal others)
    (h : spell others = spell runs) : others = runs := by
  have hcut := congrArg (List.splitBy (· == ·)) h
  rw [splitBy_spell hruns, splitBy_spell hothers] at hcut
  exact Run.text_injective.list_map hcut

/-! ## Equal characters in a text -/

theorem eq_and_le_of_replicate_start {n k : Nat} {c a : Char} {rest : List Char} (hn : 0 < n)
    (hrest : rest.head? ≠ some a) (h : List.replicate n c <+: List.replicate (k + 1) a ++ rest) :
    c = a ∧ n ≤ k + 1 := by
  obtain ⟨m, rfl⟩ : ∃ m, n = m + 1 := ⟨n - 1, by omega⟩
  obtain rfl : c = a := (List.cons_prefix_cons.1 h).1
  refine ⟨rfl, ?_⟩
  by_contra hlt
  -- What goes beyond the run would have to begin the rest.
  obtain ⟨excess, hexcess⟩ : ∃ excess, m + 1 = k + 1 + (excess + 1) := ⟨m - k - 1, by omega⟩
  rw [hexcess, List.replicate_add, List.prefix_append_right_inj, List.replicate_succ] at h
  obtain ⟨more, rfl⟩ := h
  exact hrest rfl

/-- Equal characters before which a run ends are inside the run or after it. -/
theorem replicate_infix_append {n k : Nat} {c a : Char} {rest : List Char} (hn : 0 < n)
    (hrest : rest.head? ≠ some a) (h : List.replicate n c <:+: List.replicate k a ++ rest) :
    (c = a ∧ n ≤ k) ∨ List.replicate n c <:+: rest := by
  induction k with
  | zero => exact .inr h
  | succ k ih =>
    rw [List.replicate_succ, List.cons_append, List.infix_cons_iff] at h
    rcases h with hprefix | hwithin
    · exact .inl (eq_and_le_of_replicate_start hn hrest hprefix)
    · rcases ih hwithin with ⟨hc, hle⟩ | hlater
      · exact .inl ⟨hc, by omega⟩
      · exact .inr hlater

/-- Equal characters in a text all belong to one of its maximal runs. -/
theorem exists_run_of_replicate_infix {runs : List Run} (h : IsMaximal runs) {n : Nat} {c : Char}
    (hn : 0 < n) (hwithin : List.replicate n c <:+: spell runs) :
    ∃ r ∈ runs, r.char = c ∧ n ≤ r.count := by
  induction runs with
  | nil =>
    rw [spell_nil, List.infix_nil, List.replicate_eq_nil_iff] at hwithin
    omega
  | cons r runs ih =>
    have hrest : (spell runs).head? ≠ some r.char := by
      rw [head?_spell]
      intro hhead
      obtain ⟨s, hs, hchar⟩ := Option.map_eq_some_iff.1 hhead
      exact (List.isChain_cons.1 h).1 s hs hchar.symm
    rcases replicate_infix_append hn hrest hwithin with ⟨rfl, hle⟩ | hlater
    · exact ⟨r, List.mem_cons_self, rfl, hle⟩
    · obtain ⟨s, hs, hsc⟩ := ih h.tail hlater
      exact ⟨s, List.mem_cons_of_mem _ hs, hsc⟩

/-! ## Long runs -/

/-- An ASCII hexadecimal digit of either case. -/
def IsHex (c : Char) : Prop :=
  ('0' ≤ c ∧ c ≤ '9') ∨ ('a' ≤ c ∧ c ≤ 'f') ∨ ('A' ≤ c ∧ c ≤ 'F')

instance : DecidablePred IsHex := fun c =>
  inferInstanceAs (Decidable (('0' ≤ c ∧ c ≤ '9') ∨ ('a' ≤ c ∧ c ≤ 'f') ∨ ('A' ≤ c ∧ c ≤ 'F')))

theorem isHexDigit_iff {c : Char} : isHexDigit c = true ↔ IsHex c := by
  have hle : ∀ c d : Char, c ≤ d ↔ c.toNat ≤ d.toNat := fun _ _ => Iff.rfl
  simp only [isHexDigit, digit?, IsHex]
  split
  · next hdecimal =>
    have hhigh : c.toNat ≤ 57 := (hle _ _).1 hdecimal.2
    simp [hdecimal, show c.toNat - 48 < 16 by omega]
  · next hdecimal =>
    split
    · next hsmall =>
      have hhigh : c.toNat ≤ 102 := (hle _ _).1 hsmall.2
      simp [hsmall, show c.toNat - 87 < 16 by omega]
    · next hsmall =>
      split
      · next hcapital =>
        have hhigh : c.toNat ≤ 70 := (hle _ _).1 hcapital.2
        simp [hcapital, show c.toNat - 55 < 16 by omega]
      · next hcapital => simp [hdecimal, hsmall, hcapital]

namespace Run

/-- Five or more equal digits. -/
def IsLong (r : Run) : Prop :=
  IsHex r.char ∧ 5 ≤ r.count

instance : DecidablePred IsLong := fun r =>
  inferInstanceAs (Decidable (IsHex r.char ∧ 5 ≤ r.count))

/-- What is written for a run: of a long one, two digits, an ellipsis and one digit. -/
def shortened (r : Run) : List Char :=
  if r.IsLong then [r.char, r.char, '.', '.', '.', r.char] else List.replicate r.count r.char

/-- The runs of what is written for a run. -/
def abridged (r : Run) : List Run :=
  if r.IsLong then [⟨r.char, 2, by decide⟩, ⟨'.', 3, by decide⟩, ⟨r.char, 1, by decide⟩] else [r]

theorem spell_abridged (r : Run) : spell r.abridged = r.shortened := by
  rw [abridged, shortened]
  split
  · rfl
  · exact List.append_nil _

theorem abridgeRun_text (r : Run) : abridgeRun r.text = r.shortened := by
  have hlong : (isHexDigit r.char && longRun ≤ r.text.length) = true ↔ r.IsLong := by
    simp [isHexDigit_iff, longRun, text, IsLong]
  rw [shortened, ← text]
  simp only [← hlong]
  rw [r.text_eq_cons]
  rfl

/-- An ellipsis is no digit, so what is written for a run is in maximal runs. -/
theorem isMaximal_abridged (r : Run) : IsMaximal r.abridged := by
  rw [abridged]
  split
  · next hlong =>
    have hdot : r.char ≠ '.' := by
      intro h
      exact absurd (h ▸ hlong.1) (by decide)
    exact .cons_cons hdot (.cons_cons hdot.symm (.singleton _))
  · exact .singleton r

theorem char_head?_abridged (r : Run) : r.abridged.head?.map char = some r.char := by
  rw [abridged]
  split <;> rfl

theorem char_getLast?_abridged (r : Run) : r.abridged.getLast?.map char = some r.char := by
  rw [abridged]
  split <;> rfl

theorem not_isLong_of_mem_abridged {r s : Run} (h : s ∈ r.abridged) : ¬ s.IsLong := by
  rw [abridged] at h
  split at h
  · have hcount : s.count ≤ 3 := by
      simp only [List.mem_cons, List.not_mem_nil, or_false] at h
      rcases h with rfl | rfl | rfl <;> simp
    exact fun hlong => absurd hlong.2 (by omega)
  · next hshort =>
    rw [List.mem_singleton.1 h]
    exact hshort

theorem abridged_of_not_isLong {r : Run} (h : ¬ r.IsLong) : r.abridged = [r] :=
  if_neg h

end Run

theorem char_head?_flatMap_abridged (runs : List Run) :
    (runs.flatMap Run.abridged).head?.map Run.char = runs.head?.map Run.char := by
  cases runs with
  | nil => rfl
  | cons r runs =>
    obtain ⟨s, hs, hchar⟩ := Option.map_eq_some_iff.1 r.char_head?_abridged
    rw [List.flatMap_cons, List.head?_append, hs]
    exact congrArg some hchar

/-- Shortening runs leaves maximal runs. -/
theorem isMaximal_flatMap_abridged {runs : List Run} (h : IsMaximal runs) :
    IsMaximal (runs.flatMap Run.abridged) := by
  induction runs with
  | nil => exact .nil
  | cons r runs ih =>
    rw [List.flatMap_cons]
    refine List.isChain_append.2 ⟨r.isMaximal_abridged, ih h.tail, fun s hs t ht => ?_⟩
    -- Where two of them touch, the characters are still those of the runs.
    have hs : s.char = r.char := by simpa [Option.mem_def.1 hs] using r.char_getLast?_abridged
    have ht : runs.head?.map Run.char = some t.char := by
      rw [← char_head?_flatMap_abridged, Option.mem_def.1 ht]
      rfl
    obtain ⟨next, hnext, hchar⟩ := Option.map_eq_some_iff.1 ht
    rw [hs, ← hchar]
    exact (List.isChain_cons.1 h).1 next hnext

/-! ## Shortened texts -/

theorem abridgeRuns_spell {runs : List Run} (h : IsMaximal runs) :
    abridgeRuns (spell runs) = runs.flatMap Run.shortened := by
  rw [abridgeRuns, splitBy_spell h, List.flatMap_map]
  exact List.flatMap_congr fun r _ => r.abridgeRun_text

theorem spell_flatMap_abridged (runs : List Run) :
    spell (runs.flatMap Run.abridged) = runs.flatMap Run.shortened := by
  rw [spell, List.flatMap_assoc]
  exact List.flatMap_congr fun r _ => r.spell_abridged

theorem flatMap_abridged_of_not_isLong {runs : List Run} (h : ∀ r ∈ runs, ¬ r.IsLong) :
    runs.flatMap Run.abridged = runs := by
  rw [List.flatMap_congr fun r hr => Run.abridged_of_not_isLong (h r hr), List.flatMap_singleton']

/-- A text is made of maximal runs in exactly one way, and shortening it replaces the long runs
    of a hexadecimal digit among them and keeps all others.  The result has no five equal digits
    in a row, and shortening it again changes nothing. -/
theorem abridge_canonical (text : String) :
    (∃ runs, IsMaximal runs ∧ spell runs = text.toList
      ∧ (∀ others, IsMaximal others → spell others = text.toList → others = runs)
      ∧ (abridge text).toList = runs.flatMap Run.shortened)
    ∧ (∀ c, IsHex c → ¬ List.replicate 5 c <:+: (abridge text).toList)
    ∧ abridge (abridge text) = abridge text := by
  obtain ⟨runs, hmax, htext⟩ := exists_runs text.toList
  have hmaxAbridged := isMaximal_flatMap_abridged hmax
  have hshort : ∀ r ∈ runs.flatMap Run.abridged, ¬ r.IsLong := by
    intro r hr
    obtain ⟨_, _, hmem⟩ := List.mem_flatMap.1 hr
    exact Run.not_isLong_of_mem_abridged hmem
  have habridge : (abridge text).toList = runs.flatMap Run.shortened := by
    rw [abridge, String.toList_ofList, ← htext, abridgeRuns_spell hmax]
  refine ⟨⟨runs, hmax, htext, fun others hothers h => ?_, habridge⟩, fun c hc hwithin => ?_, ?_⟩
  · exact runs_unique hmax hothers (h.trans htext.symm)
  · rw [habridge, ← spell_flatMap_abridged] at hwithin
    obtain ⟨r, hr, rfl, hcount⟩ := exists_run_of_replicate_infix hmaxAbridged (by decide) hwithin
    exact hshort r hr ⟨hc, hcount⟩
  · rw [abridge, habridge, ← spell_flatMap_abridged, abridgeRuns_spell hmaxAbridged,
      ← spell_flatMap_abridged, flatMap_abridged_of_not_isLong hshort, spell_flatMap_abridged,
      ← habridge, String.ofList_toList]

end HuffTrace.Text

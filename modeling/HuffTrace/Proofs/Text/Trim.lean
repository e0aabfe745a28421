/-
  HuffTrace.Proofs.Text.Trim

  Trimming stops at the first character that is to stay, from either side.
  Blanks around a text, and quotes around that, are taken off a text and leave
  what stands between two characters that are neither.
-/

import HuffTrace.Text.Blank
import Mathlib.Data.List.DropRight

namespace HuffTrace.Text

/-! ## The end of a text -/

/-- A character that stays keeps all that stands before it. -/
theorem dropEndWhile_append_cons {p : Char → Bool} {c : Char} (hc : p c = false)
    (a b : List Char) : dropEndWhile p (a ++ c :: b) = a ++ c :: dropEndWhile p b := by
  rw [dropEndWhile, dropEndWhile, List.reverse_append, List.reverse_cons, List.append_assoc,
    List.dropWhile_append]
  split
  · next hall =>
    rw [List.isEmpty_iff.1 hall]
    simp [hc]
  · simp

theorem dropEndWhile_append_of_forall {p : Char → Bool} {b : List Char} (hb : ∀ c ∈ b, p c = true)
    (a : List Char) : dropEndWhile p (a ++ b) = dropEndWhile p a := by
  rw [dropEndWhile, dropEndWhile, List.reverse_append, List.dropWhile_append_of_pos]
  intro c hc
  exact hb c (List.mem_reverse.1 hc)

/-- Nothing is dropped on either side of a text that starts and ends with characters that stay. -/
theorem dropEndWhile_dropWhile {p : Char → Bool} {cs : List Char}
    (hfirst : ∀ c ∈ cs.head?, p c = false) (hlast : ∀ c ∈ cs.getLast?, p c = false) :
    dropEndWhile p (cs.dropWhile p) = cs := by
  have hstart : cs.dropWhile p = cs := by
    cases cs with
    | nil => rfl
    | cons c cs => exact List.dropWhile_cons_of_neg (by simp [hfirst c rfl])
  rw [hstart]
  apply List.rdropWhile_eq_self_iff.2
  intro hne
  simp [hlast _ (List.getLast?_eq_some_getLast hne)]

/-! ## Blanks -/

theorem trim_cons {c : Char} (hc : isBlank c = false) (cs : List Char) :
    trim (c :: cs) = c :: trimEnd cs := by
  rw [trim, trimStart, List.dropWhile_cons_of_neg (by simp [hc])]
  exact dropEndWhile_append_cons hc [] cs

theorem trim_append_left {b : List Char} (hb : ∀ c ∈ b, isBlank c = true) (cs : List Char) :
    trim (b ++ cs) = trim cs := by
  rw [trim, trimStart, List.dropWhile_append_of_pos hb, ← trimStart, ← trim]

/-- Every text is blank or starts, after blanks, with a character that is not. -/
theorem blank_or_exists_dark (cs : List Char) :
    (∀ c ∈ cs, isBlank c = true)
      ∨ ∃ b c rest, cs = b ++ c :: rest ∧ (∀ x ∈ b, isBlank x = true) ∧ isBlank c = false := by
  induction cs with
  | nil => exact .inl (by simp)
  | cons c cs ih =>
    by_cases hc : isBlank c = true
    · rcases ih with hall | ⟨b, d, rest, rfl, hb, hd⟩
      · exact .inl (List.forall_mem_cons.2 ⟨hc, hall⟩)
      · exact .inr ⟨c :: b, d, rest, rfl, List.forall_mem_cons.2 ⟨hc, hb⟩, hd⟩
    · exact .inr ⟨[], c, cs, rfl, by simp, by simpa using hc⟩

theorem trim_of_forall {b : List Char} (hb : ∀ c ∈ b, isBlank c = true) : trim b = [] := by
  rw [← List.append_nil b, trim_append_left hb]
  rfl

theorem trim_append_right {b : List Char} (hb : ∀ c ∈ b, isBlank c = true) (cs : List Char) :
    trim (cs ++ b) = trim cs := by
  rcases blank_or_exists_dark cs with hall | ⟨lead, c, rest, rfl, hlead, hc⟩
  · rw [trim_append_left hall, trim_of_forall hb, trim_of_forall hall]
  · rw [List.append_assoc, trim_append_left hlead, trim_append_left hlead, List.cons_append,
      trim_cons hc, trim_cons hc, trimEnd, trimEnd, dropEndWhile_append_of_forall hb]

theorem trim_of_forall_dark {cs : List Char} (h : ∀ c ∈ cs, isBlank c = false) : trim cs = cs :=
  dropEndWhile_dropWhile (fun c hc => h c (List.mem_of_mem_head? hc))
    (fun c hc => h c (List.mem_of_mem_getLast? hc))

/-- Trimming at the end leaves the first run of characters that are not blank. -/
theorem takeWhile_trimEnd (cs : List Char) :
    (trimEnd cs).takeWhile (!isBlank ·) = cs.takeWhile (!isBlank ·) := by
  have hsplit : trimEnd cs ++ cs.rtakeWhile isBlank = cs := List.rdropWhile_append_rtakeWhile
  have hblanks : (cs.rtakeWhile isBlank).takeWhile (!isBlank ·) = [] := by
    rw [List.takeWhile_eq_nil_iff]
    intro hpos
    simp [List.mem_rtakeWhile_imp (List.getElem_mem hpos)]
  conv_rhs => rw [← hsplit, List.takeWhile_append, hblanks, List.append_nil]
  split
  · next hall => exact List.IsPrefix.eq_of_length (List.takeWhile_prefix _) hall
  · rfl

/-- A text is what is left of it when it is trimmed, between blanks. -/
theorem exists_trim (cs : List Char) :
    ∃ lead trail, (∀ c ∈ lead, isBlank c = true) ∧ (∀ c ∈ trail, isBlank c = true)
      ∧ cs = lead ++ (trim cs ++ trail) := by
  refine ⟨cs.takeWhile isBlank, (trimStart cs).rtakeWhile isBlank,
    fun c hc => List.mem_takeWhile_imp hc, fun c hc => List.mem_rtakeWhile_imp hc, ?_⟩
  have hend : trim cs ++ (trimStart cs).rtakeWhile isBlank = trimStart cs :=
    List.rdropWhile_append_rtakeWhile
  rw [hend]
  exact List.takeWhile_append_dropWhile.symm

/-- What is left of a text when it is trimmed starts with a character that is not blank. -/
theorem isBlank_of_mem_head?_trim {cs : List Char} {c : Char} (h : c ∈ (trim cs).head?) :
    isBlank c = false := by
  rcases blank_or_exists_dark cs with hall | ⟨b, d, rest, rfl, hb, hd⟩
  · rw [trim_of_forall hall] at h
    cases h
  · rw [trim_append_left hb, trim_cons hd] at h
    cases h
    exact hd

theorem isBlank_of_mem_getLast?_trim {cs : List Char} {c : Char} (h : c ∈ (trim cs).getLast?) :
    isBlank c = false := by
  have hne : trim cs ≠ [] := by
    intro hnil
    rw [hnil] at h
    cases h
  have hlast : ¬isBlank ((trim cs).getLast hne) = true :=
    List.rdropWhile_last_not isBlank (trimStart cs) hne
  rw [List.getLast?_eq_some_getLast hne] at h
  cases h
  simpa using hlast

@[simp] theorem trim_trim (cs : List Char) : trim (trim cs) = trim cs :=
  dropEndWhile_dropWhile (fun _ => isBlank_of_mem_head?_trim)
    (fun _ => isBlank_of_mem_getLast?_trim)

/-! ## Quotes -/

theorem isQuote_of_isBlank {c : Char} (h : isBlank c = true) : isQuote c = false := by
  by_contra hquote
  simp only [isQuote, Bool.or_eq_true, beq_iff_eq, Bool.not_eq_false] at hquote
  rcases hquote with rfl | rfl
  all_goals exact absurd h (by decide)

/-- Of a text in quotes, with blanks inside and outside of them, the blanks that may be left are
    inside. -/
theorem trimQuotes_trim {outside quotes inside : List Char} {c d : Char}
    (houtside : ∀ x ∈ outside, isBlank x = true) (hquotes : ∀ x ∈ quotes, isQuote x = true)
    (hinside : ∀ x ∈ inside, isBlank x = true) (hc : isBlank c = false) (hc' : isQuote c = false)
    (hd : isBlank d = false) (hd' : isQuote d = false) (between after : List Char) :
    ∃ left right, (∀ x ∈ left, isBlank x = true)
      ∧ trimQuotes (trim (outside ++ (quotes ++ (inside ++ c :: (between ++ d :: after)))))
        = left ++ c :: (between ++ d :: right) := by
  rw [trim_append_left houtside]
  cases quotes with
  | nil =>
    -- Without quotes the blanks inside are blanks around the text, and none is left.
    refine ⟨[], dropEndWhile isQuote (trimEnd after), by simp, ?_⟩
    rw [List.nil_append, trim_append_left hinside, trim_cons hc, trimEnd,
      dropEndWhile_append_cons hd, trimQuotes, List.dropWhile_cons_of_neg (by simp [hc']),
      ← List.cons_append, dropEndWhile_append_cons hd']
    rfl
  | cons q quotes =>
    have hq : isBlank q = false := by
      by_contra hblank
      have hquote := hquotes q (by simp)
      rw [isQuote_of_isBlank (by simpa using hblank)] at hquote
      cases hquote
    -- Trimming ends at the first quote; the blanks behind the quotes stay.
    have htrim : trim (q :: quotes ++ (inside ++ c :: (between ++ d :: after)))
        = q :: quotes ++ (inside ++ c :: (between ++ d :: trimEnd after)) := by
      have hkept := dropEndWhile_append_cons hd (quotes ++ (inside ++ c :: between)) after
      rw [List.cons_append, trim_cons hq]
      simpa [trimEnd] using hkept
    have hstop : (inside ++ c :: (between ++ d :: trimEnd after)).dropWhile isQuote
        = inside ++ c :: (between ++ d :: trimEnd after) := by
      cases inside with
      | nil => exact List.dropWhile_cons_of_neg (by simp [hc'])
      | cons x inside =>
        exact List.dropWhile_cons_of_neg (by simp [isQuote_of_isBlank (hinside x (by simp))])
    have hkept := dropEndWhile_append_cons hd' (inside ++ c :: between) (trimEnd after)
    refine ⟨inside, dropEndWhile isQuote (trimEnd after), hinside, ?_⟩
    rw [htrim, trimQuotes, List.dropWhile_append_of_pos hquotes, hstop]
    simpa using hkept

end HuffTrace.Text

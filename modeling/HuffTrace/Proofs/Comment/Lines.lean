/-
  HuffTrace.Proofs.Comment.Lines

  Lines and the code on them.  Splitting a text into lines and joining them
  undo each other, and a line is its code, blanks, and what stands from its
  first double slash on.
-/

import HuffTrace.Comment
import HuffTrace.Proofs.Source.Cut
import HuffTrace.Proofs.Text.OneLine
import Mathlib.Data.List.DropRight

namespace HuffTrace.Comment

/-! ## Splitting and joining -/

/-- What follows a line: further lines, each after a line break. -/
def following (rest : List (List Char)) : List Char :=
  rest.flatMap ('\n' :: ·)

/-- What stands before a line: lines, each with the line break after it. -/
def preceding (before : List (List Char)) : List Char :=
  before.flatMap (· ++ ['\n'])

theorem intercalate_cons (line : List Char) (rest : List (List Char)) :
    ['\n'].intercalate (line :: rest) = line ++ following rest := by
  induction rest generalizing line with
  | nil => simp [following]
  | cons next rest ih =>
    rw [List.intercalate_cons_cons, ih, following, following, List.flatMap_cons]
    simp

theorem following_of_ne_nil {rest : List (List Char)} (h : rest ≠ []) :
    following rest = '\n' :: ['\n'].intercalate rest := by
  cases rest with
  | nil => exact absurd rfl h
  | cons line rest =>
    rw [intercalate_cons, following, List.flatMap_cons]
    rfl

theorem intercalate_split (before : List (List Char)) (line : List Char)
    (after : List (List Char)) :
    ['\n'].intercalate (before ++ line :: after) = preceding before ++ line ++ following after := by
  induction before with
  | nil => exact intercalate_cons line after
  | cons first before ih =>
    rw [List.cons_append, List.intercalate_cons_of_ne_nil (by simp), ih]
    simp [preceding]

theorem endsLine_following (rest : List (List Char)) : Span.EndsLine (following rest) := by
  intro x t h
  cases rest with
  | nil => cases h
  | cons line rest =>
    rw [following, List.flatMap_cons] at h
    exact (List.cons.inj h).1.symm

theorem lines_cons (c : Char) (cs : List Char) :
    lines (c :: cs)
      = if c = '\n' then [] :: lines cs
        else
          match lines cs with
          | line :: more => (c :: line) :: more
          | [] => [[c]] :=
  rfl

theorem lines_ne_nil (cs : List Char) : lines cs ≠ [] := by
  cases cs with
  | nil => simp [lines]
  | cons c cs =>
    rw [lines_cons]
    split
    · simp
    · split <;> simp

theorem intercalate_lines (cs : List Char) : ['\n'].intercalate (lines cs) = cs := by
  induction cs with
  | nil => rfl
  | cons c cs ih =>
    rw [lines_cons]
    by_cases hc : c = '\n'
    · rw [if_pos hc, List.intercalate_cons_of_ne_nil (lines_ne_nil cs), ih, hc]
      rfl
    · rw [if_neg hc]
      cases h : lines cs with
      | nil => exact absurd h (lines_ne_nil cs)
      | cons line more =>
        rw [h, intercalate_cons] at ih
        rw [intercalate_cons, List.cons_append, ih]

theorem newline_not_mem_of_mem_lines {cs line : List Char} (h : line ∈ lines cs) : '\n' ∉ line := by
  induction cs generalizing line with
  | nil =>
    rw [List.mem_singleton.1 h]
    simp
  | cons c cs ih =>
    rw [lines_cons] at h
    split at h
    · rcases List.mem_cons.1 h with rfl | h
      · simp
      · exact ih h
    · next hc =>
      split at h
      · next first more heq =>
        rcases List.mem_cons.1 h with rfl | h
        · have hfirst : '\n' ∉ first := ih (by rw [heq]; simp)
          simp [hfirst, Ne.symm hc]
        · exact ih (by rw [heq]; simp [h])
      · rw [List.mem_singleton.1 h]
        simp [Ne.symm hc]

theorem lines_append {line : List Char} (h : '\n' ∉ line) (rest : List (List Char))
    (hrest : ∀ l ∈ rest, '\n' ∉ l) : lines (line ++ following rest) = line :: rest := by
  induction rest generalizing line with
  | nil =>
    rw [following, List.flatMap_nil, List.append_nil]
    induction line with
    | nil => rfl
    | cons c line ih =>
      rw [List.mem_cons, not_or] at h
      rw [lines_cons, if_neg (Ne.symm h.1), ih h.2]
  | cons next rest ih =>
    have hnext := ih (hrest next (by simp)) fun l hl => hrest l (by simp [hl])
    rw [following, List.flatMap_cons, List.cons_append, ← following]
    induction line with
    | nil => rw [List.nil_append, lines_cons, if_pos rfl, hnext]
    | cons c line ihline =>
      rw [List.mem_cons, not_or] at h
      rw [List.cons_append, lines_cons, if_neg (Ne.symm h.1), ihline h.2]

theorem lines_intercalate {ls : List (List Char)} (hne : ls ≠ []) (h : ∀ l ∈ ls, '\n' ∉ l) :
    lines (['\n'].intercalate ls) = ls := by
  cases ls with
  | nil => exact absurd rfl hne
  | cons line rest =>
    rw [intercalate_cons, lines_append (h line (by simp)) rest fun l hl => h l (by simp [hl])]

theorem breaks_preceding {before : List (List Char)} (h : ∀ l ∈ before, '\n' ∉ l) :
    Span.breaks (preceding before) = before.length := by
  induction before with
  | nil => rfl
  | cons line before ih =>
    rw [preceding, List.flatMap_cons, ← preceding, Span.breaks_append, Span.breaks_append,
      Span.breaks_eq_zero (h line (by simp)), ih fun l hl => h l (by simp [hl])]
    show 0 + 1 + before.length = before.length + 1
    omega

theorem length_lines (cs : List Char) : (lines cs).length = Span.breaks cs + 1 := by
  induction cs with
  | nil => rfl
  | cons c cs ih =>
    rw [lines_cons, Span.breaks, List.count_cons, ← Span.breaks]
    by_cases hc : c = '\n'
    · simp [hc, ih]
    · rw [if_neg hc]
      cases h : lines cs with
      | nil => exact absurd h (lines_ne_nil cs)
      | cons line more =>
        rw [h] at ih
        simpa [hc] using ih

/-! ## The code of a line -/

/-- What a line has from its first double slash on. -/
def fromSlashes (line : List Char) : List Char :=
  line.drop (beforeSlashes line).length

theorem beforeSlashes_append_fromSlashes (line : List Char) :
    beforeSlashes line ++ fromSlashes line = line := by
  unfold fromSlashes
  induction line with
  | nil => rfl
  | cons c cs ih =>
    rw [beforeSlashes]
    split
    · rfl
    · rw [List.length_cons, List.drop_succ_cons, List.cons_append, ih]

theorem fromSlashes_cases (line : List Char) :
    fromSlashes line = [] ∨ ∃ t, fromSlashes line = '/' :: '/' :: t := by
  unfold fromSlashes
  induction line with
  | nil => exact .inl rfl
  | cons c cs ih =>
    rw [beforeSlashes]
    split
    · next h =>
      right
      obtain ⟨rfl, hhead⟩ := h
      obtain ⟨t, rfl⟩ := List.head?_eq_some_iff.1 hhead
      exact ⟨t, rfl⟩
    · rw [List.length_cons, List.drop_succ_cons]
      exact ih

/-- The text before the first double slash ends with no slash of its own. -/
theorem getLast?_beforeSlashes {line : List Char} (h : fromSlashes line ≠ []) :
    (beforeSlashes line).getLast? ≠ some '/' := by
  unfold fromSlashes at h
  induction line with
  | nil => simp [beforeSlashes]
  | cons c cs ih =>
    rw [beforeSlashes] at h ⊢
    split
    · simp
    · next hc =>
      rw [if_neg hc, List.length_cons, List.drop_succ_cons] at h
      cases hcs : beforeSlashes cs with
      | nil =>
        -- The double slash comes next, and would have started here if `c` were a slash.
        rw [List.getLast?_singleton]
        rintro ⟨⟩
        rw [hcs, List.length_nil, List.drop_zero] at h
        refine hc ⟨rfl, ?_⟩
        rcases fromSlashes_cases cs with hnil | ⟨t, ht⟩
        · rw [fromSlashes, hcs] at hnil
          exact absurd hnil h
        · rw [fromSlashes, hcs] at ht
          simp only [List.length_nil, List.drop_zero] at ht
          rw [ht]
          rfl
      | cons d ds =>
        rw [List.getLast?_cons_cons, ← hcs]
        exact ih h

/-- No double slash comes before the first one. -/
theorem length_beforeSlashes_le (a b : List Char) :
    (beforeSlashes (a ++ '/' :: '/' :: b)).length ≤ a.length := by
  induction a with
  | nil =>
    rw [List.nil_append, beforeSlashes, if_pos ⟨rfl, rfl⟩]
  | cons c a ih =>
    rw [List.cons_append, beforeSlashes]
    split
    · exact Nat.zero_le _
    · exact Nat.succ_le_succ ih

/-- A line is its code, blanks, and what it has from its first double slash on. -/
theorem exists_blanks (line : List Char) :
    ∃ blanks, beforeSlashes line = code line ++ blanks
      ∧ line = code line ++ (blanks ++ fromSlashes line) ∧ ∀ x ∈ blanks, Text.isBlank x = true := by
  have hbefore : beforeSlashes line
      = code line ++ (beforeSlashes line).rtakeWhile Text.isBlank :=
    List.rdropWhile_append_rtakeWhile.symm
  refine ⟨_, hbefore, ?_, fun _ hx => List.mem_rtakeWhile_imp hx⟩
  rw [← List.append_assoc, ← hbefore, beforeSlashes_append_fromSlashes]

/-- Code does not end with a blank. -/
theorem isBlank_of_getLast?_code {line : List Char} {x : Char} (h : (code line).getLast? = some x) :
    Text.isBlank x = false := by
  have hne : code line ≠ [] := by
    rintro hnil
    rw [hnil] at h
    cases h
  have hlast := List.rdropWhile_last_not Text.isBlank (beforeSlashes line) hne
  rw [List.getLast?_eq_some_getLast hne] at h
  cases h
  exact Bool.eq_false_iff.2 hlast

theorem newline_not_mem_fromSlashes {line t : List Char} (hline : '\n' ∉ line)
    (ht : fromSlashes line = '/' :: '/' :: t) : '\n' ∉ t := by
  intro hmem
  refine hline ?_
  rw [← beforeSlashes_append_fromSlashes line, ht]
  simp [hmem]

theorem breaks_beforeSlashes {line : List Char} (h : '\n' ∉ line) :
    Span.breaks (beforeSlashes line) = 0 := by
  have hzero := Span.breaks_eq_zero h
  rw [← beforeSlashes_append_fromSlashes line, Span.breaks_append] at hzero
  omega

theorem code_isPrefix_beforeSlashes (line : List Char) : code line <+: beforeSlashes line :=
  List.rdropWhile_prefix Text.isBlank _

theorem code_isPrefix (line : List Char) : code line <+: line :=
  (code_isPrefix_beforeSlashes line).trans
    ⟨fromSlashes line, beforeSlashes_append_fromSlashes line⟩

theorem breaks_code {line : List Char} (h : '\n' ∉ line) : Span.breaks (code line) = 0 :=
  Span.breaks_eq_zero fun hmem => h ((code_isPrefix line).subset hmem)

/-! ## Commented lines -/

theorem le_foldl_max (ns : List Nat) (n : Nat) :
    n ≤ ns.foldl max n ∧ ∀ m ∈ ns, m ≤ ns.foldl max n := by
  induction ns generalizing n with
  | nil => simp
  | cons k ns ih =>
    obtain ⟨hle, hall⟩ := ih (max n k)
    rw [List.foldl_cons]
    refine ⟨by omega, fun m hm => ?_⟩
    rcases List.mem_cons.1 hm with rfl | hm
    · omega
    · exact hall m hm

/-- The comments start after the code of every line. -/
theorem length_code_lt_column {source : List (List Char)} {line : List Char} (h : line ∈ source) :
    (code line).length < column source :=
  Nat.lt_succ_of_le ((le_foldl_max _ 0).2 _ (List.mem_map.2 ⟨line, h, rfl⟩))

/-- What is written on a line after its code. -/
def written (line : List Char) (stack : String) : List Char :=
  ' ' :: stack.toList ++ if line.getLast? = some '\r' then ['\r'] else []

theorem newline_not_mem_written {line : List Char} {stack : String} (h : Text.OneLine stack) :
    '\n' ∉ written line stack := by
  have hstack : '\n' ∉ stack.toList := h
  unfold written
  split <;> simp [hstack]

end HuffTrace.Comment

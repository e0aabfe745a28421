/-
  HuffTrace.Proofs.Comment.Width

  When comments can be written.  The formatter pads no code beyond its own
  limit, and so a source with longer code can be annotated only if none of its
  lines gets a comment (`Fits`, `annotate_eq`).  But for this failure a line is
  annotated as `withComment` has it, and a source as `rewritten` has it.
-/

import HuffTrace.Proofs.Comment.Latest
import HuffTrace.Proofs.Comment.Lines

namespace HuffTrace.Comment

/-! ## Commented lines -/

/-- A line with a comment in any column; a carriage return at its end is kept. -/
def withComment (column : Nat) (line : List Char) (stack : String) : List Char :=
  (code line).rightpad column ' ' ++ ['/', '/', ' '] ++ stack.toList
    ++ if line.getLast? = some '\r' then ['\r'] else []

/-- The lines of a source with comments in any column, the first line having the given number. -/
def withComments (column : Nat) (comments : List Comment) :
    Nat → List (List Char) → List (List Char)
  | _, [] => []
  | number, line :: rest =>
    (match comments.find? (·.line = number) with
      | some c => withComment column line c.stack
      | none => line) :: withComments column comments (number + 1) rest

theorem withComments_cons (column : Nat) (comments : List Comment) (number : Nat)
    (line : List Char) (rest : List (List Char)) :
    withComments column comments number (line :: rest)
      = (match comments.find? (·.line = number) with
          | some c => withComment column line c.stack
          | none => line) :: withComments column comments (number + 1) rest :=
  rfl

theorem withComments_ne_nil {column : Nat} {comments : List Comment} {number : Nat}
    {source : List (List Char)} (h : source ≠ []) :
    withComments column comments number source ≠ [] := by
  cases source with
  | nil => exact absurd rfl h
  | cons line rest => simp [withComments_cons]

theorem withComment_eq (column : Nat) (line : List Char) (stack : String) :
    withComment column line stack
      = code line ++ (List.replicate (column - (code line).length) ' '
        ++ '/' :: '/' :: written line stack) := by
  simp [withComment, written, List.rightpad]

/-- A commented line in a text: its code, at least one space if the code is shorter than the
    column, and the comment. -/
theorem append_withComment {column : Nat} {line : List Char} (h : (code line).length < column)
    (stack : String) (before rest : List Char) :
    ∃ m, before ++ withComment column line stack ++ rest
      = before ++ code line
        ++ (List.replicate (m + 1) ' ' ++ ('/' :: '/' :: written line stack ++ rest)) := by
  obtain ⟨m, hm⟩ := Nat.exists_eq_succ_of_ne_zero (Nat.sub_ne_zero_of_lt h)
  refine ⟨m, ?_⟩
  rw [withComment_eq, hm]
  simp only [List.append_assoc]

/-! ## The limit of the formatter -/

theorem attach_eq (column : Nat) (line : List Char) (stack : String) :
    attach column line stack
      = if column < UInt16.size then .ok (withComment column line stack)
        else .error .argumentOutOfRange := by
  rw [attach, Text.padEnd]
  split <;> rfl

/-- No line that gets a comment has it in a column beyond the limit. -/
def Within (column : Nat) (comments : List Comment) (number : Nat)
    (source : List (List Char)) : Prop :=
  column < UInt16.size ∨ ∀ i < source.length, comments.find? (·.line = number + i) = none

instance (column : Nat) (comments : List Comment) (number : Nat) (source : List (List Char)) :
    Decidable (Within column comments number source) :=
  inferInstanceAs (Decidable (_ ∨ _))

section Within

variable {column : Nat} {comments : List Comment} {number : Nat}

theorem within_nil : Within column comments number [] :=
  .inr nofun

theorem within_cons {line : List Char} {rest : List (List Char)} :
    Within column comments number (line :: rest)
      ↔ (column < UInt16.size ∨ comments.find? (·.line = number) = none)
        ∧ Within column comments (number + 1) rest := by
  rw [Within, Within, ← or_and_left, List.length_cons, Nat.forall_lt_succ_left]
  simp only [Nat.add_zero, Nat.add_assoc, Nat.add_comm 1]

end Within

/-- Comments are written on all their lines, or not at all. -/
theorem attachAll_eq (column : Nat) (comments : List Comment) (number : Nat)
    (source : List (List Char)) :
    attachAll column comments number source
      = if Within column comments number source then
          .ok (withComments column comments number source)
        else .error .argumentOutOfRange := by
  induction source generalizing number with
  | nil =>
    rw [if_pos within_nil]
    rfl
  | cons line rest ih =>
    rw [attachAll, ih, withComments_cons]
    simp only [within_cons]
    cases hc : comments.find? (·.line = number) with
    | none =>
      -- The line stays as it is, and only those after it can fail.
      simp only [or_true, true_and]
      split <;> rfl
    | some c =>
      simp only [attach_eq, reduceCtorEq, or_false]
      -- All lines share the column, so that this one fails if any of them does.
      by_cases hcolumn : column < UInt16.size
      · simp only [hcolumn, true_and, if_true]
        split <;> rfl
      · simp only [hcolumn, false_and, if_false]
        rfl

/-! ## Sources -/

/-- A source with comments in whatever column they get. -/
def rewritten (source : String) (comments : List Comment) : String :=
  let source := lines source.toList
  .ofList (['\n'].intercalate (withComments (column source) (latest comments) 1 source))

/-- Comments can be written into a source: their column is within the limit of the formatter, or
    no line of the source has one. -/
def Fits (source : String) (comments : List Comment) : Prop :=
  column (lines source.toList) < UInt16.size
    ∨ ∀ c ∈ comments, ¬(1 ≤ c.line ∧ c.line ≤ (lines source.toList).length)

instance (source : String) (comments : List Comment) : Decidable (Fits source comments) :=
  inferInstanceAs (Decidable (_ ∨ _))

theorem fits_iff_within {source : String} {comments : List Comment} :
    Fits source comments
      ↔ Within (column (lines source.toList)) (latest comments) 1 (lines source.toList) := by
  -- Some comment counts for a line as soon as one is recorded for it.
  refine or_congr_right ⟨fun h i hi => ?_, fun h c hc hline => ?_⟩
  · rw [find?_latest_eq_none_iff]
    intro c hc hline
    exact h c hc (by omega)
  · have hnone := h (c.line - 1) (by omega)
    rw [find?_latest_eq_none_iff] at hnone
    exact hnone c hc (by omega)

/-- A source is annotated if its comments fit, and cannot be annotated if they do not. -/
theorem annotate_eq (source : String) (comments : List Comment) :
    annotate source comments
      = if Fits source comments then .ok (rewritten source comments)
        else .error .argumentOutOfRange := by
  simp only [annotate, attachAll_eq, ← fits_iff_within]
  split <;> rfl

end HuffTrace.Comment

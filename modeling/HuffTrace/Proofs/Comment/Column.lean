/-
  HuffTrace.Proofs.Comment.Column

  What comments change in a source, line by line.  A line without a comment
  stays as it is, and comments for lines that the source does not have are as
  good as none.  A commented line keeps its code and its carriage return, and
  its comment starts at its first double slash, in the column that all comments
  share.  A source whose comments do not fit is not annotated at all
  (`annotate_exact`).
-/

import HuffTrace.Proofs.Comment.Again

namespace HuffTrace.Comment

/-! ## The column -/

/-- The column of the comments is one past the code of some line. -/
theorem exists_length_code_succ {source : List (List Char)} (h : source ≠ []) :
    ∃ line ∈ source, (code line).length + 1 = column source := by
  obtain ⟨longest, hlongest⟩ : ∃ n, (source.map fun line => (code line).length).max? = some n :=
    Option.ne_none_iff_exists'.1 (by simpa using h)
  obtain ⟨line, hline, hlength⟩ := List.mem_map.1 (List.max?_mem hlongest)
  refine ⟨line, hline, ?_⟩
  rw [column, List.foldl_max, hlongest, hlength]
  simp

/-! ## A commented line -/

/-- A line with a comment.  Its code is still that of the line, padded with spaces up to the
    column, and its first double slash is the one that starts the comment. -/
structure Commented (column : Nat) (line : List Char) (stack : String) (commented : List Char) :
    Prop where
  code_eq : code commented = code line
  before_eq : beforeSlashes commented = (code line).rightpad column ' '
  length_before : (beforeSlashes commented).length = column
  from_eq : fromSlashes commented
    = ['/', '/', ' '] ++ stack.toList ++ if line.getLast? = some '\r' then ['\r'] else []
  return_iff : commented.getLast? = some '\r' ↔ line.getLast? = some '\r'

theorem commented_withComment {column : Nat} {line : List Char} (h : (code line).length < column)
    {stack : String} (hstack : stack.toList.getLast? ≠ some '\r') :
    Commented column line stack (withComment column line stack) where
  code_eq := code_withComment h stack
  before_eq := beforeSlashes_withComment h stack
  length_before := by
    rw [beforeSlashes_withComment h, List.length_rightpad]
    omega
  from_eq := by
    rw [fromSlashes, beforeSlashes_withComment h, withComment, List.append_assoc, List.append_assoc,
      List.drop_left, List.append_assoc]
  return_iff := getLast?_withComment hstack

/-! ## All lines -/

theorem getElem?_withComments (column : Nat) (comments : List Comment) (number : Nat)
    (source : List (List Char)) (i : Nat) :
    (withComments column comments number source)[i]?
      = source[i]?.map fun line =>
          match comments.find? (·.line = number + i) with
          | some c => withComment column line c.stack
          | none => line := by
  induction source generalizing number i with
  | nil => rfl
  | cons line rest ih =>
    rw [withComments_cons]
    cases i with
    | zero => rfl
    | succ i =>
      rw [List.getElem?_cons_succ, List.getElem?_cons_succ, ih]
      simp only [Nat.add_assoc, Nat.add_comm 1 i]

theorem length_withComments (column : Nat) (comments : List Comment) (number : Nat)
    (source : List (List Char)) :
    (withComments column comments number source).length = source.length := by
  induction source generalizing number with
  | nil => rfl
  | cons line rest ih => rw [withComments_cons, List.length_cons, List.length_cons, ih]

/-- A line of an annotated source. -/
theorem getElem?_lines_rewritten {source : String} {comments : List Comment}
    (hstacks : ∀ c ∈ comments, Text.OneLine c.stack) {i : Nat} {line : List Char}
    (hline : (lines source.toList)[i]? = some line) :
    (lines (rewritten source comments).toList)[i]?
      = some (match (latest comments).find? (·.line = i + 1) with
          | some c => withComment (column (lines source.toList)) line c.stack
          | none => line) := by
  rw [lines_rewritten hstacks, getElem?_withComments, hline, Option.map_some, Nat.add_comm]

/-- Comments for lines that the source does not have change nothing. -/
theorem rewritten_filter (source : String) (comments : List Comment) :
    rewritten source
        (comments.filter fun c => 1 ≤ c.line ∧ c.line ≤ (lines source.toList).length)
      = rewritten source comments := by
  have hlines : ∀ column, withComments column
        (latest (comments.filter fun c => 1 ≤ c.line ∧ c.line ≤ (lines source.toList).length)) 1
        (lines source.toList)
      = withComments column (latest comments) 1 (lines source.toList) := by
    intro column
    apply List.ext_getElem?
    intro i
    rw [getElem?_withComments, getElem?_withComments]
    refine Option.map_congr fun line hline => ?_
    -- The comments for a line that exists are all kept.
    obtain ⟨hi, -⟩ := List.getElem?_eq_some_iff.1 hline
    rw [find?_latest_filter fun d hd => decide_eq_true (by omega)]
  simp only [rewritten, hlines]

/-! ## Annotated sources -/

theorem column_lines_rewritten {source : String} {comments : List Comment}
    (hstacks : ∀ c ∈ comments, Text.OneLine c.stack) :
    column (lines (rewritten source comments).toList) = column (lines source.toList) := by
  rw [lines_rewritten hstacks]
  exact column_eq_of_code (map_code_withComments (fun _ => length_code_lt_column) 1)

theorem length_lines_rewritten {source : String} {comments : List Comment}
    (hstacks : ∀ c ∈ comments, Text.OneLine c.stack) :
    (lines (rewritten source comments).toList).length = (lines source.toList).length := by
  rw [lines_rewritten hstacks, length_withComments]

/-- Comments that have been written can be written again. -/
theorem annotate_rewritten {source : String} {comments : List Comment}
    (hstacks : ∀ c ∈ comments, Text.OneLine c.stack)
    (hends : ∀ c ∈ comments, c.stack.toList.getLast? ≠ some '\r') (hfits : Fits source comments) :
    annotate (rewritten source comments) comments = .ok (rewritten source comments) := by
  have hfits' : Fits (rewritten source comments) comments := by
    rw [Fits, column_lines_rewritten hstacks, length_lines_rewritten hstacks]
    exact hfits
  rw [annotate_eq, if_pos hfits', rewritten_rewritten hstacks hends]

/-- Comments for lines that the source does not have neither help nor hinder. -/
theorem annotate_filter {source : String} {comments : List Comment} (hfits : Fits source comments) :
    annotate source
        (comments.filter fun c => 1 ≤ c.line ∧ c.line ≤ (lines source.toList).length)
      = .ok (rewritten source comments) := by
  have hfits' : Fits source
      (comments.filter fun c => 1 ≤ c.line ∧ c.line ≤ (lines source.toList).length) :=
    hfits.imp_right fun hnone c hc => hnone c (List.mem_filter.1 hc).1
  rw [annotate_eq, if_pos hfits', rewritten_filter]

/-- Annotating touches only what it must.  Doing it again changes nothing; the source keeps its
    number of lines, and each line without a comment; comments for lines that there are not
    change nothing.  All other lines have the last comment for them in one and the same column,
    one past the longest code of any line.  This is so if and only if that column is within the
    limit of the formatter or no line has a comment, for else the source is not annotated. -/
theorem annotate_exact {source : String} {comments : List Comment}
    (hstacks : ∀ c ∈ comments, Text.OneLine c.stack)
    (hends : ∀ c ∈ comments, c.stack.toList.getLast? ≠ some '\r') :
    (Fits source comments → ∃ annotated,
      annotate source comments = .ok annotated
      ∧ annotate annotated comments = .ok annotated
      ∧ (lines annotated.toList).length = (lines source.toList).length
      ∧ (∀ (i : Nat) (line : List Char), (lines source.toList)[i]? = some line →
          (∀ c ∈ comments, c.line ≠ i + 1) → (lines annotated.toList)[i]? = some line)
      ∧ annotate source
          (comments.filter fun c => 1 ≤ c.line ∧ c.line ≤ (lines source.toList).length)
        = .ok annotated
      ∧ ∃ column,
          (∀ line ∈ lines source.toList, (code line).length < column)
          ∧ (∃ line ∈ lines source.toList, (code line).length + 1 = column)
          ∧ ∀ (i : Nat) (line : List Char) (c : Comment), (lines source.toList)[i]? = some line →
            LastForLine comments c → c.line = i + 1 →
            ∃ commented, (lines annotated.toList)[i]? = some commented
              ∧ Commented column line c.stack commented)
    ∧ (¬Fits source comments → annotate source comments = .error .argumentOutOfRange) := by
  refine ⟨fun hfits => ⟨rewritten source comments, ?_, annotate_rewritten hstacks hends hfits,
    length_lines_rewritten hstacks, fun i line hline hnone => ?_, annotate_filter hfits,
    column (lines source.toList), fun _ => length_code_lt_column,
    exists_length_code_succ (lines_ne_nil _), fun i line c hline hlast hnumber => ?_⟩,
    fun hwide => ?_⟩
  · rw [annotate_eq, if_pos hfits]
  · rw [getElem?_lines_rewritten hstacks hline, find?_latest_eq_none_iff.2 hnone]
  · refine ⟨_, getElem?_lines_rewritten hstacks hline, ?_⟩
    rw [find?_latest_eq_some_iff.2 ⟨hlast, hnumber⟩]
    exact commented_withComment (length_code_lt_column (List.mem_of_getElem? hline))
      (hends c (mem_of_mem_latest (mem_latest_iff.2 hlast)))
  · rw [annotate_eq, if_neg hwide]

/-- Code that ends in a slash, an earlier comment, carriage returns, a stack with slashes of its
    own, and comments for lines that there are not. -/
theorem annotate_exact_mixed :
    let source := "0x01 /\r\nadd // old\r\ncaller"
    let comments : List Comment :=
      [⟨2, "[?]"⟩, ⟨0, "[]"⟩, ⟨1, "[a // b]"⟩, ⟨9, "[]"⟩, ⟨2, "[0x02 /]"⟩]
    let annotated := "0x01 / // [a // b]\r\nadd    // [0x02 /]\r\ncaller"
    Fits source comments
    ∧ annotate source comments = .ok annotated
    ∧ annotate annotated comments = .ok annotated := by
  intro source comments annotated
  have hfits : Fits source comments := by decide +kernel
  have hannotated : annotate source comments = .ok annotated := by decide +kernel
  obtain ⟨_, hok, hagain, -⟩ :=
    (@annotate_exact source comments (by decide) (by decide)).1 hfits
  cases hannotated.symm.trans hok
  exact ⟨hfits, hannotated, hagain⟩

/-! ## Wide code -/

/-- A literal behind spaces. -/
def indented (spaces : Nat) : String :=
  .ofList (List.replicate spaces ' ' ++ "0x01".toList)

theorem lines_indented (spaces : Nat) :
    lines (indented spaces).toList = [List.replicate spaces ' ' ++ "0x01".toList] := by
  have hline : '\n' ∉ List.replicate spaces ' ' ++ "0x01".toList := by simp
  have hlines := lines_append hline [] nofun
  rw [following, List.flatMap_nil, List.append_nil] at hlines
  rw [indented, String.toList_ofList, hlines]

theorem column_indented (spaces : Nat) : column (lines (indented spaces).toList) = spaces + 5 := by
  have hcode : code (List.replicate spaces ' ' ++ "0x01".toList)
      = List.replicate spaces ' ' ++ "0x01".toList := by
    have hliteral : beforeSlashes "0x01".toList = "0x01".toList := by decide
    -- The line ends with a digit, and nothing of it is trimmed.
    have hlast : List.replicate spaces ' ' ++ "0x01".toList
        = List.replicate spaces ' ' ++ "0x0".toList ++ ['1'] := by simp
    rw [code, beforeSlashes_spaces, hliteral, hlast]
    exact List.rdropWhile_concat_neg Text.isBlank _ '1' (by decide)
  rw [lines_indented, column, List.map_singleton, hcode]
  simp

/-- A comment does not fit on a line with too many spaces. -/
theorem not_fits_indented {spaces : Nat} (h : UInt16.size ≤ spaces + 5) {comments : List Comment}
    {c : Comment} (hc : c ∈ comments) (hline : c.line = 1) : ¬Fits (indented spaces) comments := by
  rintro (hcolumn | hnone)
  · rw [column_indented] at hcolumn
    omega
  · refine hnone c hc ?_
    rw [hline, lines_indented]
    exact ⟨Nat.le_refl 1, Nat.le_refl 1⟩

/-- With one space more than there may be the only comment is not written. -/
theorem annotate_eq_error_of_indented :
    let comments : List Comment := [⟨1, "[0x01]"⟩]
    (∀ c ∈ comments, Text.OneLine c.stack)
    ∧ (∀ c ∈ comments, c.stack.toList.getLast? ≠ some '\r')
    ∧ annotate (indented 65531) comments = .error .argumentOutOfRange := by
  refine ⟨by decide, by decide, ?_⟩
  rw [annotate_eq, if_neg (not_fits_indented (by decide) List.mem_cons_self rfl)]

end HuffTrace.Comment

/-
  HuffTrace.Comment

  Writing comments into a source.  Of several comments for a line the last one
  counts.  A commented line keeps its code, which is what stands before the
  first double slash less the blanks at its end, and gets its comment in a
  column of its own, one past the longest code of the whole source.  The
  formatter pads the code up to that column and refuses columns above 65535
  (`Text.padEnd`).  With such a column no text is written at all, unless no line
  has a comment.
-/

import HuffTrace.Machine.Basic
import HuffTrace.Text.Blank
import HuffTrace.Text.Pad

namespace HuffTrace.Comment

/-! ## The last comment of each line -/

/-- Puts a comment among others, which are given from the last line to the first with one
    comment a line, in place of the one for its line. -/
def supersede (c : Comment) : List Comment → List Comment
  | [] => [c]
  | d :: rest =>
    if c.line < d.line then d :: supersede c rest
    else if c.line = d.line then c :: rest
    else c :: d :: rest

/-- The last comment of each line, in line order. -/
def latest (comments : List Comment) : List Comment :=
  (comments.foldl (fun kept c => supersede c kept) []).reverse

/-! ## Lines -/

/-- The lines of a text. -/
def lines (cs : List Char) : List (List Char) :=
  cs.foldr
    (fun c rest =>
      if c = '\n' then [] :: rest
      else
        match rest with
        | line :: more => (c :: line) :: more
        | [] => [[c]])
    [[]]

/-- The part of a line before its first double slash. -/
def beforeSlashes : List Char → List Char
  | [] => []
  | c :: cs => if c = '/' ∧ cs.head? = some '/' then [] else c :: beforeSlashes cs

/-- The code of a line. -/
def code (line : List Char) : List Char :=
  Text.trimEnd (beforeSlashes line)

/-- The column of the comments: one past the longest code. -/
def column (source : List (List Char)) : Nat :=
  (source.map fun line => (code line).length).foldl max 0 + 1

/-- A line with a comment; a carriage return at its end is kept. -/
def attach (column : Nat) (line : List Char) (stack : String) :
    Except Text.FormatError (List Char) := do
  let ending := if line.getLast? = some '\r' then ['\r'] else []
  let padded ← Text.padEnd column (code line)
  return padded ++ ['/', '/', ' '] ++ stack.toList ++ ending

/-- The lines of a source with comments, the first line having the given number. -/
def attachAll (column : Nat) (comments : List Comment) :
    Nat → List (List Char) → Except Text.FormatError (List (List Char))
  | _, [] => return []
  | number, line :: rest => do
    let first ← match comments.find? (·.line = number) with
      | some c => attach column line c.stack
      | none => pure line
    return first :: (← attachAll column comments (number + 1) rest)

/-- A source with comments. -/
def annotate (source : String) (comments : List Comment) : Except Text.FormatError String := do
  let source := lines source.toList
  let commented ← attachAll (column source) (latest comments) 1 source
  return .ofList (['\n'].intercalate commented)

end HuffTrace.Comment

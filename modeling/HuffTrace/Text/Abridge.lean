/-
  HuffTrace.Text.Abridge

  The two ways in which a rendered operand is shortened.  A long run of one
  hexadecimal digit keeps two digits, an ellipsis and one digit; an operand
  that is too long as a whole keeps its first four and its last two characters.
-/

import HuffTrace.Text.Digit

namespace HuffTrace.Text

/-- A run of this many equal hexadecimal digits, or more, is shortened. -/
def longRun : Nat := 5

/-- Shortens a run of equal characters if it is a long run of a hexadecimal digit. -/
def abridgeRun (run : List Char) : List Char :=
  match run with
  | [] => []
  | c :: _ => if isHexDigit c && longRun ≤ run.length then [c, c, '.', '.', '.', c] else run

/-- Shortens every maximal long run of one hexadecimal digit. -/
def abridgeRuns (cs : List Char) : List Char :=
  (cs.splitBy (· == ·)).flatMap abridgeRun

/-- Shortens the long digit runs of a string. -/
def abridge (text : String) : String :=
  .ofList (abridgeRuns text.toList)

/-- Keeps the two ends of a string that has more than `limit` characters. -/
def clip (limit : Nat) (text : String) : String :=
  let cs := text.toList
  if cs.length ≤ limit then text
  else .ofList (cs.take 4 ++ "...".toList ++ cs.drop (cs.length - 2))

end HuffTrace.Text

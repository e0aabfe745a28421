/-
  HuffTrace.Text.Pad

  Padding a text to a width that is computed as the program runs.  The formatter
  keeps such a width in sixteen bits, so that 65535 is the largest.  It refuses
  a larger one, however long the text is, and the refusal ends the program.
-/

namespace HuffTrace.Text

/-- Why the formatter refuses to write a text. -/
inductive FormatError where
  /-- A width does not fit into sixteen bits. -/
  | argumentOutOfRange
  deriving DecidableEq, Repr

/-- The error in words. -/
def FormatError.message : FormatError → String
  | .argumentOutOfRange => "Formatting argument out of range"

/-- Fills a text up with spaces at its end. -/
def padEnd (width : Nat) (cs : List Char) : Except FormatError (List Char) :=
  if width < UInt16.size then .ok (cs.rightpad width ' ') else .error .argumentOutOfRange

end HuffTrace.Text

/-
  HuffTrace.Builtin

  The functions of the compiler that a macro body can invoke.
-/

import HuffTrace.Source.Span

namespace HuffTrace

/-- A builtin function. -/
inductive Builtin where
  /-- The selector of a function, event or error. -/
  | selector (kind : SignatureKind)
  /-- A literal moved to the high end of a word. -/
  | rightPad
  /-- The size of a macro's code. -/
  | codeSize
  /-- The position of a table. -/
  | tableStart
  /-- The size of a table. -/
  | tableSize
  /-- Code given as it is. -/
  | verbatim
  deriving DecidableEq, Repr

/-- The builtin with a name. -/
def Builtin.ofName? : String → Option Builtin
  | "__FUNC_SIG" => some (.selector .function)
  | "__EVENT_HASH" => some (.selector .event)
  | "__ERROR" => some (.selector .error)
  | "__RIGHTPAD" => some .rightPad
  | "__codesize" => some .codeSize
  | "__tablestart" => some .tableStart
  | "__tablesize" => some .tableSize
  | "__VERBATIM" => some .verbatim
  | _ => none

end HuffTrace

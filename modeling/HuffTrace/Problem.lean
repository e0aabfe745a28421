/-
  HuffTrace.Problem

  Everything that can be found wrong with a document or its execution.  None of
  these stops the analysis: each is recorded at a line and the analysis goes on
  with the best stack it has.
-/

import HuffTrace.Text.Digit
import HuffTrace.Text.Quoted

namespace HuffTrace

/-- Why a stack operation is refused. -/
inductive StackError where
  /-- There is no value to pop. -/
  | underflow
  /-- The stack would hold `requested` values, more than it may. -/
  | depthExceeded (requested : Nat)
  /-- There is no value at this depth below the top. -/
  | noSuchDepth (depth : Nat)
  deriving DecidableEq, Repr

/-- The error in words. -/
def StackError.message : StackError → String
  | .underflow => "Stack underflow"
  | .depthExceeded requested =>
    "Maximum stack depth exceeded with request for " ++ Text.decimal requested ++ " frames"
  | .noSuchDepth depth =>
    "A stack frame at depth " ++ Text.decimal depth ++ " was requested but none was available"

/-- What goes wrong while tokens are executed. -/
inductive Fault where
  /-- A called macro is defined nowhere. -/
  | unresolvedMacro (name : String)
  /-- A definition cannot be read. -/
  | malformedDefinition (text reason : String)
  /-- A stack operation is refused. -/
  | stack (error : StackError)
  /-- A call is skipped because too many calls are open. -/
  | callDepthExceeded (name : String) (limit : Nat)
  /-- The execution stops because it has used up its steps. -/
  | stepLimitExceeded (limit : Nat)
  /-- A memory region lies too high to be tracked. -/
  | unsupportedMemoryOffset (offset : String)
  deriving DecidableEq, Repr

/-- The fault in words. -/
def Fault.message : Fault → String
  | .unresolvedMacro name => "No definition was found for the macro `" ++ name ++ "`"
  | .malformedDefinition text reason =>
    "Definition " ++ Text.quoted text ++ " is malformed: " ++ reason
  | .stack error => error.message
  | .callDepthExceeded name limit =>
    "Macro `" ++ name ++ "` would exceed the maximum call depth of " ++ Text.decimal limit
  | .stepLimitExceeded limit => "Interpretation stopped after " ++ Text.decimal limit ++ " steps"
  | .unsupportedMemoryOffset offset =>
    "Memory offset " ++ offset ++ " is too large to be tracked concretely"

/-- What goes wrong while a document is loaded. -/
inductive LoadError where
  /-- A file cannot be read. -/
  | unreadable (path message : String)
  /-- A file is already being included by one of those that include it. -/
  | cycle (path : String)
  deriving DecidableEq, Repr

/-- The error in words. -/
def LoadError.message : LoadError → String
  | .unreadable path message => "Could not read " ++ Text.quoted path ++ ": " ++ message
  | .cycle path => "Including " ++ Text.quoted path ++ " would create an include cycle"

/-- Something wrong with a document or its execution. -/
inductive Problem where
  /-- A stretch of the text is no token. -/
  | unrecognized (text : String)
  /-- A file of the include tree cannot be used. -/
  | load (error : LoadError)
  /-- The execution met a fault. -/
  | execution (fault : Fault)
  deriving DecidableEq, Repr

/-- The problem in words. -/
def Problem.message : Problem → String
  | .unrecognized text => "Unrecognized input " ++ Text.quoted text
  | .load error => error.message
  | .execution fault => fault.message

end HuffTrace

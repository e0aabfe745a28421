/-
  HuffTrace.Machine.Basic

  The state of the interpreter.  The machine walks the tokens of a program in
  order.  It never branches: a macro call leads into the macro's definition and
  back, and everything else takes the next token.

  Names that the program does not define are looked up in a scope.  A scope is
  any type that can answer such questions; a macro it finds comes with the
  program that defines it and the scope of that program.
-/

import HuffTrace.Opcode.Semantics
import HuffTrace.Source.Program

namespace HuffTrace

/-! ## Scopes -/

/-- A macro defined in another program. -/
structure External (σ : Type) where
  /-- The program that defines it. -/
  program : Program
  /-- Where it stands in that program. -/
  extent : Extent
  /-- Where that program looks names up. -/
  scope : σ
  /-- The extent is the one that the program has for some name.  Of several definitions of one
      name this admits the first only, and so not every place where a macro stands; a document
      answers with no other, as it looks names up in its program. -/
  located : ∃ name, program.findMacro? name = some extent

/-- The types in which a program can look up the names that it does not define. -/
class Scope (σ : Type) where
  findMacro? : σ → String → Option (External σ)
  findSignature? : σ → SignatureKind → String → Option String

/-- The scope in which nothing is found. -/
inductive Isolated where
  | isolated
  deriving DecidableEq, Repr

instance : Scope Isolated where
  findMacro? _ _ := none
  findSignature? _ _ _ := none

/-! ## Definitions and calls -/

/-- The bounds on an execution. -/
structure Limits where
  /-- How many calls may be open at once; a call beyond them is skipped. -/
  callDepth : Nat := 1024
  /-- How many tokens may be executed. -/
  steps : Nat := 10000000
  /-- The highest end of a memory region that is tracked. -/
  memory : Nat := 2147483647
  deriving DecidableEq, Repr

/-- A macro as the machine executes it. -/
structure Definition where
  name : String
  /-- The number of inputs. -/
  takes : Nat
  /-- The number of outputs. -/
  returns : Nat
  extent : Extent
  deriving DecidableEq, Repr

namespace Definition

/-- A declared number of values, limited to what the stack can hold. -/
def bounded (declared : Option Nat) : Nat :=
  min (declared.getD 0) Stack.maxDepth

/-- The complaint about a declared number of values that the stack cannot hold. -/
def excess (keyword : String) (declared : Option Nat) : List String :=
  if Stack.maxDepth < declared.getD 0 then
    [keyword ++ " exceeds the stack depth of " ++ Text.decimal Stack.maxDepth]
  else []

/-- What is wrong with a macro header, in order.  Tests need not declare their arity. -/
def flaws (header : Header) : List String :=
  (if header.kind ≠ "test" then
      (if header.takes.isNone then ["missing `takes`"] else [])
        ++ (if header.returns.isNone then ["missing `returns`"] else [])
    else [])
    ++ excess "`takes`" header.takes ++ excess "`returns`" header.returns

/-- The macro with a header, and what is wrong with that header; a definition without one
    names no macro. -/
def ofHeader (extent : Extent) (header : Option Header) : Definition × List String :=
  match header with
  | some header =>
    ({ name := header.name, takes := bounded header.takes, returns := bounded header.returns,
       extent },
     flaws header)
  | none => ({ name := "", takes := 0, returns := 0, extent }, ["missing macro name"])

/-- The symbolic inputs of a macro that is analysed on its own, top first. -/
def inputs (d : Definition) : List Value :=
  (List.range d.takes).map fun i => .symbolic ("takes[" ++ Text.decimal i ++ "]")

end Definition

/-- A call that has not returned. -/
structure Frame where
  /-- The position of the call. -/
  callSite : Nat
  /-- The called macro, once its definition has been reached. -/
  callee : Option Definition := none
  deriving DecidableEq, Repr

/-- The stack after a line, as text. -/
structure Comment where
  line : Nat
  stack : String
  deriving DecidableEq, Repr

/-! ## The machine -/

/-- The state of an execution. -/
structure Machine (σ : Type) where
  program : Program
  scope : σ
  limits : Limits := {}
  stack : Stack := {}
  memory : Memory := {}
  /-- The open calls, innermost first. -/
  frames : List Frame := []
  /-- The macro being analysed outside of any call. -/
  entry : Option Definition := none
  /-- The position of the next token. -/
  pointer : Nat := 0
  /-- The number of tokens executed so far, those of other programs included. -/
  steps : Nat := 0
  /-- The number of calls open around this machine. -/
  outerDepth : Nat := 0
  /-- Whether comments are recorded. -/
  recording : Bool := true
  /-- The line of the token being executed. -/
  line : Nat := 0
  /-- Whether the steps ran out. -/
  halted : Bool := false
  /-- The comments in the order of recording. -/
  comments : Array Comment := #[]
  /-- The faults met, by line. -/
  faults : Diagnostics Fault := {}

namespace Machine

variable {σ : Type}

/-- The machine before the first token of a program. -/
def start (program : Program) (scope : σ) (limits : Limits := {}) : Machine σ :=
  { program, scope, limits }

/-- The number of open calls. -/
def depth (m : Machine σ) : Nat :=
  m.outerDepth + m.frames.length

/-- Records a fault at the current line. -/
def record (m : Machine σ) (fault : Fault) : Machine σ :=
  { m with faults := m.faults.add m.line fault }

/-- Lets an operation work on the stack and memory, and records the faults that it meets. -/
def work (m : Machine σ) (operation : Workspace → Workspace) : Machine σ :=
  let w := operation { stack := m.stack, memory := m.memory }
  w.faults.foldl record { m with stack := w.stack, memory := w.memory }

/-- Adds a value to the stack. -/
def push (m : Machine σ) (v : Value) : Machine σ :=
  m.work (·.push v)

/-- Takes the top value, or the placeholder for it, off the stack. -/
def pop (m : Machine σ) : Value × Machine σ :=
  (({ stack := m.stack, memory := m.memory } : Workspace).pop.1, m.work (·.pop.2))

/-- Executes an opcode. -/
def runOpcode (m : Machine σ) (opcode : Opcode) : Machine σ :=
  m.work (opcode.run m.limits.memory)

/-- The signature with a kind and a name, from the program or else from its scope. -/
def findSignature? [Scope σ] (m : Machine σ) (kind : SignatureKind) (name : String) :
    Option String :=
  m.program.findSignature? kind name <|> Scope.findSignature? m.scope kind name

end Machine

end HuffTrace

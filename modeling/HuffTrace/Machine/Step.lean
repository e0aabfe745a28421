/-
  HuffTrace.Machine.Step

  The effect of single tokens.  A step also tells which token the stack after
  it belongs to, if any: that token's line may then get a comment.  A call that
  leads into another program is run by a machine of its own; how such a machine
  runs is a parameter here.
-/

import HuffTrace.Machine.Basic

namespace HuffTrace.Machine

variable {σ : Type}

/-! ## Builtins -/

/-- A hexadecimal literal filled up with zeros on the right to a whole word. -/
def rightPad? (argument : List Char) : Option Value := do
  let digits ← Word.hexDigits? argument
  if digits.isEmpty ∨ 2 * Word.byteCount < digits.length then none
  let text := String.ofList ('0' :: 'x' :: digits.rightpad (2 * Word.byteCount) '0')
  match Word.ofHex text with
  | .ok word => some (.known word text)
  | .error _ => none

/-- The selector that an argument names: that of a written signature, or of the definition
    with that name, or else of the argument itself. -/
def selectorOf [Scope σ] (m : Machine σ) (kind : SignatureKind) (argument : List Char) : Value :=
  let bare := Text.trimQuotes argument
  let signature :=
    if bare.contains '(' then (Signature.canonical? bare).map String.ofList
    else m.findSignature? kind (.ofList bare)
  Signature.selector (signature.getD (.ofList bare))

/-- Executes a builtin that a token invokes. -/
def runBuiltin [Scope σ] (m : Machine σ) (token : Token) : Builtin → Machine σ
  | .selector kind => m.push (m.selectorOf kind token.argument)
  | .rightPad => m.push ((rightPad? token.argument).getD (.symbolic token.text))
  | .codeSize | .tableStart | .tableSize => m.push (.symbolic token.text)
  | .verbatim => m

/-! ## Macros -/

/-- Returns from the innermost call to just after it. -/
def leave (m : Machine σ) : Option Nat × Machine σ :=
  match m.frames with
  | [] => (none, m)
  | frame :: outer =>
    (some frame.callSite,
      { m with
        frames := outer
        stack := m.stack.reveal ((frame.callee.map (·.returns)).getD 0)
        pointer := frame.callSite + 1
        line := ((m.program.token? frame.callSite).map (·.line)).getD m.line })

/-- Executes a macro definition.  Reached by a call, it opens the body of the called macro.
    Met inside a called macro, it ends the body of that one, which was never closed.
    Otherwise it starts the analysis of the macro on its own, with symbolic inputs. -/
def define (m : Machine σ) (position : Nat) (token : Token) : Option Nat × Machine σ :=
  let extent := ⟨position, Program.blockEnd m.program.tokens position⟩
  let (definition, flaws) := Definition.ofHeader extent (m.program.header? position)
  let m := (flaws.map (Fault.malformedDefinition token.text)).foldl record m
  match m.frames with
  | ⟨_, some _⟩ :: _ => m.leave
  | ⟨callSite, none⟩ :: outer =>
    (some position,
      { m with
        stack := m.stack.hide definition.takes
        frames := ⟨callSite, some definition⟩ :: outer })
  | [] =>
    (some position,
      { m with
        stack := (m.stack.reset definition.inputs).clearLabels
        memory := .empty
        entry := some definition })

/-- Executes a closing brace: it may end a called macro or the analysis of a macro. -/
def closeBlock (m : Machine σ) (position : Nat) : Option Nat × Machine σ :=
  match m.frames with
  | ⟨_, some callee⟩ :: _ => if callee.extent.stop = position then m.leave else (none, m)
  | ⟨_, none⟩ :: _ => (none, m)
  | [] =>
    match m.entry with
    | some entry =>
      if entry.extent.stop = position then
        (none, { m with entry := none, stack := m.stack.reveal entry.returns })
      else (none, { m with entry := none })
    | none => (none, m)

/-- The machine that executes an external macro on the stack of its caller. -/
def callee (m : Machine σ) (takes : Nat) (external : External σ) : Machine σ :=
  { program := external.program
    scope := external.scope
    limits := m.limits
    stack := m.stack.hide takes
    pointer := external.extent.definition + 1
    steps := m.steps
    outerDepth := m.depth + 1
    recording := false }

/-- Executes an external macro.  Its faults are recorded at the line of the call. -/
def callExternal (run : Nat → Machine σ → Machine σ) (m : Machine σ) (external : External σ) :
    Machine σ :=
  let header := external.program.header? external.extent.definition
  let takes := (header.bind (·.takes)).getD 0
  let returns := (header.bind (·.returns)).getD 0
  let done := run external.extent.stop (m.callee takes external)
  (done.faults.toList.map (·.item)).foldl record
    { m with
      stack := done.stack.reveal returns
      steps := done.steps
      halted := m.halted || done.halted }

/-- Executes a macro call. -/
def call [Scope σ] (run : Nat → Machine σ → Machine σ) (m : Machine σ) (position : Nat)
    (name : String) : Option Nat × Machine σ :=
  if m.limits.callDepth ≤ m.depth then
    (some position, m.record (.callDepthExceeded name m.limits.callDepth))
  else
    match m.program.findMacro? name with
    | some extent =>
      (none, { m with frames := ⟨position, none⟩ :: m.frames, pointer := extent.definition })
    | none =>
      match Scope.findMacro? m.scope name with
      | some external => (some position, m.callExternal run external)
      | none => (some position, m.record (.unresolvedMacro name))

/-! ## Tokens -/

/-- Executes the token at a position; `run` executes another machine up to a position. -/
def step [Scope σ] (run : Nat → Machine σ → Machine σ) (m : Machine σ) (position : Nat)
    (token : Token) : Option Nat × Machine σ :=
  match token.kind with
  | .macroDefinition => m.define position token
  | .call => m.call run position token.name
  | .blockEnd => m.closeBlock position
  | .label => (some position, { m with stack := m.stack.mark token.name })
  | .literal => (some position, m.push (.literal token.text))
  | .constant => (some position, m.push (.symbolic token.name))
  | .argument | .reference => (some position, m.push (.symbolic token.text))
  | .builtin builtin => (some position, m.runBuiltin token builtin)
  | .opcode opcode => (some position, m.runOpcode opcode)
  | .interface _ =>
    if (Signature.ofDefinition? token.text.toList).isSome then (none, m)
    else (none, m.record (.malformedDefinition token.text "missing parameter list"))
  | .constantDefinition | .tableDefinition | .inclusion | .blockStart => (none, m)

/-- Records the stack as the comment of a token, if it is the last on its line and no
    closing brace. -/
def comment (m : Machine σ) (position : Nat) : Machine σ :=
  match m.program.token? position with
  | some token =>
    if m.recording ∧ m.program.isLastOnLine position ∧ token.kind ≠ .blockEnd then
      { m with comments := m.comments.push ⟨token.endLine, m.stack.render⟩ }
    else m
  | none => m

/-- Moves on to the token at the pointer. -/
def advance (m : Machine σ) (token : Token) : Machine σ :=
  { m with steps := m.steps + 1, pointer := m.pointer + 1, line := token.line }

/-- Stops because the steps ran out before a token. -/
def halt (m : Machine σ) (token : Token) : Machine σ :=
  { ({ m with line := token.line }).record (.stepLimitExceeded m.limits.steps) with
    halted := true }

end HuffTrace.Machine

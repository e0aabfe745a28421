/-
  HuffTrace.Proofs.Machine.Step

  What a single token can do to a machine.  `Acts` lists the possible effects,
  one constructor each, and `step_acts` says that every step has one of them;
  later modules take a step apart by cases on `Acts` and never unfold it.

  The faults that a step records are left open here: no effect depends on them.
-/

import HuffTrace.Machine.Run

namespace HuffTrace.Machine

variable {σ : Type}

/-! ## Recording faults -/

/-- Recording faults changes nothing else. -/
theorem foldl_record (faults : List Fault) (m : Machine σ) :
    faults.foldl record m
      = { m with faults := faults.foldl (fun d fault => d.add m.line fault) m.faults } := by
  induction faults generalizing m with
  | nil => rfl
  | cons fault rest ih => rw [List.foldl_cons, ih, List.foldl_cons]; rfl

theorem work_eq (m : Machine σ) (operation : Workspace → Workspace) :
    m.work operation
      = { m with
          stack := (operation { stack := m.stack, memory := m.memory }).stack
          memory := (operation { stack := m.stack, memory := m.memory }).memory
          faults :=
            (operation { stack := m.stack, memory := m.memory }).faults.foldl
              (fun d fault => d.add m.line fault) m.faults } := by
  rw [work, foldl_record]

theorem push_eq (m : Machine σ) (v : Value) :
    m.push v = m.work (·.push v) := rfl

/-! ## The effects of a token -/

/-- The value that a token pushes, if pushing is all it does. -/
def pushed? [Scope σ] (m : Machine σ) (token : Token) : Option Value :=
  match token.kind with
  | .literal => some (.literal token.text)
  | .constant => some (.symbolic token.name)
  | .argument | .reference => some (.symbolic token.text)
  | .builtin (.selector kind) => some (m.selectorOf kind token.argument)
  | .builtin .rightPad => some ((rightPad? token.argument).getD (.symbolic token.text))
  | .builtin .codeSize | .builtin .tableStart | .builtin .tableSize =>
    some (.symbolic token.text)
  | _ => none

/-- The macro whose definition stands at a position. -/
def definitionAt (m : Machine σ) (position : Nat) : Definition :=
  (Definition.ofHeader ⟨position, Program.blockEnd m.program.tokens position⟩
    (m.program.header? position)).1

/-- The inputs that an external macro declares. -/
def takesOf (external : External σ) : Nat :=
  ((external.program.header? external.extent.definition).bind (·.takes)).getD 0

/-- The outputs that an external macro declares. -/
def returnsOf (external : External σ) : Nat :=
  ((external.program.header? external.extent.definition).bind (·.returns)).getD 0

/-! ## Definitions and returns -/

/-- The machine with the flaws of the header at a position recorded. -/
def noted (m : Machine σ) (position : Nat) (token : Token) : Machine σ :=
  ((Definition.ofHeader ⟨position, Program.blockEnd m.program.tokens position⟩
    (m.program.header? position)).2.map (Fault.malformedDefinition token.text)).foldl record m

theorem noted_eq (m : Machine σ) (position : Nat) (token : Token) :
    ∃ faults, m.noted position token = { m with faults } :=
  ⟨_, foldl_record _ m⟩

theorem define_reaching (m : Machine σ) {site : Nat} {outer : List Frame} (position : Nat)
    (token : Token) (h : m.frames = ⟨site, none⟩ :: outer) :
    m.define position token
      = (some position,
          { m.noted position token with
            stack := m.stack.hide (m.definitionAt position).takes
            frames := ⟨site, some (m.definitionAt position)⟩ :: outer }) := by
  simp only [define, noted, foldl_record, h]
  rfl

theorem define_within (m : Machine σ) {site : Nat} {callee : Definition} {outer : List Frame}
    (position : Nat) (token : Token) (h : m.frames = ⟨site, some callee⟩ :: outer) :
    m.define position token = (m.noted position token).leave := by
  simp only [define, noted, foldl_record, h]

theorem leave_eq (m : Machine σ) {frame : Frame} {outer : List Frame}
    (h : m.frames = frame :: outer) :
    m.leave
      = (some frame.callSite,
          { m with
            frames := outer
            stack := m.stack.reveal ((frame.callee.map (·.returns)).getD 0)
            pointer := frame.callSite + 1
            line := ((m.program.token? frame.callSite).map (·.line)).getD m.line }) := by
  simp only [leave, h]

/-! ## All effects -/

/-- The ways in which the token at a position can act: the position that the stack
    afterwards belongs to, and the machine afterwards. -/
inductive Acts [Scope σ] (run : Nat → Machine σ → Machine σ) (m : Machine σ) (position : Nat)
    (token : Token) : Option Nat → Machine σ → Prop where
  | push (v : Value) (pushed : m.pushed? token = some v) :
    Acts run m position token (some position) (m.push v)
  | opcode (opcode : Opcode) (kind : token.kind = .opcode opcode) :
    Acts run m position token (some position) (m.runOpcode opcode)
  | verbatim (kind : token.kind = .builtin .verbatim) :
    Acts run m position token (some position) m
  | mark (kind : token.kind = .label) :
    Acts run m position token (some position) { m with stack := m.stack.mark token.name }
  /-- A token outside of macro bodies, a brace that closes nothing, or a macro header that is
      refused. -/
  | idle (faults : Diagnostics Fault) (kind : token.kind ≠ .macroDefinition ∧ token.kind ≠ .call) :
    Acts run m position token none { m with faults }
  /-- The call of a macro that is too deep or not found. -/
  | refuse (faults : Diagnostics Fault) (kind : token.kind = .call)
      (reason : m.limits.callDepth ≤ m.depth
        ∨ m.program.findMacro? token.name = none ∧ Scope.findMacro? m.scope token.name = none) :
    Acts run m position token (some position) { m with faults }
  /-- The definition that a call leads to. -/
  | enter (faults : Diagnostics Fault) (callSite : Nat) (outer : List Frame)
      (kind : token.kind = .macroDefinition) (frames : m.frames = ⟨callSite, none⟩ :: outer) :
    Acts run m position token (some position)
      { m with
        faults
        stack := m.stack.hide (m.definitionAt position).takes
        frames := ⟨callSite, some (m.definitionAt position)⟩ :: outer }
  /-- A definition met outside of any call. -/
  | analyse (faults : Diagnostics Fault) (kind : token.kind = .macroDefinition)
      (frames : m.frames = []) :
    Acts run m position token (some position)
      { m with
        faults
        stack := (m.stack.reset (m.definitionAt position).inputs).clearLabels
        memory := .empty
        entry := some (m.definitionAt position) }
  /-- The end of a called macro. -/
  | leave (faults : Diagnostics Fault) (line callSite : Nat) (callee : Definition)
      (outer : List Frame) (frames : m.frames = ⟨callSite, some callee⟩ :: outer)
      (kind : token.kind = .macroDefinition
        ∨ token.kind = .blockEnd ∧ callee.extent.stop = position) :
    Acts run m position token (some callSite)
      { m with
        faults
        line
        frames := outer
        stack := m.stack.reveal callee.returns
        pointer := callSite + 1 }
  /-- The end of the macro that is analysed. -/
  | finish (entry : Definition) (kind : token.kind = .blockEnd) (frames : m.frames = [])
      (analysed : m.entry = some entry) (stop : entry.extent.stop = position) :
    Acts run m position token none
      { m with entry := none, stack := m.stack.reveal entry.returns }
  /-- A closing brace that does not belong to the macro that is analysed. -/
  | abandon (entry : Definition) (kind : token.kind = .blockEnd) (frames : m.frames = [])
      (analysed : m.entry = some entry) (stop : entry.extent.stop ≠ position) :
    Acts run m position token none { m with entry := none }
  | openCall (extent : Extent) (kind : token.kind = .call)
      (room : m.depth < m.limits.callDepth)
      (found : m.program.findMacro? token.name = some extent) :
    Acts run m position token none
      { m with frames := ⟨position, none⟩ :: m.frames, pointer := extent.definition }
  | external (faults : Diagnostics Fault) (external : External σ) (done : Machine σ)
      (kind : token.kind = .call) (room : m.depth < m.limits.callDepth)
      (missing : m.program.findMacro? token.name = none)
      (found : Scope.findMacro? m.scope token.name = some external)
      (ran : done = run external.extent.stop (m.callee (takesOf external) external)) :
    Acts run m position token (some position)
      { m with
        faults
        stack := done.stack.reveal (returnsOf external)
        steps := done.steps
        halted := m.halted || done.halted }

theorem define_acts [Scope σ] (run : Nat → Machine σ → Machine σ) (m : Machine σ)
    (position : Nat) (token : Token) (kind : token.kind = .macroDefinition) :
    Acts run m position token (m.define position token).1 (m.define position token).2 := by
  unfold define
  simp only [foldl_record]
  split
  · next frame callee outer hframes =>
    simp only [leave, hframes]
    exact .leave _ _ _ callee outer hframes (.inl kind)
  · next callSite outer hframes => exact .enter _ callSite outer kind hframes
  · next hframes => exact .analyse _ kind hframes

theorem closeBlock_acts [Scope σ] (run : Nat → Machine σ → Machine σ) (m : Machine σ)
    (position : Nat) (token : Token) (kind : token.kind = .blockEnd) :
    Acts run m position token (m.closeBlock position).1 (m.closeBlock position).2 := by
  unfold closeBlock
  split
  · next callSite callee outer hframes =>
    split
    · next hstop =>
      simp only [leave, hframes]
      exact .leave m.faults _ callSite callee outer hframes (.inr ⟨kind, hstop⟩)
    · exact .idle m.faults (by simp [kind])
  · exact .idle m.faults (by simp [kind])
  · next hframes =>
    split
    · next entry hentry =>
      split
      · next hstop => exact .finish entry kind hframes hentry hstop
      · next hstop => exact .abandon entry kind hframes hentry hstop
    · exact .idle m.faults (by simp [kind])

theorem call_acts [Scope σ] (run : Nat → Machine σ → Machine σ) (m : Machine σ)
    (position : Nat) (token : Token) (kind : token.kind = .call) :
    Acts run m position token (m.call run position token.name).1
      (m.call run position token.name).2 := by
  unfold call
  split
  · next hdepth => exact .refuse _ kind (.inl hdepth)
  · next hdepth =>
    split
    · next extent hfound => exact .openCall extent kind (by omega) hfound
    · next hmissing =>
      split
      · next external hfound =>
        simp only [callExternal, foldl_record]
        exact .external _ external _ kind (by omega) hmissing hfound rfl
      · next hunknown => exact .refuse _ kind (.inr ⟨hmissing, hunknown⟩)

theorem runBuiltin_acts [Scope σ] (run : Nat → Machine σ → Machine σ) (m : Machine σ)
    (position : Nat) (token : Token) (builtin : Builtin) (kind : token.kind = .builtin builtin) :
    Acts run m position token (some position) (m.runBuiltin token builtin) := by
  cases builtin with
  | verbatim => exact .verbatim kind
  | selector _ => exact .push _ (by simp only [pushed?, kind])
  | rightPad => exact .push _ (by simp only [pushed?, kind])
  | codeSize => exact .push _ (by simp only [pushed?, kind])
  | tableStart => exact .push _ (by simp only [pushed?, kind])
  | tableSize => exact .push _ (by simp only [pushed?, kind])

/-- Every step acts in one of the listed ways. -/
theorem step_acts [Scope σ] (run : Nat → Machine σ → Machine σ) (m : Machine σ)
    (position : Nat) (token : Token) :
    Acts run m position token (m.step run position token).1 (m.step run position token).2 := by
  unfold step
  split
  · next kind => exact define_acts run m position token kind
  · next kind => exact call_acts run m position token kind
  · next kind => exact closeBlock_acts run m position token kind
  · next kind => exact .mark kind
  · next kind => exact .push _ (by simp only [pushed?, kind])
  · next kind => exact .push _ (by simp only [pushed?, kind])
  · next kind => exact .push _ (by simp only [pushed?, kind])
  · next kind => exact .push _ (by simp only [pushed?, kind])
  · next builtin kind => exact runBuiltin_acts run m position token builtin kind
  · next opcode kind => exact .opcode opcode kind
  · next kind =>
    split
    · exact .idle m.faults (by simp [kind])
    · exact .idle _ (by simp [kind])
  all_goals next kind => exact .idle m.faults (by simp [kind])

end HuffTrace.Machine

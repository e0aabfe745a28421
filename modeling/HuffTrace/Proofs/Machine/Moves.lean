/-
  HuffTrace.Proofs.Machine.Moves

  What a turn does to calls.  `Moves` keeps of a turn only what concerns the
  open calls, the hidden parts of the stack and the pointer, and `Turn.moves`
  reads every turn as one of its cases.

  A call into another program starts a machine of its own within the turn.
  `Delegates` says when that happens and `nested` is the machine started.
-/

import HuffTrace.Proofs.Machine.Loop
import HuffTrace.Proofs.Source.Extent
import HuffTrace.Proofs.Stack

namespace HuffTrace

/-! ## Hidden parts -/

/-- What does not depend on the visible values is upheld by the operations on them. -/
theorem upheld_apart {α : Type} (f : Stack → α)
    (hf : ∀ s values, f { s with visible := values } = f s) (x : α) :
    Upheld (fun _ => True) fun s => f s = x where
  oneLine _ := trivial
  append _ _ := trivial
  clip _ _ := trivial
  text _ := trivial
  folded _ := trivial
  push h _ hpush := by
    obtain ⟨-, rfl⟩ := Stack.push_eq_ok hpush
    exact (hf _ _).trans h
  pop h hpop := by
    obtain ⟨rest, -, rfl⟩ := Stack.pop_eq_ok hpop
    exact ⟨trivial, (hf _ _).trans h⟩
  dup h hdup := by
    obtain ⟨v, -, hpush⟩ := Stack.dup_eq_ok hdup
    obtain ⟨-, rfl⟩ := Stack.push_eq_ok hpush
    exact (hf _ _).trans h
  swap h hswap := by
    obtain ⟨top, -, other, -, rfl⟩ := Stack.swap_eq_ok hswap
    exact (hf _ _).trans h

namespace Machine

variable {σ : Type} [Scope σ]

omit [Scope σ] in
theorem hidden_push (m : Machine σ) (v : Value) :
    (m.push v).stack.hidden = m.stack.hidden := by
  rw [push_eq, work_eq]
  exact Workspace.push_upholds (upheld_apart Stack.hidden (fun _ _ => rfl) _) rfl trivial

omit [Scope σ] in
theorem hidden_runOpcode (m : Machine σ) (op : Opcode) :
    (m.runOpcode op).stack.hidden = m.stack.hidden := by
  rw [runOpcode, work_eq]
  apply Opcode.run_upholds (upheld_apart Stack.hidden (fun _ _ => rfl) m.stack.hidden)
  · intro _ s label hs
    rw [Stack.hidden_jump, hs]
  · rfl

/-! ## Calls into other programs -/

/-- The token at the pointer calls a macro of another program. -/
structure Delegates (m : Machine σ) (token : Token) (external : External σ) : Prop where
  here : m.program.token? m.pointer = some token
  kind : token.kind = .call
  room : m.depth < m.limits.callDepth
  missing : m.program.findMacro? token.name = none
  found : Scope.findMacro? m.scope token.name = some external

/-- The machine that is started for such a call. -/
def nested (m : Machine σ) (token : Token) (external : External σ) : Machine σ :=
  (m.advance token).callee (takesOf external) external

omit [Scope σ] in
theorem hidden_nested (m : Machine σ) (token : Token) (external : External σ) :
    (m.nested token external).stack.hidden
      = m.stack.visible.drop (takesOf external) :: m.stack.hidden := rfl

/-- A token calls one macro only. -/
theorem Delegates.unique {m : Machine σ} {token token' : Token} {external external' : External σ}
    (h : Delegates m token external) (h' : Delegates m token' external') :
    token = token' ∧ external = external' := by
  have htoken : token = token' := Option.some.inj (h.here.symm.trans h'.here)
  subst htoken
  exact ⟨rfl, Option.some.inj (h.found.symm.trans h'.found)⟩

theorem Delegates.step_eq {run : Nat → Machine σ → Machine σ} {m : Machine σ} {token : Token}
    {external : External σ} (call : Delegates m token external) :
    (m.advance token).step run m.pointer token
      = (some m.pointer, (m.advance token).callExternal run external) := by
  have hroom : ¬(m.advance token).limits.callDepth ≤ (m.advance token).depth :=
    Nat.not_le.2 call.room
  have hmissing : (m.advance token).program.findMacro? token.name = none := call.missing
  have hfound : Scope.findMacro? (m.advance token).scope token.name = some external := call.found
  rw [step, call.kind]
  simp only [Machine.call, if_neg hroom, hmissing, hfound]

/-- Such a call ends with the outputs and the steps of the machine for it, and is halted if that
    is. -/
theorem Delegates.turn_eq {m : Machine σ} {token : Token} {external : External σ}
    (call : Delegates m token external) (run : Nat → Machine σ → Machine σ) :
    (m.turn run token).stack
        = (run external.extent.stop (m.nested token external)).stack.reveal (returnsOf external)
      ∧ (m.turn run token).steps = (run external.extent.stop (m.nested token external)).steps
      ∧ (m.turn run token).halted
        = (m.halted || (run external.extent.stop (m.nested token external)).halted) := by
  rw [Machine.turn_eq, call.step_eq, callExternal, foldl_record]
  exact ⟨rfl, rfl, rfl⟩

/-- If it does not halt, neither does the machine for it. -/
theorem Delegates.going_nested {m : Machine σ} {token : Token} {external : External σ}
    (call : Delegates m token external) {run : Nat → Machine σ → Machine σ}
    (h : (m.turn run token).halted = false) :
    (run external.extent.stop (m.nested token external)).halted = false := by
  rw [(call.turn_eq run).2.2, Bool.or_eq_false_iff] at h
  exact h.2

/-! ## Moves -/

/-- What a turn does to calls. -/
inductive Moves (m m' : Machine σ) (token : Token) : Prop where
  /-- The token has nothing to do with calls, or its call is refused. -/
  | stay (kind : token.kind ≠ .macroDefinition) (alone : ∀ external, ¬Delegates m token external)
      (frames : m'.frames = m.frames) (hidden : m'.stack.hidden = m.stack.hidden)
      (pointer : m'.pointer = m.pointer + 1) (entry : m.entry = none → m'.entry = none)
  /-- The analysis of a macro on its own starts. -/
  | analyse (kind : token.kind = .macroDefinition) (empty : m.frames = [])
      (frames : m'.frames = [])
  /-- The analysis of a macro on its own ends. -/
  | finish (kind : token.kind = .blockEnd) (empty : m.frames = []) (entry : m.entry ≠ none)
      (frames : m'.frames = [])
  /-- The pointer moves to the definition of a called macro. -/
  | openCall (extent : Extent) (kind : token.kind = .call)
      (found : m.program.findMacro? token.name = some extent)
      (frames : m'.frames = ⟨m.pointer, none⟩ :: m.frames) (stack : m'.stack = m.stack)
      (pointer : m'.pointer = extent.definition) (entry : m'.entry = m.entry)
  /-- The body of a called macro opens. -/
  | enter (callSite : Nat) (outer : List Frame) (kind : token.kind = .macroDefinition)
      (before : m.frames = ⟨callSite, none⟩ :: outer)
      (frames : m'.frames = ⟨callSite, some (m.definitionAt m.pointer)⟩ :: outer)
      (stack : m'.stack = m.stack.hide (m.definitionAt m.pointer).takes)
      (pointer : m'.pointer = m.pointer + 1) (entry : m'.entry = m.entry)
  /-- A called macro returns. -/
  | leave (callSite : Nat) (callee : Definition) (outer : List Frame)
      (kind : token.kind = .macroDefinition ∨ token.kind = .blockEnd)
      (before : m.frames = ⟨callSite, some callee⟩ :: outer) (frames : m'.frames = outer)
      (stack : m'.stack = m.stack.reveal callee.returns) (pointer : m'.pointer = callSite + 1)
      (entry : m'.entry = m.entry)
  /-- A macro of another program is executed from its start to its end. -/
  | delegate (external : External σ) (call : Delegates m token external)
      (frames : m'.frames = m.frames)
      (stack : m'.stack
        = ((m.nested token external).runTo external.extent.stop).stack.reveal (returnsOf external))
      (halted : m'.halted = ((m.nested token external).runTo external.extent.stop).halted)
      (pointer : m'.pointer = m.pointer + 1) (entry : m'.entry = m.entry)

theorem not_delegates_of_kind {m : Machine σ} {token : Token} (h : token.kind ≠ .call)
    (external : External σ) : ¬Delegates m token external :=
  fun hcall => h hcall.kind

/-- Whether a machine calls a macro of another program is a question about its next token. -/
theorem not_delegates_of_here {m : Machine σ} {token : Token}
    (htoken : m.program.token? m.pointer = some token)
    (h : ∀ external, ¬Delegates m token external) (token' : Token) (external : External σ) :
    ¬Delegates m token' external := by
  intro call
  obtain rfl : token = token' := Option.some.inj (htoken.symm.trans call.here)
  exact h external call

theorem kind_of_pushed? {m : Machine σ} {token : Token} {v : Value} (h : m.pushed? token = some v) :
    token.kind ≠ .call ∧ token.kind ≠ .macroDefinition := by
  constructor <;>
  · intro hkind
    rw [pushed?, hkind] at h
    cases h

/-- Every turn is one of these moves. -/
theorem Turn.moves {stop : Nat} {m m' : Machine σ} (h : Turn stop m m') :
    ∃ token, m.program.token? m.pointer = some token ∧ Moves m m' token := by
  obtain ⟨token, htoken, hturned⟩ := h.turned
  refine ⟨token, htoken, ?_⟩
  obtain ⟨anchor, after, comments, hacts, hafter⟩ :=
    turn_acts (fun stop n => n.runTo stop) m token
  rw [hturned, hafter]
  cases hacts with
  | push v hpushed =>
    obtain ⟨hcall, hdefinition⟩ := kind_of_pushed? hpushed
    have hhidden := hidden_push (m.advance token) v
    rw [push_eq, work_eq] at hhidden ⊢
    exact .stay hdefinition (not_delegates_of_kind hcall) rfl hhidden rfl id
  | opcode op kind =>
    have hhidden := hidden_runOpcode (m.advance token) op
    rw [runOpcode, work_eq] at hhidden ⊢
    exact .stay (by simp [kind]) (not_delegates_of_kind (by simp [kind])) rfl hhidden rfl id
  | verbatim kind =>
    exact .stay (by simp [kind]) (not_delegates_of_kind (by simp [kind])) rfl rfl rfl id
  | mark kind =>
    exact .stay (by simp [kind]) (not_delegates_of_kind (by simp [kind])) rfl rfl rfl id
  | idle faults kind => exact .stay kind.1 (not_delegates_of_kind kind.2) rfl rfl rfl id
  | refuse faults kind reason =>
    refine .stay (by simp [kind]) ?_ rfl rfl rfl id
    -- A call is refused where it would be too deep, or where no program knows its name.
    intro external hcall
    rcases reason with hdeep | ⟨_, hunknown⟩
    · have hroom := hcall.room
      exact absurd hroom (Nat.not_lt.2 hdeep)
    · have hfound := hcall.found
      rw [show Scope.findMacro? m.scope token.name = none from hunknown] at hfound
      cases hfound
  | enter faults callSite outer kind hframes =>
    exact .enter callSite outer kind hframes rfl rfl rfl rfl
  | analyse faults kind hframes => exact .analyse kind hframes hframes
  | leave faults line callSite callee outer hframes kind =>
    exact .leave callSite callee outer (kind.imp_right (·.1)) hframes rfl rfl rfl rfl
  | finish entry kind hframes hentry hstop =>
    exact .finish kind hframes (by rw [show m.entry = some entry from hentry]; simp) hframes
  | abandon entry kind hframes hentry hstop =>
    exact .finish kind hframes (by rw [show m.entry = some entry from hentry]; simp) hframes
  | openCall extent kind room found => exact .openCall extent kind found rfl rfl rfl rfl
  | external faults external done kind room missing found ran =>
    subst ran
    refine .delegate external ⟨htoken, kind, room, missing, found⟩ rfl rfl ?_ rfl rfl
    show (m.halted || _) = _
    rw [h.going, Bool.false_or]
    rfl

end Machine

end HuffTrace

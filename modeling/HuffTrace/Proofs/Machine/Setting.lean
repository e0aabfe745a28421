/-
  HuffTrace.Proofs.Machine.Setting

  A machine in another setting.  A turn depends on the scope only through its
  answers and on the limits only through the call depth and the memory, so in a
  scope with the same answers, with another number of steps allowed, it does the
  same (`turn_transfer`).  What is asked of a machine that the turn starts is
  only that it ends alike for its caller.
-/

import HuffTrace.Proofs.Machine.Moves

namespace HuffTrace

/-- Two scopes answer all questions alike. -/
structure SameAnswers {σ : Type} [Scope σ] (a b : σ) : Prop where
  macros : ∀ name, Scope.findMacro? b name = Scope.findMacro? a name
  signatures : ∀ kind name, Scope.findSignature? b kind name = Scope.findSignature? a kind name

theorem SameAnswers.refl {σ : Type} [Scope σ] (a : σ) : SameAnswers a a :=
  ⟨fun _ => rfl, fun _ _ => rfl⟩

/-- Two limits differ at most in the number of steps. -/
structure SameBounds (a b : Limits) : Prop where
  callDepth : b.callDepth = a.callDepth
  memory : b.memory = a.memory

theorem SameBounds.refl (a : Limits) : SameBounds a a := ⟨rfl, rfl⟩

namespace Machine

variable {σ : Type}

/-- A machine moved to another scope and other limits. -/
def transfer (m : Machine σ) (scope : σ) (limits : Limits) : Machine σ :=
  { m with scope, limits }

/-- Two machines end alike for the machine that started them. -/
structure SameResult (a b : Machine σ) : Prop where
  stack : b.stack = a.stack
  steps : b.steps = a.steps
  halted : b.halted = a.halted
  faults : b.faults = a.faults

theorem SameResult.refl (m : Machine σ) : SameResult m m := ⟨rfl, rfl, rfl, rfl⟩

section Fields

variable (m : Machine σ) (scope : σ) (limits : Limits)

@[simp] theorem transfer_program : (m.transfer scope limits).program = m.program := rfl

@[simp] theorem transfer_limits : (m.transfer scope limits).limits = limits := rfl

@[simp] theorem transfer_frames : (m.transfer scope limits).frames = m.frames := rfl

@[simp] theorem transfer_entry : (m.transfer scope limits).entry = m.entry := rfl

@[simp] theorem transfer_depth : (m.transfer scope limits).depth = m.depth := rfl

@[simp] theorem transfer_recording : (m.transfer scope limits).recording = m.recording := rfl

/-! ## Steps -/

theorem work_transfer (operation : Workspace → Workspace) :
    (m.transfer scope limits).work operation = (m.work operation).transfer scope limits := by
  rw [work_eq, work_eq]
  rfl

theorem push_transfer (v : Value) :
    (m.transfer scope limits).push v = (m.push v).transfer scope limits :=
  work_transfer m scope limits _

theorem leave_transfer :
    (m.transfer scope limits).leave = (m.leave.1, m.leave.2.transfer scope limits) := by
  unfold leave
  rw [transfer_frames]
  cases m.frames with
  | nil => rfl
  | cons frame outer => rfl

theorem define_transfer (position : Nat) (token : Token) :
    (m.transfer scope limits).define position token
      = ((m.define position token).1, (m.define position token).2.transfer scope limits) := by
  simp only [define, foldl_record]
  rw [transfer_frames]
  split
  · next hframes =>
    -- The faults of the header have been recorded before, on either side.
    simp only [leave, hframes]
    rfl
  · rfl
  · rfl

theorem closeBlock_transfer (position : Nat) :
    (m.transfer scope limits).closeBlock position
      = ((m.closeBlock position).1, (m.closeBlock position).2.transfer scope limits) := by
  unfold closeBlock
  rw [transfer_frames, transfer_entry]
  split
  · split
    · exact leave_transfer m scope limits
    · rfl
  · rfl
  · split
    · split <;> rfl
    · rfl

theorem comment_transfer (position : Nat) :
    (m.transfer scope limits).comment position
      = (m.comment position).transfer scope limits := by
  unfold comment
  rw [transfer_program, transfer_recording]
  split
  · split <;> rfl
  · rfl

theorem callExternal_transfer {run run' : Nat → Machine σ → Machine σ} (external : External σ)
    (h : SameResult (run external.extent.stop (m.callee (takesOf external) external))
      (run' external.extent.stop
        ((m.callee (takesOf external) external).transfer external.scope limits))) :
    (m.transfer scope limits).callExternal run' external
      = (m.callExternal run external).transfer scope limits := by
  obtain ⟨hstack, hsteps, hhalted, hfaults⟩ := h
  unfold takesOf at hstack hsteps hhalted hfaults
  -- The machine for the macro has its own scope and the limits of its caller.
  have hcallee : ∀ takes, (m.transfer scope limits).callee takes external
      = (m.callee takes external).transfer external.scope limits := fun _ => rfl
  simp only [callExternal, foldl_record, hcallee, hstack, hsteps, hhalted, hfaults]
  rfl

end Fields

section Answers

variable [Scope σ] {m : Machine σ} {scope : σ} {limits : Limits}
  {run run' : Nat → Machine σ → Machine σ} {token : Token}

theorem selectorOf_transfer (h : SameAnswers m.scope scope) (kind : SignatureKind)
    (argument : List Char) :
    (m.transfer scope limits).selectorOf kind argument = m.selectorOf kind argument := by
  have hfind : (m.transfer scope limits).findSignature? kind = m.findSignature? kind := by
    funext name
    exact congrArg (m.program.findSignature? kind name <|> ·) (h.signatures kind name)
  rw [selectorOf, selectorOf, hfind]

theorem runBuiltin_transfer (h : SameAnswers m.scope scope) (token : Token) (builtin : Builtin) :
    (m.transfer scope limits).runBuiltin token builtin
      = (m.runBuiltin token builtin).transfer scope limits := by
  unfold runBuiltin
  split
  · rw [selectorOf_transfer h, push_transfer]
  · rw [push_transfer]
  · rw [push_transfer]
  · rw [push_transfer]
  · rw [push_transfer]
  · rfl

/-- A call is the same if the machine that it starts, if any, ends alike. -/
theorem call_transfer (h : SameAnswers m.scope scope) (hbounds : SameBounds m.limits limits)
    (position : Nat) (name : String)
    (hrun : ∀ external, m.depth < m.limits.callDepth → m.program.findMacro? name = none →
      Scope.findMacro? m.scope name = some external →
      SameResult (run external.extent.stop (m.callee (takesOf external) external))
        (run' external.extent.stop
          ((m.callee (takesOf external) external).transfer external.scope limits))) :
    (m.transfer scope limits).call run' position name
      = ((m.call run position name).1, (m.call run position name).2.transfer scope limits) := by
  have hfound : Scope.findMacro? (m.transfer scope limits).scope name
      = Scope.findMacro? m.scope name := h.macros name
  unfold call
  rw [transfer_limits, transfer_depth, transfer_program, hfound, hbounds.callDepth]
  split
  · rfl
  · next hroom =>
    split
    · rfl
    · next hmissing =>
      split
      · next external hexternal =>
        rw [callExternal_transfer m scope limits external
          (hrun external (Nat.lt_of_not_le hroom) hmissing hexternal)]
      · rfl

/-- A step is the same in a setting that answers and bounds alike. -/
theorem step_transfer (h : SameAnswers m.scope scope) (hbounds : SameBounds m.limits limits)
    (position : Nat)
    (hrun : ∀ external, token.kind = .call → m.depth < m.limits.callDepth →
      m.program.findMacro? token.name = none →
      Scope.findMacro? m.scope token.name = some external →
      SameResult (run external.extent.stop (m.callee (takesOf external) external))
        (run' external.extent.stop
          ((m.callee (takesOf external) external).transfer external.scope limits))) :
    (m.transfer scope limits).step run' position token
      = ((m.step run position token).1, (m.step run position token).2.transfer scope limits) := by
  unfold step
  split
  · exact define_transfer m scope limits position token
  · next kind =>
    exact call_transfer h hbounds position token.name fun external => hrun external kind
  · exact closeBlock_transfer m scope limits position
  · rfl
  · rw [push_transfer]
  · rw [push_transfer]
  · rw [push_transfer]
  · rw [push_transfer]
  · rw [runBuiltin_transfer h]
  · rw [runOpcode, transfer_limits, hbounds.memory, work_transfer]
    rfl
  · split <;> rfl
  all_goals rfl

/-- A turn is the same in a setting that answers and bounds alike. -/
theorem turn_transfer (h : SameAnswers m.scope scope) (hbounds : SameBounds m.limits limits)
    (htoken : m.program.token? m.pointer = some token)
    (hrun : ∀ external, Delegates m token external →
      SameResult (run external.extent.stop (m.nested token external))
        (run' external.extent.stop ((m.nested token external).transfer external.scope limits))) :
    (m.transfer scope limits).turn run' token = (m.turn run token).transfer scope limits := by
  have hadvance : SameAnswers (m.advance token).scope scope := h
  have hlimits : SameBounds (m.advance token).limits limits := hbounds
  have hstep : ((m.transfer scope limits).advance token).step run'
        (m.transfer scope limits).pointer token
      = (((m.advance token).step run m.pointer token).1,
          ((m.advance token).step run m.pointer token).2.transfer scope limits) :=
    step_transfer hadvance hlimits m.pointer fun external kind room missing found =>
      hrun external ⟨htoken, kind, room, missing, found⟩
  unfold turn
  rw [hstep]
  cases (m.advance token).step run m.pointer token with
  | mk anchor after =>
    cases anchor with
    | none => rfl
    | some position => exact comment_transfer after scope limits position

end Answers

end Machine

end HuffTrace

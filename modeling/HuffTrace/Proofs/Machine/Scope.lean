/-
  HuffTrace.Proofs.Machine.Scope

  A machine and its scope.  All that a machine asks of its scope are the names
  that its program does not define, so a scope with the same answers gives the
  same execution (`execute_rescope`).  The machines started for other programs
  get their scopes with the macros found and are the same altogether.
-/

import HuffTrace.Proofs.Machine.Setting

namespace HuffTrace.Machine

variable {σ : Type}

/-- A machine with another scope. -/
def rescope (m : Machine σ) (scope : σ) : Machine σ :=
  { m with scope }

section Fields

variable (m : Machine σ) (scope : σ)

@[simp] theorem rescope_program : (m.rescope scope).program = m.program := rfl

@[simp] theorem rescope_limits : (m.rescope scope).limits = m.limits := rfl

@[simp] theorem rescope_frames : (m.rescope scope).frames = m.frames := rfl

@[simp] theorem rescope_pointer : (m.rescope scope).pointer = m.pointer := rfl

@[simp] theorem rescope_steps : (m.rescope scope).steps = m.steps := rfl

@[simp] theorem rescope_halted : (m.rescope scope).halted = m.halted := rfl

end Fields

variable [Scope σ]

theorem turn_rescope {m : Machine σ} {scope : σ} (h : SameAnswers m.scope scope)
    (run : Nat → Machine σ → Machine σ) {token : Token}
    (htoken : m.program.token? m.pointer = some token) :
    (m.rescope scope).turn run token = (m.turn run token).rescope scope := by
  have hturn : (m.transfer scope m.limits).turn run token
      = (m.turn run token).transfer scope m.limits :=
    turn_transfer h (.refl m.limits) htoken fun _ _ => .refl _
  have hlimits : (m.turn run token).transfer scope m.limits = (m.turn run token).rescope scope := by
    rw [← (turn_sameSetting run m token).limits]
    rfl
  exact hturn.trans hlimits

/-- A run is the same in a scope with the same answers. -/
theorem runFor_rescope (fuel stop : Nat) {m : Machine σ} {scope : σ}
    (h : SameAnswers m.scope scope) :
    runFor fuel stop (m.rescope scope) = (runFor fuel stop m).rescope scope := by
  induction fuel generalizing m with
  | zero =>
    unfold runFor
    rw [rescope_frames, rescope_pointer, rescope_program]
    split
    · rfl
    · split <;> rfl
  | succ fuel ih =>
    unfold runFor
    rw [rescope_frames, rescope_pointer, rescope_program]
    split
    · rfl
    · next token htoken =>
      split
      · rfl
      · have hscope := (turn_sameSetting (fun stop m => runFor fuel stop m) m token).scope
        simp only [turn_rescope h _ htoken, rescope_halted, rescope_limits, rescope_steps]
        split
        · rfl
        · split
          · rfl
          -- A turn keeps the scope, so that the answers are the same after it.
          · exact ih (hscope ▸ h)

/-- An execution is the same in a scope with the same answers. -/
theorem execute_rescope {m : Machine σ} {scope : σ} (h : SameAnswers m.scope scope) :
    (m.rescope scope).execute = m.execute.rescope scope :=
  runFor_rescope _ _ (m := { m with pointer := 0, halted := false }) h

end HuffTrace.Machine

/-
  HuffTrace.Proofs.Machine.Invariant

  Invariants of the stack throughout an execution.  A machine hands its stack
  on to the machines for other programs and takes it back from them, so what
  is to hold of it has to hold of the stacks of all of them.  `Carried` collects
  what a property has to satisfy for that: opcodes, labels and calls keep it,
  and the values that tokens push are good.  It then holds at every moment
  (`Carried.passes`).
-/

import HuffTrace.Proofs.Machine.Limits
import HuffTrace.Proofs.Stack

namespace HuffTrace.Machine

variable {σ : Type} [Scope σ]

/-- A property of stacks, with one of values, that every token keeps. -/
structure Carried (σ : Type) [Scope σ] (good : Value → Prop) (holds : Stack → Prop) : Prop
    extends Upheld good holds where
  pushed : ∀ {m : Machine σ} {token : Token} {v : Value}, m.pushed? token = some v → good v
  jump : ∀ {s : Stack} (label : String), holds s → holds (s.jump label)
  mark : ∀ {s : Stack} (label : String), holds s → holds (s.mark label)
  hide : ∀ {s : Stack} (keep : Nat), holds s → holds (s.hide keep)
  reveal : ∀ {s : Stack} (keep : Nat), holds s → holds (s.reveal keep)
  fresh : ∀ (s : Stack) {values : List Value}, Stack.Throughout good values →
    holds (s.reset values).clearLabels

section Run

variable {good : Value → Prop} {holds : Stack → Prop}

theorem Carried.inputs (h : Carried σ good holds) (d : Definition) :
    Stack.Throughout good d.inputs := by
  intro v hv
  obtain ⟨i, -, rfl⟩ := List.mem_map.1 hv
  exact h.append (h.append (h.oneLine (by decide)) (h.oneLine (Text.oneLine_decimal i)))
    (h.oneLine (by decide))

/-- A turn keeps the property if the machine that it starts, if any, ends with it. -/
theorem Carried.turn (h : Carried σ good holds) {run : Nat → Machine σ → Machine σ}
    {m : Machine σ} {token : Token} (htoken : m.program.token? m.pointer = some token)
    (hm : holds m.stack)
    (hrun : ∀ external, Delegates m token external →
      holds (run external.extent.stop (m.nested token external)).stack) :
    holds (m.turn run token).stack := by
  obtain ⟨anchor, after, comments, hacts, hafter⟩ := turn_acts run m token
  rw [hafter]
  cases hacts with
  | push v pushed =>
    rw [push_eq, work_eq]
    exact Workspace.push_upholds h.toUpheld hm (h.pushed pushed)
  | opcode op _ =>
    rw [runOpcode, work_eq]
    exact Opcode.run_upholds h.toUpheld m.limits.memory op (fun _ => h.jump) hm
  | mark _ => exact h.mark token.name hm
  | enter _ _ _ _ _ => exact h.hide _ hm
  | analyse _ _ _ => exact h.fresh m.stack (h.inputs _)
  | leave _ _ _ _ _ _ _ => exact h.reveal _ hm
  | finish _ _ _ _ _ => exact h.reveal _ hm
  | external faults external done kind room missing found ran =>
    subst ran
    exact h.reveal _ (hrun external ⟨htoken, kind, room, missing, found⟩)
  | _ => exact hm

theorem Carried.executes (h : Carried σ good holds) {stop k : Nat} {m d : Machine σ}
    (hexecutes : Executes stop k m d) (hm : holds m.stack) : holds d.stack := by
  induction hexecutes with
  | halted | rest | exhaust => exact hm
  | turn going here inside budget nested alone onwards ihnested ihonwards =>
    apply ihonwards
    apply h.turn here hm
    intro external call
    exact ihnested external call (h.hide _ hm)

theorem Carried.reaches (h : Carried σ good holds) {stop stop' : Nat} {m n : Machine σ}
    (hreaches : Reaches stop m stop' n) (hm : holds m.stack) : holds n.stack := by
  refine hreaches.invariant (P := fun n => holds n.stack) ?_ ?_ hm
  · intro stop a a' hturn ha
    obtain ⟨token, htoken, rfl⟩ := hturn.turned
    apply h.turn htoken ha
    intro external call
    obtain ⟨k, hexecutes⟩ := exists_executes external.extent.stop (a.nested token external)
    exact h.executes hexecutes (h.hide _ ha)
  · intro stop a a' token external hturn call ha
    exact h.hide _ ha

/-- The property holds at every moment of a run that starts with it. -/
theorem Carried.passes (h : Carried σ good holds) {stop : Nat} {m n : Machine σ}
    (hpasses : Passes stop m n) (hm : holds m.stack) : holds n.stack := by
  -- Neither going on to a token nor halting before one touches the stack.
  cases hpasses with
  | head reaches => exact h.reaches reaches hm
  | executing reaches _ _ =>
    have hhead := h.reaches reaches hm
    exact hhead
  | exhausted reaches _ _ _ =>
    have hhead := h.reaches reaches hm
    exact hhead

end Run

/-! ## The depth of the stack -/

theorem carried_bounded : Carried σ (fun _ => True) Stack.Bounded where
  toUpheld := Stack.upheld_bounded
  pushed _ := trivial
  jump label h := h.jump label
  mark label h := h.mark label
  hide keep h := h.hide keep
  reveal keep h := h.reveal keep
  fresh s _ _ := Stack.bounded_fresh s _

/-- The stack is never too deep. -/
theorem Reaches.bounded {stop stop' : Nat} {m n : Machine σ} (h : Reaches stop m stop' n)
    (hm : m.stack.Bounded) : n.stack.Bounded :=
  carried_bounded.reaches h hm

end HuffTrace.Machine

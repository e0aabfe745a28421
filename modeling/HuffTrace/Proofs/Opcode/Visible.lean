/-
  HuffTrace.Proofs.Opcode.Visible

  Opcodes see the visible values only.  Whatever a stack hides and remembers,
  an opcode other than a jump does the same on the same visible values and
  leaves the rest of the stack alone (`Opcode.seesVisible_run`).  A jump looks
  up the shape of a label as well.

  `AgreeAbove` relates two stacks that differ only in what they hide below a
  number of parts.  Every operation does the same to both, and a part that is
  revealed is the same in both as long as it lies above the others.
-/

import HuffTrace.Proofs.Opcode.Workspace
import HuffTrace.Proofs.Stack

namespace HuffTrace

/-- The visible values of a stack with all else from another one. -/
def Stack.atop (s t : Stack) : Stack :=
  { t with visible := s.visible }

namespace Workspace

/-- The workspace on another stack with the same visible values. -/
def atop (w : Workspace) (t : Stack) : Workspace :=
  { w with stack := w.stack.atop t }

section Access

variable (w : Workspace) (t : Stack)

/-! ## Access to the stack -/

@[simp] theorem visible_atop : (w.atop t).stack.visible = w.stack.visible := rfl

@[simp] theorem memory_atop : (w.atop t).memory = w.memory := rfl

theorem pop_atop : (w.atop t).pop = (w.pop.1, w.pop.2.atop t) := by
  unfold pop Stack.pop
  rw [visible_atop]
  cases w.stack.visible with
  | nil => rfl
  | cons v rest => rfl

theorem discard_atop (n : Nat) : (w.atop t).discard n = (w.discard n).atop t := by
  induction n generalizing w with
  | zero => rfl
  | succ n ih => rw [discard, discard, pop_atop, ih]

theorem push_atop (v : Value) : (w.atop t).push v = (w.push v).atop t := by
  unfold push Stack.push
  show (w.atop t).attempt (if w.stack.size < Stack.maxDepth then _ else _) = _
  split <;> rfl

theorem pushText_atop (text : String) : (w.atop t).pushText text = (w.pushText text).atop t :=
  push_atop w t _

theorem dup_atop (n : Nat) :
    (w.atop t).attempt ((w.atop t).stack.dup n) = (w.attempt (w.stack.dup n)).atop t := by
  cases n with
  | zero => rfl
  | succ depth =>
    rw [Stack.dup, Stack.dup, Stack.read, Stack.read, visible_atop]
    cases w.stack.visible[depth]? with
    | none => rfl
    | some v => exact push_atop w t v

theorem swap_atop (depth : Nat) :
    (w.atop t).attempt ((w.atop t).stack.swap depth)
      = (w.attempt (w.stack.swap depth)).atop t := by
  have hread : ∀ n, (w.atop t).stack.read n = w.stack.read n := fun _ => rfl
  unfold Stack.swap
  rw [hread, hread]
  cases w.stack.read 0 with
  | error e => rfl
  | ok top =>
    cases w.stack.read depth with
    | error e => rfl
    | ok other => rfl

end Access

/-- The operation depends on no more of the stack than its visible values, and changes nothing
    else of it. -/
def SeesVisible (operation : Workspace → Workspace) : Prop :=
  ∀ w t, operation (w.atop t) = (operation w).atop t

theorem seesVisible_push (v : Value) : SeesVisible (·.push v) :=
  fun w t => push_atop w t v

theorem seesVisible_discard (n : Nat) : SeesVisible (·.discard n) :=
  fun w t => discard_atop w t n

/-! ## Operations that fold -/

theorem seesVisible_unary (fold : Word → Word) (render : String → String) :
    SeesVisible (unary fold render) := by
  intro w t
  simp only [unary, pop_atop]
  split
  · exact push_atop _ t _
  · exact pushText_atop _ t _

theorem seesVisible_binary (fold : Word → Word → Word) (render : String → String → String) :
    SeesVisible (binary fold render) := by
  intro w t
  simp only [binary, pop_atop]
  split
  · exact push_atop _ t _
  · exact pushText_atop _ t _

theorem seesVisible_ternary (fold : Word → Word → Word → Word)
    (render : String → String → String → String) : SeesVisible (ternary fold render) := by
  intro w t
  simp only [ternary, pop_atop]
  split
  · exact push_atop _ t _
  · exact pushText_atop _ t _

theorem seesVisible_lookUp (before : String) (limit : Nat) (after : String) :
    SeesVisible (lookUp before limit after) := by
  intro w t
  simp only [lookUp, pop_atop, pushText_atop]

/-! ## Memory -/

theorem region?_atop (limit : Nat) (offset size : Value) (w : Workspace) (t : Stack) :
    (w.atop t).region? limit offset size
      = ((w.region? limit offset size).1, (w.region? limit offset size).2.atop t) := by
  unfold region?
  split
  · split
    · split <;> rfl
    · rfl
  · rfl

theorem wordOffset?_atop (limit : Nat) (offset : Value) (w : Workspace) (t : Stack) :
    (w.atop t).wordOffset? limit offset
      = ((w.wordOffset? limit offset).1, (w.wordOffset? limit offset).2.atop t) := by
  simp only [wordOffset?, region?_atop]

theorem seesVisible_loadWord (limit : Nat) : SeesVisible (loadWord limit) := by
  intro w t
  simp only [loadWord, pop_atop, wordOffset?_atop, memory_atop]
  generalize wordOffset? limit w.pop.1 w.pop.2 = found
  cases found.1.bind found.2.memory.load with
  | some word => exact push_atop found.2 t _
  | none => exact pushText_atop found.2 t _

theorem seesVisible_storeWord (limit : Nat) : SeesVisible (storeWord limit) := by
  intro w t
  simp only [storeWord, pop_atop, wordOffset?_atop]
  split <;> rfl

theorem seesVisible_storeLowByte (limit : Nat) : SeesVisible (storeLowByte limit) := by
  intro w t
  simp only [storeLowByte, pop_atop, wordOffset?_atop]
  split <;> rfl

theorem seesVisible_copyWithin (limit : Nat) : SeesVisible (copyWithin limit) := by
  intro w t
  simp only [copyWithin, pop_atop, region?_atop]
  generalize region? limit w.pop.1 _ _ = found
  obtain ⟨_ | ⟨start, count⟩, after⟩ := found
  · rfl
  · -- The source is looked at only where the target is accepted.
    simp only [region?_atop]
    generalize region? limit _ _ after = found'
    obtain ⟨_ | ⟨origin, length⟩, after'⟩ := found' <;> rfl

theorem seesVisible_copyIn (leading limit : Nat) : SeesVisible (copyIn leading limit) := by
  intro w t
  simp only [copyIn, discard_atop, pop_atop, region?_atop]
  generalize region? limit (w.discard leading).pop.1 _ _ = found
  obtain ⟨_ | ⟨start, count⟩, after⟩ := found <;> rfl

theorem seesVisible_hashRegion (limit : Nat) : SeesVisible (hashRegion limit) := by
  intro w t
  simp only [hashRegion, pop_atop, region?_atop, memory_atop]
  split
  · exact push_atop _ t _
  · exact pushText_atop _ t _

end Workspace

/-! ## All opcodes -/

open Workspace in
/-- Every opcode but the jumps sees the visible values only. -/
theorem Opcode.seesVisible_run (limit : Nat) {op : Opcode} (hjump : op ≠ .jump)
    (hjumpi : op ≠ .jumpi) : SeesVisible (op.run limit) := by
  -- Opcodes that only the chain can answer take their operands and leave a name.
  have hnamed : ∀ name : String, SeesVisible fun w => (w.discard op.arity).pushText name := by
    intro name w t
    simp only [discard_atop, pushText_atop]
  cases op with
  | add | mul | sub | div | sdiv | mod | smod | exp | lt | gt | slt | sgt | eq | and | or | xor
  | shl | shr | sar | signextend | byte =>
    rw [Opcode.run]
    exact seesVisible_binary _ _
  | addmod | mulmod =>
    rw [Opcode.run]
    exact seesVisible_ternary _ _
  | iszero | not =>
    rw [Opcode.run]
    exact seesVisible_unary _ _
  | balance | sload | tload =>
    rw [Opcode.run]
    exact seesVisible_lookUp _ _ _
  | calldataload =>
    intro w t
    simp only [Opcode.run, pop_atop, pushText_atop]
  | sha3 => exact seesVisible_hashRegion limit
  | mload => exact seesVisible_loadWord limit
  | mstore => exact seesVisible_storeWord limit
  | mstore8 => exact seesVisible_storeLowByte limit
  | mcopy => exact seesVisible_copyWithin limit
  | calldatacopy | codecopy | returndatacopy => exact seesVisible_copyIn 0 limit
  | extcodecopy => exact seesVisible_copyIn 1 limit
  | push0 => exact seesVisible_push _
  | dup depth => exact fun w t => dup_atop w t _
  | swap depth => exact fun w t => swap_atop w t _
  | jump => exact absurd rfl hjump
  | jumpi => exact absurd rfl hjumpi
  | push width => exact fun _ _ => rfl
  | stop | jumpdest | invalid => exact fun _ _ => rfl
  | pop | sstore | tstore | ret | revert | selfdestruct => exact seesVisible_discard _
  | log topics => exact seesVisible_discard _
  | _ => exact hnamed _

/-! ## Stacks that agree above what they hide -/

namespace Stack

/-- The stacks hide `base` and `base'` at the bottom and agree in all else: in what they show, in
    the parts hidden above these, and in what they remember for labels. -/
structure AgreeAbove (base base' parts : List (List Value)) (s t : Stack) : Prop where
  visible : t.visible = s.visible
  hidden : s.hidden = parts ++ base ∧ t.hidden = parts ++ base'
  labels : ∀ label, t.labels.find? label = s.labels.find? label
  pending : ∀ label, t.pending.find? label = s.pending.find? label

variable {base base' parts : List (List Value)} {s t : Stack}

theorem AgreeAbove.mark (h : AgreeAbove base base' parts s t) (label : String) :
    AgreeAbove base base' parts (s.mark label) (t.mark label) := by
  have hvisible : (t.mark label).visible = (s.mark label).visible := by
    show (t.pending.find? label).getD t.visible = (s.pending.find? label).getD s.visible
    rw [h.pending, h.visible]
  refine ⟨hvisible, h.hidden, ?_, ?_⟩
  · intro other
    rw [labels_mark, labels_mark, hvisible, h.labels]
  · intro other
    rw [pending_mark, pending_mark, h.pending]

theorem AgreeAbove.jump (h : AgreeAbove base base' parts s t) (label : String) :
    AgreeAbove base base' parts (s.jump label) (t.jump label) := by
  refine ⟨?_, ?_, ?_, ?_⟩
  · rw [visible_jump, visible_jump, h.labels, h.visible]
  · rw [hidden_jump, hidden_jump]
    exact h.hidden
  · intro other
    rw [labels_jump, labels_jump, h.labels]
  · intro other
    rw [pending_jump, pending_jump, h.labels, h.pending, h.pending, h.visible]

/-- A call hides the same in both. -/
theorem AgreeAbove.hide (h : AgreeAbove base base' parts s t) (keep : Nat) :
    AgreeAbove base base' (s.visible.drop keep :: parts) (s.hide keep) (t.hide keep) := by
  refine ⟨congrArg (List.take keep) h.visible, ⟨?_, ?_⟩, h.labels, h.pending⟩
  · show s.visible.drop keep :: s.hidden = _
    rw [h.hidden.1, List.cons_append]
  · show t.visible.drop keep :: t.hidden = _
    rw [h.visible, h.hidden.2, List.cons_append]

/-- What is revealed is the same in both if it lies above the bottoms. -/
theorem AgreeAbove.reveal {part : List Value} (h : AgreeAbove base base' (part :: parts) s t)
    (keep : Nat) : AgreeAbove base base' parts (s.reveal keep) (t.reveal keep) := by
  obtain ⟨hhidden, hhidden'⟩ := h.hidden
  have hshown : t.visible.take keep ++ t.hidden.headD []
      = s.visible.take keep ++ s.hidden.headD [] := by
    rw [h.visible, hhidden, hhidden']
    rfl
  refine ⟨congrArg (List.take maxDepth) hshown, ⟨?_, ?_⟩, h.labels, h.pending⟩
  · show s.hidden.tail = _
    rw [hhidden]
    rfl
  · show t.hidden.tail = _
    rw [hhidden']
    rfl

/-- Parts above the bottoms can be counted to them. -/
theorem agreeAbove_append {above : List (List Value)} :
    AgreeAbove base base' (above ++ parts) s t
      ↔ AgreeAbove (parts ++ base) (parts ++ base') above s t := by
  constructor
  · intro h
    refine ⟨h.visible, ?_, h.labels, h.pending⟩
    rw [← List.append_assoc, ← List.append_assoc]
    exact h.hidden
  · intro h
    refine ⟨h.visible, ?_, h.labels, h.pending⟩
    rw [List.append_assoc, List.append_assoc]
    exact h.hidden

end Stack

namespace Workspace

/-- The workspaces differ only in what their stacks hide at the bottom. -/
structure AgreeAbove (base base' parts : List (List Value)) (w w' : Workspace) : Prop where
  stack : Stack.AgreeAbove base base' parts w.stack w'.stack
  memory : w'.memory = w.memory
  faults : w'.faults = w.faults

variable {base base' parts : List (List Value)} {w w' : Workspace}

theorem AgreeAbove.eq_atop (h : AgreeAbove base base' parts w w') : w' = w.atop w'.stack := by
  rw [atop, Stack.atop, ← h.stack.visible, ← h.memory, ← h.faults]

/-- An operation that sees the visible values only does the same to both. -/
theorem AgreeAbove.operation (h : AgreeAbove base base' parts w w')
    {operation : Workspace → Workspace} (hsees : SeesVisible operation) :
    AgreeAbove base base' parts (operation w) (operation w') := by
  -- On a stack of its own the operation leaves the hidden parts and the tables alone, and on the
  -- other stack it then does the same.
  have hsame : operation w = (operation w).atop w.stack := hsees w w.stack
  have hother : operation w' = (operation w).atop w'.stack := by
    rw [← hsees, ← h.eq_atop]
  rw [hother]
  refine ⟨⟨rfl, ⟨?_, h.stack.hidden.2⟩, ?_, ?_⟩, rfl, rfl⟩
  · rw [hsame]
    exact h.stack.hidden.1
  · rw [hsame]
    exact h.stack.labels
  · rw [hsame]
    exact h.stack.pending

/-- A jump looks up the shape of the same label in both. -/
theorem AgreeAbove.jumpTo (h : AgreeAbove base base' parts w w') (conditions : Nat) :
    AgreeAbove base base' parts (jumpTo conditions w) (jumpTo conditions w') := by
  have hrest := h.operation (seesVisible_discard (conditions + 1))
  have htarget : w'.pop.1 = w.pop.1 := by
    rw [h.eq_atop, pop_atop]
  refine ⟨?_, hrest.memory, hrest.faults⟩
  show Stack.AgreeAbove base base' parts ((w.discard (conditions + 1)).stack.jump w.pop.1.text)
    ((w'.discard (conditions + 1)).stack.jump w'.pop.1.text)
  rw [htarget]
  exact hrest.stack.jump _

theorem AgreeAbove.run (h : AgreeAbove base base' parts w w') (limit : Nat) (op : Opcode) :
    AgreeAbove base base' parts (op.run limit w) (op.run limit w') := by
  by_cases hjump : op = .jump
  · subst hjump
    exact h.jumpTo 0
  by_cases hjumpi : op = .jumpi
  · subst hjumpi
    exact h.jumpTo 1
  exact h.operation (Opcode.seesVisible_run limit hjump hjumpi)

end Workspace

end HuffTrace

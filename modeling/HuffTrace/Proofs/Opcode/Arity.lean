/-
  HuffTrace.Proofs.Opcode.Arity

  The declared arities of opcodes and what opcodes do.  Most opcodes take as
  many values off the stack as they declare, with a complaint for each one that
  is missing, and leave one result or none on what is below them
  (`Opcode.run_takes`).  Copies and exchanges take nothing off; their arity is
  how deep they look.  So the errors that an opcode meets on the stack, and the
  size that it leaves, follow from its arity and from whether it has a result
  (`Machine.runOpcode_effect`).
-/

import HuffTrace.Proofs.Diagnostics
import HuffTrace.Proofs.Machine.Step
import HuffTrace.Proofs.Opcode.Regions
import HuffTrace.Proofs.Stack.InPlace

namespace HuffTrace

/-! ## What opcodes are for -/

namespace Opcode

/-- An opcode copies or exchanges values and takes none off the stack. -/
def shuffles : Opcode → Bool
  | dup _ | swap _ => true
  | _ => false

/-- An opcode leaves a result, one value above those that it does not take off the stack. -/
def yields : Opcode → Bool
  | calldatacopy | codecopy | extcodecopy | returndatacopy | pop | mstore | mstore8 | sstore
  | tstore | mcopy | push _ | swap _ | stop | jump | jumpi | jumpdest | log _ | ret | revert
  | invalid | selfdestruct => false
  | _ => true

/-- An opcode writes to memory. -/
def stores : Opcode → Bool
  | mstore | mstore8 | mcopy | calldatacopy | codecopy | extcodecopy | returndatacopy => true
  | _ => false

/-- An opcode goes on with the stack of a label. -/
def jumps : Opcode → Bool
  | jump | jumpi => true
  | _ => false

/-- The number of values that an opcode takes off the stack. -/
def taken (o : Opcode) : Nat :=
  if o.shuffles then 0 else o.arity

/-- The depth at which a copy or an exchange first finds no value. -/
def absent : Opcode → Nat → Nat
  | swap _, 0 => 0
  | o, _ => o.arity - 1

/-- The errors of the stack that an opcode meets if a number of values are visible. -/
def errors (o : Opcode) (size : Nat) : List StackError :=
  if o.shuffles ∧ size < o.arity then [.noSuchDepth (o.absent size)]
  else
    List.replicate (o.arity - size) .underflow
      ++ if o.yields ∧ Stack.maxDepth ≤ size - o.taken then [.depthExceeded (size - o.taken + 1)]
        else []

variable {o : Opcode} {size : Nat}

theorem taken_of_shuffles (h : o.shuffles = true) : o.taken = 0 :=
  if_pos h

theorem taken_eq_arity (h : o.shuffles = false) : o.taken = o.arity :=
  if_neg (by simp [h])

theorem errors_of_short (h : o.shuffles = true) (hshort : size < o.arity) :
    o.errors size = [.noSuchDepth (o.absent size)] :=
  if_pos ⟨h, hshort⟩

theorem errors_of_found (h : o.shuffles = true) (hfound : o.arity ≤ size) :
    o.errors size
      = if o.yields ∧ Stack.maxDepth ≤ size then [.depthExceeded (size + 1)] else [] := by
  have hnot : ¬(o.shuffles = true ∧ size < o.arity) := fun hshort => Nat.not_lt.2 hfound hshort.2
  rw [errors, if_neg hnot, Nat.sub_eq_zero_of_le hfound, taken_of_shuffles h]
  rfl

theorem errors_of_not_shuffles (h : o.shuffles = false) :
    o.errors size
      = List.replicate (o.arity - size) .underflow
        ++ if o.yields ∧ Stack.maxDepth ≤ size - o.arity then [.depthExceeded (size - o.arity + 1)]
          else [] := by
  have hnot : ¬(o.shuffles = true ∧ size < o.arity) := by simp [h]
  rw [errors, if_neg hnot, taken_eq_arity h]

end Opcode

/-- The stack error that a fault is. -/
def Fault.stackError? : Fault → Option StackError
  | .stack error => some error
  | _ => none

/-! ## Accesses to the stack -/

namespace Workspace

/-- The errors of the stack met so far, in order. -/
def errors (w : Workspace) : List StackError :=
  w.faults.filterMap Fault.stackError?

variable {w w' : Workspace}

theorem errors_report (w : Workspace) (error : StackError) :
    (w.report (.stack error)).errors = w.errors ++ [error] :=
  List.filterMap_append

theorem errors_pop (w : Workspace) :
    w.pop.2.errors = w.errors ++ List.replicate (1 - w.stack.size) .underflow := by
  unfold pop Stack.pop Stack.size
  cases w.stack.visible with
  | nil => exact errors_report w .underflow
  | cons v rest => simp [errors]

theorem size_pop (w : Workspace) : w.pop.2.stack.size = w.stack.size - 1 := by
  rw [stack_pop, Stack.size, List.length_drop, Stack.size]

/-- Each value that is missing is complained about. -/
theorem errors_discard (w : Workspace) (n : Nat) :
    (w.discard n).errors = w.errors ++ List.replicate (n - w.stack.size) .underflow := by
  induction n generalizing w with
  | zero => simp [discard]
  | succ n ih =>
    have hcount : 1 - w.stack.size + (n - (w.stack.size - 1)) = n + 1 - w.stack.size := by omega
    rw [discard, ih, errors_pop, size_pop, List.append_assoc, List.replicate_append_replicate,
      hcount]

theorem discard_add (w : Workspace) (m n : Nat) : w.discard (m + n) = (w.discard n).discard m := by
  induction n generalizing w with
  | zero => rfl
  | succ n ih => exact ih w.pop.2

theorem size_discard (w : Workspace) (n : Nat) : (w.discard n).stack.size = w.stack.size - n := by
  rw [stack_discard, Stack.size, List.length_drop, Stack.size]

theorem push_of_lt (h : w.stack.size < Stack.maxDepth) (v : Value) :
    w.push v = { w with stack := { w.stack with visible := v :: w.stack.visible } } := by
  rw [push, Stack.push, if_pos h, attempt]

theorem push_of_le (h : Stack.maxDepth ≤ w.stack.size) (v : Value) :
    w.push v = w.report (.stack (.depthExceeded (w.stack.size + 1))) := by
  rw [push, Stack.push, if_neg (Nat.not_lt.2 h), attempt]

theorem attempt_dup_of_le {depth : Nat} (h : w.stack.size ≤ depth) :
    w.attempt (w.stack.dup (depth + 1)) = w.report (.stack (.noSuchDepth depth)) := by
  rw [Stack.dup, Stack.read_eq_error_iff.2 ⟨h, rfl⟩]
  rfl

theorem attempt_dup_of_lt {depth : Nat} (h : depth < w.stack.size) :
    ∃ v, w.attempt (w.stack.dup (depth + 1)) = w.push v := by
  obtain ⟨v, hread⟩ := Stack.exists_read h
  refine ⟨v, ?_⟩
  rw [Stack.dup, hread]
  rfl

theorem attempt_swap_of_le {depth : Nat} (h : w.stack.size ≤ depth) :
    w.attempt (w.stack.swap depth)
      = w.report (.stack (.noSuchDepth (if w.stack.size = 0 then 0 else depth))) := by
  rw [Stack.swap, Stack.read_eq_error_iff.2 ⟨h, rfl⟩]
  by_cases hempty : w.stack.size = 0
  · rw [Stack.read_eq_error_iff.2 ⟨Nat.le_of_eq hempty, rfl⟩, if_pos hempty]
    rfl
  · obtain ⟨top, hread⟩ := Stack.exists_read (Nat.pos_of_ne_zero hempty)
    rw [hread, if_neg hempty]
    rfl

theorem attempt_swap_of_lt {depth : Nat} (h : depth < w.stack.size) :
    ∃ top other, w.attempt (w.stack.swap depth)
      = { w with
          stack := { w.stack with visible := (w.stack.visible.set 0 other).set depth top } } := by
  obtain ⟨top, htop⟩ := Stack.exists_read (Nat.zero_lt_of_lt h)
  obtain ⟨other, hother⟩ := Stack.exists_read h
  refine ⟨top, other, ?_⟩
  rw [Stack.swap, htop, hother]
  rfl

/-! ## Operations that take values off -/

/-- Two workspaces differ in memory and in complaints about it only. -/
structure SameStack (w w' : Workspace) : Prop where
  stack : w'.stack = w.stack
  errors : w'.errors = w.errors

theorem SameStack.refl (w : Workspace) : SameStack w w :=
  ⟨rfl, rfl⟩

theorem SameStack.trans {w₁ w₂ w₃ : Workspace} (h : SameStack w₁ w₂) (h' : SameStack w₂ w₃) :
    SameStack w₁ w₃ :=
  ⟨h'.stack.trans h.stack, h'.errors.trans h.errors⟩

theorem sameStack_checked (limit : Nat) (offset size : Value) (w : Workspace) :
    SameStack w (w.checked limit offset size) := by
  unfold checked
  split
  · exact ⟨rfl, List.filterMap_append.trans (List.append_nil _)⟩
  · exact .refl w

theorem sameStack_memory (w : Workspace) (memory : Memory) :
    SameStack w { w with memory := memory } :=
  ⟨rfl, rfl⟩

/-- A workspace without its top values, and with a result if there is one. -/
inductive Takes (n : Nat) (w : Workspace) : Bool → Workspace → Prop where
  | nothing {w' : Workspace} (same : SameStack (w.discard n) w') : Takes n w false w'
  | result {w' : Workspace} (v : Value) (same : SameStack (w.discard n) w') :
    Takes n w true (w'.push v)

variable {n : Nat} {result : Bool}

theorem Takes.errors (h : Takes n w result w') :
    w'.errors = w.errors ++ (List.replicate (n - w.stack.size) .underflow
      ++ if result ∧ Stack.maxDepth ≤ w.stack.size - n then
          [.depthExceeded (w.stack.size - n + 1)]
        else []) := by
  cases h with
  | nothing same => simp [same.errors, errors_discard]
  | result v same =>
    rename_i w₁
    have hsize : w₁.stack.size = w.stack.size - n := by rw [same.stack, size_discard]
    -- The push looks at the stack after the operands are off it.
    by_cases hroom : w₁.stack.size < Stack.maxDepth
    · have herrors : (w₁.push v).errors = w₁.errors := by rw [push_of_lt hroom]; rfl
      rw [herrors, same.errors, errors_discard, if_neg (by omega), List.append_nil]
    · rw [push_of_le (Nat.not_lt.1 hroom), errors_report, same.errors, errors_discard,
        if_pos ⟨rfl, by omega⟩, hsize, List.append_assoc]

/-- What is left are the values below, with the result on top of them if there is room. -/
theorem Takes.stack (h : Takes n w result w') :
    ∃ top, w'.stack = { w.stack with visible := top ++ w.stack.visible.drop n }
      ∧ top.length = if result ∧ w.stack.size - n < Stack.maxDepth then 1 else 0 := by
  cases h with
  | nothing same => exact ⟨[], by rw [same.stack, stack_discard]; rfl, rfl⟩
  | result v same =>
    rename_i w₁
    have hsize : w₁.stack.size = w.stack.size - n := by rw [same.stack, size_discard]
    by_cases hroom : w₁.stack.size < Stack.maxDepth
    · refine ⟨[v], ?_, (if_pos ⟨rfl, by omega⟩).symm⟩
      rw [push_of_lt hroom, same.stack, stack_discard]
      rfl
    · refine ⟨[], ?_, (if_neg (by omega)).symm⟩
      rw [push_of_le (Nat.not_lt.1 hroom)]
      show w₁.stack = _
      rw [same.stack, stack_discard]
      rfl

section Shapes

variable (limit : Nat) (w : Workspace)

theorem unary_takes (fold : Word → Word) (render : String → String) :
    Takes 1 w true (unary fold render w) := by
  unfold unary
  simp only
  split <;> exact .result _ (.refl _)

theorem binary_takes (fold : Word → Word → Word) (render : String → String → String) :
    Takes 2 w true (binary fold render w) := by
  unfold binary
  simp only
  split <;> exact .result _ (.refl _)

theorem ternary_takes (fold : Word → Word → Word → Word)
    (render : String → String → String → String) : Takes 3 w true (ternary fold render w) := by
  unfold ternary
  simp only
  split <;> exact .result _ (.refl _)

theorem lookUp_takes (before : String) (clipped : Nat) (after : String) :
    Takes 1 w true (lookUp before clipped after w) :=
  .result _ (.refl _)

theorem loadWord_takes : Takes 1 w true (loadWord limit w) := by
  simp only [loadWord, wordOffset?_eq]
  split <;> exact .result _ (sameStack_checked _ _ _ _)

theorem hashRegion_takes : Takes 2 w true (hashRegion limit w) := by
  simp only [hashRegion, region?_eq]
  split <;> exact .result _ (sameStack_checked _ _ _ _)

theorem storeWord_takes : Takes 2 w false (storeWord limit w) := by
  simp only [storeWord, wordOffset?_eq]
  split
  · exact .nothing (sameStack_checked _ _ _ _)
  all_goals exact .nothing ((sameStack_checked _ _ _ _).trans (sameStack_memory _ _))

theorem storeLowByte_takes : Takes 2 w false (storeLowByte limit w) := by
  simp only [storeLowByte, wordOffset?_eq]
  split
  · exact .nothing (sameStack_checked _ _ _ _)
  all_goals exact .nothing ((sameStack_checked _ _ _ _).trans (sameStack_memory _ _))

theorem copyWithin_takes : Takes 3 w false (copyWithin limit w) := by
  simp only [copyWithin, region?_eq, fst_pop, operand_pop]
  cases bounds? limit (w.operand 0) (w.operand 2) with
  | none => exact .nothing (sameStack_checked _ _ _ _)
  | some region =>
    cases bounds? limit (w.operand 1) (w.operand 2) with
    | none =>
      exact .nothing (((sameStack_checked _ _ _ _).trans (sameStack_checked _ _ _ _)).trans
        (sameStack_memory _ _))
    | some source =>
      exact .nothing (((sameStack_checked _ _ _ _).trans (sameStack_checked _ _ _ _)).trans
        (sameStack_memory _ _))

theorem copyIn_takes (leading : Nat) : Takes (3 + leading) w false (copyIn leading limit w) := by
  have hdiscard : w.discard (3 + leading) = (w.discard leading).discard 3 := discard_add w 3 leading
  simp only [copyIn, region?_eq]
  cases bounds? limit (w.discard leading).pop.1 (w.discard leading).pop.2.pop.2.pop.1 with
  | none => exact .nothing (hdiscard ▸ sameStack_checked _ _ _ _)
  | some region =>
    exact .nothing (hdiscard ▸ (sameStack_checked _ _ _ _).trans (sameStack_memory _ _))

end Shapes

end Workspace

/-! ## All opcodes -/

namespace Opcode

open Workspace

/-- An opcode that neither shuffles nor jumps takes as many values off the stack as it declares,
    and leaves its result if it has one. -/
theorem run_takes {o : Opcode} (hshuffles : o.shuffles = false) (hjumps : o.jumps = false)
    (limit : Nat) (w : Workspace) : Takes o.arity w o.yields (o.run limit w) := by
  have hdiscard : ∀ n, Takes n w false (w.discard n) := fun n => .nothing (.refl _)
  -- Opcodes that only the chain can answer leave a name, all of them in one way.
  cases hname : o.resultName? with
  | some name =>
    have hyields : o.yields = true := by cases o <;> first | rfl | cases hname
    rw [run_of_resultName? hname, hyields]
    exact .result _ (.refl _)
  | none =>
    cases o with
    | add | mul | sub | div | sdiv | mod | smod | exp | lt | gt | slt | sgt | eq | and | or | xor
    | shl | shr | sar | signextend | byte => rw [run]; exact binary_takes w _ _
    | addmod | mulmod => rw [run]; exact ternary_takes w _ _
    | iszero | not => rw [run]; exact unary_takes w _ _
    | balance | sload | tload => rw [run]; exact lookUp_takes w _ _ _
    | calldataload => exact .result _ (.refl _)
    | sha3 => exact hashRegion_takes limit w
    | mload => exact loadWord_takes limit w
    | mstore => exact storeWord_takes limit w
    | mstore8 => exact storeLowByte_takes limit w
    | mcopy => exact copyWithin_takes limit w
    | calldatacopy | codecopy | returndatacopy => exact copyIn_takes limit w 0
    | extcodecopy => exact copyIn_takes limit w 1
    | push0 => exact .result _ (.refl _)
    | push width => exact hdiscard 0
    | stop | jumpdest | invalid => exact hdiscard 0
    | pop | sstore | tstore | ret | revert | selfdestruct => exact hdiscard _
    | log topics => exact hdiscard _
    | dup depth => cases hshuffles
    | swap depth => cases hshuffles
    | jump | jumpi => cases hjumps
    | _ => cases hname

theorem run_of_jumps {o : Opcode} (h : o.jumps = true) (limit : Nat) (w : Workspace) :
    ∃ conditions, o.arity = conditions + 1 ∧ o.run limit w = jumpTo conditions w := by
  cases o with
  | jump => exact ⟨0, rfl, rfl⟩
  | jumpi => exact ⟨1, rfl, rfl⟩
  | _ => cases h

theorem yields_of_jumps {o : Opcode} (h : o.jumps = true) : o.yields = false := by
  cases o with
  | jump | jumpi => rfl
  | _ => cases h

/-- A copy or an exchange that does not find its values only complains about that. -/
theorem run_of_short {o : Opcode} {w : Workspace} (h : o.shuffles = true)
    (hshort : w.stack.size < o.arity) (limit : Nat) :
    o.run limit w = w.report (.stack (.noSuchDepth (o.absent w.stack.size))) := by
  cases o with
  | dup depth => exact attempt_dup_of_le (Nat.le_of_lt_succ hshort)
  | swap depth =>
    have habsent : (swap depth).absent w.stack.size
        = if w.stack.size = 0 then 0 else (depth : Nat) + 1 := by
      cases w.stack.size <;> rfl
    rw [habsent]
    exact attempt_swap_of_le (Nat.le_of_lt_succ hshort)
  | _ => cases h

/-- The errors of the stack that an opcode meets are those that its arity tells. -/
theorem errors_run (limit : Nat) (o : Opcode) (w : Workspace) :
    (o.run limit w).errors = w.errors ++ o.errors w.stack.size := by
  cases hshuffles : o.shuffles with
  | false =>
    rw [errors_of_not_shuffles hshuffles]
    cases hjumps : o.jumps with
    | false => exact (run_takes hshuffles hjumps limit w).errors
    | true =>
      obtain ⟨conditions, harity, hrun⟩ := run_of_jumps hjumps limit w
      have hnone : ¬(o.yields = true ∧ Stack.maxDepth ≤ w.stack.size - o.arity) := by
        simp [yields_of_jumps hjumps]
      rw [if_neg hnone, hrun, harity, List.append_nil]
      exact errors_discard w (conditions + 1)
  | true =>
    rcases Nat.lt_or_ge w.stack.size o.arity with hshort | hfound
    · rw [run_of_short hshuffles hshort, errors_report, errors_of_short hshuffles hshort]
    · rw [errors_of_found hshuffles hfound]
      -- What is left to go wrong is that there is no room for a copy.
      cases o with
      | dup depth =>
        obtain ⟨v, hpush⟩ := attempt_dup_of_lt (Nat.lt_of_succ_le hfound)
        have htakes : Takes 0 w true (w.push v) := .result v (.refl w)
        show (w.attempt (w.stack.dup (depth + 1))).errors = _
        rw [hpush, htakes.errors, Nat.zero_sub]
        rfl
      | swap depth =>
        obtain ⟨top, other, hswap⟩ := attempt_swap_of_lt (Nat.lt_of_succ_le hfound)
        show (w.attempt (w.stack.swap (depth + 1))).errors = _
        rw [hswap]
        exact (List.append_nil _).symm
      | _ => cases hshuffles

/-! ## The stack -/

/-- What an opcode does to the stack, as its arity tells. -/
structure StackEffect (o : Opcode) (s s' : Stack) : Prop where
  /-- A copy or an exchange that does not find its values leaves the stack as it is. -/
  short : o.shuffles = true → s.size < o.arity → s' = s
  /-- So does an opcode that can only add to a stack which is full. -/
  full : o.yields = true → o.taken = 0 → Stack.maxDepth ≤ s.size → s' = s
  /-- With all operands there, the size is what they leave and what the result adds. -/
  size : o.jumps = false → o.arity ≤ s.size →
    s'.size = s.size - o.taken + if o.yields ∧ s.size - o.taken < Stack.maxDepth then 1 else 0
  /-- The values below the operands stay where they are. -/
  below : o.jumps = false → o.arity ≤ s.size → s.visible.drop o.arity <:+ s'.visible
  hidden : s'.hidden = s.hidden
  labels : o.jumps = false → s'.labels = s.labels ∧ s'.pending = s.pending

variable {o : Opcode} {w w' : Workspace}

theorem stackEffect_of_takes (hshuffles : o.shuffles = false)
    (h : Takes o.arity w o.yields w') : StackEffect o w.stack w'.stack := by
  obtain ⟨top, hstack, hlength⟩ := h.stack
  rw [hstack]
  refine ⟨fun hyes => ?_, fun _ hnone hfull => ?_, fun _ _ => ?_,
    fun _ _ => List.suffix_append _ _, rfl, fun _ => ⟨rfl, rfl⟩⟩
  · rw [hshuffles] at hyes
    cases hyes
  · -- The opcode takes nothing off, and its result finds no room.
    rw [taken_eq_arity hshuffles] at hnone
    rw [hnone, if_neg (by omega)] at hlength
    rw [hnone, List.length_eq_zero_iff.1 hlength]
    rfl
  · rw [taken_eq_arity hshuffles, ← hlength, Nat.add_comm, Stack.size, List.length_append,
      List.length_drop]
    rfl

theorem stackEffect_of_short {s : Stack} (hshort : s.size < o.arity) : StackEffect o s s := by
  have hnot : ¬o.arity ≤ s.size := Nat.not_le.2 hshort
  exact ⟨fun _ _ => rfl, fun _ _ _ => rfl, fun _ hle => absurd hle hnot,
    fun _ hle => absurd hle hnot, rfl, fun _ => ⟨rfl, rfl⟩⟩

theorem stackEffect_dup {depth : Fin 16} (hfound : (dup depth).arity ≤ w.stack.size) :
    StackEffect (dup depth) w.stack (w.attempt (w.stack.dup (depth + 1))).stack := by
  obtain ⟨v, hpush⟩ := attempt_dup_of_lt (Nat.lt_of_succ_le hfound)
  have htakes : Takes 0 w true (w.push v) := .result v (.refl w)
  obtain ⟨top, hstack, hlength⟩ := htakes.stack
  rw [hpush, hstack]
  refine ⟨fun _ hshort => absurd hshort (Nat.not_lt.2 hfound), fun _ _ hfull => ?_, fun _ _ => ?_,
    fun _ _ => ?_, rfl, fun _ => ⟨rfl, rfl⟩⟩
  · -- On a full stack there is no copy.
    rw [if_neg (by omega)] at hlength
    rw [List.length_eq_zero_iff.1 hlength]
    rfl
  · rw [taken_of_shuffles rfl, Nat.add_comm, Stack.size, List.length_append, hlength]
    rfl
  · exact (List.drop_suffix _ _).trans (List.suffix_append _ _)

theorem stackEffect_swap {depth : Fin 16} (hfound : (swap depth).arity ≤ w.stack.size) :
    StackEffect (swap depth) w.stack (w.attempt (w.stack.swap (depth + 1))).stack := by
  obtain ⟨top, other, hswap⟩ := attempt_swap_of_lt (Nat.lt_of_succ_le hfound)
  rw [hswap]
  refine ⟨fun _ hshort => absurd hshort (Nat.not_lt.2 hfound), nofun, fun _ _ => ?_, fun _ _ => ?_,
    rfl, fun _ => ⟨rfl, rfl⟩⟩
  · rw [Stack.size, List.length_set, List.length_set]
    rfl
  · -- Both values that change places are among the operands.
    have hdrop : ((w.stack.visible.set 0 other).set (depth + 1) top).drop (swap depth).arity
        = w.stack.visible.drop (swap depth).arity := by
      have hlast : (depth : Nat) + 1 < (swap depth).arity := Nat.lt_succ_self _
      rw [List.drop_set_of_lt hlast, List.drop_set_of_lt (Nat.zero_lt_of_lt hlast)]
    rw [← hdrop]
    exact List.drop_suffix _ _

/-- Every opcode does to the stack what its arity tells. -/
theorem stackEffect_run (limit : Nat) (o : Opcode) (w : Workspace) :
    StackEffect o w.stack (o.run limit w).stack := by
  cases hshuffles : o.shuffles with
  | false =>
    cases hjumps : o.jumps with
    | false => exact stackEffect_of_takes hshuffles (run_takes hshuffles hjumps limit w)
    | true =>
      obtain ⟨conditions, -, hrun⟩ := run_of_jumps hjumps limit w
      have hyields := yields_of_jumps hjumps
      rw [hrun, stack_jumpTo]
      exact ⟨by simp [hshuffles], by simp [hyields], by simp [hjumps], by simp [hjumps],
        Stack.hidden_jump _ _, by simp [hjumps]⟩
  | true =>
    rcases Nat.lt_or_ge w.stack.size o.arity with hshort | hfound
    · rw [run_of_short hshuffles hshort]
      exact stackEffect_of_short hshort
    · cases o with
      | dup depth => exact stackEffect_dup hfound
      | swap depth => exact stackEffect_swap hfound
      | _ => cases hshuffles

theorem memory_run_of_not_stores (h : o.stores = false) (limit : Nat) (w : Workspace) :
    (o.run limit w).memory = w.memory := by
  have hnone : o.accesses limit w = [] := by
    unfold accesses
    split
    · split
      · -- Loads and hashes have a region too, and do nothing to it.
        cases o <;> first | rfl | cases h
      · rfl
    · rfl
  rw [memory_run, hnone]
  rfl

end Opcode

/-! ## The machine -/

namespace Machine

variable {σ : Type}

/-- The errors of the stack that have been recorded, with their lines. -/
def stackErrors (m : Machine σ) : List (Located StackError) :=
  m.faults.toList.filterMap fun x => x.item.stackError?.map fun error => ⟨x.line, error⟩

/-- An operation on the stack and memory records the errors that it meets at the current line. -/
theorem stackErrors_work (m : Machine σ) (operation : Workspace → Workspace) :
    (m.work operation).stackErrors.Perm
      (m.stackErrors
        ++ (operation { stack := m.stack, memory := m.memory }).errors.map
          fun error => ⟨m.line, error⟩) := by
  rw [work_eq, stackErrors, Diagnostics.foldl_add, Workspace.errors, List.map_filterMap]
  refine ((Diagnostics.perm_addAll _ _).filterMap _).trans ?_
  rw [List.filterMap_append, List.filterMap_map]
  exact .refl _

/-- The arity of an opcode tells which errors of the stack it records, which values stay and how
    many there are.  It leaves the hidden parts alone, the labels unless it jumps, and the memory
    unless it stores. -/
theorem runOpcode_effect (m : Machine σ) (o : Opcode) :
    (m.runOpcode o).stackErrors.Perm
        (m.stackErrors ++ (o.errors m.stack.size).map fun error => ⟨m.line, error⟩)
      ∧ o.StackEffect m.stack (m.runOpcode o).stack
      ∧ (o.stores = false → (m.runOpcode o).memory = m.memory) := by
  refine ⟨?_, ?_, ?_⟩
  · have herrors := stackErrors_work m (o.run m.limits.memory)
    rw [Opcode.errors_run] at herrors
    exact herrors
  · rw [runOpcode, work_eq]
    exact Opcode.stackEffect_run m.limits.memory o { stack := m.stack, memory := m.memory }
  · intro hstores
    rw [runOpcode, work_eq]
    exact Opcode.memory_run_of_not_stores hstores m.limits.memory _

end Machine

end HuffTrace

/-
  HuffTrace.Proofs.Opcode.Faults

  The faults that opcodes meet.  An opcode only ever adds to the faults of its
  workspace, and what it adds are refused stack operations and memory regions
  that lie too high (`Opcode.run_notes`); it never complains about calls,
  definitions or steps.
-/

import HuffTrace.Opcode.Semantics

namespace HuffTrace

/-- The faults that an operation on the stack or the memory can meet. -/
def Fault.ofOperation : Fault → Bool
  | .stack _ | .unsupportedMemoryOffset _ => true
  | _ => false

namespace Workspace

/-- The second workspace has the faults of the first one and after them faults of operations. -/
def Notes (w w' : Workspace) : Prop :=
  ∃ met, w'.faults = w.faults ++ met ∧ ∀ fault ∈ met, fault.ofOperation

theorem notes_of_faults_eq {w w' : Workspace} (h : w'.faults = w.faults) : Notes w w' :=
  ⟨[], by rw [h, List.append_nil], nofun⟩

theorem Notes.refl (w : Workspace) : Notes w w :=
  notes_of_faults_eq rfl

theorem Notes.trans {w₁ w₂ w₃ : Workspace} (h : Notes w₁ w₂) (h' : Notes w₂ w₃) :
    Notes w₁ w₃ := by
  obtain ⟨met, hfaults, hmet⟩ := h
  obtain ⟨met', hfaults', hmet'⟩ := h'
  refine ⟨met ++ met', by rw [hfaults', hfaults, List.append_assoc], ?_⟩
  intro fault hmem
  rcases List.mem_append.1 hmem with hmem | hmem
  · exact hmet fault hmem
  · exact hmet' fault hmem

theorem notes_report (w : Workspace) {fault : Fault} (h : fault.ofOperation) :
    Notes w (w.report fault) :=
  ⟨[fault], rfl, fun _ hmem => List.mem_singleton.1 hmem ▸ h⟩

/-! ## Access to the stack -/

theorem attempt_notes (w : Workspace) (result : Except StackError Stack) :
    Notes w (w.attempt result) := by
  unfold attempt
  split
  · exact notes_of_faults_eq rfl
  · exact notes_report w rfl

theorem pop_notes (w : Workspace) : Notes w w.pop.2 := by
  unfold pop
  split
  · exact notes_of_faults_eq rfl
  · exact notes_report w rfl

theorem discard_notes (w : Workspace) (n : Nat) : Notes w (w.discard n) := by
  induction n generalizing w with
  | zero => exact .refl w
  | succ n ih => exact (pop_notes w).trans (ih _)

theorem push_notes (w : Workspace) (v : Value) : Notes w (w.push v) :=
  attempt_notes w _

/-! ## Operations that fold -/

theorem unary_notes (fold : Word → Word) (render : String → String) (w : Workspace) :
    Notes w (unary fold render w) := by
  apply (pop_notes w).trans
  unfold unary
  simp only
  split <;> exact push_notes _ _

theorem binary_notes (fold : Word → Word → Word) (render : String → String → String)
    (w : Workspace) : Notes w (binary fold render w) := by
  apply ((pop_notes w).trans (pop_notes _)).trans
  unfold binary
  simp only
  split <;> exact push_notes _ _

theorem ternary_notes (fold : Word → Word → Word → Word)
    (render : String → String → String → String) (w : Workspace) :
    Notes w (ternary fold render w) := by
  apply (((pop_notes w).trans (pop_notes _)).trans (pop_notes _)).trans
  unfold ternary
  simp only
  split <;> exact push_notes _ _

theorem lookUp_notes (before : String) (limit : Nat) (after : String) (w : Workspace) :
    Notes w (lookUp before limit after w) :=
  (pop_notes w).trans (push_notes _ _)

/-! ## Memory -/

theorem region?_notes (limit : Nat) (offset size : Value) (w : Workspace) :
    Notes w (region? limit offset size w).2 := by
  unfold region?
  split
  · split
    · split
      · exact .refl w
      · exact notes_report w rfl
    · exact notes_report w rfl
  · exact .refl w

theorem wordOffset?_notes (limit : Nat) (offset : Value) (w : Workspace) :
    Notes w (wordOffset? limit offset w).2 :=
  region?_notes limit offset _ w

theorem loadWord_notes (limit : Nat) (w : Workspace) : Notes w (loadWord limit w) := by
  apply ((pop_notes w).trans (wordOffset?_notes limit w.pop.1 w.pop.2)).trans
  unfold loadWord
  simp only
  split <;> exact push_notes _ _

theorem storeWord_notes (limit : Nat) (w : Workspace) : Notes w (storeWord limit w) := by
  apply (((pop_notes w).trans (pop_notes _)).trans (wordOffset?_notes limit w.pop.1 _)).trans
  unfold storeWord
  simp only
  split <;> exact notes_of_faults_eq rfl

theorem storeLowByte_notes (limit : Nat) (w : Workspace) : Notes w (storeLowByte limit w) := by
  apply (((pop_notes w).trans (pop_notes _)).trans (wordOffset?_notes limit w.pop.1 _)).trans
  unfold storeLowByte
  simp only
  split <;> exact notes_of_faults_eq rfl

theorem notes_of_region? {limit : Nat} {offset size : Value} {w w' : Workspace}
    {region : Option (Nat × Nat)} (h : region? limit offset size w = (region, w')) :
    Notes w w' := by
  have hnotes := region?_notes limit offset size w
  rwa [h] at hnotes

theorem copyWithin_notes (limit : Nat) (w : Workspace) : Notes w (copyWithin limit w) := by
  apply (((pop_notes w).trans (pop_notes _)).trans (pop_notes _)).trans
  unfold copyWithin
  simp only
  split
  · next hregion => exact notes_of_region? hregion
  · next hregion =>
    apply (notes_of_region? hregion).trans
    -- The two regions are checked one after the other, and each can be at fault.
    split <;> next hregion' => exact (notes_of_region? hregion').trans (notes_of_faults_eq rfl)

theorem copyIn_notes (leading limit : Nat) (w : Workspace) :
    Notes w (copyIn leading limit w) := by
  apply ((((discard_notes w leading).trans (pop_notes _)).trans (pop_notes _)).trans
    (pop_notes _)).trans
  unfold copyIn
  simp only
  split <;> next hregion => exact (notes_of_region? hregion).trans (notes_of_faults_eq rfl)

theorem hashRegion_notes (limit : Nat) (w : Workspace) : Notes w (hashRegion limit w) := by
  apply (((pop_notes w).trans (pop_notes _)).trans
    (region?_notes limit w.pop.1 w.pop.2.pop.1 _)).trans
  unfold hashRegion
  simp only
  split <;> exact push_notes _ _

theorem jumpTo_notes (conditions : Nat) (w : Workspace) : Notes w (jumpTo conditions w) :=
  ((pop_notes w).trans (discard_notes _ conditions)).trans (notes_of_faults_eq rfl)

end Workspace

/-! ## All opcodes -/

open Workspace in
/-- The faults that an opcode meets are those of the operations that it is made of. -/
theorem Opcode.run_notes (limit : Nat) (op : Opcode) (w : Workspace) :
    Notes w (op.run limit w) := by
  have hnamed : ∀ name : String, Notes w ((w.discard op.arity).pushText name) := fun name =>
    (discard_notes w _).trans (push_notes _ _)
  cases op with
  | add | mul | sub | div | sdiv | mod | smod | exp | lt | gt | slt | sgt | eq | and | or | xor
  | shl | shr | sar | signextend | byte => exact binary_notes _ _ w
  | addmod | mulmod => exact ternary_notes _ _ w
  | iszero | not => exact unary_notes _ _ w
  | balance | sload | tload => exact lookUp_notes _ _ _ w
  | calldataload => exact (pop_notes w).trans (push_notes _ _)
  | sha3 => exact hashRegion_notes limit w
  | mload => exact loadWord_notes limit w
  | mstore => exact storeWord_notes limit w
  | mstore8 => exact storeLowByte_notes limit w
  | mcopy => exact copyWithin_notes limit w
  | calldatacopy | codecopy | returndatacopy => exact copyIn_notes 0 limit w
  | extcodecopy => exact copyIn_notes 1 limit w
  | push0 => exact push_notes w _
  | dup depth => exact attempt_notes w _
  | swap depth => exact attempt_notes w _
  | jump => exact jumpTo_notes 0 w
  | jumpi => exact jumpTo_notes 1 w
  | push width => exact .refl w
  | stop | jumpdest | invalid => exact .refl w
  | pop | sstore | tstore | ret | revert | selfdestruct => exact discard_notes w _
  | log topics => exact discard_notes w _
  | _ => exact hnamed _

end HuffTrace

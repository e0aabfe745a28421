/-
  HuffTrace.Proofs.Opcode.Regions

  The memory that opcodes reach.  An opcode that works on memory names a region
  by its operands (`Opcode.target?`).  If the region is known and lies within
  the limit, the opcode writes there and nowhere else (`Opcode.memory_run`); if
  it is known and reaches beyond the limit, the opcode leaves the memory alone
  and complains once (`Opcode.run_refuses`).  All other opcodes do neither
  (`Opcode.run_spares`).
-/

import HuffTrace.Proofs.Memory.History
import HuffTrace.Proofs.Opcode.Workspace

namespace HuffTrace

/-- The complaint about a memory region. -/
def Fault.isRefusal : Fault → Bool
  | .unsupportedMemoryOffset _ => true
  | _ => false

namespace Workspace

/-! ## Operands -/

/-- The value at a depth of the stack, or the placeholder for it. -/
def operand (w : Workspace) (depth : Nat) : Value :=
  (w.stack.visible[depth]?).getD missing

@[simp] theorem fst_pop (w : Workspace) : w.pop.1 = w.operand 0 := by
  unfold pop Stack.pop operand
  cases w.stack.visible <;> rfl

theorem operand_discard (w : Workspace) (n depth : Nat) :
    (w.discard n).operand depth = w.operand (n + depth) := by
  rw [operand, stack_discard, List.getElem?_drop]
  rfl

@[simp] theorem operand_pop (w : Workspace) (depth : Nat) :
    w.pop.2.operand depth = w.operand (depth + 1) := by
  rw [Nat.add_comm]
  exact operand_discard w 1 depth

/-! ## Workspaces apart from memory -/

/-- The complaints about memory regions, in order. -/
def refusals (w : Workspace) : List Fault :=
  w.faults.filter Fault.isRefusal

/-- The second workspace has the memory of the first one and no more complaints about it. -/
structure Spares (w w' : Workspace) : Prop where
  memory : w'.memory = w.memory
  refusals : w'.refusals = w.refusals

/-- The second workspace has the memory of the first one and one more complaint, about the
    region at an offset. -/
structure Refuses (offset : Value) (w w' : Workspace) : Prop where
  memory : w'.memory = w.memory
  refusals : w'.refusals = w.refusals ++ [.unsupportedMemoryOffset offset.text]

section Spares

variable {w w₁ w₂ w₃ : Workspace} {offset : Value}

theorem Spares.refl (w : Workspace) : Spares w w := ⟨rfl, rfl⟩

theorem Spares.trans (h : Spares w₁ w₂) (h' : Spares w₂ w₃) : Spares w₁ w₃ :=
  ⟨h'.memory.trans h.memory, h'.refusals.trans h.refusals⟩

theorem Spares.refuses (h : Spares w₁ w₂) (h' : Refuses offset w₂ w₃) : Refuses offset w₁ w₃ :=
  ⟨h'.memory.trans h.memory, by rw [h'.refusals, h.refusals]⟩

theorem Refuses.spares (h : Refuses offset w₁ w₂) (h' : Spares w₂ w₃) : Refuses offset w₁ w₃ :=
  ⟨h'.memory.trans h.memory, by rw [h'.refusals, h.refusals]⟩

theorem report_spares (w : Workspace) {fault : Fault} (h : fault.isRefusal = false) :
    Spares w (w.report fault) := by
  refine ⟨rfl, ?_⟩
  rw [Workspace.refusals, report, List.filter_append, List.filter_cons_of_neg (by simp [h])]
  exact List.append_nil _

theorem report_refuses (w : Workspace) (offset : Value) :
    Refuses offset w (w.report (.unsupportedMemoryOffset offset.text)) := by
  refine ⟨rfl, ?_⟩
  rw [Workspace.refusals, report, List.filter_append]
  rfl

theorem attempt_spares (w : Workspace) (result : Except StackError Stack) :
    Spares w (w.attempt result) := by
  unfold attempt
  split
  · exact ⟨rfl, rfl⟩
  · exact report_spares w rfl

theorem pop_spares (w : Workspace) : Spares w w.pop.2 := by
  unfold pop
  split
  · exact ⟨rfl, rfl⟩
  · exact report_spares w rfl

theorem discard_spares (w : Workspace) (n : Nat) : Spares w (w.discard n) := by
  induction n generalizing w with
  | zero => exact .refl w
  | succ n ih => exact (pop_spares w).trans (ih _)

theorem push_spares (w : Workspace) (v : Value) : Spares w (w.push v) :=
  attempt_spares w _

@[simp] theorem memory_pop (w : Workspace) : w.pop.2.memory = w.memory :=
  (pop_spares w).memory

@[simp] theorem memory_discard (w : Workspace) (n : Nat) : (w.discard n).memory = w.memory :=
  (discard_spares w n).memory

@[simp] theorem memory_push (w : Workspace) (v : Value) : (w.push v).memory = w.memory :=
  (push_spares w v).memory

@[simp] theorem memory_pushText (w : Workspace) (text : String) :
    (w.pushText text).memory = w.memory :=
  memory_push w _

-- Operations that fold, look-ups and jumps take operands off and leave a result at most.

theorem unary_spares (fold : Word → Word) (render : String → String) (w : Workspace) :
    Spares w (unary fold render w) := by
  apply (discard_spares w 1).trans
  unfold unary
  simp only
  split <;> exact push_spares _ _

theorem binary_spares (fold : Word → Word → Word) (render : String → String → String)
    (w : Workspace) : Spares w (binary fold render w) := by
  apply (discard_spares w 2).trans
  unfold binary
  simp only
  split <;> exact push_spares _ _

theorem ternary_spares (fold : Word → Word → Word → Word)
    (render : String → String → String → String) (w : Workspace) :
    Spares w (ternary fold render w) := by
  apply (discard_spares w 3).trans
  unfold ternary
  simp only
  split <;> exact push_spares _ _

theorem lookUp_spares (before : String) (limit : Nat) (after : String) (w : Workspace) :
    Spares w (lookUp before limit after w) :=
  (pop_spares w).trans (push_spares _ _)

theorem jumpTo_spares (conditions : Nat) (w : Workspace) : Spares w (jumpTo conditions w) :=
  ((pop_spares w).trans (discard_spares _ conditions)).trans ⟨rfl, rfl⟩

end Spares

/-! ## Regions -/

/-- The size of a word as an operand. -/
def wordSize : Value :=
  .folded (BitVec.ofNat 256 Word.byteCount)

/-- The offset and the size of the region that two values name, if both are known and the region
    ends within the limit and within 64 bits. -/
def bounds? (limit : Nat) (offset size : Value) : Option (Nat × Nat) :=
  match offset.word?, size.word? with
  | some o, some s =>
    if o.toNat + s.toNat ≤ limit ∧ o.toNat + s.toNat < UInt64.size then some (o.toNat, s.toNat)
    else none
  | _, _ => none

/-- Two values name a region that is known and ends beyond the limit or beyond 64 bits. -/
def Exceeds (limit : Nat) (offset size : Value) : Prop :=
  ∃ o ∈ offset.word?, ∃ s ∈ size.word?,
    limit < o.toNat + s.toNat ∨ UInt64.size ≤ o.toNat + s.toNat

-- The instance looks at the words of the two values, not through all words that there are.
instance (limit : Nat) (offset size : Value) : Decidable (Exceeds limit offset size) :=
  decidable_of_iff
    (offset.word?.any fun o => size.word?.any fun s =>
      decide (limit < o.toNat + s.toNat ∨ UInt64.size ≤ o.toNat + s.toNat))
    (by simp only [Exceeds, Option.any_eq_true, decide_eq_true_eq, Option.mem_def])

/-- The workspace after the region has been looked at that two values name. -/
def checked (limit : Nat) (offset size : Value) (w : Workspace) : Workspace :=
  if Exceeds limit offset size then w.report (.unsupportedMemoryOffset offset.text) else w

section Region

variable {limit start count : Nat} {offset size : Value} {w : Workspace}

theorem within_of_bounds? (h : bounds? limit offset size = some (start, count)) :
    start + count ≤ limit ∧ start + count < UInt64.size := by
  unfold bounds? at h
  split at h
  · split at h
    · next hin =>
      cases h
      exact hin
    · cases h
  · cases h

theorem bounds?_wordSize (h : bounds? limit offset wordSize = some (start, count)) :
    count = Word.byteCount := by
  unfold bounds? at h
  split at h
  · next hs =>
    cases hs
    split at h
    · cases h
      rfl
    · cases h
  · cases h

/-- A region with known ends is accepted if it ends within the limit and within 64 bits, and
    refused otherwise. -/
theorem region?_of_word? {o s : Word} (ho : offset.word? = some o) (hs : size.word? = some s)
    (w : Workspace) :
    w.region? limit offset size
      = if o.toNat + s.toNat ≤ limit ∧ o.toNat + s.toNat < UInt64.size then
          (some (o.toNat, s.toNat), w)
        else (none, w.report (.unsupportedMemoryOffset offset.text)) := by
  simp only [region?, ho, hs, Word.toIndex?]
  -- A word that 64 bits cannot hold puts the end of the region beyond them as well.
  by_cases hstart : o.toNat < UInt64.size
  · by_cases hcount : s.toNat < UInt64.size
    · simp only [if_pos hstart, if_pos hcount, and_comm]
    · simp only [if_pos hstart, if_neg hcount]
      rw [if_neg (by omega)]
  · simp only [if_neg hstart]
    rw [if_neg (by omega)]

theorem bounds?_of_exceeds (h : Exceeds limit offset size) :
    bounds? limit offset size = none := by
  obtain ⟨o, ho, s, hs, hout⟩ := h
  rw [Option.mem_def] at ho hs
  simp only [bounds?, ho, hs]
  exact if_neg (by omega)

theorem region?_eq (limit : Nat) (offset size : Value) (w : Workspace) :
    w.region? limit offset size = (bounds? limit offset size, w.checked limit offset size) := by
  by_cases hexceeds : Exceeds limit offset size
  · rw [bounds?_of_exceeds hexceeds, checked, if_pos hexceeds]
    obtain ⟨o, ho, s, hs, hout⟩ := hexceeds
    rw [region?_of_word? ho hs, if_neg (by omega)]
  · rw [checked, if_neg hexceeds]
    cases ho : offset.word? with
    | none => simp only [region?, bounds?, ho]
    | some o =>
      cases hs : size.word? with
      | none => simp only [region?, bounds?, ho, hs]
      | some s =>
        have hin : o.toNat + s.toNat ≤ limit ∧ o.toNat + s.toNat < UInt64.size := by
          by_contra hout
          exact hexceeds ⟨o, ho, s, hs, by omega⟩
        rw [region?_of_word? ho hs, if_pos hin]
        simp only [bounds?, ho, hs, if_pos hin]

theorem wordOffset?_eq (limit : Nat) (offset : Value) (w : Workspace) :
    w.wordOffset? limit offset
      = ((bounds? limit offset wordSize).map (·.1), w.checked limit offset wordSize) := by
  rw [wordOffset?, ← wordSize, region?_eq]

@[simp] theorem memory_checked (limit : Nat) (offset size : Value) (w : Workspace) :
    (w.checked limit offset size).memory = w.memory := by
  unfold checked
  split <;> rfl

theorem checked_refuses (h : Exceeds limit offset size) (w : Workspace) :
    Refuses offset w (w.checked limit offset size) := by
  rw [checked, if_pos h]
  exact report_refuses w offset

end Region

/-! ## Operations on memory -/

section Memory

variable (limit : Nat) (w : Workspace)

theorem memory_loadWord : (loadWord limit w).memory = w.memory := by
  simp only [loadWord, wordOffset?_eq]
  split <;> simp only [memory_push, memory_pushText, memory_checked, memory_pop]

theorem memory_hashRegion : (hashRegion limit w).memory = w.memory := by
  simp only [hashRegion, region?_eq]
  split <;> simp only [memory_push, memory_pushText, memory_checked, memory_pop]

theorem memory_storeWord :
    (storeWord limit w).memory
      = match bounds? limit (w.operand 0) wordSize, (w.operand 1).word? with
        | none, _ => w.memory
        | some (start, _), some word => w.memory.store start word
        | some (start, _), none => w.memory.forget start Word.byteCount := by
  simp only [storeWord, wordOffset?_eq, fst_pop, operand_pop]
  cases bounds? limit (w.operand 0) wordSize with
  | none => simp only [Option.map_none, memory_checked, memory_pop]
  | some region => cases (w.operand 1).word? <;> simp

theorem memory_storeLowByte :
    (storeLowByte limit w).memory
      = match bounds? limit (w.operand 0) wordSize, (w.operand 1).word? with
        | none, _ => w.memory
        | some (start, _), some word => w.memory.storeByte start (UInt8.ofNat word.toNat)
        | some (start, _), none => (w.memory.storeByte start 0).forget start 1 := by
  simp only [storeLowByte, wordOffset?_eq, fst_pop, operand_pop]
  cases bounds? limit (w.operand 0) wordSize with
  | none => simp only [Option.map_none, memory_checked, memory_pop]
  | some region => cases (w.operand 1).word? <;> simp

theorem memory_copyWithin :
    (copyWithin limit w).memory
      = match bounds? limit (w.operand 0) (w.operand 2),
          bounds? limit (w.operand 1) (w.operand 2) with
        | none, _ => w.memory
        | some (start, count), some (origin, _) => w.memory.copy start origin count
        | some (start, count), none => w.memory.forget start count := by
  simp only [copyWithin, region?_eq, fst_pop, operand_pop]
  cases bounds? limit (w.operand 0) (w.operand 2) with
  | none => simp only [memory_checked, memory_pop]
  | some region => cases bounds? limit (w.operand 1) (w.operand 2) <;> simp

theorem memory_copyIn (leading : Nat) :
    (copyIn leading limit w).memory
      = match bounds? limit (w.operand leading) (w.operand (leading + 2)) with
        | none => w.memory
        | some (start, count) => w.memory.forget start count := by
  simp only [copyIn, region?_eq, fst_pop, operand_pop, operand_discard]
  cases bounds? limit (w.operand leading) (w.operand (leading + 2)) <;> simp

end Memory

section Refusal

variable {limit : Nat} {w : Workspace}

-- A region that is refused is looked at before anything is written, so all that is left to an
-- operation is to leave a result.

theorem loadWord_refuses (h : Exceeds limit (w.operand 0) wordSize) :
    Refuses (w.operand 0) w (loadWord limit w) := by
  apply (discard_spares w 1).refuses
  simp only [loadWord, wordOffset?_eq, fst_pop, bounds?_of_exceeds h]
  exact (checked_refuses h _).spares (push_spares _ _)

theorem hashRegion_refuses (h : Exceeds limit (w.operand 0) (w.operand 1)) :
    Refuses (w.operand 0) w (hashRegion limit w) := by
  apply (discard_spares w 2).refuses
  simp only [hashRegion, region?_eq, fst_pop, operand_pop, bounds?_of_exceeds h]
  exact (checked_refuses h _).spares (push_spares _ _)

theorem storeWord_refuses (h : Exceeds limit (w.operand 0) wordSize) :
    Refuses (w.operand 0) w (storeWord limit w) := by
  apply (discard_spares w 2).refuses
  simp only [storeWord, wordOffset?_eq, fst_pop, bounds?_of_exceeds h]
  exact checked_refuses h _

theorem storeLowByte_refuses (h : Exceeds limit (w.operand 0) wordSize) :
    Refuses (w.operand 0) w (storeLowByte limit w) := by
  apply (discard_spares w 2).refuses
  simp only [storeLowByte, wordOffset?_eq, fst_pop, bounds?_of_exceeds h]
  exact checked_refuses h _

theorem copyWithin_refuses (h : Exceeds limit (w.operand 0) (w.operand 2)) :
    Refuses (w.operand 0) w (copyWithin limit w) := by
  apply (discard_spares w 3).refuses
  simp only [copyWithin, region?_eq, fst_pop, operand_pop, bounds?_of_exceeds h]
  exact checked_refuses h _

theorem copyIn_refuses {leading : Nat}
    (h : Exceeds limit (w.operand leading) (w.operand (leading + 2))) :
    Refuses (w.operand leading) w (copyIn leading limit w) := by
  apply ((discard_spares w leading).trans (discard_spares _ 3)).refuses
  simp only [copyIn, region?_eq, fst_pop, operand_pop, operand_discard, Nat.add_zero, Nat.zero_add,
    bounds?_of_exceeds h]
  exact checked_refuses h _

end Refusal

end Workspace

/-! ## All opcodes -/

namespace Opcode

open Workspace

/-- The offset and the size of the region of memory that an opcode reads or writes, as values; of
    a copy, the region that it writes. -/
def target? (w : Workspace) : Opcode → Option (Value × Value)
  | .mload | .mstore | .mstore8 => some (w.operand 0, wordSize)
  | .sha3 => some (w.operand 0, w.operand 1)
  | .mcopy | .calldatacopy | .codecopy | .returndatacopy => some (w.operand 0, w.operand 2)
  | .extcodecopy => some (w.operand 1, w.operand 3)
  | _ => none

/-- What an opcode does to the region of memory that it has been granted. -/
def writes (limit : Nat) (w : Workspace) (start count : Nat) : Opcode → List Memory.Operation
  | .mstore =>
    match (w.operand 1).word? with
    | some word => [.store start word]
    | none => [.forget start Word.byteCount]
  | .mstore8 =>
    match (w.operand 1).word? with
    | some word => [.storeByte start (UInt8.ofNat word.toNat)]
    | none => [.storeByte start 0, .forget start 1]
  | .mcopy =>
    match bounds? limit (w.operand 1) (w.operand 2) with
    | some (source, _) => [.copy start source count]
    | none => [.forget start count]
  | .calldatacopy | .codecopy | .returndatacopy | .extcodecopy => [.forget start count]
  | _ => []

/-- What an opcode does to the memory, the earliest first. -/
def accesses (limit : Nat) (w : Workspace) (op : Opcode) : List Memory.Operation :=
  match op.target? w with
  | some (offset, size) =>
    match bounds? limit offset size with
    | some (start, count) => op.writes limit w start count
    | none => []
  | none => []

variable {limit : Nat} {w : Workspace} {op : Opcode} {offset size : Value}

/-- An opcode that names no region has nothing to do with the memory. -/
theorem run_spares (h : op.target? w = none) : Spares w (op.run limit w) := by
  cases hname : op.resultName? with
  | some name =>
    rw [run_of_resultName? hname]
    exact (discard_spares w _).trans (push_spares _ _)
  | none =>
    -- Where a shape takes functions, unification does not see through `run` by itself.
    cases op with
    | add | mul | sub | div | sdiv | mod | smod | exp | lt | gt | slt | sgt | eq | and | or | xor
    | shl | shr | sar | signextend | byte => rw [run]; exact binary_spares _ _ w
    | addmod | mulmod => rw [run]; exact ternary_spares _ _ w
    | iszero | not => rw [run]; exact unary_spares _ _ w
    | balance | sload | tload => rw [run]; exact lookUp_spares _ _ _ w
    | calldataload => exact (pop_spares w).trans (push_spares _ _)
    | push0 => exact push_spares w _
    | dup depth => exact attempt_spares w _
    | swap depth => exact attempt_spares w _
    | jump => exact jumpTo_spares 0 w
    | jumpi => exact jumpTo_spares 1 w
    | push width => exact .refl w
    | stop | jumpdest | invalid => exact .refl w
    | pop | sstore | tstore | ret | revert | selfdestruct => exact discard_spares w _
    | log topics => exact discard_spares w _
    | sha3 | mload | mstore | mstore8 | mcopy | calldatacopy | codecopy | returndatacopy
    | extcodecopy => cases h
    | _ => cases hname

/-- An opcode whose region reaches too far leaves the memory as it is and complains once. -/
theorem run_refuses (htarget : op.target? w = some (offset, size))
    (h : Exceeds limit offset size) : Refuses offset w (op.run limit w) := by
  cases op with
  | mload => cases htarget; exact loadWord_refuses h
  | mstore => cases htarget; exact storeWord_refuses h
  | mstore8 => cases htarget; exact storeLowByte_refuses h
  | sha3 => cases htarget; exact hashRegion_refuses h
  | mcopy => cases htarget; exact copyWithin_refuses h
  | calldatacopy | codecopy | returndatacopy => cases htarget; exact copyIn_refuses h
  | extcodecopy => cases htarget; exact copyIn_refuses h
  | _ => cases htarget

/-- What an opcode makes of the memory is what its accesses make of it. -/
theorem memory_run (limit : Nat) (w : Workspace) (op : Opcode) :
    (op.run limit w).memory = (op.accesses limit w).foldl Memory.Operation.apply w.memory := by
  cases htarget : op.target? w with
  | none =>
    rw [(run_spares htarget).memory, accesses, htarget]
    rfl
  | some target =>
    cases op with
    | mload =>
      rw [run, memory_loadWord]
      simp only [accesses, target?, writes]
      cases bounds? limit (w.operand 0) wordSize <;> rfl
    | sha3 =>
      rw [run, memory_hashRegion]
      simp only [accesses, target?, writes]
      cases bounds? limit (w.operand 0) (w.operand 1) <;> rfl
    | mstore =>
      rw [run, memory_storeWord]
      simp only [accesses, target?, writes]
      cases bounds? limit (w.operand 0) wordSize with
      | none => rfl
      | some region => cases (w.operand 1).word? <;> rfl
    | mstore8 =>
      rw [run, memory_storeLowByte]
      simp only [accesses, target?, writes]
      cases bounds? limit (w.operand 0) wordSize with
      | none => rfl
      | some region => cases (w.operand 1).word? <;> rfl
    | mcopy =>
      rw [run, memory_copyWithin]
      simp only [accesses, target?, writes]
      cases bounds? limit (w.operand 0) (w.operand 2) with
      | none => rfl
      | some region => cases bounds? limit (w.operand 1) (w.operand 2) <;> rfl
    | calldatacopy | codecopy | returndatacopy =>
      rw [run, memory_copyIn]
      simp only [accesses, target?, writes]
      cases bounds? limit (w.operand 0) (w.operand (0 + 2)) <;> rfl
    | extcodecopy =>
      rw [run, memory_copyIn]
      simp only [accesses, target?, writes]
      cases bounds? limit (w.operand 1) (w.operand (1 + 2)) <;> rfl
    | _ => cases htarget

/-- What an opcode does to the region that it has been granted stays in that region. -/
theorem stop_le_of_mem_writes {start count : Nat} {operation : Memory.Operation}
    (htarget : op.target? w = some (offset, size))
    (hbounds : bounds? limit offset size = some (start, count))
    (h : operation ∈ op.writes limit w start count) : operation.stop ≤ start + count := by
  cases op with
  | mstore =>
    cases htarget
    obtain rfl := bounds?_wordSize hbounds
    simp only [writes] at h
    split at h <;> exact List.mem_singleton.1 h ▸ Nat.le_refl _
  | mstore8 =>
    cases htarget
    obtain rfl := bounds?_wordSize hbounds
    simp only [writes] at h
    split at h
    · exact List.mem_singleton.1 h ▸ Nat.le_refl _
    · -- An unknown byte is stored as a word and then forgotten alone.
      rcases List.mem_cons.1 h with rfl | h
      · exact Nat.le_refl _
      · rw [List.mem_singleton.1 h]
        exact Nat.add_le_add_left (show 1 ≤ Word.byteCount from by decide) start
  | mcopy =>
    simp only [writes] at h
    split at h <;> exact List.mem_singleton.1 h ▸ Nat.le_refl _
  | calldatacopy | codecopy | returndatacopy | extcodecopy =>
    exact List.mem_singleton.1 h ▸ Nat.le_refl _
  | _ => cases h

/-- The accesses of an opcode end within the limit and within 64 bits. -/
theorem within_of_mem_accesses {operation : Memory.Operation}
    (h : operation ∈ op.accesses limit w) : operation.stop ≤ limit ∧ operation.Fits := by
  unfold accesses at h
  split at h
  · next offset size htarget =>
    split at h
    · next start count hbounds =>
      have hstop := stop_le_of_mem_writes htarget hbounds h
      obtain ⟨hlimit, hsize⟩ := within_of_bounds? hbounds
      exact ⟨hstop.trans hlimit, Nat.lt_of_le_of_lt hstop hsize⟩
    · cases h
  · cases h

end Opcode

end HuffTrace

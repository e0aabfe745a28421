/-
  HuffTrace.Proofs.Machine.Memory

  Memory throughout an execution.  A turn that begins a macro clears the memory,
  one that executes an opcode does to it what the opcode does, and no other turn
  touches it (`Turn.memory_eq`); a machine for another program starts with a
  memory of its own.  So the memory never grows beyond the limit, and all that
  is done to it can be done to the rows that hold it without a failure
  (`MemoryWithin`, `Turn.holds`).
-/

import HuffTrace.Proofs.Machine.Labels
import HuffTrace.Proofs.Machine.Limits
import HuffTrace.Proofs.Opcode.Regions

namespace HuffTrace

namespace Diagnostics

/-- The complaints about memory regions. -/
def refusals (d : Diagnostics Fault) : List (Located Fault) :=
  d.toList.filter (·.item.isRefusal)

theorem refusals_foldl (line : Nat) (met : List Fault) (d : Diagnostics Fault) :
    (met.foldl (fun d fault => d.add line fault) d).refusals.Perm
      (d.refusals ++ (met.filter Fault.isRefusal).map fun fault => ⟨line, fault⟩) := by
  have hperm := (perm_addAll d (met.map fun fault => ⟨line, fault⟩)).filter (·.item.isRefusal)
  rw [List.filter_append, List.filter_map] at hperm
  rw [foldl_add]
  exact hperm

end Diagnostics

namespace Machine

variable {σ : Type}

/-! ## What the next turn does to the memory -/

/-- What an opcode of the machine works on. -/
def workspace (m : Machine σ) : Workspace :=
  { stack := m.stack, memory := m.memory }

/-- The opcode that the next turn executes. -/
def opcode? (m : Machine σ) : Option Opcode :=
  match (m.program.token? m.pointer).map Token.kind with
  | some (.opcode op) => some op
  | _ => none

/-- What the next turn does to the memory, unless it clears it. -/
def accesses (m : Machine σ) : List Memory.Operation :=
  match m.opcode? with
  | some op => op.accesses m.limits.memory m.workspace
  | none => []

/-- What the next turn makes of the rows that hold the memory, unless that fails. -/
def rowsAfter? (m : Machine σ) (rows : Memory.Rows) : Option Memory.Rows :=
  if m.Begins then some {}
  else m.accesses.foldlM (fun rows operation => operation.onRows? rows) rows

theorem opcode?_eq_some_iff {m : Machine σ} {op : Opcode} :
    m.opcode? = some op
      ↔ ∃ token, m.program.token? m.pointer = some token ∧ token.kind = .opcode op := by
  unfold opcode?
  cases m.program.token? m.pointer with
  | none => simp
  | some token => cases hkind : token.kind <;> simp [hkind]

theorem within_of_mem_accesses {m : Machine σ} {operation : Memory.Operation}
    (h : operation ∈ m.accesses) : operation.stop ≤ m.limits.memory ∧ operation.Fits := by
  unfold accesses at h
  split at h
  · exact Opcode.within_of_mem_accesses h
  · cases h

section Turn

variable [Scope σ] {stop : Nat} {m m' : Machine σ} {op : Opcode}

/-- A turn with an opcode executes it at the line of its token. -/
theorem Turn.opcode (h : Turn stop m m') (hop : m.opcode? = some op) :
    m'.memory = (op.run m.limits.memory m.workspace).memory
      ∧ m'.faults = (op.run m.limits.memory m.workspace).faults.foldl
          (fun d fault => d.add m'.line fault) m.faults := by
  obtain ⟨token, htoken, hkind⟩ := opcode?_eq_some_iff.1 hop
  obtain ⟨comments, rfl⟩ : ∃ comments, m' = { (m.advance token).runOpcode op with comments } := by
    refine ⟨m'.comments, ?_⟩
    rw [h.eq_turn htoken, turn_eq, step, hkind]
  rw [runOpcode, work_eq]
  exact ⟨rfl, rfl⟩

theorem Turn.memory_of_begins (h : Turn stop m m') (hbegins : m.Begins) : m'.memory = .empty := by
  obtain ⟨token, htoken, hkind⟩ := Option.map_eq_some_iff.1 hbegins.2
  have hempty : (m.advance token).frames = [] := hbegins.1
  rw [h.eq_turn htoken, turn_eq, step, hkind]
  show ((m.advance token).define m.pointer token).2.memory = .empty
  simp only [define, foldl_record, hempty]

/-- What a turn makes of the memory. -/
theorem Turn.memory_eq (h : Turn stop m m') :
    m'.memory
      = if m.Begins then .empty
        else m.accesses.foldl (fun memory operation => operation.apply memory) m.memory := by
  by_cases hbegins : m.Begins
  · rw [if_pos hbegins, h.memory_of_begins hbegins]
  rw [if_neg hbegins]
  -- Opcodes are told apart first, because an idle token might be one for all that `Acts` says.
  cases hop : m.opcode? with
  | some op =>
    rw [(h.opcode hop).1, Opcode.memory_run, accesses, hop]
    rfl
  | none =>
    rw [accesses, hop]
    show m'.memory = m.memory
    obtain ⟨token, htoken, rfl⟩ := h.turned
    obtain ⟨anchor, after, comments, hacts, hafter⟩ :=
      turn_acts (fun stop n => n.runTo stop) m token
    rw [hafter]
    cases hacts with
    | push v _ =>
      rw [push_eq, work_eq]
      exact Workspace.memory_push _ v
    | opcode op kind => cases (opcode?_eq_some_iff.2 ⟨token, htoken, kind⟩).symm.trans hop
    | analyse _ kind hframes =>
      exact absurd ⟨hframes, by rw [htoken, Option.map_some, kind]⟩ hbegins
    | _ => rfl

/-- What a turn does to the memory can be done to the rows that hold it. -/
theorem Turn.holds (h : Turn stop m m') {rows : Memory.Rows} (hrows : rows.Holds m.memory) :
    ∃ rows', m.rowsAfter? rows = some rows' ∧ rows'.Holds m'.memory := by
  rw [h.memory_eq, rowsAfter?]
  by_cases hbegins : m.Begins
  · rw [if_pos hbegins, if_pos hbegins]
    exact ⟨{}, rfl, Memory.Rows.holds_empty⟩
  · rw [if_neg hbegins, if_neg hbegins]
    exact hrows.foldlM fun _ hmem => (within_of_mem_accesses hmem).2

/-- A turn whose opcode names a region that reaches too far leaves the memory as it is and
    complains once, at the line of the opcode. -/
theorem Turn.refuses (h : Turn stop m m') (hop : m.opcode? = some op) {offset size : Value}
    (htarget : op.target? m.workspace = some (offset, size))
    (hexceeds : Workspace.Exceeds m.limits.memory offset size) :
    m'.memory = m.memory
      ∧ m'.faults.refusals.Perm
          (m.faults.refusals ++ [⟨m'.line, .unsupportedMemoryOffset offset.text⟩]) := by
  obtain ⟨hmemory, hfaults⟩ := h.opcode hop
  obtain ⟨hkept, hmet⟩ := Opcode.run_refuses htarget hexceeds
  refine ⟨hmemory.trans hkept, ?_⟩
  have hperm := Diagnostics.refusals_foldl m'.line
    (op.run m.limits.memory m.workspace).faults m.faults
  rw [← hfaults, show (op.run m.limits.memory m.workspace).faults.filter Fault.isRefusal
    = [.unsupportedMemoryOffset offset.text] from hmet] at hperm
  exact hperm

end Turn

/-! ## Executions -/

section Execution

variable [Scope σ]

/-- The memory is within the limit, and there are rows that hold it. -/
structure MemoryWithin (limits : Limits) (m : Machine σ) : Prop where
  setting : m.limits = limits
  size : m.memory.size ≤ limits.memory
  held : ∃ rows : Memory.Rows, rows.Holds m.memory

omit [Scope σ] in
theorem memoryWithin_of_empty {limits : Limits} {m : Machine σ} (hlimits : m.limits = limits)
    (hempty : m.memory = .empty) : MemoryWithin limits m := by
  refine ⟨hlimits, ?_, {}, ?_⟩
  · rw [hempty]
    exact Nat.zero_le _
  · rw [hempty]
    exact Memory.Rows.holds_empty

theorem MemoryWithin.turn {limits : Limits} {stop : Nat} {m m' : Machine σ}
    (h : MemoryWithin limits m) (hturn : Turn stop m m') : MemoryWithin limits m' := by
  obtain ⟨rfl, hsize, rows, hrows⟩ := h
  obtain ⟨rows', -, hrows'⟩ := hturn.holds hrows
  refine ⟨hturn.sameSetting.limits, ?_, rows', hrows'⟩
  rw [hturn.memory_eq]
  split
  · exact Nat.zero_le _
  · exact Memory.size_foldl_le (fun _ hmem => (within_of_mem_accesses hmem).1) hsize

theorem MemoryWithin.reaches {limits : Limits} {stop stop' : Nat} {m n : Machine σ}
    (h : MemoryWithin limits m) (hreaches : Reaches stop m stop' n) : MemoryWithin limits n := by
  refine hreaches.invariant (fun hturn hn => hn.turn hturn) ?_ h
  -- A machine for another program has the limits of its caller and nothing in its memory.
  intro stop a a' token external _ _ ha
  obtain ⟨rfl, -, -⟩ := ha
  exact memoryWithin_of_empty rfl rfl

theorem MemoryWithin.passes {limits : Limits} {stop : Nat} {m n : Machine σ}
    (h : MemoryWithin limits m) (hpasses : Passes stop m n) : n.memory.size ≤ limits.memory := by
  cases hpasses with
  | head reaches => exact (h.reaches reaches).size
  | executing reaches _ _ =>
    have hhead := (h.reaches reaches).size
    exact hhead
  | exhausted reaches _ _ _ =>
    have hhead := (h.reaches reaches).size
    exact hhead

/-- At every moment of an execution, in the machines that it starts as well, the memory is within
    the limit.  Whatever a turn does to the memory can be done to rows that hold it, where no end
    of a region overflows 64 bits and no stretch lies outside, and so can every read.  An opcode
    whose region is known and reaches too far leaves the memory as it is and complains once. -/
theorem execute_memory_within (program : Program) (scope : σ) (limits : Limits) :
    (∀ n, Passes program.size (start program scope limits) n → n.memory.size ≤ limits.memory)
    ∧ ∀ stop n n', Reaches program.size (start program scope limits) stop n → Turn stop n n' →
      (∃ rows : Memory.Rows, rows.Holds n.memory)
      ∧ (∀ rows : Memory.Rows, rows.Holds n.memory →
        (∃ rows', n.rowsAfter? rows = some rows' ∧ rows'.Holds n'.memory)
        ∧ ∀ offset size, rows.read? offset size = some (n.memory.read offset size))
      ∧ ∀ op offset size, n.opcode? = some op → op.target? n.workspace = some (offset, size) →
        Workspace.Exceeds limits.memory offset size →
        n'.memory = n.memory
        ∧ n'.faults.refusals.Perm
            (n.faults.refusals ++ [⟨n'.line, .unsupportedMemoryOffset offset.text⟩]) := by
  have hstart : MemoryWithin limits (start program scope limits) :=
    memoryWithin_of_empty rfl rfl
  refine ⟨fun n hpasses => hstart.passes hpasses, ?_⟩
  intro stop n n' hreaches hturn
  obtain ⟨rfl, -, hheld⟩ := hstart.reaches hreaches
  refine ⟨hheld, fun rows hrows => ⟨hturn.holds hrows, hrows.read⟩, ?_⟩
  intro op offset size hop htarget hexceeds
  exact hturn.refuses hop htarget hexceeds

end Execution

/-- Two words that are stored, the second of them one byte too high for a limit of 64. -/
def storeTwice : List Token :=
  [⟨.literal, "0x01", 1, 1⟩, ⟨.literal, "0x20", 1, 1⟩, ⟨.opcode .mstore, "mstore", 1, 1⟩,
    ⟨.literal, "0x02", 2, 2⟩, ⟨.literal, "0x21", 2, 2⟩, ⟨.opcode .mstore, "mstore", 2, 2⟩]

def beforeStores : Machine Isolated :=
  start (Program.ofTokens storeTwice.toArray) .isolated { steps := 16, memory := 64 }

theorem execute_memory_within_storeTwice :
    (∃ n n', Reaches 6 beforeStores 6 n ∧ Turn 6 n n' ∧ n'.memory.size = 64
      ∧ ∃ rows', n.rowsAfter? {} = some rows' ∧ rows'.Holds n'.memory)
    ∧ ∃ n n', Reaches 6 beforeStores 6 n ∧ Turn 6 n n' ∧ n.opcode? = some .mstore
      ∧ Workspace.Exceeds 64 (.known 0x21 "0x21") Workspace.wordSize
      ∧ n'.memory.size ≤ 64 ∧ n'.memory = n.memory
      ∧ n'.faults.refusals = [⟨2, .unsupportedMemoryOffset "0x21"⟩] := by
  have hgoes : ∀ j < 6, (beforeStores.later j).Goes 6 := by decide +kernel
  have hturn : ∀ j < 6, Turn 6 (beforeStores.later j) (beforeStores.later (j + 1)) :=
    fun j hj => (hgoes j hj).turn_later
  have hreaches : ∀ j ≤ 6, Reaches 6 beforeStores 6 (beforeStores.later j) := fun j hj =>
    (turns_later fun i hi => hturn i (by omega)).reaches
  obtain ⟨hsize, hsteps⟩ := execute_memory_within (Program.ofTokens storeTwice.toArray)
    Isolated.isolated { steps := 16, memory := 64 }
  refine ⟨⟨_, _, hreaches 2 (by omega), hturn 2 (by omega), by decide +kernel, ?_⟩,
    _, _, hreaches 5 (by omega), hturn 5 (by omega), ?_⟩
  · have hempty : (beforeStores.later 2).memory = .empty := by decide +kernel
    obtain ⟨-, hrows, -⟩ := hsteps 6 _ _ (hreaches 2 (by omega)) (hturn 2 (by omega))
    exact (hrows {} (hempty ▸ Memory.Rows.holds_empty)).1
  · have hop : (beforeStores.later 5).opcode? = some .mstore := by decide +kernel
    have htarget : Opcode.mstore.target? (beforeStores.later 5).workspace
        = some (.known 0x21 "0x21", Workspace.wordSize) := by decide +kernel
    have hexceeds : Workspace.Exceeds 64 (.known 0x21 "0x21") Workspace.wordSize := by decide
    obtain ⟨-, -, hrefuses⟩ := hsteps 6 _ _ (hreaches 5 (by omega)) (hturn 5 (by omega))
    obtain ⟨hmemory, hperm⟩ := hrefuses .mstore _ _ hop htarget hexceeds
    have hbefore : (beforeStores.later 5).faults.refusals = [] := by decide +kernel
    have hline : (beforeStores.later 6).line = 2 := by decide +kernel
    rw [hbefore, hline] at hperm
    exact ⟨hop, hexceeds, hsize _ (.head (hreaches 6 (by omega))), hmemory,
      List.perm_singleton.1 hperm⟩

end Machine

end HuffTrace

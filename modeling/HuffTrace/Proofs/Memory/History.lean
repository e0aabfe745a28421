/-
  HuffTrace.Proofs.Memory.History

  What a memory holds after any sequence of operations.  Each operation is one
  write of cells over a region (`Operation.apply_eq_write`), so a cell shows
  what the last operation over it has put there, and a cell that no operation
  has been over is a known zero if the memory has grown past it (`Reflects`).

  `after_refines` is the whole account: the memory reflects its history, it is
  held by two rows of one length on which none of the operations fails, and
  reading gives exactly the regions that lie in it and are known throughout.
-/

import HuffTrace.Proofs.Evm.Folding
import HuffTrace.Proofs.Memory.Rows

namespace HuffTrace.Memory

/-! ## Operations -/

/-- An operation with its arguments. -/
inductive Operation where
  | store (offset : Nat) (w : Word)
  | storeByte (offset : Nat) (b : UInt8)
  | forget (offset size : Nat)
  | copy (target source size : Nat)
  deriving DecidableEq, Repr

namespace Operation

def apply (m : Memory) : Operation → Memory
  | .store offset w => m.store offset w
  | .storeByte offset b => m.storeByte offset b
  | .forget offset size => m.forget offset size
  | .copy target source size => m.copy target source size

/-- Where the region starts that an operation writes. -/
def start : Operation → Nat
  | .store offset _ | .storeByte offset _ | .forget offset _ | .copy offset _ _ => offset

/-- The size of that region. -/
def size : Operation → Nat
  | .store _ _ | .storeByte _ _ => Word.byteCount
  | .forget _ size | .copy _ _ size => size

/-- The end of that region. -/
def stop (operation : Operation) : Nat :=
  operation.start + operation.size

/-- An offset lies in the region that an operation writes. -/
def Covers (operation : Operation) (i : Nat) : Prop :=
  operation.start ≤ i ∧ i < operation.stop

instance (operation : Operation) (i : Nat) : Decidable (operation.Covers i) :=
  inferInstanceAs (Decidable (_ ∧ _))

/-- 64 bits can hold the end of the region that an operation writes. -/
def Fits (operation : Operation) : Prop :=
  operation.stop < UInt64.size

instance (operation : Operation) : Decidable operation.Fits :=
  inferInstanceAs (Decidable (_ < _))

/-- What an operation on a memory puts at an offset of its region: a byte of the word, most
    significant first; the byte or a zero after it; nothing that is known; or what stands at the
    source before the copy, and nothing known past the end. -/
def puts (m : Memory) (i : Nat) : Operation → Option UInt8
  | .store offset w => some (UInt8.ofNat (w.toNat / 256 ^ (31 - (i - offset))))
  | .storeByte offset b => some (if i = offset then b else 0)
  | .forget _ _ => none
  | .copy target source _ => (m.cells[source + (i - target)]?).join

/-- An operation on the rows that hold a memory. -/
def onRows? (r : Rows) : Operation → Option Rows
  | .store offset w => r.store? offset w
  | .storeByte offset b => r.storeByte? offset b
  | .forget offset size => r.forget? offset size
  | .copy target source size => r.copy? target source size

/-- The cells that an operation writes over its region. -/
def row (m : Memory) (operation : Operation) : List (Option UInt8) :=
  (List.range operation.size).map fun k => operation.puts m (operation.start + k)

theorem length_row (m : Memory) (operation : Operation) :
    (operation.row m).length = operation.size := by
  rw [row, List.length_map, List.length_range]

/-- Every operation is one write of cells. -/
theorem apply_eq_write (m : Memory) (operation : Operation) :
    operation.apply m = m.write operation.start (operation.row m) := by
  cases operation with
  | store offset w =>
    show m.write offset (w.toBytes.map some) = m.write offset _
    rw [← Evm.bytesOf_eq, Evm.bytesOf, List.map_map]
    congr 1
    apply List.map_congr_left
    intro k _
    simp only [puts, start, Function.comp_apply, Nat.add_sub_cancel_left]
  | storeByte offset b =>
    show m.write offset (some b :: List.replicate (Word.byteCount - 1) (some 0)) = m.write offset _
    congr 1
    rw [row, size, Word.byteCount, List.range_succ_eq_map, List.map_cons, List.map_map]
    simp only [puts, start, Nat.add_zero, if_true]
    congr 1
    rw [eq_comm, List.eq_replicate_iff, List.length_map, List.length_range]
    refine ⟨rfl, fun cell hcell => ?_⟩
    obtain ⟨k, -, rfl⟩ := List.mem_map.1 hcell
    simp
  | forget offset count =>
    show m.write offset (List.replicate count none) = m.write offset _
    congr 1
    simp only [row, puts, size, List.map_const', List.length_range]
  | copy target source count =>
    show m.write target (m.window source count) = m.write target _
    congr 1
    simp only [row, puts, size, start, window, Nat.add_sub_cancel_left]

section Apply

variable (m : Memory) (operation : Operation)

theorem size_apply :
    (operation.apply m).size
      = if 0 < operation.size then max m.size operation.stop else m.size := by
  rw [apply_eq_write]
  by_cases hsome : 0 < operation.size
  · rw [if_pos hsome, size_write _ _ (List.ne_nil_of_length_pos (by rwa [length_row])), length_row]
    rfl
  · have hnil : operation.row m = [] := List.eq_nil_of_length_eq_zero (by rw [length_row]; omega)
    rw [if_neg hsome, hnil]
    rfl

/-- What an operation makes of each cell. -/
theorem getElem?_apply (i : Nat) :
    (operation.apply m).cells[i]?
      = if operation.Covers i then some (operation.puts m i)
        else if i < m.size then m.cells[i]?
        else if i < operation.start ∧ 0 < operation.size then some (some 0)
        else none := by
  rw [apply_eq_write]
  by_cases hsome : 0 < operation.size
  · rw [getElem?_write _ _ (List.ne_nil_of_length_pos (by rwa [length_row])), length_row]
    split
    · next hin =>
      rw [if_pos (show operation.Covers i from hin), row, List.getElem?_map,
        List.getElem?_range (by omega), Option.map_some,
        show operation.start + (i - operation.start) = i from by omega]
    · next hout =>
      rw [if_neg (show ¬ operation.Covers i from hout)]
      simp only [hsome, and_true]
  · -- Nothing is written, and a memory does not grow for that.
    have hnil : operation.row m = [] := List.eq_nil_of_length_eq_zero (by rw [length_row]; omega)
    have hout : ¬ operation.Covers i := by
      rintro ⟨hlow, hhigh⟩
      rw [stop] at hhigh
      omega
    rw [hnil, if_neg hout]
    show m.cells[i]? = _
    split
    · rfl
    · next hpast =>
      rw [if_neg fun h => hsome h.2]
      exact Array.getElem?_eq_none (Nat.le_of_not_lt hpast)

/-- On the rows that hold a memory, an operation whose region fits does not fail. -/
theorem holds_apply {m : Memory} {operation : Operation} {r : Rows} (h : r.Holds m)
    (hfits : operation.Fits) :
    ∃ r', operation.onRows? r = some r' ∧ r'.Holds (operation.apply m) := by
  cases operation with
  | store offset w => exact h.store w hfits
  | storeByte offset b => exact h.storeByte b hfits
  | forget offset size => exact h.forget hfits
  | copy target source size => exact h.copy source hfits

end Apply

end Operation

/-! ## Histories -/

/-- The memory after operations, the earliest first. -/
def after (history : List Operation) : Memory :=
  history.foldl (fun m operation => operation.apply m) .empty

/-- The rows after the same operations, unless one of them fails. -/
def Rows.after? (history : List Operation) : Option Rows :=
  history.foldlM (fun r operation => operation.onRows? r) {}

theorem after_concat (history : List Operation) (operation : Operation) :
    after (history ++ [operation]) = operation.apply (after history) := by
  rw [after, List.foldl_append]
  rfl

/-- Operations whose regions fit do not fail on rows that hold the memory. -/
theorem Rows.Holds.foldlM {r : Rows} {m : Memory} (h : r.Holds m) {operations : List Operation}
    (hfits : ∀ operation ∈ operations, operation.Fits) :
    ∃ r', operations.foldlM (fun r operation => operation.onRows? r) r = some r'
      ∧ r'.Holds (operations.foldl (fun m operation => operation.apply m) m) := by
  induction operations generalizing r m with
  | nil => exact ⟨r, rfl, h⟩
  | cons operation operations ih =>
    obtain ⟨r₁, hfirst, hholds⟩ := Operation.holds_apply h (hfits operation List.mem_cons_self)
    obtain ⟨r', hrest, hholds'⟩ := ih hholds fun o ho => hfits o (List.mem_cons_of_mem _ ho)
    refine ⟨r', ?_, hholds'⟩
    rw [List.foldlM_cons, hfirst]
    exact hrest

/-- Operations whose regions end within a bound do not make a memory grow beyond it. -/
theorem size_foldl_le {m : Memory} {bound : Nat} {operations : List Operation}
    (hstop : ∀ operation ∈ operations, operation.stop ≤ bound) (hm : m.size ≤ bound) :
    (operations.foldl (fun m operation => operation.apply m) m).size ≤ bound := by
  induction operations generalizing m with
  | nil => exact hm
  | cons operation operations ih =>
    apply ih fun o ho => hstop o (List.mem_cons_of_mem _ ho)
    have hfirst := hstop operation List.mem_cons_self
    rw [Operation.size_apply]
    split <;> omega

/-- A memory is what a history has made of it. -/
structure Reflects (history : List Operation) (m : Memory) : Prop where
  /-- It ends where the highest region does that is not empty. -/
  size : m.size = ((history.filter (0 < ·.size)).map (·.stop)).foldl max 0
  /-- Each cell shows what the last operation over it has put there. -/
  written : ∀ past operation later, history = past ++ operation :: later →
    ∀ i, operation.Covers i → (∀ next ∈ later, ¬next.Covers i) →
      m.cells[i]? = some (operation.puts (after past) i)
  /-- A cell that no operation has been over is a known zero. -/
  between : ∀ i < m.size, (∀ operation ∈ history, ¬operation.Covers i) →
    m.cells[i]? = some (some 0)

theorem reflects_empty : Reflects [] .empty where
  size := rfl
  written past operation later h := by simp at h
  between i hi := by simp [Memory.size, empty] at hi

/-- One operation more. -/
theorem Reflects.concat {history : List Operation} (h : Reflects history (after history))
    (operation : Operation) :
    Reflects (history ++ [operation]) (after (history ++ [operation])) := by
  rw [after_concat]
  have hsize := operation.size_apply (after history)
  have hcell := operation.getElem?_apply (after history)
  generalize operation.apply (after history) = m at hsize hcell
  refine ⟨?_, ?_, ?_⟩
  · rw [hsize, List.filter_append, List.map_append, List.foldl_append, ← h.size]
    by_cases hsome : 0 < operation.size <;> simp [hsome]
  · intro past first later hsplit i hcovers hlater
    rw [hcell]
    rcases later.eq_nil_or_concat with rfl | ⟨later, last, rfl⟩
    · -- The operation over the cell is the last one.
      obtain ⟨rfl, hlast⟩ := List.append_inj' hsplit rfl
      obtain rfl : operation = first := List.singleton_inj.1 hlast
      rw [if_pos hcovers]
    · -- The cell was written before, and the last operation passes it by.
      rw [List.concat_eq_append] at hsplit hlater
      rw [← List.cons_append, ← List.append_assoc] at hsplit
      obtain ⟨hpast, hlast⟩ := List.append_inj' hsplit rfl
      obtain rfl : operation = last := List.singleton_inj.1 hlast
      have hbefore := h.written past first later hpast i hcovers fun next hnext =>
        hlater next (List.mem_append_left _ hnext)
      have hin : i < (after history).size := (Array.getElem?_eq_some_iff.1 hbefore).1
      rw [if_neg (hlater operation (by simp)), if_pos hin, hbefore]
  · intro i hi huncovered
    have hout : ¬ operation.Covers i := huncovered operation (by simp)
    rw [hcell, if_neg hout]
    by_cases hin : i < (after history).size
    · rw [if_pos hin]
      exact h.between i hin fun o ho => huncovered o (List.mem_append_left _ ho)
    · -- The memory has grown past the cell, and the region starts above it.
      rw [hsize] at hi
      have hsome : 0 < operation.size := by
        by_contra hnone
        rw [if_neg hnone] at hi
        exact hin hi
      rw [if_pos hsome] at hi
      have hbelow : i < operation.start := by
        by_contra hlow
        exact hout ⟨by omega, by omega⟩
      rw [if_neg hin, if_pos ⟨hbelow, hsome⟩]

theorem reflects_after (history : List Operation) : Reflects history (after history) := by
  induction history using List.reverseRecOn with
  | nil => exact reflects_empty
  | append_singleton history operation ih => exact ih.concat operation

/-! ## Reading -/

/-- A memory is read where it is known. -/
structure Readable (m : Memory) : Prop where
  /-- A region is read exactly if it is empty, or lies in the memory and is known throughout. -/
  isSome_read : ∀ offset size, (m.read offset size).isSome
    ↔ size = 0 ∨ offset + size ≤ m.size
      ∧ ∀ i, offset ≤ i → i < offset + size → ∃ b, m.cells[i]? = some (some b)
  /-- What is read are the bytes of the region. -/
  cells_read : ∀ offset size bytes, m.read offset size = some bytes →
    bytes.length = size ∧ ∀ i < size, m.cells[offset + i]? = some bytes[i]?
  /-- A word is loaded exactly if its bytes are read, and is the number that they write, most
      significant first. -/
  load_iff : ∀ offset w, m.load offset = some w
    ↔ ∃ bytes, m.read offset 32 = some bytes
      ∧ w.toNat = Nat.ofDigits 256 (bytes.reverse.map UInt8.toNat)

theorem mapM_id_isSome (cells : List (Option UInt8)) :
    (cells.mapM id).isSome ↔ ∀ cell ∈ cells, ∃ b, cell = some b := by
  induction cells with
  | nil => simp
  | cons cell cells ih =>
    rw [List.mapM_cons, List.forall_mem_cons, ← ih]
    cases cell with
    | none => simp
    | some b => cases cells.mapM id <;> simp

theorem isSome_read_iff (m : Memory) (offset size : Nat) :
    (m.read offset size).isSome
      ↔ size = 0 ∨ offset + size ≤ m.size
        ∧ ∀ i, offset ≤ i → i < offset + size → ∃ b, m.cells[i]? = some (some b) := by
  rw [read]
  by_cases hzero : size = 0
  · simp [hzero]
  by_cases hpast : m.size < offset + size
  · simp [hzero, hpast, Nat.not_le.2 hpast]
  have hcell : ∀ i, offset ≤ i → i < offset + size →
      ∃ cell, m.cells[i]? = some cell := fun i _ hi =>
    ⟨_, Array.getElem?_eq_getElem (show i < m.cells.size from by
      have hsize : m.size = m.cells.size := rfl
      omega)⟩
  rw [if_neg hzero, if_neg hpast, mapM_id_isSome]
  simp only [hzero, false_or, Nat.le_of_not_lt hpast, true_and, window, List.mem_map,
    List.mem_range]
  constructor
  · intro h i hlow hhigh
    obtain ⟨b, hb⟩ := h _ ⟨i - offset, by omega, rfl⟩
    rw [show offset + (i - offset) = i from by omega] at hb
    exact ⟨b, Option.join_eq_some_iff.1 hb⟩
  · rintro h cell ⟨k, hk, rfl⟩
    obtain ⟨b, hb⟩ := h (offset + k) (by omega) (by omega)
    exact ⟨b, Option.join_eq_some_iff.2 hb⟩

theorem cells_of_read {m : Memory} {offset size : Nat} {bytes : List UInt8}
    (h : m.read offset size = some bytes) :
    bytes.length = size ∧ ∀ i < size, m.cells[offset + i]? = some bytes[i]? := by
  have hwindow := window_eq_of_read h
  have hlength : bytes.length = size := by
    rw [← List.length_map (f := some), ← hwindow, window, List.length_map, List.length_range]
  refine ⟨hlength, fun i hi => ?_⟩
  have hcell := congrArg (fun cells : List (Option UInt8) => cells[i]?) hwindow
  simp only [window, List.getElem?_map, List.getElem?_range hi, Option.map_some,
    List.getElem?_eq_getElem (hlength ▸ hi : i < bytes.length), Option.some.injEq] at hcell
  rw [Option.join_eq_some_iff.1 hcell, List.getElem?_eq_getElem (hlength ▸ hi)]

theorem readable (m : Memory) : Readable m where
  isSome_read := isSome_read_iff m
  cells_read offset size bytes h := cells_of_read h
  load_iff offset w := by
    rw [load, Option.map_eq_some_iff]
    refine exists_congr fun bytes => and_congr_right fun hread => ?_
    have hlength : bytes.length = 32 := (cells_of_read hread).1
    have hlt := Word.foldl_lt_pow bytes
    have hvalue := Evm.foldl_eq_ofDigits bytes 0
    rw [hlength, show 256 ^ 32 = 2 ^ 256 from by norm_num] at hlt
    rw [Nat.mul_zero, Nat.zero_add] at hvalue
    rw [Word.ofBytes, ← BitVec.toNat_inj, BitVec.toNat_ofNat, Nat.mod_eq_of_lt hlt, hvalue, eq_comm]

/-! ## The whole account -/

/-- After any operations whose regions end within 64 bits: two rows of one length hold the
    memory, no operation has failed on them and none of their reads does; the memory is what the
    operations have made of it; and it is read where it is known. -/
theorem after_refines (history : List Operation)
    (hfits : ∀ operation ∈ history, operation.Fits) :
    (∃ rows : Rows, Rows.after? history = some rows ∧ rows.data.length = rows.known.length
      ∧ rows.cells = (after history).cells.toList
      ∧ ∀ offset size, rows.read? offset size = some ((after history).read offset size))
    ∧ Reflects history (after history)
    ∧ Readable (after history) := by
  obtain ⟨rows, hrows, hholds⟩ := Rows.holds_empty.foldlM hfits
  exact ⟨⟨rows, hrows, hholds.length_eq, hholds.cells_eq, hholds.read⟩, reflects_after history,
    readable _⟩

/-- Operations in each other's way: a copy onto its own source, an unknown byte, a region past the
    end and an empty one far above. -/
def tangled : List Operation :=
  [.store 0 0x1234, .forget 0x40 1, .copy 0x1f 0x1e 3, .storeByte 0x50 0xab,
    .copy 0x1000 0x20 0]

theorem after_refines_tangled :
    (∀ operation ∈ tangled, operation.Fits)
    ∧ (∃ rows, Rows.after? tangled = some rows ∧ rows.data.length = rows.known.length)
    ∧ (after tangled).size = 0x70
    ∧ (after tangled).cells[0x20]? = some (some 0x34)
    ∧ (after tangled).cells[0x45]? = some (some 0)
    ∧ ((after tangled).read 0x3f 2).isSome = false := by
  have hfits : ∀ operation ∈ tangled, operation.Fits := by decide
  obtain ⟨⟨rows, hrows, hlength, -, -⟩, hreflects, hreadable⟩ := after_refines tangled hfits
  have hsize : (after tangled).size = 0x70 := hreflects.size.trans (by decide)
  have hcopied := hreflects.written [.store 0 0x1234, .forget 0x40 1] (.copy 0x1f 0x1e 3)
    [.storeByte 0x50 0xab, .copy 0x1000 0x20 0] rfl 0x20 (by decide) (by decide)
  have hforgotten := hreflects.written [.store 0 0x1234] (.forget 0x40 1)
    [.copy 0x1f 0x1e 3, .storeByte 0x50 0xab, .copy 0x1000 0x20 0] rfl 0x40 (by decide) (by decide)
  refine ⟨hfits, ⟨rows, hrows, hlength⟩, hsize, hcopied.trans (by decide +kernel),
    hreflects.between 0x45 (by rw [hsize]; decide) (by decide), ?_⟩
  rw [Bool.eq_false_iff, ne_eq, hreadable.isSome_read]
  rintro (hzero | ⟨-, hknown⟩)
  · cases hzero
  · obtain ⟨b, hb⟩ := hknown 0x40 (by decide) (by decide)
    rw [hforgotten] at hb
    cases hb

end HuffTrace.Memory

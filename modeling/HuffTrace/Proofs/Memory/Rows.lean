/-
  HuffTrace.Proofs.Memory.Rows

  A memory as two rows, one of bytes and one of marks that tell the known bytes
  from the others.  The operations are written here once more on the rows, step
  by step, and fail where a step is impossible: where 64 bits cannot hold the
  end of a region, where a stretch does not lie in its row, or where it is not
  as long as what is written over it.

  Rows that hold a memory (`Rows.Holds`) are of one length and show its cells.
  They hold it after every operation as well, and the operation does not fail,
  as long as 64 bits can hold the end of the region that it writes.
-/

import HuffTrace.Proofs.Memory

namespace HuffTrace.Memory

/-- A byte that is known or not. -/
def marked (b : UInt8) (known : Bool) : Option UInt8 :=
  if known then some b else none

/-- A row of bytes and a row of marks. -/
structure Rows where
  data : List UInt8 := []
  /-- Whether the byte at the same place is known. -/
  known : List Bool := []
  deriving DecidableEq, Repr

namespace Rows

/-- The cells that the rows show. -/
def cells (r : Rows) : List (Option UInt8) :=
  List.zipWith marked r.data r.known

/-! ## Stretches of a row -/

/-- The end of a region, unless 64 bits cannot hold it. -/
def stop? (offset size : Nat) : Option Nat :=
  if offset + size < UInt64.size then some (offset + size) else none

section Stretch

variable {α : Type}

/-- The values from `start` to `stop`, if the row has them all. -/
def slice? (row : List α) (start stop : Nat) : Option (List α) :=
  if start ≤ stop ∧ stop ≤ row.length then some ((row.drop start).take (stop - start)) else none

/-- Puts values in place of those from `start` to `stop`, if these are there and as many. -/
def overwrite? (row : List α) (start stop : Nat) (values : List α) : Option (List α) :=
  if start ≤ stop ∧ stop ≤ row.length ∧ values.length = stop - start then
    some (row.take start ++ values ++ row.drop stop)
  else none

/-- Puts one value in place of those from `start` to `stop`. -/
def fill? (row : List α) (start stop : Nat) (a : α) : Option (List α) :=
  overwrite? row start stop (List.replicate (stop - start) a)

/-- The row cut or filled up to a length. -/
def resize (row : List α) (size : Nat) (a : α) : List α :=
  row.take size ++ List.replicate (size - row.length) a

theorem stop?_of_lt {offset size : Nat} (h : offset + size < UInt64.size) :
    stop? offset size = some (offset + size) :=
  if_pos h

theorem slice?_of_le {row : List α} {start size : Nat} (h : start + size ≤ row.length) :
    slice? row start (start + size) = some ((row.drop start).take size) := by
  rw [slice?, if_pos ⟨Nat.le_add_right _ _, h⟩, Nat.add_sub_cancel_left]

theorem overwrite?_of_le {row values : List α} {start size : Nat} (hlength : values.length = size)
    (h : start + size ≤ row.length) :
    overwrite? row start (start + size) values
      = some (row.take start ++ values ++ row.drop (start + size)) :=
  if_pos ⟨Nat.le_add_right _ _, h, by rw [hlength, Nat.add_sub_cancel_left]⟩

/-- Values at the front of a row that is all the same. -/
theorem overwrite?_replicate {values : List α} {size : Nat} (a : α) (h : values.length ≤ size) :
    overwrite? (List.replicate size a) 0 values.length values
      = some (values ++ List.replicate (size - values.length) a) := by
  rw [overwrite?, if_pos ⟨Nat.zero_le _, by rwa [List.length_replicate], rfl⟩, List.take_zero,
    List.nil_append, List.drop_replicate]

/-- What is written last over a stretch stays. -/
theorem overwrite?_overwrite? {row values values' row' : List α} {start stop : Nat}
    (h : overwrite? row start stop values = some row') (hlength : values'.length = stop - start) :
    overwrite? row' start stop values' = overwrite? row start stop values' := by
  unfold overwrite? at h
  split at h
  · next hfits =>
    obtain ⟨hle, hstop, hvalues⟩ := hfits
    obtain rfl := Option.some.inj h
    have hhead : (row.take start).length = start := List.length_take_of_le (by omega)
    have hmiddle : (row.take start ++ values).length = stop := by
      rw [List.length_append, hhead, hvalues]
      omega
    unfold overwrite?
    have hsame : (row.take start ++ values ++ row.drop stop).length = row.length := by
      rw [List.length_append, hmiddle, List.length_drop]
      omega
    rw [hsame, if_pos ⟨hle, hstop, hlength⟩, if_pos ⟨hle, hstop, hlength⟩,
      List.drop_left' hmiddle, List.append_assoc (row.take start), List.take_left' hhead]
  · cases h

end Stretch

/-! ## Operations -/

/-- Makes both rows at least as long as `size`; what is added is known to be zero. -/
def grow (r : Rows) (size : Nat) : Rows :=
  if r.data.length < size then ⟨resize r.data size 0, resize r.known size true⟩ else r

/-- Writes known bytes. -/
def write? (r : Rows) (offset : Nat) (bytes : List UInt8) : Option Rows := do
  let stop ← stop? offset bytes.length
  let grown := r.grow stop
  let data ← overwrite? grown.data offset stop bytes
  let known ← fill? grown.known offset stop true
  some ⟨data, known⟩

def store? (r : Rows) (offset : Nat) (w : Word) : Option Rows :=
  r.write? offset w.toBytes

def storeByte? (r : Rows) (offset : Nat) (b : UInt8) : Option Rows :=
  r.write? offset (b :: List.replicate (Word.byteCount - 1) 0)

def forget? (r : Rows) (offset size : Nat) : Option Rows :=
  if size = 0 then some r
  else do
    let stop ← stop? offset size
    let grown := r.grow stop
    let data ← fill? grown.data offset stop 0
    let known ← fill? grown.known offset stop false
    some ⟨data, known⟩

/-- What a copy takes along: the bytes and marks of a region, zeros and no marks where the rows
    have ended. -/
def gather? (r : Rows) (source size : Nat) : Option (List UInt8 × List Bool) :=
  let available := min (r.data.length - source) size
  if available = 0 then some (List.replicate size 0, List.replicate size false)
  else do
    let stop ← stop? source available
    let data ← slice? r.data source stop
    let known ← slice? r.known source stop
    let bytes ← overwrite? (List.replicate size 0) 0 available data
    let marks ← overwrite? (List.replicate size false) 0 available known
    some (bytes, marks)

/-- Copies a region.  The bytes are written as known ones first, and then get their marks. -/
def copy? (r : Rows) (target source size : Nat) : Option Rows :=
  if size = 0 then some r
  else do
    let (bytes, marks) ← r.gather? source size
    let written ← r.write? target bytes
    let stop ← stop? target size
    let known ← overwrite? written.known target stop marks
    some { written with known }

/-- Reads a region.  An end that 64 bits cannot hold is past the end of the rows. -/
def read? (r : Rows) (offset size : Nat) : Option (Option (List UInt8)) :=
  if size = 0 then some (some [])
  else
    match stop? offset size with
    | none => some none
    | some stop =>
      if r.data.length < stop then some none
      else do
        let known ← slice? r.known offset stop
        if known.all id then
          let data ← slice? r.data offset stop
          some (some data)
        else some none

/-! ## Rows that hold a memory -/

/-- The rows are of one length, which 64 bits can hold, and show the cells of a memory. -/
structure Holds (r : Rows) (m : Memory) : Prop where
  length_eq : r.data.length = r.known.length
  length_lt : r.data.length < UInt64.size
  cells_eq : r.cells = m.cells.toList

theorem holds_empty : Holds {} .empty :=
  ⟨rfl, by decide, rfl⟩

section Holds

variable {r : Rows} {m : Memory}

theorem Holds.length_data (h : r.Holds m) : r.data.length = m.size := by
  have hlength := congrArg List.length h.cells_eq
  rwa [cells, List.length_zipWith, ← h.length_eq, Nat.min_self, Array.length_toList] at hlength

/-! ## Writing -/

/-- The cells after a write, as one row. -/
theorem toList_write (m : Memory) (offset : Nat) {region : List (Option UInt8)}
    (hne : region ≠ []) :
    (m.write offset region).cells.toList
      = let grown := m.cells.toList
          ++ List.replicate (offset + region.length - m.size) (some 0)
        grown.take offset ++ region ++ grown.drop (offset + region.length) := by
  have hpos : 0 < region.length := List.length_pos_iff.2 hne
  have hsize : m.cells.toList.length = m.size := Array.length_toList
  apply List.ext_getElem?
  intro i
  rw [Array.getElem?_toList, getElem?_write m offset hne]
  simp only [List.getElem?_append, List.length_append, List.length_take, List.getElem?_take,
    List.getElem?_drop, List.length_replicate, List.getElem?_replicate, hsize,
    Array.getElem?_toList]
  rcases Nat.lt_or_ge i offset with hlow | hlow
  · rw [if_neg (by omega)]
    grind
  · grind

/-- Rows of one length grow by as much. -/
theorem grow_eq (h : r.data.length = r.known.length) (size : Nat) :
    r.grow size
      = ⟨r.data ++ List.replicate (size - r.data.length) 0,
          r.known ++ List.replicate (size - r.data.length) true⟩ := by
  unfold grow
  split
  · rw [resize, resize, ← h, List.take_of_length_le (by omega), List.take_of_length_le (by omega)]
  · rw [Nat.sub_eq_zero_of_le (by omega)]
    simp only [List.replicate_zero, List.append_nil]

theorem Holds.length_grow (h : r.Holds m) (size : Nat) :
    (r.grow size).data.length = max m.size size
      ∧ (r.grow size).known.length = max m.size size := by
  have hdata := h.length_data
  have hknown := h.length_eq
  rw [grow_eq h.length_eq]
  simp only [List.length_append, List.length_replicate]
  omega

theorem Holds.cells_grow (h : r.Holds m) (size : Nat) :
    (r.grow size).cells = m.cells.toList ++ List.replicate (size - m.size) (some 0) := by
  rw [grow_eq h.length_eq, cells, List.zipWith_append h.length_eq, List.zipWith_replicate',
    h.length_data]
  exact congrArg (· ++ _) h.cells_eq

/-- Bytes with their marks, written over both rows, are a write to the memory. -/
theorem Holds.overwrite (h : r.Holds m) {offset : Nat} {bytes : List UInt8} {marks : List Bool}
    (hlength : marks.length = bytes.length) (hne : bytes ≠ [])
    (hfits : offset + bytes.length < UInt64.size) :
    ∃ data known,
      overwrite? (r.grow (offset + bytes.length)).data offset (offset + bytes.length) bytes
        = some data
      ∧ overwrite? (r.grow (offset + bytes.length)).known offset (offset + bytes.length) marks
        = some known
      ∧ Holds ⟨data, known⟩ (m.write offset (List.zipWith marked bytes marks)) := by
  obtain ⟨hdata, hknown⟩ := h.length_grow (offset + bytes.length)
  have hcells := h.cells_grow (offset + bytes.length)
  have hshort := h.length_data ▸ h.length_lt
  generalize r.grow (offset + bytes.length) = grown at hdata hknown hcells ⊢
  have hregion : (List.zipWith marked bytes marks).length = bytes.length := by
    rw [List.length_zipWith, hlength, Nat.min_self]
  refine ⟨_, _, overwrite?_of_le rfl (by omega), overwrite?_of_le hlength (by omega), ?_, ?_, ?_⟩
  · simp only [List.length_append, List.length_take, List.length_drop]
    omega
  · simp only [List.length_append, List.length_take, List.length_drop]
    omega
  · rw [toList_write m offset (List.ne_nil_of_length_pos (by
      rw [hregion]
      exact List.length_pos_iff.2 hne)), hregion]
    simp only [← hcells, cells]
    rw [List.zipWith_append (by simp only [List.length_append, List.length_take]; omega),
      List.zipWith_append (by simp only [List.length_take]; omega), List.take_zipWith,
      List.drop_zipWith]

theorem zipWith_marked_true (bytes : List UInt8) :
    List.zipWith marked bytes (List.replicate bytes.length true) = bytes.map some := by
  induction bytes with
  | nil => rfl
  | cons b bytes ih =>
    rw [List.length_cons, List.replicate_succ, List.zipWith_cons_cons, ih, List.map_cons]
    rfl

theorem Holds.write (h : r.Holds m) {offset : Nat} {bytes : List UInt8} (hne : bytes ≠ [])
    (hfits : offset + bytes.length < UInt64.size) :
    ∃ r', r.write? offset bytes = some r' ∧ r'.Holds (m.write offset (bytes.map some)) := by
  obtain ⟨data, known, hdata, hknown, hholds⟩ :=
    h.overwrite (List.length_replicate (n := bytes.length) (a := true)) hne hfits
  rw [zipWith_marked_true] at hholds
  refine ⟨⟨data, known⟩, ?_, hholds⟩
  simp only [write?, stop?_of_lt hfits, fill?, Nat.add_sub_cancel_left, hdata, hknown,
    Option.bind_eq_bind, Option.bind_some]

theorem Holds.store (h : r.Holds m) {offset : Nat} (w : Word)
    (hfits : offset + Word.byteCount < UInt64.size) :
    ∃ r', r.store? offset w = some r' ∧ r'.Holds (m.store offset w) := by
  have hlength : w.toBytes.length = Word.byteCount := by
    rw [Word.toBytes, List.length_map, List.length_range]
  apply h.write
  · apply List.ne_nil_of_length_pos
    rw [hlength]
    decide
  · rw [hlength]
    exact hfits

theorem Holds.storeByte (h : r.Holds m) {offset : Nat} (b : UInt8)
    (hfits : offset + Word.byteCount < UInt64.size) :
    ∃ r', r.storeByte? offset b = some r' ∧ r'.Holds (m.storeByte offset b) :=
  h.write (List.cons_ne_nil _ _) hfits

theorem Holds.forget (h : r.Holds m) {offset size : Nat} (hfits : offset + size < UInt64.size) :
    ∃ r', r.forget? offset size = some r' ∧ r'.Holds (m.forget offset size) := by
  by_cases hzero : size = 0
  · subst hzero
    exact ⟨r, rfl, h⟩
  · have hzeros : (List.replicate size (0 : UInt8)).length = size := List.length_replicate
    have hoff : (List.replicate size false).length = size := List.length_replicate
    have hstop : offset + (List.replicate size (0 : UInt8)).length < UInt64.size := by
      rwa [hzeros]
    obtain ⟨data, known, hdata, hknown, hholds⟩ :=
      h.overwrite (hoff.trans hzeros.symm) (List.ne_nil_of_length_pos (by omega)) hstop
    rw [hzeros] at hdata hknown
    rw [List.zipWith_replicate'] at hholds
    refine ⟨⟨data, known⟩, ?_, hholds⟩
    simp only [forget?, if_neg hzero, stop?_of_lt hfits, fill?, Nat.add_sub_cancel_left, hdata,
      hknown, Option.bind_eq_bind, Option.bind_some]

/-! ## Copying -/

/-- The cells of a region: those that there are, and unknown ones after them. -/
theorem window_eq (m : Memory) (offset size : Nat) :
    m.window offset size
      = (m.cells.toList.drop offset).take size
        ++ List.replicate (size - (m.size - offset)) none := by
  have hsize : m.cells.toList.length = m.size := Array.length_toList
  have hcell : ∀ j, m.cells.toList[j]? = m.cells[j]? := fun j => Array.getElem?_toList
  apply List.ext_getElem?
  intro i
  rw [window, List.getElem?_map, List.getElem?_append, List.length_take, List.length_drop, hsize,
    List.getElem?_take, List.getElem?_drop, hcell, List.getElem?_replicate]
  rcases Nat.lt_or_ge i size with hi | hi
  · rw [List.getElem?_range hi, Option.map_some]
    rcases Nat.lt_or_ge (offset + i) m.size with hin | hin
    · rw [if_pos (by omega), if_pos hi, Array.getElem?_eq_getElem hin]
      rfl
    · rw [if_neg (by omega), if_pos (by omega), Array.getElem?_eq_none hin]
      rfl
  · rw [List.getElem?_eq_none (by rw [List.length_range]; exact hi), if_neg (by omega),
      if_neg (by omega)]
    rfl

/-- What a copy takes along are the cells of its source. -/
theorem Holds.gather (h : r.Holds m) (source size : Nat) :
    ∃ bytes marks, r.gather? source size = some (bytes, marks) ∧ bytes.length = size
      ∧ marks.length = size ∧ List.zipWith marked bytes marks = m.window source size := by
  have hsize := h.length_data
  have hsame := h.length_eq
  have hshort := h.length_lt
  rw [window_eq, ← h.cells_eq, cells, gather?]
  by_cases hnone : min (r.data.length - source) size = 0
  · -- The source lies past the end of the memory, and the copy is all padding.
    refine ⟨_, _, if_pos hnone, List.length_replicate, List.length_replicate, ?_⟩
    have hempty : ((List.zipWith marked r.data r.known).drop source).take size = [] := by
      apply List.eq_nil_of_length_eq_zero
      rw [List.length_take, List.length_drop, List.length_zipWith]
      omega
    rw [hempty, List.zipWith_replicate', List.nil_append]
    congr 1
    omega
  · -- What is there of the source comes first, and padding fills the rest.
    generalize havailable : min (r.data.length - source) size = available at hnone ⊢
    have hend : source + available ≤ r.data.length := by omega
    have hbytes : ((r.data.drop source).take available).length = available := by
      rw [List.length_take, List.length_drop]
      omega
    have hmarks : ((r.known.drop source).take available).length = available := by
      rw [List.length_take, List.length_drop]
      omega
    have hfits : available ≤ size := by omega
    refine ⟨(r.data.drop source).take available ++ List.replicate (size - available) 0,
      (r.known.drop source).take available ++ List.replicate (size - available) false, ?_, ?_, ?_,
      ?_⟩
    · have hdata := overwrite?_replicate (0 : UInt8) (Nat.le_trans (Nat.le_of_eq hbytes) hfits)
      have hknown := overwrite?_replicate false (Nat.le_trans (Nat.le_of_eq hmarks) hfits)
      rw [hbytes] at hdata
      rw [hmarks] at hknown
      simp only [if_neg hnone, stop?_of_lt (Nat.lt_of_le_of_lt hend hshort), slice?_of_le hend,
        slice?_of_le (hsame ▸ hend), hdata, hknown, Option.bind_eq_bind, Option.bind_some]
    · rw [List.length_append, hbytes, List.length_replicate]
      omega
    · rw [List.length_append, hmarks, List.length_replicate]
      omega
    · rw [List.zipWith_append (hbytes.trans hmarks.symm), List.zipWith_replicate',
        ← List.take_zipWith, ← List.drop_zipWith]
      congr 1
      · rw [List.take_eq_take_iff, List.length_drop, List.length_zipWith]
        omega
      · congr 1
        omega

theorem Holds.copy (h : r.Holds m) {target : Nat} (source : Nat) {size : Nat}
    (hfits : target + size < UInt64.size) :
    ∃ r', r.copy? target source size = some r' ∧ r'.Holds (m.copy target source size) := by
  by_cases hzero : size = 0
  · subst hzero
    exact ⟨r, rfl, h⟩
  obtain ⟨bytes, marks, hgather, hbytes, hmarks, hwindow⟩ := h.gather source size
  have hne : bytes ≠ [] := List.ne_nil_of_length_pos (by omega)
  subst hbytes
  obtain ⟨data, known, hdata, hknown, hholds⟩ := h.overwrite hmarks hne hfits
  rw [hwindow] at hholds
  refine ⟨⟨data, known⟩, ?_, hholds⟩
  -- The marks that say that all is known are written first and do not matter in the end.
  obtain ⟨data', known', hdata', hknown', -⟩ :=
    h.overwrite (List.length_replicate (n := bytes.length) (a := true)) hne hfits
  obtain rfl : data = data' := Option.some.inj (hdata.symm.trans hdata')
  have hcount : marks.length = target + bytes.length - target := by
    rw [hmarks, Nat.add_sub_cancel_left]
  have hlast := overwrite?_overwrite? hknown' hcount
  simp only [copy?, if_neg hzero, hgather, write?, stop?_of_lt hfits, fill?,
    Nat.add_sub_cancel_left, hdata, hknown', hlast, hknown, Option.bind_eq_bind, Option.bind_some]

/-! ## Reading -/

/-- A stretch of cells is read if all of its bytes are known. -/
theorem mapM_zipWith_marked {data : List UInt8} {known : List Bool}
    (h : data.length = known.length) :
    (List.zipWith marked data known).mapM id = if known.all id then some data else none := by
  induction data generalizing known with
  | nil =>
    cases known with
    | nil => rfl
    | cons k known => cases h
  | cons b data ih =>
    cases known with
    | nil => cases h
    | cons k known =>
      rw [List.zipWith_cons_cons, List.mapM_cons, ih (Nat.succ.inj h)]
      cases k with
      | false => rfl
      | true =>
        show (some b >>= fun b => (if known.all id then some data else none) >>= fun rest =>
          some (b :: rest)) = if known.all id then some (b :: data) else none
        split <;> rfl

/-- Reading never fails on the rows, and finds what it finds in the memory. -/
theorem Holds.read (h : r.Holds m) (offset size : Nat) :
    r.read? offset size = some (m.read offset size) := by
  have hsize := h.length_data
  have hshort := h.length_lt
  rw [read?, Memory.read]
  by_cases hzero : size = 0
  · rw [if_pos hzero, if_pos hzero]
  rw [if_neg hzero, if_neg hzero]
  rcases Nat.lt_or_ge m.size (offset + size) with hpast | hin
  · rw [if_pos hpast]
    by_cases hfits : offset + size < UInt64.size
    · simp only [stop?_of_lt hfits, hsize, if_pos hpast]
    · rw [stop?, if_neg hfits]
  · have hsame := h.length_eq
    have hdata : offset + size ≤ r.data.length := by omega
    have hknown : offset + size ≤ r.known.length := by omega
    have hnone : size - (m.size - offset) = 0 := by omega
    rw [if_neg (Nat.not_lt.2 hin), stop?_of_lt (by omega), window_eq, ← h.cells_eq, cells, hnone,
      List.replicate_zero, List.append_nil, List.drop_zipWith, List.take_zipWith,
      mapM_zipWith_marked (by simp only [List.length_take, List.length_drop]; omega)]
    simp only [if_neg (Nat.not_lt.2 hdata), slice?_of_le hdata, slice?_of_le hknown,
      Option.bind_eq_bind, Option.bind_some]
    split <;> rfl

end Holds

end Rows

end HuffTrace.Memory

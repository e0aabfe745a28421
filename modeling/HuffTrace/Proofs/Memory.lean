/-
  HuffTrace.Proofs.Memory

  The symbolic memory cell by cell.  Every writing operation is one `write` of
  a row of cells, so `getElem?_write` says all that can happen to a cell: it
  takes on what is written over it, becomes a known zero if the memory grows
  past it, and stays as it was otherwise.
-/

import HuffTrace.Memory

namespace HuffTrace.Memory

/-! ## Writing -/

theorem size_grow (m : Memory) (size : Nat) : (m.grow size).size = max m.size size := by
  simp only [grow, Memory.size, Array.size_append, Array.size_replicate]
  omega

theorem getElem?_grow (m : Memory) (size i : Nat) :
    (m.grow size).cells[i]?
      = if i < m.size then m.cells[i]? else if i < size then some (some 0) else none := by
  rw [grow, Array.getElem?_append, Array.getElem?_replicate]
  by_cases hold : i < m.size
  · rw [if_pos hold, if_pos (show i < m.cells.size from hold)]
  · rw [if_neg hold, if_neg (show ¬ i < m.cells.size from hold)]
    have hsize : m.size = m.cells.size := rfl
    by_cases h : i < size
    · rw [if_pos h, if_pos (by omega)]
    · rw [if_neg h, if_neg (by omega)]

theorem size_overlay (cells : Array (Option UInt8)) (index : Nat)
    (region : List (Option UInt8)) : (overlay cells index region).size = cells.size := by
  induction region generalizing cells index with
  | nil => rfl
  | cons c cs ih => rw [overlay, ih, Array.size_setIfInBounds]

theorem getElem?_overlay (cells : Array (Option UInt8)) (index : Nat)
    (region : List (Option UInt8)) (h : index + region.length ≤ cells.size) (i : Nat) :
    (overlay cells index region)[i]?
      = if index ≤ i ∧ i < index + region.length then region[i - index]? else cells[i]? := by
  induction region generalizing cells index with
  | nil => rw [overlay, if_neg (by simp only [List.length_nil]; omega)]
  | cons c cs ih =>
    simp only [List.length_cons] at h ⊢
    rw [overlay, ih _ _ (by rw [Array.size_setIfInBounds]; omega), Array.getElem?_setIfInBounds]
    rcases Nat.lt_trichotomy i index with hi | rfl | hi
    · rw [if_neg (by omega), if_neg (by omega), if_neg (by omega)]
    · rw [if_neg (by omega), if_pos rfl, if_pos (by omega), if_pos (by omega), Nat.sub_self]
      rfl
    · by_cases hin : i < index + 1 + cs.length
      · rw [if_pos (by omega), if_pos (by omega),
          show i - index = i - (index + 1) + 1 from by omega, List.getElem?_cons_succ]
      · rw [if_neg (by omega), if_neg (by omega), if_neg (by omega)]

theorem size_write (m : Memory) (offset : Nat) {region : List (Option UInt8)}
    (hne : region ≠ []) : (m.write offset region).size = max m.size (offset + region.length) := by
  rw [write, if_neg (by simpa using hne), Memory.size, size_overlay]
  exact size_grow m _

/-- What a write makes of each cell. -/
theorem getElem?_write (m : Memory) (offset : Nat) {region : List (Option UInt8)}
    (hne : region ≠ []) (i : Nat) :
    (m.write offset region).cells[i]?
      = if offset ≤ i ∧ i < offset + region.length then region[i - offset]?
        else if i < m.size then m.cells[i]?
        else if i < offset then some (some 0)
        else none := by
  have hfits : offset + region.length ≤ (m.grow (offset + region.length)).cells.size := by
    have h := size_grow m (offset + region.length)
    rw [Memory.size] at h
    omega
  rw [write, if_neg (by simpa using hne), getElem?_overlay _ _ _ hfits]
  split
  · rfl
  · rw [getElem?_grow]
    split
    · rfl
    · by_cases hi : i < offset
      · rw [if_pos (by omega), if_pos hi]
      · rw [if_neg (by omega), if_neg hi]

/-! ## Reading -/

theorem eq_map_some_of_mapM {cells : List (Option UInt8)} {bytes : List UInt8}
    (h : cells.mapM id = some bytes) : cells = bytes.map some := by
  induction cells generalizing bytes with
  | nil =>
    cases h
    rfl
  | cons c cs ih =>
    rw [List.mapM_cons] at h
    cases c with
    | none => exact absurd h (by simp)
    | some b =>
      cases hcs : cs.mapM id with
      | none => simp [hcs] at h
      | some rest =>
        simp only [id_eq, hcs, Option.bind_eq_bind, Option.bind_some, Option.pure_def,
          Option.some.injEq] at h
        rw [← h, List.map_cons, ← ih hcs]

/-- A region that is read is its bytes, all of them known. -/
theorem window_eq_of_read {m : Memory} {offset size : Nat} {bytes : List UInt8}
    (h : m.read offset size = some bytes) : m.window offset size = bytes.map some := by
  rw [read] at h
  split at h
  · next hzero =>
    cases h
    rw [hzero]
    rfl
  · split at h
    · exact absurd h (by simp)
    · exact eq_map_some_of_mapM h

end HuffTrace.Memory

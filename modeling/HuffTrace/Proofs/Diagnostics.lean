/-
  HuffTrace.Proofs.Diagnostics

  The order of recorded findings.  Recording loses nothing and adds nothing else
  (`perm_addAll`), and keeps findings in line order (`Sorted`).  Findings of
  different lines may be recorded in either order, so a collection that is
  merged into another one leaves the same as recording its history there, one
  finding after the other (`merge_add`).
-/

import HuffTrace.Diagnostics

namespace HuffTrace.Diagnostics

variable {α : Type}

@[simp] theorem addAll_nil (d : Diagnostics α) : d.addAll [] = d := rfl

@[simp] theorem addAll_cons (d : Diagnostics α) (x : Located α) (found : List (Located α)) :
    d.addAll (x :: found) = (d.add x.line x.item).addAll found := rfl

@[simp] theorem addAll_append (d : Diagnostics α) (a b : List (Located α)) :
    d.addAll (a ++ b) = (d.addAll a).addAll b :=
  List.foldl_append

/-- Recording findings at one line, one after the other. -/
theorem foldl_add (d : Diagnostics α) (line : Nat) (items : List α) :
    items.foldl (fun d item => d.add line item) d
      = d.addAll (items.map fun item => ⟨line, item⟩) := by
  rw [addAll, List.foldl_map]

/-! ## Findings in line order -/

theorem insertDescending_of_le {x : Located α} {ys : List (Located α)}
    (h : ∀ y ∈ ys, y.line ≤ x.line) : insertDescending x ys = x :: ys := by
  cases ys with
  | nil => rfl
  | cons y ys =>
    have hy : y.line ≤ x.line := h y (by simp)
    rw [insertDescending, if_neg (by omega)]

/-- Findings recorded in line order stay as they were recorded. -/
theorem toList_addAll {d : Diagnostics α} {found : List (Located α)}
    (h : (d.toList ++ found).Pairwise (·.line ≤ ·.line)) :
    (d.addAll found).toList = d.toList ++ found := by
  induction found generalizing d with
  | nil => simp
  | cons x found ih =>
    have hlast : ∀ y ∈ d.descending, y.line ≤ x.line := by
      intro y hy
      exact (List.pairwise_append.1 h).2.2 y (by simpa [toList] using hy) x (by simp)
    have hadd : (d.add x.line x.item).toList = d.toList ++ [x] := by
      rw [toList, add, insertDescending_of_le hlast, List.reverse_cons, toList]
    rw [addAll_cons, ih (by rwa [hadd, List.append_assoc]), hadd, List.append_assoc,
      List.singleton_append]

/-! ## What is recorded -/

theorem insertDescending_perm (x : Located α) (found : List (Located α)) :
    (insertDescending x found).Perm (x :: found) := by
  induction found with
  | nil => exact .refl _
  | cons y found ih =>
    rw [insertDescending]
    split
    · exact (ih.cons y).trans (.swap x y found)
    · exact .refl _

theorem perm_add (d : Diagnostics α) (line : Nat) (item : α) :
    (d.add line item).toList.Perm (⟨line, item⟩ :: d.toList) :=
  ((List.reverse_perm _).trans (insertDescending_perm _ _)).trans
    ((List.reverse_perm d.descending).symm.cons _)

/-- A collection holds what it held before and what was recorded since. -/
theorem perm_addAll (d : Diagnostics α) (found : List (Located α)) :
    (d.addAll found).toList.Perm (d.toList ++ found) := by
  induction found generalizing d with
  | nil => rw [addAll_nil, List.append_nil]
  | cons x found ih =>
    rw [addAll_cons]
    exact ((ih _).trans ((perm_add d x.line x.item).append_right found)).trans
      List.perm_middle.symm

theorem filter_insertDescending {p : Located α → Bool} {x : Located α} (h : p x = false)
    (found : List (Located α)) : (insertDescending x found).filter p = found.filter p := by
  induction found with
  | nil => simp [insertDescending, h]
  | cons y found ih =>
    rw [insertDescending]
    split
    · rw [List.filter_cons, List.filter_cons, ih]
    · rw [List.filter_cons_of_neg (by simp [h])]

/-- Findings of one kind stay as they are while others are recorded. -/
theorem filter_addAll {p : Located α → Bool} (d : Diagnostics α) {found : List (Located α)}
    (h : ∀ x ∈ found, p x = false) : (d.addAll found).toList.filter p = d.toList.filter p := by
  induction found generalizing d with
  | nil => rfl
  | cons x found ih =>
    rw [addAll_cons, ih _ fun y hy => h y (List.mem_cons_of_mem x hy), toList, toList,
      List.filter_reverse, List.filter_reverse, add,
      filter_insertDescending (h x List.mem_cons_self)]

/-! ## Line order -/

/-- The findings of a collection come in line order. -/
def Sorted (d : Diagnostics α) : Prop :=
  d.toList.Pairwise (·.line ≤ ·.line)

theorem sorted_empty : (empty : Diagnostics α).Sorted :=
  .nil

theorem Sorted.add {d : Diagnostics α} (h : d.Sorted) (line : Nat) (item : α) :
    (d.add line item).Sorted := by
  have hinsert : ∀ {ys : List (Located α)}, ys.Pairwise (fun a b => b.line ≤ a.line) →
      (insertDescending ⟨line, item⟩ ys).Pairwise fun a b => b.line ≤ a.line := by
    intro ys hys
    induction hys with
    | nil => exact List.pairwise_singleton _ _
    | cons hy hys ih =>
      rename_i y ys
      rw [insertDescending]
      split
      · next hlt =>
        refine List.pairwise_cons.2 ⟨fun z hz => ?_, ih⟩
        rcases List.mem_cons.1 ((insertDescending_perm _ ys).mem_iff.1 hz) with rfl | hz
        · exact Nat.le_of_lt hlt
        · exact hy z hz
      · next hle =>
        have hle : y.line ≤ line := Nat.le_of_not_lt hle
        refine List.pairwise_cons.2 ⟨fun z hz => ?_, List.pairwise_cons.2 ⟨hy, hys⟩⟩
        rcases List.mem_cons.1 hz with rfl | hz
        · exact hle
        · exact Nat.le_trans (hy z hz) hle
  exact List.pairwise_reverse.2 (hinsert (List.pairwise_reverse.1 h))

theorem Sorted.addAll {d : Diagnostics α} (h : d.Sorted) (found : List (Located α)) :
    (d.addAll found).Sorted := by
  induction found generalizing d with
  | nil => exact h
  | cons x found ih => exact ih (h.add x.line x.item)

/-! ## Merging -/

theorem insertDescending_comm {x y : Located α} (h : x.line < y.line) (zs : List (Located α)) :
    insertDescending y (insertDescending x zs) = insertDescending x (insertDescending y zs) := by
  induction zs with
  | nil =>
    have hyx : ¬ y.line < x.line := by omega
    simp [insertDescending, h, hyx]
  | cons z zs ih =>
    -- Where the later one stops, the earlier one still goes past it.
    by_cases hy : y.line < z.line
    · have hx : x.line < z.line := by omega
      simp [insertDescending, hx, hy, ih]
    · by_cases hx : x.line < z.line
      · simp [insertDescending, h, hx, hy]
      · have hyx : ¬ y.line < x.line := by omega
        simp [insertDescending, h, hx, hy, hyx]

theorem add_comm {l k : Nat} (h : l < k) (d : Diagnostics α) (x y : α) :
    (d.add l x).add k y = (d.add k y).add l x :=
  congrArg Diagnostics.mk (insertDescending_comm (x := ⟨l, x⟩) (y := ⟨k, y⟩) h d.descending)

@[simp] theorem merge_empty (d : Diagnostics α) : d.merge {} = d := rfl

/-- A finding recorded before a merge might as well be recorded after it. -/
theorem merge_add (d e : Diagnostics α) (line : Nat) (item : α) :
    d.merge (e.add line item) = (d.merge e).add line item := by
  obtain ⟨ys⟩ := e
  have hstep : ∀ ys : List (Located α),
      d.addAll (insertDescending ⟨line, item⟩ ys).reverse
        = (d.addAll ys.reverse).add line item := by
    intro ys
    induction ys with
    | nil => rfl
    | cons y ys ih =>
      rw [insertDescending]
      split
      · next hlt =>
        simp only [List.reverse_cons, addAll_append, addAll_cons, addAll_nil, ih]
        exact add_comm hlt _ _ _
      · simp only [List.reverse_cons, addAll_append, addAll_cons, addAll_nil]
  exact hstep ys

end HuffTrace.Diagnostics

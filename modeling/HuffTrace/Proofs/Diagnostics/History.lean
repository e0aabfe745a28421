/-
  HuffTrace.Proofs.Diagnostics.History

  A collection of findings as its history makes it.  A history records findings
  one by one, or takes over all that another history has collected.  Whatever it
  does, the collection is the stable sort of what was recorded: the collections
  taken over are sorted already, and sorting them once more together with the
  rest is sorting everything once (`stable_history`).

  Two lists in line order are the same if they agree on each line
  (`eq_of_filter_line`).  So all that is ever compared is the findings of one
  line, and recording puts a new one behind them (`filter_line_addAll`).
-/

import HuffTrace.Proofs.Diagnostics
import HuffTrace.Proofs.Document.Failures

namespace HuffTrace.Diagnostics

variable {α : Type}

/-! ## Findings of one line -/

/-- Lists in line order that agree on each line are the same. -/
theorem eq_of_filter_line {xs ys : List (Located α)} (hxs : xs.Pairwise (·.line ≤ ·.line))
    (hys : ys.Pairwise (·.line ≤ ·.line))
    (h : ∀ line, xs.filter (·.line = line) = ys.filter (·.line = line)) : xs = ys := by
  induction xs generalizing ys with
  | nil =>
    cases ys with
    | nil => rfl
    | cons y ys => simpa using h y.line
  | cons x xs ih =>
    cases ys with
    | nil => simpa using h x.line
    | cons y ys =>
      -- Each list has a finding on the line where the other one begins.
      have hyx : y.line ≤ x.line := by
        have hmem : x ∈ (y :: ys).filter (·.line = x.line) := by simp [← h]
        rcases List.mem_cons.1 (List.mem_filter.1 hmem).1 with rfl | hx
        · exact Nat.le_refl _
        · exact List.rel_of_pairwise_cons hys hx
      have hxy : x.line ≤ y.line := by
        have hmem : y ∈ (x :: xs).filter (·.line = y.line) := by simp [h]
        rcases List.mem_cons.1 (List.mem_filter.1 hmem).1 with rfl | hy
        · exact Nat.le_refl _
        · exact List.rel_of_pairwise_cons hxs hy
      have hline : y.line = x.line := Nat.le_antisymm hyx hxy
      have hfirst := h x.line
      rw [List.filter_cons_of_pos (by simp), List.filter_cons_of_pos (by simpa using hline),
        List.cons.injEq] at hfirst
      obtain ⟨rfl, hrest⟩ := hfirst
      congr 1
      refine ih hxs.tail hys.tail fun line => ?_
      by_cases hhere : x.line = line
      · rw [← hhere]
        exact hrest
      · have hother := h line
        rwa [List.filter_cons_of_neg (by simpa using hhere),
          List.filter_cons_of_neg (by simpa using hhere)] at hother

theorem filter_line_insertDescending (x : Located α) (found : List (Located α)) (line : Nat) :
    (insertDescending x found).filter (·.line = line)
      = [x].filter (·.line = line) ++ found.filter (·.line = line) := by
  induction found with
  | nil => rw [insertDescending, List.filter_nil, List.append_nil]
  | cons y found ih =>
    rw [insertDescending]
    split
    · next hlt =>
      rw [List.filter_cons, ih]
      by_cases hy : y.line = line
      · -- What a finding is inserted below is on another line than the finding.
        have hx : ¬ x.line = line := by omega
        simp [hx, hy]
      · simp [hy]
    · rw [← List.filter_append, List.singleton_append]

/-- On each line, what is recorded comes behind what was there. -/
theorem filter_line_addAll (d : Diagnostics α) (found : List (Located α)) (line : Nat) :
    (d.addAll found).toList.filter (·.line = line)
      = d.toList.filter (·.line = line) ++ found.filter (·.line = line) := by
  induction found generalizing d with
  | nil => simp
  | cons x found ih =>
    have hadd : (d.add x.line x.item).toList.filter (·.line = line)
        = d.toList.filter (·.line = line) ++ [x].filter (·.line = line) := by
      rw [toList, add, List.filter_reverse, filter_line_insertDescending, List.reverse_append,
        ← List.filter_reverse, ← List.filter_reverse]
      rfl
    rw [addAll_cons, ih, hadd, List.append_assoc, ← List.filter_append, List.singleton_append]

/-! ## The stable sort by line -/

/-- Whether a finding need not come after another one. -/
def isNoLater (x y : Located α) : Bool :=
  x.line ≤ y.line

theorem isNoLater_trans (x y z : Located α) (hxy : isNoLater x y = true)
    (hyz : isNoLater y z = true) : isNoLater x z = true := by
  simp only [isNoLater, decide_eq_true_eq] at *
  omega

theorem isNoLater_total (x y : Located α) : (isNoLater x y || isNoLater y x) = true := by
  simp only [isNoLater, Bool.or_eq_true, decide_eq_true_eq]
  omega

/-- Findings in line order, those of one line in the order in which they are given. -/
def inLineOrder (found : List (Located α)) : List (Located α) :=
  found.mergeSort isNoLater

theorem pairwise_inLineOrder (found : List (Located α)) :
    (inLineOrder found).Pairwise (·.line ≤ ·.line) :=
  (List.pairwise_mergeSort isNoLater_trans isNoLater_total found).imp of_decide_eq_true

theorem filter_line_inLineOrder (found : List (Located α)) (line : Nat) :
    (inLineOrder found).filter (·.line = line) = found.filter (·.line = line) := by
  -- The findings of one line are in line order already, so a stable sort keeps them in order.
  have horder : (found.filter (·.line = line)).Pairwise fun x y => isNoLater x y = true := by
    refine List.pairwise_of_forall_mem_list fun x hx y hy => ?_
    have hx : x.line = line := by simpa using (List.mem_filter.1 hx).2
    have hy : y.line = line := by simpa using (List.mem_filter.1 hy).2
    simp [isNoLater, hx, hy]
  have hkept : (found.filter (·.line = line)).Sublist (inLineOrder found) :=
    List.sublist_mergeSort isNoLater_trans isNoLater_total horder List.filter_sublist
  have hsub := hkept.filter (·.line = line)
  rw [List.filter_filter] at hsub
  simp only [Bool.and_self] at hsub
  have hlength := ((List.mergeSort_perm found isNoLater).filter (·.line = line)).length_eq
  exact (hsub.eq_of_length hlength.symm).symm

theorem eq_inLineOrder_iff {xs found : List (Located α)} :
    xs = inLineOrder found ↔ xs.Pairwise (·.line ≤ ·.line)
      ∧ ∀ line, xs.filter (·.line = line) = found.filter (·.line = line) := by
  constructor
  · rintro rfl
    exact ⟨pairwise_inLineOrder found, filter_line_inLineOrder found⟩
  · rintro ⟨hxs, h⟩
    exact eq_of_filter_line hxs (pairwise_inLineOrder found) fun line => by
      rw [h, filter_line_inLineOrder]

/-- Recording one finding after the other sorts all of them stably. -/
theorem toList_addAll_eq_inLineOrder {d : Diagnostics α} (h : d.Sorted) (found : List (Located α)) :
    (d.addAll found).toList = inLineOrder (d.toList ++ found) :=
  eq_inLineOrder_iff.2 ⟨h.addAll found, fun line => by
    rw [filter_line_addAll, List.filter_append]⟩

/-! ## Histories -/

/-- How a collection of findings comes about. -/
inductive History (α : Type) where
  | empty
  /-- One finding is recorded at a line. -/
  | add (before : History α) (line : Nat) (item : α)
  /-- All that another history has collected is recorded at once. -/
  | addAll (before batch : History α)
  /-- The collection of another history is merged. -/
  | merge (before batch : History α)

namespace History

/-- What a history collects. -/
def collection : History α → Diagnostics α
  | empty => .empty
  | add before line item => before.collection.add line item
  | addAll before batch => before.collection.addAll batch.collection.toList
  | merge before batch => before.collection.merge batch.collection

/-- The findings that are recorded, in the order in which each step hands them over: a batch
    comes in the order of the collection that it is. -/
def supplied : History α → List (Located α)
  | empty => []
  | add before line item => before.supplied ++ [⟨line, item⟩]
  | addAll before batch | merge before batch => before.supplied ++ batch.collection.toList

/-- The findings that are recorded, in the order in which they were recorded first: a batch
    comes in the order of its own history. -/
def recorded : History α → List (Located α)
  | empty => []
  | add before line item => before.recorded ++ [⟨line, item⟩]
  | addAll before batch | merge before batch => before.recorded ++ batch.recorded

theorem sorted_collection (h : History α) : h.collection.Sorted := by
  induction h with
  | empty => exact sorted_empty
  | add before line item ih => exact ih.add line item
  | addAll before batch ih _ => exact ih.addAll _
  | merge before batch ih _ => exact ih.addAll _

theorem filter_line_supplied (h : History α) (line : Nat) :
    h.collection.toList.filter (·.line = line) = h.supplied.filter (·.line = line) := by
  induction h with
  | empty => rfl
  | add before l item ih =>
    show (before.collection.addAll [⟨l, item⟩]).toList.filter _ = _
    rw [filter_line_addAll, ih, supplied, List.filter_append]
  | addAll before batch ih _ | merge before batch ih _ =>
    show (before.collection.addAll batch.collection.toList).toList.filter _ = _
    rw [filter_line_addAll, ih, supplied, List.filter_append]

theorem filter_line_recorded (h : History α) (line : Nat) :
    h.collection.toList.filter (·.line = line) = h.recorded.filter (·.line = line) := by
  induction h with
  | empty => rfl
  | add before l item ih =>
    show (before.collection.addAll [⟨l, item⟩]).toList.filter _ = _
    rw [filter_line_addAll, ih, recorded, List.filter_append]
  | addAll before batch ih ihbatch | merge before batch ih ihbatch =>
    show (before.collection.addAll batch.collection.toList).toList.filter _ = _
    rw [filter_line_addAll, ih, ihbatch, recorded, List.filter_append]

end History

/-! ## Problems of an analysis -/

theorem toList_map {β : Type} (f : α → β) (d : Diagnostics α) :
    (d.map f).toList = d.toList.map fun x => ⟨x.line, f x.item⟩ := by
  rw [toList, toList, map, List.map_reverse]

/-- A collection is the stable sort by line of all that its history recorded.  It makes no
    difference whether a batch counts in the order in which it was handed over or in that of its
    own history.  Nothing is lost or recorded twice, the lines do not decrease, and the findings
    of each line are in the order of recording.  So are the problems of an analysis: on each
    line, those of the document come before what the execution met. -/
theorem stable_history (h : History α) (library : Library) (chain : List Path) (path : Path)
    (text : String) (limits : Limits) :
    let document := Document.build library chain path text
    let analysis := Analysis.run document limits
    h.collection.toList = inLineOrder h.supplied
    ∧ h.collection.toList = inLineOrder h.recorded
    ∧ h.collection.toList.Perm h.recorded
    ∧ h.collection.lines.Pairwise (· ≤ ·)
    ∧ (∀ line, h.collection.toList.filter (·.line = line) = h.recorded.filter (·.line = line))
    ∧ analysis.problems.toList
      = inLineOrder (document.problems.toList
        ++ analysis.faults.toList.map fun found => ⟨found.line, .execution found.item⟩)
    ∧ ∀ line, analysis.problems.toList.filter (·.line = line)
      = document.problems.toList.filter (·.line = line)
        ++ (analysis.faults.toList.filter (·.line = line)).map
          fun found => ⟨found.line, .execution found.item⟩ := by
  intro document analysis
  have hsupplied : h.collection.toList = inLineOrder h.supplied :=
    eq_inLineOrder_iff.2 ⟨h.sorted_collection, h.filter_line_supplied⟩
  have hrecorded : h.collection.toList = inLineOrder h.recorded :=
    eq_inLineOrder_iff.2 ⟨h.sorted_collection, h.filter_line_recorded⟩
  have hproblems : analysis.problems
      = document.problems.addAll (analysis.faults.toList.map fun found =>
        ⟨found.line, .execution found.item⟩) := by
    rw [Analysis.problems, merge, toList_map]
    rfl
  refine ⟨hsupplied, hrecorded, ?_, ?_, h.filter_line_recorded, ?_, fun line => ?_⟩
  · rw [hrecorded]
    exact List.mergeSort_perm _ _
  · exact List.pairwise_map.2 h.sorted_collection
  · rw [hproblems]
    exact toList_addAll_eq_inLineOrder (Document.sorted_problems_build ..) _
  · rw [hproblems, filter_line_addAll, List.filter_map]
    rfl

end HuffTrace.Diagnostics

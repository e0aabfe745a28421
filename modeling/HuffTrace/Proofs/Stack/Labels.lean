/-
  HuffTrace.Proofs.Stack.Labels

  What a stack remembers for its labels, told by the operations since labels
  were last cleared (`since`).  A label has a shape exactly if it has been
  marked since then, and the shape is what was visible after the last time.  A
  shape waits for a label exactly if the label has been jumped to and not been
  marked, and it is what was visible at the first jump.

  How a single operation changes the two tables is one equation for each
  (`labels_outcome`, `pending_outcome`).  The rest is induction over the
  history, the latest operation taken off first.
-/

import HuffTrace.Proofs.Stack.InPlace
import Mathlib.Data.List.DropRight

namespace HuffTrace.Stack

/-! ## Histories -/

/-- The operations since labels were last cleared, or since the stack was made. -/
def since (operations : List Operation) : List Operation :=
  operations.rtakeWhile (· ≠ .clearLabels)

section Histories

variable (operations : List Operation) {operation : Operation}

theorem since_concat (h : operation ≠ .clearLabels) :
    since (operations ++ [operation]) = since operations ++ [operation] := by
  rw [since, List.rtakeWhile_concat_pos _ _ _ (by simpa using h)]
  rfl

theorem since_concat_clearLabels : since (operations ++ [.clearLabels]) = [] := by
  rw [since, List.rtakeWhile_concat_neg _ _ _ (by simp)]

theorem after_concat (operation : Operation) :
    after (operations ++ [operation]) = (operation.inPlace.outcome (after operations)).2 :=
  List.foldl_concat _ _ _ _

end Histories

/-! ## A single operation -/

/-- What an operation in place does to what a stack remembers. -/
inductive Relabels (s : Stack) : Operation → Stack → Prop where
  | mark (label : String) : Relabels s (.mark label) (s.mark label)
  | jump (label : String) : Relabels s (.jump label) (s.jump label)
  | clear : Relabels s .clearLabels s.clearLabels
  | keep {operation : Operation} {s' : Stack} (mark : ∀ label, operation ≠ .mark label)
      (jump : ∀ label, operation ≠ .jump label) (clear : operation ≠ .clearLabels)
      (labels : s'.labels = s.labels) (pending : s'.pending = s.pending) : Relabels s operation s'

theorem Operation.relabels_of_apply {s s' : Stack} {operation : Operation}
    (h : operation.apply s = .ok s') : Relabels s operation s' := by
  cases operation with
  | push v =>
    obtain ⟨-, rfl⟩ := push_eq_ok h
    exact .keep nofun nofun nofun rfl rfl
  | pop =>
    obtain ⟨v, hpop⟩ := apply_pop_eq_ok h
    obtain ⟨rest, -, rfl⟩ := pop_eq_ok hpop
    exact .keep nofun nofun nofun rfl rfl
  | read depth =>
    obtain rfl := apply_read_eq_ok h
    exact .keep nofun nofun nofun rfl rfl
  | dup n =>
    obtain ⟨v, -, hpush⟩ := dup_eq_ok h
    obtain ⟨-, rfl⟩ := push_eq_ok hpush
    exact .keep nofun nofun nofun rfl rfl
  | swap depth =>
    obtain ⟨top, -, other, -, rfl⟩ := swap_eq_ok h
    exact .keep nofun nofun nofun rfl rfl
  | hide | reveal | reset =>
    cases h
    exact .keep nofun nofun nofun rfl rfl
  | mark label => cases h; exact .mark label
  | jump label => cases h; exact .jump label
  | clearLabels => cases h; exact .clear

section Step

variable (s : Stack) (operation : Operation) (label : String)

/-- Every operation does one of these, be it refused or not. -/
theorem Operation.relabels : Relabels s operation (operation.inPlace.outcome s).2 := by
  rw [operation.outcome_inPlace]
  cases happly : operation.apply s with
  | ok s' => exact Operation.relabels_of_apply happly
  | error e =>
    -- What is about labels is never refused.
    refine .keep ?_ ?_ ?_ rfl rfl
    · rintro label rfl
      cases happly
    · rintro label rfl
      cases happly
    · rintro rfl
      cases happly

theorem labels_outcome :
    (operation.inPlace.outcome s).2.labels.find? label
      = if operation = .clearLabels then none
        else if operation = .mark label then some (s.mark label).visible
        else s.labels.find? label := by
  have hrelabels := operation.relabels s
  generalize (operation.inPlace.outcome s).2 = s' at hrelabels
  cases hrelabels with
  | mark other =>
    rw [labels_mark]
    by_cases hother : label = other
    · simp [hother]
    · simp [hother, Ne.symm hother]
  | jump other => simp [labels_jump]
  | clear => rfl
  | keep hmark _ hclear hlabels _ => rw [if_neg hclear, if_neg (hmark label), hlabels]

theorem pending_outcome :
    (operation.inPlace.outcome s).2.pending.find? label
      = if operation = .clearLabels ∨ operation = .mark label then none
        else if operation = .jump label ∧ s.labels.find? label = none then
          some ((s.pending.find? label).getD s.visible)
        else s.pending.find? label := by
  have hrelabels := operation.relabels s
  generalize (operation.inPlace.outcome s).2 = s' at hrelabels
  cases hrelabels with
  | mark other =>
    rw [pending_mark]
    by_cases hother : label = other
    · simp [hother]
    · simp [hother, Ne.symm hother]
  | jump other =>
    rw [pending_jump]
    by_cases hother : label = other
    · simp [hother]
    · simp [hother, Ne.symm hother]
  | clear => rfl
  | keep hmark hjump hclear _ hpending => simp [hmark, hjump, hclear, hpending]

end Step

/-! ## What the history tells -/

section History

variable {operations : List Operation} {label : String}

/-- A label that has not been marked has no shape. -/
theorem labels_eq_none (h : .mark label ∉ since operations) :
    (after operations).labels.find? label = none := by
  induction operations using List.reverseRecOn with
  | nil => rfl
  | append_singleton operations operation ih =>
    rw [after_concat, labels_outcome]
    by_cases hclear : operation = .clearLabels
    · exact if_pos hclear
    rw [since_concat operations hclear, List.mem_append, List.mem_singleton, not_or] at h
    rw [if_neg hclear, if_neg (Ne.symm h.2)]
    exact ih h.1

/-- No shape waits for a label that has not been jumped to. -/
theorem pending_eq_none (h : .jump label ∉ since operations) :
    (after operations).pending.find? label = none := by
  induction operations using List.reverseRecOn with
  | nil => rfl
  | append_singleton operations operation ih =>
    rw [after_concat, pending_outcome]
    by_cases hgone : operation = .clearLabels ∨ operation = .mark label
    · exact if_pos hgone
    rw [since_concat operations (not_or.1 hgone).1, List.mem_append, List.mem_singleton,
      not_or] at h
    rw [if_neg hgone, if_neg (fun hjump => h.2 hjump.1.symm)]
    exact ih h.1

/-- A label that has been marked has the shape after the last time. -/
theorem exists_mark (h : .mark label ∈ since operations) :
    ∃ past rest, operations = past ++ .mark label :: rest
      ∧ .mark label ∉ rest ∧ .clearLabels ∉ rest
      ∧ (after operations).labels.find? label = some (after (past ++ [.mark label])).visible := by
  induction operations using List.reverseRecOn with
  | nil => cases h
  | append_singleton operations operation ih =>
    have hclear : operation ≠ .clearLabels := by
      rintro rfl
      rw [since_concat_clearLabels] at h
      cases h
    by_cases hmark : operation = .mark label
    · -- This mark is the last one, whether there was one before or not.
      subst hmark
      refine ⟨operations, [], rfl, nofun, nofun, ?_⟩
      rw [after_concat, labels_outcome, if_neg hclear, if_pos rfl]
      rfl
    · -- Any other operation leaves the shape of the label alone.
      rw [since_concat operations hclear, List.mem_append, List.mem_singleton] at h
      obtain ⟨past, rest, hsplit, hlast, hkept, hshape⟩ := ih (h.resolve_right (Ne.symm hmark))
      refine ⟨past, rest ++ [operation], by simp [hsplit], ?_, ?_, ?_⟩
      · simp [hlast, Ne.symm hmark]
      · simp [hkept, Ne.symm hclear]
      · rw [after_concat, labels_outcome, if_neg hclear, if_neg hmark, hshape]

/-- For a label that has been jumped to and not been marked the shape at the first jump waits. -/
theorem exists_jump (hmark : .mark label ∉ since operations)
    (hjump : .jump label ∈ since operations) :
    ∃ past rest, operations = past ++ .jump label :: rest
      ∧ .jump label ∉ since past ∧ .clearLabels ∉ rest
      ∧ (after operations).pending.find? label = some (after past).visible := by
  induction operations using List.reverseRecOn with
  | nil => cases hjump
  | append_singleton operations operation ih =>
    have hclear : operation ≠ .clearLabels := by
      rintro rfl
      rw [since_concat_clearLabels] at hjump
      cases hjump
    rw [since_concat operations hclear, List.mem_append, List.mem_singleton] at hmark hjump
    obtain ⟨hunmarked, hother⟩ := not_or.1 hmark
    have hkept : ¬(operation = .clearLabels ∨ operation = .mark label) :=
      not_or.2 ⟨hclear, Ne.symm hother⟩
    by_cases hearlier : .jump label ∈ since operations
    · -- A shape that waits already stays, whether this is another jump or not.
      obtain ⟨past, rest, hsplit, hfirst, hsince, hshape⟩ := ih hunmarked hearlier
      refine ⟨past, rest ++ [operation], by simp [hsplit], hfirst, ?_, ?_⟩
      · simp [hsince, Ne.symm hclear]
      · rw [after_concat, pending_outcome, if_neg hkept, hshape]
        exact ite_self _
    · -- This is the first jump, and with no mark before it there is no shape to bring back.
      obtain rfl := hjump.resolve_left hearlier
      refine ⟨operations, [], rfl, hearlier, nofun, ?_⟩
      rw [after_concat, pending_outcome, if_neg hkept, if_pos ⟨rfl, labels_eq_none hunmarked⟩,
        pending_eq_none hearlier]
      rfl

/-- No label is in both tables. -/
theorem labels_or_pending_eq_none (operations : List Operation) (label : String) :
    (after operations).labels.find? label = none
    ∨ (after operations).pending.find? label = none := by
  induction operations using List.reverseRecOn with
  | nil => exact .inl rfl
  | append_singleton operations operation ih =>
    rw [after_concat, labels_outcome, pending_outcome]
    by_cases hgone : operation = .clearLabels ∨ operation = .mark label
    · exact .inr (if_pos hgone)
    obtain ⟨hclear, hmark⟩ := not_or.1 hgone
    rw [if_neg hclear, if_neg hmark, if_neg hgone]
    -- A jump leaves a shape only for a label that has none.
    by_cases hfree : (after operations).labels.find? label = none
    · exact .inl hfree
    · right
      rw [if_neg (fun hboth => hfree hboth.2)]
      exact ih.resolve_left hfree

end History

/-- After any operations, whatever calls, returns and resets are among them, a jump to a label
    finds it exactly if it has been marked since labels were last cleared; it then brings back
    what was visible right after the last time, and else changes nothing visible.  Marking a
    label that has been jumped to and not been marked brings back what was visible at the first
    such jump, and marking any other changes nothing visible.  No label has both a shape and one
    that waits, and neither a jump nor marking a label changes what is hidden. -/
theorem label_history (operations : List Operation) (label : String) :
    ((after operations).isMarked label = true ↔ .mark label ∈ since operations)
    ∧ (.mark label ∈ since operations → ∃ past rest,
        operations = past ++ .mark label :: rest ∧ .mark label ∉ rest ∧ .clearLabels ∉ rest
        ∧ ((after operations).jump label).visible = (after (past ++ [.mark label])).visible)
    ∧ (.mark label ∉ since operations →
        ((after operations).jump label).visible = (after operations).visible)
    ∧ (.mark label ∉ since operations → .jump label ∈ since operations → ∃ past rest,
        operations = past ++ .jump label :: rest ∧ .jump label ∉ since past ∧ .clearLabels ∉ rest
        ∧ ((after operations).mark label).visible = (after past).visible)
    ∧ (.mark label ∈ since operations ∨ .jump label ∉ since operations →
        ((after operations).mark label).visible = (after operations).visible)
    ∧ ((after operations).labels.find? label = none
      ∨ (after operations).pending.find? label = none)
    ∧ ((after operations).jump label).hidden = (after operations).hidden
    ∧ ((after operations).mark label).hidden = (after operations).hidden := by
  have hvisible : ((after operations).mark label).visible
      = ((after operations).pending.find? label).getD (after operations).visible := rfl
  have hapart := labels_or_pending_eq_none operations label
  rw [hvisible, visible_jump]
  refine ⟨?_, ?_, ?_, ?_, ?_, hapart, hidden_jump _ _, rfl⟩
  · rw [isMarked, Option.isSome_iff_ne_none]
    refine ⟨fun hfound => by_contra fun hmark => hfound (labels_eq_none hmark), fun hmark => ?_⟩
    obtain ⟨past, rest, -, -, -, hshape⟩ := exists_mark hmark
    simp [hshape]
  · intro hmark
    obtain ⟨past, rest, hsplit, hlast, hkept, hshape⟩ := exists_mark hmark
    exact ⟨past, rest, hsplit, hlast, hkept, by rw [hshape]; rfl⟩
  · intro hmark
    rw [labels_eq_none hmark]
    rfl
  · intro hmark hjump
    obtain ⟨past, rest, hsplit, hfirst, hkept, hshape⟩ := exists_jump hmark hjump
    exact ⟨past, rest, hsplit, hfirst, hkept, by rw [hshape]; rfl⟩
  · intro hsettled
    -- A mark takes the shape that waits with it, and only a jump leaves one.
    have hfree : (after operations).pending.find? label = none := by
      rcases hsettled with hmark | hjump
      · obtain ⟨past, rest, -, -, -, hshape⟩ := exists_mark hmark
        exact hapart.resolve_left (by simp [hshape])
      · exact pending_eq_none hjump
    rw [hfree]
    rfl

end HuffTrace.Stack

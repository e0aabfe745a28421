/-
  HuffTrace.Proofs.Stack

  Invariants of stacks.  What a stack remembers for one label is not touched by
  the others (`labels_mark`, `pending_jump`).

  A property of values holds everywhere in a stack, among the visible, hidden
  and remembered ones, if it holds of all that is pushed (`Everywhere`).

  The visible values of a stack are at most `maxDepth`, and so are the shapes
  that it remembers for labels, which can become visible again; every operation
  keeps that (`Bounded`).  A number of inputs or outputs beyond `maxDepth`
  therefore means the same as `maxDepth` itself.
-/

import HuffTrace.Proofs.Opcode.Invariant
import HuffTrace.Proofs.Stack.Operations

namespace HuffTrace

/-! ## Remembered shapes -/

namespace Snapshots

variable {P : List Value → Prop} {table : Snapshots} {label : String} {shape : List Value}

theorem forall_find? (h : ∀ entry ∈ table, P entry.2) (hfind : table.find? label = some shape) :
    P shape := by
  obtain ⟨before, after, rfl, -⟩ := List.lookup_eq_some_iff.1 hfind
  exact h (label, shape) (by simp)

theorem forall_erase (h : ∀ entry ∈ table, P entry.2) :
    ∀ entry ∈ table.erase label, P entry.2 :=
  fun entry hentry => h entry (List.mem_filter.1 hentry).1

theorem forall_put (h : ∀ entry ∈ table, P entry.2) (hshape : P shape) :
    ∀ entry ∈ table.put label shape, P entry.2 := by
  intro entry hentry
  rcases List.mem_cons.1 hentry with rfl | hentry
  · exact hshape
  · exact forall_erase h entry hentry

theorem find?_erase (table : Snapshots) (label other : String) :
    (table.erase label).find? other = if other = label then none else table.find? other := by
  induction table with
  | nil => exact (ite_self none).symm
  | cons entry table ih =>
    obtain ⟨name, shape⟩ := entry
    unfold erase find? at ih ⊢
    by_cases hname : name = label
    · -- The entry that is dropped is found under no other label.
      subst hname
      rw [List.filter_cons_of_neg (by simp), ih]
      split
      · rfl
      · next hother => rw [List.lookup_cons, beq_false_of_ne hother]
    · rw [List.filter_cons_of_pos (by simpa using hname), List.lookup_cons, List.lookup_cons, ih]
      by_cases hother : other = name
      · subst hother
        simp [hname]
      · rw [beq_false_of_ne hother]

theorem find?_put (table : Snapshots) (label : String) (shape : List Value) (other : String) :
    (table.put label shape).find? other
      = if other = label then some shape else table.find? other := by
  have herase := find?_erase table label other
  unfold find? at herase ⊢
  rw [put, List.lookup_cons, herase]
  by_cases hother : other = label
  · simp [hother]
  · rw [beq_false_of_ne hother, if_neg hother, if_neg hother]

end Snapshots

namespace Stack

/-! ## Labels -/

section Labels

variable (s : Stack) (label other : String)

theorem labels_mark :
    (s.mark label).labels.find? other
      = if other = label then some (s.mark label).visible else s.labels.find? other :=
  Snapshots.find?_put _ _ _ _

theorem pending_mark :
    (s.mark label).pending.find? other
      = if other = label then none else s.pending.find? other :=
  Snapshots.find?_erase _ _ _

/-- A jump brings back a shape exactly if its label has been passed. -/
theorem jump_eq :
    s.jump label
      = if s.isMarked label then { s with visible := (s.labels.find? label).getD s.visible }
        else if (s.pending.find? label).isSome then s
        else { s with pending := s.pending.put label s.visible } := by
  rw [jump, isMarked]
  cases s.labels.find? label <;> rfl

theorem visible_jump : (s.jump label).visible = (s.labels.find? label).getD s.visible := by
  rw [jump_eq]
  split
  · rfl
  · next hunmarked =>
    have hmissing : s.labels.find? label = none := Option.not_isSome_iff_eq_none.1 hunmarked
    rw [hmissing]
    split <;> rfl

theorem hidden_jump : (s.jump label).hidden = s.hidden := by
  rw [jump_eq]
  split
  · rfl
  · split <;> rfl

theorem labels_jump : (s.jump label).labels = s.labels := by
  rw [jump_eq]
  split
  · rfl
  · split <;> rfl

theorem pending_jump :
    (s.jump label).pending.find? other
      = if other = label ∧ s.labels.find? label = none then
          some ((s.pending.find? label).getD s.visible)
        else s.pending.find? other := by
  unfold jump
  split
  · next hfound => simp [hfound]
  · next hmissing =>
    simp only [hmissing, and_true]
    split
    · next hwaiting =>
      obtain ⟨shape, hshape⟩ := Option.isSome_iff_exists.1 hwaiting
      split
      · next hother => rw [hother, hshape]; rfl
      · rfl
    · next hfree =>
      rw [Snapshots.find?_put, Option.not_isSome_iff_eq_none.1 hfree]
      rfl

end Labels

/-! ## Values anywhere in a stack -/

/-- All values of a shape satisfy a property. -/
def Throughout (P : Value → Prop) (shape : List Value) : Prop :=
  ∀ v ∈ shape, P v

/-- Every value that a stack shows, hides or remembers satisfies a property. -/
structure Everywhere (P : Value → Prop) (s : Stack) : Prop where
  visible : Throughout P s.visible
  hidden : ∀ part ∈ s.hidden, Throughout P part
  labels : ∀ entry ∈ s.labels, Throughout P entry.2
  pending : ∀ entry ∈ s.pending, Throughout P entry.2

section Everywhere

variable {P : Value → Prop} {s s' : Stack}

theorem everywhere_empty (P : Value → Prop) : Everywhere P {} :=
  ⟨nofun, nofun, nofun, nofun⟩

theorem Everywhere.push (h : s.Everywhere P) {v : Value} (hv : P v) (hpush : s.push v = .ok s') :
    s'.Everywhere P := by
  obtain ⟨-, rfl⟩ := push_eq_ok hpush
  exact ⟨List.forall_mem_cons.2 ⟨hv, h.visible⟩, h.hidden, h.labels, h.pending⟩

theorem Everywhere.swap (h : s.Everywhere P) {depth : Nat} (hswap : s.swap depth = .ok s') :
    s'.Everywhere P := by
  obtain ⟨top, htop, other, hother, rfl⟩ := swap_eq_ok hswap
  refine ⟨?_, h.hidden, h.labels, h.pending⟩
  intro v hv
  rcases List.mem_or_eq_of_mem_set hv with hv | rfl
  · rcases List.mem_or_eq_of_mem_set hv with hv | rfl
    · exact h.visible v hv
    · exact h.visible _ hother
  · exact h.visible _ htop

theorem Everywhere.jump (h : s.Everywhere P) (label : String) : (s.jump label).Everywhere P := by
  unfold Stack.jump
  split
  · next hfind =>
    exact ⟨Snapshots.forall_find? h.labels hfind, h.hidden, h.labels, h.pending⟩
  · split
    · exact h
    · exact ⟨h.visible, h.hidden, h.labels, Snapshots.forall_put h.pending h.visible⟩

theorem Everywhere.mark (h : s.Everywhere P) (label : String) : (s.mark label).Everywhere P := by
  have hshape : Throughout P ((s.pending.find? label).getD s.visible) := by
    cases hfind : s.pending.find? label with
    | none => exact h.visible
    | some shape => exact Snapshots.forall_find? h.pending hfind
  exact ⟨hshape, h.hidden, Snapshots.forall_put h.labels hshape,
    Snapshots.forall_erase h.pending⟩

theorem Everywhere.hide (h : s.Everywhere P) (keep : Nat) : (s.hide keep).Everywhere P := by
  refine ⟨fun v hv => h.visible v (List.mem_of_mem_take hv), ?_, h.labels, h.pending⟩
  exact List.forall_mem_cons.2 ⟨fun v hv => h.visible v (List.mem_of_mem_drop hv), h.hidden⟩

theorem Everywhere.reveal (h : s.Everywhere P) (keep : Nat) : (s.reveal keep).Everywhere P := by
  refine ⟨?_, fun part hpart => h.hidden part (List.mem_of_mem_tail hpart), h.labels, h.pending⟩
  intro v hv
  rcases List.mem_append.1 (List.mem_of_mem_take hv) with hv | hv
  · exact h.visible v (List.mem_of_mem_take hv)
  · -- With nothing hidden there is nothing to put back.
    cases hhidden : s.hidden with
    | nil =>
      rw [hhidden] at hv
      cases hv
    | cons part rest =>
      rw [hhidden] at hv
      exact h.hidden part (by rw [hhidden]; exact List.mem_cons_self) v hv

theorem everywhere_fresh (s : Stack) {values : List Value} (h : Throughout P values) :
    (s.reset values).clearLabels.Everywhere P :=
  ⟨fun v hv => h v (List.mem_of_mem_take hv), nofun, nofun, nofun⟩

/-- A property of values that texts keep as opcodes join them is upheld everywhere. -/
theorem upheld_everywhere
    (honeLine : ∀ {text : String}, Text.OneLine text → P (.symbolic text))
    (happend : ∀ {a b : String}, P (.symbolic a) → P (.symbolic b) → P (.symbolic (a ++ b)))
    (hclip : ∀ {text : String} (limit : Nat), P (.symbolic text) →
      P (.symbolic (Text.clip limit text)))
    (htext : ∀ {v : Value}, P v → P (.symbolic v.text))
    (hfolded : ∀ word : Word, P (.folded word)) :
    Upheld P (Everywhere P) where
  oneLine := honeLine
  append := happend
  clip := hclip
  text := htext
  folded := hfolded
  push h hv hpush := h.push hv hpush
  pop {s s' v} h hpop := by
    obtain ⟨rest, hvisible, rfl⟩ := pop_eq_ok hpop
    have hall := h.visible
    rw [hvisible] at hall
    exact ⟨hall v List.mem_cons_self, fun w hw => hall w (List.mem_cons_of_mem v hw), h.hidden,
      h.labels, h.pending⟩
  dup h hdup := by
    obtain ⟨v, hv, hpush⟩ := dup_eq_ok hdup
    exact h.push (h.visible v hv) hpush
  swap h hswap := h.swap hswap

end Everywhere

/-! ## Bounded stacks -/

/-- A shape that a stack may have. -/
def Fits (shape : List Value) : Prop :=
  shape.length ≤ maxDepth

/-- What is visible, or can become visible again at a label, is not too deep. -/
structure Bounded (s : Stack) : Prop where
  visible : Fits s.visible
  labels : ∀ entry ∈ s.labels, Fits entry.2
  pending : ∀ entry ∈ s.pending, Fits entry.2

variable {s s' : Stack}

theorem bounded_empty : Bounded {} :=
  ⟨Nat.zero_le _, nofun, nofun⟩

theorem Bounded.push (h : s.Bounded) {v : Value} (hpush : s.push v = .ok s') : s'.Bounded := by
  obtain ⟨hroom, rfl⟩ := push_eq_ok hpush
  exact ⟨hroom, h.labels, h.pending⟩

theorem Bounded.jump (h : s.Bounded) (label : String) : (s.jump label).Bounded := by
  unfold Stack.jump
  split
  · next hfind => exact ⟨Snapshots.forall_find? h.labels hfind, h.labels, h.pending⟩
  · split
    · exact h
    · exact ⟨h.visible, h.labels, Snapshots.forall_put h.pending h.visible⟩

theorem Bounded.mark (h : s.Bounded) (label : String) : (s.mark label).Bounded := by
  have hshape : Fits ((s.pending.find? label).getD s.visible) := by
    cases hfind : s.pending.find? label with
    | none => exact h.visible
    | some shape => exact Snapshots.forall_find? h.pending hfind
  exact ⟨hshape, Snapshots.forall_put h.labels hshape, Snapshots.forall_erase h.pending⟩

theorem Bounded.hide (h : s.Bounded) (keep : Nat) : (s.hide keep).Bounded := by
  refine ⟨?_, h.labels, h.pending⟩
  have hvisible : s.visible.length ≤ maxDepth := h.visible
  show (s.visible.take keep).length ≤ maxDepth
  rw [List.length_take]
  omega

theorem Bounded.reveal (h : s.Bounded) (keep : Nat) : (s.reveal keep).Bounded :=
  ⟨List.length_take_le _ _, h.labels, h.pending⟩

theorem bounded_fresh (s : Stack) (values : List Value) : (s.reset values).clearLabels.Bounded :=
  ⟨List.length_take_le _ _, nofun, nofun⟩

theorem upheld_bounded : Upheld (fun _ => True) Bounded where
  oneLine _ := trivial
  append _ _ := trivial
  clip _ _ := trivial
  text _ := trivial
  folded _ := trivial
  push h _ hpush := h.push hpush
  pop {s s' v} h hpop := by
    obtain ⟨rest, hvisible, rfl⟩ := pop_eq_ok hpop
    refine ⟨trivial, ?_, h.labels, h.pending⟩
    have hfits : s.visible.length ≤ maxDepth := h.visible
    rw [hvisible, List.length_cons] at hfits
    show rest.length ≤ maxDepth
    omega
  dup h hdup := by
    obtain ⟨v, -, hpush⟩ := dup_eq_ok hdup
    exact h.push hpush
  swap {s s' depth} h hswap := by
    obtain ⟨top, -, other, -, rfl⟩ := swap_eq_ok hswap
    refine ⟨?_, h.labels, h.pending⟩
    show ((s.visible.set 0 other).set depth top).length ≤ maxDepth
    rw [List.length_set, List.length_set]
    exact h.visible

/-! ## Numbers of values beyond the depth -/

/-- Hiding all but more values than there can be hides nothing. -/
theorem Bounded.hide_min (h : s.Bounded) (keep : Nat) :
    s.hide (min keep maxDepth) = s.hide keep := by
  have hvisible : s.visible.length ≤ maxDepth := h.visible
  by_cases hkeep : keep ≤ maxDepth
  · rw [Nat.min_eq_left hkeep]
  · rw [Nat.min_eq_right (by omega), Stack.hide, Stack.hide, List.take_of_length_le hvisible,
      List.take_of_length_le (by omega), List.drop_of_length_le hvisible,
      List.drop_of_length_le (by omega)]

/-- Of more outputs than there can be values, those beyond the depth are cut off again. -/
theorem reveal_min (s : Stack) (keep : Nat) : s.reveal (min keep maxDepth) = s.reveal keep := by
  by_cases hkeep : keep ≤ maxDepth
  · rw [Nat.min_eq_left hkeep]
  · rw [Nat.min_eq_right (by omega), Stack.reveal, Stack.reveal]
    congr 1
    rw [List.take_append, List.take_append, List.take_take, List.take_take, Nat.min_self,
      Nat.min_eq_left (by omega), List.length_take, List.length_take]
    congr 2
    omega

end Stack

end HuffTrace

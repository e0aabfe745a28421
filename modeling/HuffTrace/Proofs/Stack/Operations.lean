/-
  HuffTrace.Proofs.Stack.Operations

  What the operations of a stack that can fail have done when they succeed.
  Each lemma takes a successful operation apart, so that a fact about stacks is
  carried over it without unfolding the operation.
-/

import HuffTrace.Stack

namespace HuffTrace.Stack

variable {s s' : Stack}

theorem push_eq_ok {v : Value} (h : s.push v = .ok s') :
    s.size < maxDepth ∧ s' = { s with visible := v :: s.visible } := by
  unfold push at h
  split at h
  · next hroom => exact ⟨hroom, (Except.ok.inj h).symm⟩
  · cases h

theorem pop_eq_ok {v : Value} (h : s.pop = .ok (v, s')) :
    ∃ rest, s.visible = v :: rest ∧ s' = { s with visible := rest } := by
  unfold pop at h
  split at h
  · cases h
  · next first rest hvisible =>
    obtain ⟨rfl, rfl⟩ : first = v ∧ { s with visible := rest } = s' := by
      simpa using Except.ok.inj h
    exact ⟨rest, hvisible, rfl⟩

theorem read_eq_ok {depth : Nat} {v : Value} (h : s.read depth = .ok v) :
    s.visible[depth]? = some v := by
  unfold read at h
  split at h
  · cases h
  · next found hfound => rw [hfound, Except.ok.inj h]

/-- A copy is a push of a visible value. -/
theorem dup_eq_ok {n : Nat} (h : s.dup n = .ok s') : ∃ v ∈ s.visible, s.push v = .ok s' := by
  cases n with
  | zero => cases h
  | succ depth =>
    rw [dup] at h
    cases hread : s.read depth with
    | error e =>
      rw [hread] at h
      cases h
    | ok v =>
      rw [hread] at h
      exact ⟨v, List.mem_of_getElem? (read_eq_ok hread), h⟩

/-- An exchange writes two visible values over each other. -/
theorem swap_eq_ok {depth : Nat} (h : s.swap depth = .ok s') :
    ∃ top ∈ s.visible, ∃ other ∈ s.visible,
      s' = { s with visible := (s.visible.set 0 other).set depth top } := by
  rw [swap] at h
  cases htop : s.read 0 with
  | error e =>
    rw [htop] at h
    cases h
  | ok top =>
    cases hother : s.read depth with
    | error e =>
      rw [htop, hother] at h
      cases h
    | ok other =>
      rw [htop, hother] at h
      exact ⟨top, List.mem_of_getElem? (read_eq_ok htop), other,
        List.mem_of_getElem? (read_eq_ok hother), (Except.ok.inj h).symm⟩

end HuffTrace.Stack

/-
  HuffTrace.Proofs.Path

  Normal forms of paths.  A normalised walk is a row of names, which one step up
  may precede (`Walked`); normalising it again leaves it as it is.
-/

import HuffTrace.Path

namespace HuffTrace.Path

/-- A normalised walk, given last step first. -/
inductive Walked : List Segment → Prop where
  | start : Walked []
  | up : Walked [.up]
  | name {walked : List Segment} (text : String) (before : Walked walked) :
    Walked (.name text :: walked)

theorem Walked.stepBack {walked : List Segment} (h : Walked walked) (step : Segment) :
    Walked (stepBack walked step) := by
  cases step with
  | here => exact h
  | name text => exact .name text h
  | up =>
    cases h with
    | start => exact .up
    | up => exact .start
    | name text before => exact before

theorem walked_foldl {walked : List Segment} (h : Walked walked) (steps : List Segment) :
    Walked (steps.foldl stepBack walked) := by
  induction steps generalizing walked with
  | nil => exact h
  | cons step steps ih => exact ih (h.stepBack step)

/-- Walking a normalised walk comes back to it. -/
theorem Walked.foldl_reverse {walked : List Segment} (h : Walked walked) :
    walked.reverse.foldl Path.stepBack [] = walked := by
  induction h with
  | start => rfl
  | up => rfl
  | name text before ih => rw [List.reverse_cons, List.foldl_append, ih]; rfl

@[simp] theorem normalize_normalize (p : Path) : p.normalize.normalize = p.normalize := by
  have hwalked := (walked_foldl .start p.segments).foldl_reverse
  simp only [normalize, hwalked]

@[simp] theorem normalize_within (p directory : Path) :
    (p.within directory).normalize = p.within directory := by
  unfold within
  split <;> exact normalize_normalize _

end HuffTrace.Path

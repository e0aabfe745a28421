/-
  HuffTrace.Proofs.Path.Walk

  Paths as walks.  A position is the list of names from the root down to it; a
  step stays, goes to the parent, which for the root is the root, or goes down
  to a name.  A walk ends a number of levels above its start (`climb`) and from
  there down a row of names (`trail`), wherever it starts (`foldl_step`).

  Normalising keeps the trail, and of the climb it keeps whether it is odd
  (`segments_normalize`): a step up that was kept is undone by the next one as
  if it were a name.  So a normal form leads where its path does exactly if the
  path starts at the root or climbs one level at most (`walk_normalize_iff`).
-/

import HuffTrace.Path
import Mathlib.Data.List.Basic

namespace HuffTrace

/-! ## Walking -/

/-- The position that a step leads to. -/
def Segment.step (position : List String) : Segment → List String
  | .here => position
  | .up => position.dropLast
  | .name text => position ++ [text]

namespace Path

/-- The position that a path leads to. -/
def walk (p : Path) (start : List String) : List String :=
  p.segments.foldl Segment.step (if p.rooted then [] else start)

/-- How many levels above their start steps go at the highest. -/
def climb : List Segment → Nat
  | [] => 0
  | .here :: steps => climb steps
  | .up :: steps => climb steps + 1
  | .name _ :: steps => climb steps - 1

/-- The names that steps go down from their highest position and do not come back from. -/
def trail : List Segment → List String
  | [] => []
  | .here :: steps => trail steps
  | .up :: steps => trail steps
  | .name text :: steps => if climb steps = 0 then text :: trail steps else trail steps

theorem climb_le_length (steps : List Segment) : climb steps ≤ steps.length := by
  induction steps with
  | nil => exact Nat.le_refl 0
  | cons step steps ih =>
    rw [List.length_cons]
    cases step with
    | here => exact Nat.le_succ_of_le ih
    | up => exact Nat.succ_le_succ ih
    | name text => exact Nat.le_succ_of_le (Nat.le_trans (Nat.sub_le _ 1) ih)

/-- Steps lead up by their climb, though not above the root, and then down their trail. -/
theorem foldl_step (steps : List Segment) (start : List String) :
    steps.foldl Segment.step start = start.take (start.length - climb steps) ++ trail steps := by
  induction steps generalizing start with
  | nil => simp [climb, trail]
  | cons step steps ih =>
    rw [List.foldl_cons, ih]
    cases step with
    | here => rfl
    | up =>
      have hlevels : start.length - 1 - climb steps = start.length - (climb steps + 1) := by omega
      rw [Segment.step, climb, trail, List.length_dropLast, hlevels, List.dropLast_eq_take,
        List.take_take, Nat.min_eq_left (by omega)]
    | name text =>
      rw [Segment.step, climb, trail, List.length_append, List.length_singleton]
      split
      · -- The name is not left again.
        next hclimb =>
        rw [hclimb, Nat.sub_zero, List.take_of_length_le (by simp), Nat.zero_sub, Nat.sub_zero,
          List.take_length, List.append_assoc, List.singleton_append]
      · -- The first step up that leaves the start of the other steps leaves the name.
        have hlevels : start.length + 1 - climb steps = start.length - (climb steps - 1) := by omega
        rw [hlevels, List.take_append_of_le_length (Nat.sub_le _ _)]

/-! ## Normal forms -/

/-- Names, with a step up before them if that many steps up are an odd number; last step first. -/
def reversed (names : List String) (ups : Nat) : List Segment :=
  names.map .name ++ if ups % 2 = 1 then [.up] else []

theorem stepBack_reversed_nil (ups : Nat) :
    stepBack (reversed [] ups) .up = reversed [] (ups + 1) := by
  unfold reversed
  rcases Nat.mod_two_eq_zero_or_one ups with heven | hodd
  · rw [if_neg (by omega), if_pos (by omega)]
    rfl
  · rw [if_pos hodd, if_neg (by omega)]
    rfl

/-- Steps up that go above the start of a normalised walk are counted, and all others take its
    last names off. -/
theorem foldl_stepBack (steps : List Segment) (names : List String) (ups : Nat) :
    steps.foldl stepBack (reversed names ups)
      = reversed ((trail steps).reverse ++ names.drop (climb steps))
          (ups + (climb steps - names.length)) := by
  induction steps generalizing names ups with
  | nil => simp [climb, trail]
  | cons step steps ih =>
    rw [List.foldl_cons]
    cases step with
    | here => exact ih names ups
    | up =>
      cases names with
      | nil =>
        -- Nothing is left to take off, so the step goes above the start.
        rw [stepBack_reversed_nil, ih, List.drop_nil, climb, trail, List.drop_nil,
          List.length_nil, Nat.sub_zero, Nat.sub_zero, Nat.add_right_comm, Nat.add_assoc]
      | cons last names =>
        have hstep : stepBack (reversed (last :: names) ups) .up = reversed names ups := rfl
        rw [hstep, ih, climb, trail, List.drop_succ_cons, List.length_cons, Nat.add_sub_add_right]
    | name text =>
      have hstep : stepBack (reversed names ups) (.name text) = reversed (text :: names) ups := rfl
      rw [hstep, ih, climb, trail, List.length_cons]
      split
      · next hclimb => simp [hclimb]
      · next hclimb =>
        -- The first step up among the others takes this name off.
        obtain ⟨above, habove⟩ := Nat.exists_eq_succ_of_ne_zero hclimb
        rw [habove, Nat.succ_eq_add_one, List.drop_succ_cons, Nat.add_sub_add_right,
          Nat.add_sub_cancel]

/-- A normal form is the trail of its path, after one step up if the path climbs an odd number of
    levels. -/
theorem segments_normalize (p : Path) :
    p.normalize.segments
      = (if climb p.segments % 2 = 1 then [.up] else []) ++ (trail p.segments).map .name := by
  -- A walk that has not started is the case without names and steps up.
  have hfold := foldl_stepBack p.segments [] 0
  simp only [List.drop_nil, List.append_nil, List.length_nil, Nat.sub_zero, Nat.zero_add] at hfold
  show (p.segments.foldl stepBack (reversed [] 0)).reverse = _
  rw [hfold, reversed, List.reverse_append, List.map_reverse, List.reverse_reverse]
  split <;> rfl

theorem climb_map_name (names : List String) : climb (names.map .name) = 0 := by
  induction names with
  | nil => rfl
  | cons text names ih => rw [List.map_cons, climb, ih]

theorem trail_map_name (names : List String) : trail (names.map .name) = names := by
  induction names with
  | nil => rfl
  | cons text names ih => rw [List.map_cons, trail, if_pos (climb_map_name names), ih]

/-- Of the levels that a path climbs, its normal form climbs none if their number is even, and
    one if it is odd. -/
theorem climb_normalize (p : Path) : climb p.normalize.segments = climb p.segments % 2 := by
  rw [segments_normalize]
  split
  · next hodd => rw [List.singleton_append, climb, climb_map_name, hodd]
  · next hodd => rw [List.nil_append, climb_map_name]; omega

theorem trail_normalize (p : Path) : trail p.normalize.segments = trail p.segments := by
  rw [segments_normalize]
  split
  · rw [List.singleton_append, trail, trail_map_name]
  · rw [List.nil_append, trail_map_name]

/-! ## Where normal forms lead -/

theorem walk_of_rooted {p : Path} (h : p.rooted = true) (start : List String) :
    p.walk start = trail p.segments := by
  rw [walk, if_pos h, foldl_step, List.take_nil, List.nil_append]

/-- From a deep enough position, two paths with one trail lead to the same one if they start at
    the root, and else if they climb as high. -/
theorem walk_eq_iff {p q : Path} {start : List String} (hroot : q.rooted = p.rooted)
    (htrail : trail q.segments = trail p.segments) (hq : climb q.segments ≤ start.length)
    (hp : climb p.segments ≤ start.length) :
    q.walk start = p.walk start ↔ p.rooted = true ∨ climb q.segments = climb p.segments := by
  cases h : p.rooted with
  | true => simp [walk_of_rooted h, walk_of_rooted (hroot.trans h), htrail]
  | false =>
    have hnot : ¬ p.rooted = true := by simp [h]
    rw [walk, walk, if_neg hnot, if_neg (hroot ▸ hnot), foldl_step, foldl_step, htrail,
      List.append_cancel_right_eq, List.take_eq_take_iff]
    simp only [Bool.false_eq_true, false_or]
    omega

/-- From a position at least as deep as a path has steps, the normal form leads where the path
    does exactly if the path starts at the root or climbs one level at most; of two such paths with
    one normal form the same holds if they climb as high. -/
theorem walk_normalize_iff (p : Path) {start : List String}
    (hstart : p.segments.length ≤ start.length) :
    (p.normalize.walk start = p.walk start ↔ p.rooted = true ∨ climb p.segments ≤ 1)
      ∧ climb p.normalize.segments = climb p.segments % 2
      ∧ ∀ q : Path, q.segments.length ≤ start.length → q.normalize = p.normalize →
        (q.walk start = p.walk start
          ↔ p.rooted = true ∨ climb q.segments = climb p.segments) := by
  have hp : climb p.segments ≤ start.length := Nat.le_trans (climb_le_length _) hstart
  refine ⟨?_, climb_normalize p, ?_⟩
  · have hnormal : climb p.normalize.segments ≤ start.length := by
      rw [climb_normalize]
      exact Nat.le_trans (Nat.mod_le _ 2) hp
    have hroot : p.normalize.rooted = p.rooted := rfl
    rw [walk_eq_iff hroot (trail_normalize p) hnormal hp, climb_normalize]
    exact or_congr_right (by omega)
  · intro q hq hnormal
    have htrail : trail q.segments = trail p.segments := by
      rw [← trail_normalize, hnormal, trail_normalize]
    have hroot : q.normalize.rooted = p.normalize.rooted := by rw [hnormal]
    exact walk_eq_iff hroot htrail (Nat.le_trans (climb_le_length _) hq) hp

/-- A path with a step that stays, a name that is left again and a climb of one level. -/
def sibling : Path :=
  parse "./lib/../../tokens/erc20.huff"

theorem walk_normalize_iff_sibling :
    sibling.segments.length ≤ ["home", "project", "src", "tests", "unit", "erc20"].length
    ∧ sibling.normalize.walk ["home", "project", "src", "tests", "unit", "erc20"]
      = sibling.walk ["home", "project", "src", "tests", "unit", "erc20"] := by
  have hsteps : sibling.segments.length
      ≤ ["home", "project", "src", "tests", "unit", "erc20"].length := by decide
  exact ⟨hsteps, (walk_normalize_iff sibling hsteps).1.2 (.inr (by decide))⟩

/-- A file two levels up is given the normal form of the file of its name beside the start. -/
theorem normalize_forgets_climb :
    (parse "../../up.huff").normalize = (parse "up.huff").normalize
    ∧ (parse "../../up.huff").walk ["home", "src", "lib"] = ["home", "up.huff"]
    ∧ (parse "../../up.huff").normalize.walk ["home", "src", "lib"]
        = ["home", "src", "lib", "up.huff"] := by
  decide

end Path

end HuffTrace

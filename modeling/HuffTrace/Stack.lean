/-
  HuffTrace.Stack

  The symbolic stack.  Its visible values are a list with the top first.  A
  macro call hides all but the callee's inputs, and the hidden parts form a
  list with the innermost first.

  The machine never branches.  Instead a label remembers the visible values
  that held when it was last passed, a jump to such a label brings them back,
  and a jump to a label that has not been passed yet leaves a pending shape for
  it to take on.
-/

import HuffTrace.Problem
import HuffTrace.Text.Abridge
import HuffTrace.Value

namespace HuffTrace

/-! ## Snapshots -/

/-- Stack shapes by label; a label occurs at most once. -/
abbrev Snapshots := List (String × List Value)

namespace Snapshots

/-- The shape remembered for a label. -/
def find? (table : Snapshots) (label : String) : Option (List Value) :=
  List.lookup label table

/-- Forgets a label. -/
def erase (table : Snapshots) (label : String) : Snapshots :=
  table.filter fun entry => entry.1 != label

/-- Remembers a shape for a label in place of any earlier one. -/
def put (table : Snapshots) (label : String) (shape : List Value) : Snapshots :=
  (label, shape) :: table.erase label

end Snapshots

/-! ## The stack -/

/-- A symbolic stack. -/
structure Stack where
  /-- The values that operations reach, top first. -/
  visible : List Value := []
  /-- The values hidden by open calls, innermost call first. -/
  hidden : List (List Value) := []
  /-- The shapes recorded at labels. -/
  labels : Snapshots := []
  /-- The shapes left by jumps to labels not passed yet. -/
  pending : Snapshots := []
  deriving DecidableEq, Repr

namespace Stack

/-- The most values that may be visible. -/
def maxDepth : Nat := 1024

/-- The stack without values, hidden parts and labels. -/
def empty : Stack := {}

/-- The number of visible values. -/
def size (s : Stack) : Nat :=
  s.visible.length

/-- The number of hidden parts. -/
def frameCount (s : Stack) : Nat :=
  s.hidden.length

/-- Replaces the visible values, given top first, and drops the hidden ones. -/
def reset (s : Stack) (values : List Value) : Stack :=
  { s with visible := values.take maxDepth, hidden := [] }

/-- Adds a value on top. -/
def push (s : Stack) (v : Value) : Except StackError Stack :=
  if s.size < maxDepth then .ok { s with visible := v :: s.visible }
  else .error (.depthExceeded (s.size + 1))

/-- Takes the top value off. -/
def pop (s : Stack) : Except StackError (Value × Stack) :=
  match s.visible with
  | [] => .error .underflow
  | v :: rest => .ok (v, { s with visible := rest })

/-- The value at a depth below the top. -/
def read (s : Stack) (depth : Nat) : Except StackError Value :=
  match s.visible[depth]? with
  | none => .error (.noSuchDepth depth)
  | some v => .ok v

/-- Adds a copy of the `n`th value, counted from one, on top. -/
def dup (s : Stack) : Nat → Except StackError Stack
  | 0 => .error (.noSuchDepth 0)
  | depth + 1 => (s.read depth).bind s.push

/-- Exchanges the top with the value at a depth below it. -/
def swap (s : Stack) (depth : Nat) : Except StackError Stack := do
  let top ← s.read 0
  let other ← s.read depth
  pure { s with visible := (s.visible.set 0 other).set depth top }

/-! ## Calls -/

/-- Hides all but the top `keep` values. -/
def hide (s : Stack) (keep : Nat) : Stack :=
  { s with visible := s.visible.take keep, hidden := s.visible.drop keep :: s.hidden }

/-- Puts the top `keep` values back onto the innermost hidden part, or onto nothing if no
    part is hidden.  Should the result be too deep, its bottom is cut off. -/
def reveal (s : Stack) (keep : Nat) : Stack :=
  { s with
    visible := (s.visible.take keep ++ s.hidden.headD []).take maxDepth
    hidden := s.hidden.tail }

/-! ## Labels -/

/-- Whether a label has been passed. -/
def isMarked (s : Stack) (label : String) : Bool :=
  (s.labels.find? label).isSome

/-- Passes a label: takes on its pending shape, if there is one, and records the visible
    values for it. -/
def mark (s : Stack) (label : String) : Stack :=
  let shape := (s.pending.find? label).getD s.visible
  { s with
    visible := shape
    labels := s.labels.put label shape
    pending := s.pending.erase label }

/-- Jumps to a label: brings back the shape recorded there, or leaves the visible values
    as its pending shape unless it has one already. -/
def jump (s : Stack) (label : String) : Stack :=
  match s.labels.find? label with
  | some shape => { s with visible := shape }
  | none =>
    if (s.pending.find? label).isSome then s
    else { s with pending := s.pending.put label s.visible }

/-- Forgets all labels and pending shapes. -/
def clearLabels (s : Stack) : Stack :=
  { s with labels := [], pending := [] }

/-! ## Text -/

/-- The visible values in brackets, top first. -/
def render (s : Stack) : String :=
  "[" ++ ", ".intercalate (s.visible.map fun v => Text.abridge v.text) ++ "]"

end Stack

end HuffTrace

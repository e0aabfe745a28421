/-
  HuffTrace.Diagnostics

  Findings located at source lines, kept in line order.  Findings on one line
  stay in the order in which they were recorded, so the container is at every
  moment the stable sort of its history.

  The findings are held from the last line to the first.  A run records them
  mostly in increasing line order, and then each new one goes to the front.
-/

import HuffTrace.Text.Digit

namespace HuffTrace

/-- Something found at a source line; lines count from one, and line zero stands for a
    place outside the text. -/
structure Located (α : Type) where
  line : Nat
  item : α
  deriving DecidableEq, Repr

/-- A collection of located findings. -/
structure Diagnostics (α : Type) where
  /-- The findings from the last line to the first, later ones before earlier ones. -/
  descending : List (Located α) := []
  deriving DecidableEq, Repr

namespace Diagnostics

variable {α β : Type}

/-- No findings. -/
def empty : Diagnostics α := {}

/-- Inserts a finding above those of its own line and of the lines before it. -/
def insertDescending (x : Located α) : List (Located α) → List (Located α)
  | [] => [x]
  | y :: ys => if x.line < y.line then y :: insertDescending x ys else x :: y :: ys

/-- Records a finding at a line. -/
def add (d : Diagnostics α) (line : Nat) (item : α) : Diagnostics α :=
  ⟨insertDescending ⟨line, item⟩ d.descending⟩

/-- Records findings one after the other. -/
def addAll (d : Diagnostics α) (found : List (Located α)) : Diagnostics α :=
  found.foldl (fun acc x => acc.add x.line x.item) d

/-- The findings in line order. -/
def toList (d : Diagnostics α) : List (Located α) :=
  d.descending.reverse

/-- Records the findings of another collection after one's own. -/
def merge (d e : Diagnostics α) : Diagnostics α :=
  d.addAll e.toList

/-- The collection that holds one finding. -/
def singleton (line : Nat) (item : α) : Diagnostics α :=
  ⟨[⟨line, item⟩]⟩

/-- Changes what is found and keeps where. -/
def map (f : α → β) (d : Diagnostics α) : Diagnostics β :=
  ⟨d.descending.map fun x => ⟨x.line, f x.item⟩⟩

/-- The number of findings. -/
def size (d : Diagnostics α) : Nat :=
  d.descending.length

/-- Whether nothing was found. -/
def isEmpty (d : Diagnostics α) : Bool :=
  d.descending.isEmpty

/-- The lines of the findings, in order. -/
def lines (d : Diagnostics α) : List Nat :=
  d.toList.map (·.line)

/-- The whole collection in words, one finding a line. -/
def render (message : α → String) (d : Diagnostics α) : String :=
  if d.isEmpty then "No problems found"
  else
    "Found " ++ Text.decimal d.size ++ " problems:\n"
      ++ String.join (d.toList.map fun x =>
        "[line " ++ Text.decimal x.line ++ "]: " ++ message x.item ++ "\n")

end Diagnostics

end HuffTrace

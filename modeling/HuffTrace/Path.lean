/-
  HuffTrace.Path

  File paths and their lexical normal form.  A path is a walk from the root or
  from where one stands.  Normalising drops the steps that stay, and lets each
  step up undo the step before it, whatever that was; only with nothing before
  it is a step up kept.
-/

namespace HuffTrace

/-- One step of a path. -/
inductive Segment where
  /-- `.` -/
  | here
  /-- `..` -/
  | up
  /-- A name. -/
  | name (text : String)
  deriving DecidableEq, Repr

/-- A step as text. -/
def Segment.render : Segment → String
  | .here => "."
  | .up => ".."
  | .name text => text

/-- A file path. -/
structure Path where
  /-- Whether the path starts at the root. -/
  rooted : Bool := false
  segments : List Segment := []
  deriving DecidableEq, Repr

namespace Path

/-- The parts of a text between slashes. -/
def pieces (cs : List Char) : List (List Char) :=
  cs.foldr
    (fun c parts =>
      if c = '/' then [] :: parts
      else
        match parts with
        | part :: rest => (c :: part) :: rest
        | [] => [[c]])
    [[]]

/-- The step that a part between slashes writes; an empty part writes none. -/
def segment? (piece : List Char) : Option Segment :=
  if piece.isEmpty then none
  else if piece = ['.'] then some .here
  else if piece = ['.', '.'] then some .up
  else some (.name (.ofList piece))

/-- The path that a text writes. -/
def parse (text : String) : Path :=
  let cs := text.toList
  { rooted := cs.head? = some '/', segments := (pieces cs).filterMap segment? }

/-- A path as text. -/
def render (p : Path) : String :=
  (if p.rooted then "/" else "") ++ "/".intercalate (p.segments.map Segment.render)

/-- Takes one more step on a normalised walk, which is given last step first. -/
def stepBack : List Segment → Segment → List Segment
  | walked, .here => walked
  | [], .up => [.up]
  | _ :: before, .up => before
  | walked, .name text => .name text :: walked

/-- The lexical normal form. -/
def normalize (p : Path) : Path :=
  { p with segments := (p.segments.foldl stepBack []).reverse }

/-- The directory of a normalised path; the root and the empty path have the empty one. -/
def directory (p : Path) : Path :=
  if p.segments.isEmpty then {} else { p with segments := p.segments.dropLast }

/-- The normal form of a path taken relative to a directory. -/
def within (p directory : Path) : Path :=
  if p.rooted then p.normalize
  else { directory with segments := directory.segments ++ p.segments }.normalize

end Path

end HuffTrace

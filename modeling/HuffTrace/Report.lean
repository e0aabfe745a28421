/-
  HuffTrace.Report

  The summary of an analysis and its JSON form.
-/

import HuffTrace.Analysis
import HuffTrace.Json.Parser

namespace HuffTrace

/-- A problem as it is reported. -/
structure Diagnostic where
  line : Nat
  message : String
  deriving DecidableEq, Repr

/-- The summary of an analysis. -/
structure Report where
  path : String
  /-- The last comment of each line, in line order. -/
  comments : List Comment
  /-- The problems, in line order. -/
  diagnostics : List Diagnostic
  halted : Bool
  deriving DecidableEq, Repr

namespace Report

/-- The summary of an analysis. -/
def ofAnalysis (a : Analysis) : Report :=
  { path := a.document.path.render
    comments := Comment.latest a.comments
    diagnostics := a.problems.toList.map fun found => ⟨found.line, found.item.message⟩
    halted := a.halted }

/-! ## Writing -/

/-- A comment as a JSON value. -/
def commentToJson (c : Comment) : Json :=
  .ofFields [("line", .ofNat c.line), ("stack", .ofString c.stack)]

/-- A diagnostic as a JSON value. -/
def diagnosticToJson (d : Diagnostic) : Json :=
  .ofFields [("line", .ofNat d.line), ("message", .ofString d.message)]

/-- A report as a JSON value. -/
def toJson (r : Report) : Json :=
  .ofFields
    [("path", .ofString r.path),
     ("comments", .array (r.comments.map commentToJson)),
     ("diagnostics", .array (r.diagnostics.map diagnosticToJson)),
     ("halted", .bool r.halted)]

/-- A report as a JSON text. -/
def render (layout : Json.Layout) (r : Report) : String :=
  r.toJson.render layout

/-! ## Reading -/

/-- A line number, which must be below 2^32. -/
def lineOfJson? (value : Json) : Option Nat :=
  value.toNat? UInt32.size

/-- The comment that a JSON value stands for. -/
def commentOfJson? (value : Json) : Option Comment := do
  let [line, stack] ← value.fields? ["line", "stack"] | none
  pure ⟨← lineOfJson? line, ← stack.toString?⟩

/-- The diagnostic that a JSON value stands for. -/
def diagnosticOfJson? (value : Json) : Option Diagnostic := do
  let [line, message] ← value.fields? ["line", "message"] | none
  pure ⟨← lineOfJson? line, ← message.toString?⟩

/-- The report that a JSON value stands for. -/
def ofJson? (value : Json) : Option Report := do
  let [path, comments, diagnostics, halted] ←
    value.fields? ["path", "comments", "diagnostics", "halted"] | none
  pure {
    path := ← path.toString?
    comments := ← (← comments.toList?).mapM commentOfJson?
    diagnostics := ← (← diagnostics.toList?).mapM diagnosticOfJson?
    halted := ← halted.toBool? }

/-- The report that a JSON text stands for. -/
def parse? (text : String) : Option Report :=
  (Json.parse? text).bind ofJson?

end Report

end HuffTrace

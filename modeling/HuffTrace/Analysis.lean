/-
  HuffTrace.Analysis

  The analysis of a document: its program executed with its includes as scope.
-/

import HuffTrace.Comment
import HuffTrace.Document
import HuffTrace.Machine.Run

namespace HuffTrace

/-- The results of analysing a document. -/
structure Analysis where
  document : Document
  /-- The comments in the order of recording. -/
  comments : List Comment
  /-- The faults that the execution met, by line. -/
  faults : Diagnostics Fault
  /-- Whether the execution ran out of steps. -/
  halted : Bool

namespace Analysis

/-- Executes the program of a document. -/
def run (document : Document) (limits : Limits) : Analysis :=
  let done := (Machine.start document.program document limits).execute
  { document, comments := done.comments.toList, faults := done.faults, halted := done.halted }

/-- The source with the comments written into it. -/
def annotated (a : Analysis) : Except Text.FormatError String :=
  Comment.annotate a.document.text a.comments

/-- Everything found wrong; on each line, what is wrong with the document comes before what
    the execution met. -/
def problems (a : Analysis) : Diagnostics Problem :=
  a.document.problems.merge (a.faults.map Problem.execution)

end Analysis

end HuffTrace

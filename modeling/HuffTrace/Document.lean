/-
  HuffTrace.Document

  Documents with their include trees.  Each include directive has one outcome:
  the included document, or the reason why there is none.  A path that is
  already on the way from the root to the directive is not entered again, so
  the tree is finite.

  A document is the scope of its own program: names that the program does not
  define are looked up in the documents below it, in the order of inclusion.
-/

import HuffTrace.Library
import HuffTrace.Machine.Basic

namespace HuffTrace

/-- A source document. -/
structure Document where
  /-- The normalised path. -/
  path : Path
  text : String
  program : Program
  /-- The included documents, in order. -/
  includes : List Document
  /-- What is wrong with the text and its includes. -/
  problems : Diagnostics Problem

namespace Document

/-! ## Loading -/

/-- The lines and targets of the include directives of a program at a path. -/
def directives (path : Path) (program : Program) : List (Located Path) :=
  program.tokens.toList.filterMap fun token =>
    if token.kind = .inclusion then
      token.includePath?.map fun target => ⟨token.line, (Path.parse target).within path.directory⟩
    else none

/-- The load errors among problems. -/
def loadErrors (problems : Diagnostics Problem) : List LoadError :=
  problems.toList.filterMap fun found =>
    match found.item with
    | .load error => some error
    | _ => none

/-- The load errors that an include directive leads to: its own, or those of the included
    document. -/
def outcomeErrors : Except LoadError Document → List LoadError
  | .error error => [error]
  | .ok document => loadErrors document.problems

/-- Records what include directives lead to, at the lines of the directives. -/
def recordOutcomes (problems : Diagnostics Problem)
    (outcomes : List (Located (Except LoadError Document))) : Diagnostics Problem :=
  problems.addAll <| outcomes.flatMap fun outcome =>
    (outcomeErrors outcome.item).map fun error => ⟨outcome.line, .load error⟩

/-- The document at a path with a text.  `chain` holds the paths from this document up to
    the root. -/
def build (library : Library) (chain : List Path) (path : Path) (text : String) : Document :=
  let (program, problems) := Program.ofSource text
  let outcomes := (directives path program).map fun directive =>
    let target := directive.item
    let outcome : Except LoadError Document :=
      if _hnew : target ∈ chain then .error (.cycle target.render)
      else
        match _hread : library.readPath target with
        | .error message => .error (.unreadable target.render message)
        | .ok text => .ok (build library (target :: chain) target text)
    (⟨directive.line, outcome⟩ : Located (Except LoadError Document))
  { path
    text
    program
    includes := outcomes.filterMap (·.item.toOption)
    problems := recordOutcomes problems outcomes }
termination_by library.unused chain
decreasing_by exact Library.unused_cons_lt _hread _hnew

/-- The document at a path with a text that is given. -/
def ofText (library : Library) (path text : String) : Document :=
  let path := (Path.parse path).normalize
  build library [path] path text

/-- The document at a path. -/
def load (library : Library) (path : String) : Except (Diagnostics Problem) Document :=
  let path := (Path.parse path).normalize
  match library.readPath path with
  | .ok text => .ok (build library [path] path text)
  | .error message => .error (.singleton 0 (.load (.unreadable path.render message)))

/-! ## Looking up names -/

mutual

/-- Searches a document and those below it, each path at most once.  Also answers with the
    paths visited so far. -/
def search {α : Type} (find : Document → Option α) (visited : List Path) :
    Document → Option α × List Path
  | ⟨path, text, program, includes, problems⟩ =>
    if path ∈ visited then (none, visited)
    else
      match find ⟨path, text, program, includes, problems⟩ with
      | some found => (some found, visited)
      | none => searchAll find (path :: visited) includes

/-- Searches documents one after the other. -/
def searchAll {α : Type} (find : Document → Option α) (visited : List Path) :
    List Document → Option α × List Path
  | [] => (none, visited)
  | document :: rest =>
    match search find visited document with
    | (some found, visited) => (some found, visited)
    | (none, visited) => searchAll find visited rest

end

/-- The first answer from the documents below a document. -/
def findBelow {α : Type} (document : Document) (find : Document → Option α) : Option α :=
  (searchAll find [] document.includes).1

/-- What a document answers for its own macros. -/
def ownMacro? (name : String) (d : Document) : Option (External Document) :=
  match located : d.program.findMacro? name with
  | some extent => some { program := d.program, extent, scope := d, located := ⟨name, located⟩ }
  | none => none

instance : Scope Document where
  findMacro? document name := document.findBelow (ownMacro? name)
  findSignature? document kind name := document.findBelow fun below =>
    below.program.findSignature? kind name

end Document

end HuffTrace

/-
  HuffTrace.CommandLine

  The command line: its options, and what it does with them.  The tool reads a
  file with its includes, analyses it, and prints the annotated source, writes
  it back to the file, or prints a report.
-/

import HuffTrace.Report

namespace HuffTrace.CommandLine

/-! ## Options -/

/-- The options given on the command line. -/
structure Options where
  /-- The file to annotate. -/
  file : Option String := none
  /-- Write the comments into the file. -/
  write : Bool := false
  /-- Print a report instead of the annotated source. -/
  json : Bool := false
  /-- How many calls may be open at once. -/
  callDepth : Option Nat := none
  /-- How many tokens may be executed. -/
  steps : Option Nat := none
  deriving DecidableEq, Repr

namespace Options

/-- The number that the value of an option writes. -/
def number? (value : String) : Option Nat :=
  Text.natural? UInt64.size value.toList

/-- Takes the file; there is one, and its name is not empty. -/
def takeFile? (o : Options) (file : String) : Option Options :=
  if o.file.isSome ∨ file = "" then none else some { o with file := some file }

/-- Takes an option without a value, which must not have been given before. -/
def takeFlag? (o : Options) : String → Option Options
  | "--write" => if o.write then none else some { o with write := true }
  | "--json" => if o.json then none else some { o with json := true }
  | "--verbose" => some o
  | _ => none

/-- Takes an option with a value, which must not have been given before. -/
def takeValue? (o : Options) (name value : String) : Option Options := do
  let n ← number? value
  match name with
  | "--max-call-depth" =>
    if o.callDepth.isSome then none else some { o with callDepth := some n }
  | "--max-steps" => if o.steps.isSome then none else some { o with steps := some n }
  | _ => none

/-- Whether an option has a value. -/
def hasValue (name : String) : Bool :=
  name == "--max-call-depth" || name == "--max-steps"

/-- Reads arguments onto the options read so far. -/
def read? (o : Options) : List String → Option Options
  | [] => some o
  | "--" :: rest => rest.foldlM takeFile? o
  | argument :: rest =>
    let cs := argument.toList
    if ['-', '-'].isPrefixOf cs then
      if cs.contains '=' then
        let name := cs.takeWhile (· != '=')
        let value := (cs.dropWhile (· != '=')).tail
        (o.takeValue? (.ofList name) (.ofList value)).bind (read? · rest)
      else if hasValue argument then
        match rest with
        | value :: rest => (o.takeValue? argument value).bind (read? · rest)
        | [] => none
      else (o.takeFlag? argument).bind (read? · rest)
    else if cs.head? = some '-' ∧ cs.length ≠ 1 then
      if cs.tail.all (· == 'v') then read? o rest else none
    else (o.takeFile? argument).bind (read? · rest)

/-- The options that arguments give, if they are in order. -/
def parse? (arguments : List String) : Option Options := do
  let o ← read? {} arguments
  if o.file.isNone ∨ (o.json ∧ o.write) then none else some o

/-- The limits that the options set. -/
def limits (o : Options) : Limits :=
  { callDepth := o.callDepth.getD 1024, steps := o.steps.getD 10000000 }

end Options

/-! ## Actions -/

/-- What the tool does in the end. -/
inductive Action where
  /-- Prints a text. -/
  | print (text : String)
  /-- Writes a text to a file. -/
  | overwrite (file text : String)
  /-- Gives up with a message. -/
  | fail (message : String)
  /-- Breaks off before anything is written.  Of the report on the failure only the message is
      kept, not the place in the program that stands before it. -/
  | abort (message : String)
  deriving DecidableEq, Repr

/-- What the options ask for, given the files. -/
def act (o : Options) (library : Library) : Action :=
  let file := o.file.getD ""
  match Document.load library file with
  | .error problems => .fail ("Error: " ++ problems.render Problem.message ++ "\n")
  | .ok document =>
    let analysis := Analysis.run document o.limits
    if o.json then .print ((Report.ofAnalysis analysis).render .pretty ++ "\n")
    else
      match analysis.annotated with
      | .error error => .abort (error.message ++ "\n")
      | .ok text => if o.write then .overwrite file text else .print text

/-- The message for a file that cannot be written. -/
def writeFailure (file reason : String) : String :=
  "Error: Failed to write " ++ file ++ "\n\nCaused by:\n    " ++ reason ++ "\n"

end HuffTrace.CommandLine

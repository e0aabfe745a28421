/-
  HuffTrace.Main

  The program: reads the named file with everything that it includes, and does
  what the command line asks for.
-/

import HuffTrace.Directory

namespace HuffTrace.Main

/-- The message for a failed file operation. -/
def message : IO.Error → String
  | .noFileOrDirectory _ code details | .inappropriateType _ code details
  | .permissionDenied _ code details | .invalidArgument _ code details
  | .resourceExhausted _ code details | .otherError code details =>
    details ++ " (os error " ++ Text.decimal code.toNat ++ ")"
  | error => toString error

/-- Reads a file. -/
def read (path : Path) : IO (Except String String) := do
  if path.render.toList.contains '\x00' then return .error FileError.zeroByte.message
  try
    return Directory.decode (← IO.FS.readBinFile path.render)
  catch error => return .error (message error)

/-- Reads the given files and everything that they include. -/
partial def gather (found : List (Path × Except String String)) :
    List Path → IO (List (Path × Except String String))
  | [] => return found
  | path :: rest => do
    if (found.lookup path).isSome then gather found rest
    else
      let result ← read path
      let targets := match result with
        | .ok text => (Document.directives path (Program.ofSource text).1).map (·.item)
        | .error _ => []
      gather ((path, result) :: found) (targets ++ rest)

/-- Carries an action out and answers with the exit code. -/
def perform : CommandLine.Action → IO UInt32
  | .print text => do
    (← IO.getStdout).putStr text
    return 0
  | .fail reason => do
    (← IO.getStderr).putStr reason
    return 1
  | .abort reason => do
    (← IO.getStderr).putStr reason
    return 101
  | .overwrite file text => do
    try
      IO.FS.writeFile file text
      return 0
    catch error =>
      (← IO.getStderr).putStr (CommandLine.writeFailure file (message error))
      return 1

/-- How the program is called. -/
def usage : String :=
  "Usage: <FILE> [--write | --json] [--max-call-depth N] [--max-steps N] [-v...]\n"

end HuffTrace.Main

open HuffTrace in
/-- Runs the program. -/
def main (arguments : List String) : IO UInt32 := do
  match CommandLine.Options.parse? arguments with
  | none =>
    (← IO.getStderr).putStr Main.usage
    return 2
  | some options =>
    let entries ← Main.gather [] [(Path.parse (options.file.getD "")).normalize]
    let library := { entries, absent := fun _ => FileError.notFound.message }
    Main.perform (CommandLine.act options library)

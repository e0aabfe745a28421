/-
  HuffTrace.Directory

  A directory tree given by its files, with the reading and writing of paths in
  it as an operating system does them, and the command line run inside it.

  Both follow a path from its first step to its last, and the first step that
  cannot be taken decides the error.  Nothing is known about what lies outside
  the tree: there are no files to be read, and writing there has no effect on
  the tree.
-/

import HuffTrace.CommandLine

namespace HuffTrace

/-- Why a file cannot be read or written. -/
inductive FileError where
  | notFound
  | notDirectory
  | isDirectory
  | nameTooLong
  /-- A zero byte, which ends a path, stands inside of it. -/
  | zeroByte
  | invalidText
  deriving DecidableEq, Repr

/-- The error in words. -/
def FileError.message : FileError → String
  | .notFound => "No such file or directory (os error 2)"
  | .notDirectory => "Not a directory (os error 20)"
  | .isDirectory => "Is a directory (os error 21)"
  | .nameTooLong => "File name too long (os error 36)"
  | .zeroByte => "file name contained an unexpected NUL byte"
  | .invalidText => "stream did not contain valid UTF-8"

/-- A directory tree. -/
structure Directory where
  /-- The content of each file by its names from the top of the tree. -/
  files : List (List String × ByteArray) := []

namespace Directory

/-- The names in a path. -/
def names (p : Path) : List String :=
  p.segments.filterMap fun
    | .name text => some text
    | _ => none

/-- The tree with the given files. -/
def ofFiles (files : List (String × ByteArray)) : Directory :=
  ⟨files.map fun (path, content) => (names (Path.parse path), content)⟩

/-- Whether a file stands at a location. -/
def isFile (d : Directory) (location : List String) : Bool :=
  d.files.any (·.1 == location)

/-- Whether a directory stands at a location. -/
def isDirectory (d : Directory) (location : List String) : Bool :=
  location.isEmpty || d.files.any fun file => location.isPrefixOf file.1 && file.1 != location

/-! ## Following paths -/

/-- The most bytes that a name may have. -/
def maxNameBytes : Nat := 255

/-- The most bytes that a path may have. -/
def maxPathBytes : Nat := 4095

/-- Where a walk stands. -/
inductive Place where
  /-- In a directory of the tree. -/
  | inside (location : List String)
  /-- In a directory outside of the tree. -/
  | outside
  deriving DecidableEq, Repr

/-- Refuses a name that is too long. -/
def checkName (text : String) : Except FileError Unit :=
  if maxNameBytes < text.utf8ByteSize then .error .nameTooLong else .ok ()

/-- Takes a step into a directory. -/
def enter (d : Directory) (place : Place) : Segment → Except FileError Place
  | .here => .ok place
  | .up =>
    match place with
    | .inside location => .ok (if location.isEmpty then .outside else .inside location.dropLast)
    | .outside => .ok .outside
  | .name text => do
    checkName text
    match place with
    | .inside location =>
      let next := location ++ [text]
      if d.isDirectory next then .ok (.inside next)
      else if d.isFile next then .error .notDirectory
      else .error .notFound
    | .outside => .error .notFound

/-- Follows a path up to its last step, and answers with the place where that step is to be
    taken; the root alone is a path that stays. -/
def follow (d : Directory) (path : String) : Except FileError (Place × Segment) := do
  if path.toList.contains '\x00' then throw .zeroByte
  if maxPathBytes < path.utf8ByteSize then throw .nameTooLong
  let p := Path.parse path
  match p.segments.getLast? with
  | none => if p.rooted then pure (.outside, .here) else throw .notFound
  | some last =>
    let place ← p.segments.dropLast.foldlM d.enter (if p.rooted then .outside else .inside [])
    pure (place, last)

/-! ## Reading -/

/-- The text of a file. -/
def decode (content : ByteArray) : Except String String :=
  match String.fromUTF8? content with
  | some text => .ok text
  | none => .error FileError.invalidText.message

/-- Why nothing can be read at a path that is not the path of a file. -/
def absence (d : Directory) (path : String) : FileError :=
  match d.follow path with
  | .error error => error
  | .ok (place, .name text) =>
    match checkName text, place with
    | .error error, _ => error
    | .ok _, .inside location =>
      if d.isDirectory (location ++ [text]) then .isDirectory else .notFound
    | .ok _, .outside => .notFound
  | .ok _ => .isDirectory

/-- The files of the tree for loading documents. -/
def library (d : Directory) : Library where
  entries := d.files.map fun (location, content) =>
    ({ segments := location.map .name }, decode content)
  absent path := (d.absence path).message

/-! ## Writing -/

/-- Puts a file at a location. -/
def put (d : Directory) (location : List String) (content : ByteArray) : Directory :=
  if d.isFile location then
    ⟨d.files.map fun file => if file.1 == location then (location, content) else file⟩
  else ⟨d.files ++ [(location, content)]⟩

/-- Writes a file at a path as it is written.  A path that ends with a slash, or without a
    name, can only be that of a directory. -/
def write (d : Directory) (path : String) (content : ByteArray) : Except FileError Directory := do
  match ← d.follow path with
  | (place, .name text) =>
    if path.toList.getLast? = some '/' then throw .isDirectory
    checkName text
    match place with
    | .inside location =>
      if d.isDirectory (location ++ [text]) then throw .isDirectory
      pure (d.put (location ++ [text]) content)
    | .outside => pure d
  | _ => throw .isDirectory

/-! ## The command line in a directory -/

/-- What a run of the command line leaves behind. -/
structure Outcome where
  /-- The exit code. -/
  code : Nat
  stdout : String := ""
  stderr : String := ""
  directory : Directory

/-- Runs the command line at the top of the tree. -/
def run (d : Directory) (arguments : List String) : Outcome :=
  match CommandLine.Options.parse? arguments with
  | none => { code := 2, directory := d }
  | some options =>
    match CommandLine.act options d.library with
    | .print text => { code := 0, stdout := text, directory := d }
    | .fail message => { code := 1, stderr := message, directory := d }
    | .abort message => { code := 101, stderr := message, directory := d }
    | .overwrite file text =>
      match d.write file text.toUTF8 with
      | .ok after => { code := 0, directory := after }
      | .error error =>
        { code := 1, stderr := CommandLine.writeFailure file error.message, directory := d }

/-- The files of a tree whose content differs from that in an earlier state of it. -/
def changes (after before : Directory) : List (List String × ByteArray) :=
  after.files.filter fun file => !(before.files.any fun old => old.1 == file.1 && old.2 == file.2)

end Directory

end HuffTrace

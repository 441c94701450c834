import BlockMachine.CommandLine.Session

namespace BlockMachine

/-!
# A working directory

The command in a directory that holds files and no directories, as a function from directories
to directories. Later runs find what earlier runs have saved. Around the directory stand the
directories that lead to it from the root, and the directory of devices.

* `Directory.place` follows a path, step by step, to what it leads to;
* `Directory.stateFile` and `Directory.save?` read and write the state file;
* `Directory.run` runs the command.
-/

/-- What a path leads to. -/
inductive Place where
  /-- A file of the working directory, whether it is there or not. -/
  | file (name : String)
  /-- A directory. -/
  | directory
  /-- The device that is always empty. -/
  | nullDevice
  /-- No file is there, and none can be made. -/
  | nowhere
  deriving DecidableEq, Repr

namespace Path

/-- The greatest number of bytes in the name of a file. -/
def maxName : Nat := 255

/-- The greatest number of bytes in a path. -/
def maxSize : Nat := 4095

/-- The parts of a path between its slashes. -/
def parts : List Char → List (List Char)
  | [] => [[]]
  | c :: rest =>
    if c = '/' then [] :: parts rest
    else
      match parts rest with
      | [] => [[c]]
      | part :: others => (c :: part) :: others

/-- Whether a path starts at the root. -/
def isAbsolute (path : String) : Bool :=
  path.toList.head? = some '/'

end Path

/-- A working directory: its location, as the names that lead to it from the root, the last one
    first, and the names and texts of its files, the latest first. -/
structure Directory where
  files : List (String × String) := []
  location : List String := ["work", "tmp"]
  deriving DecidableEq, Repr

namespace Directory

/-- The location of the devices. -/
def devices : List String := ["dev"]

/-- The text of a file. -/
def text? (d : Directory) (name : String) : Option String :=
  d.files.lookup name

/-- Whether a directory stands at a location: the root, one on the way to the working directory,
    the working directory itself, or that of the devices. -/
def hasDirectory (d : Directory) (location : List String) : Bool :=
  location.isSuffixOf d.location || location = devices

/-- What stands under a name in the directory at a location, when it is no directory. -/
def leaf (d : Directory) (location : List String) (name : String) : Place :=
  if location = d.location && name.utf8ByteSize ≤ Path.maxName then .file name
  else if location = devices && name = "null" then .nullDevice
  else .nowhere

/-- Follows the parts of a path from a location. An empty part and a dot stay there, two dots
    lead to the directory around it, and at the root they stay. Only directories can be passed
    through, so nothing may follow the name of a file, not even a slash. -/
def follow (d : Directory) (location : List String) : List String → Place
  | [] => .directory
  | part :: rest =>
    if part = "" || part = "." then d.follow location rest
    else if part = ".." then d.follow location.tail rest
    else if d.hasDirectory (part :: location) then d.follow (part :: location) rest
    else if rest.isEmpty then d.leaf location part
    else .nowhere

/-- What a path leads to. -/
def place (d : Directory) (path : String) : Place :=
  if Path.maxSize < path.utf8ByteSize then .nowhere
  else
    d.follow (if Path.isAbsolute path then [] else d.location)
      ((Path.parts path.toList).map String.ofList)

/-- What the command finds under a path. -/
def stateFile (d : Directory) (path : String) : StateFile :=
  match d.place path with
  | .file name =>
    match d.text? name with
    | some text => .text text
    | none => .absent
  | .directory => .unreadable
  | .nullDevice => .text ""
  | .nowhere => .absent

/-- The directory after a text was written under a path; `none` when that is not possible. -/
def save? (d : Directory) (path text : String) : Option Directory :=
  match d.place path with
  | .file name => some { d with files := (name, text) :: d.files }
  | .nullDevice => some d
  | .directory | .nowhere => none

/-- Runs the command with its arguments. -/
def run (d : Directory) (args : List String) (libraries : Libraries := .simple) : Report × Directory :=
  match Options.parse? args with
  | none => (.usage, d)
  | some o =>
    match o.stateFile with
    | none => (Session.run libraries o .absent, d)
    | some path =>
      let r := Session.run libraries o (d.stateFile path)
      match r.saved with
      | none => (r, d)
      | some text =>
        match d.save? path text with
        | some d => (r, d)
        | none => (r.unsaved path, d)

end Directory

end BlockMachine

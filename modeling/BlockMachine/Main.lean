import BlockMachine.CommandLine.Session

namespace BlockMachine

/-!
# The command

Reads the state file, runs the session, and writes what it leaves behind.
-/

/-- What stands under the name of the state file. A name under which nothing can be opened is
    one of no file, unless the file is there and may not be read. -/
def readStateFile (path : String) : IO StateFile := do
  match ← (IO.FS.Handle.mk path .read).toBaseIO with
  | .error (.permissionDenied ..) => return .unreadable
  | .error _ => return .absent
  | .ok file =>
    match ← file.readToEnd.toBaseIO with
    | .ok text => return .text text
    | .error _ => return .unreadable

/-- Writes the state file, if there is something to write. -/
def writeStateFile (o : Options) (r : Report) : IO Report := do
  match o.stateFile, r.saved with
  | some path, some text =>
    try
      IO.FS.writeFile path text
      return r
    catch _ => return r.unsaved path
  | _, _ => return r

/-- Runs the command with its arguments. -/
def report (args : List String) : IO Report := do
  match Options.parse? args with
  | none => return .usage
  | some o =>
    let file ← match o.stateFile with
      | some path => readStateFile path
      | none => pure .absent
    writeStateFile o (Session.run .simple o file)

end BlockMachine

/-- The command: prints what the session printed and ends with its exit code. -/
def main (args : List String) : IO UInt32 := do
  let r ← BlockMachine.report args
  IO.print r.out
  IO.eprint r.err
  return r.code

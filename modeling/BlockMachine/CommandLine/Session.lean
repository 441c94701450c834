import BlockMachine.CommandLine.Options
import BlockMachine.Machine.Run

namespace BlockMachine

/-!
# A session of the command

What the command does, given its options and the contents of the state file: it lists the
blocks, runs the program as often as asked, and writes the state tree back. `Session.run` gives
the output, the exit code and the new contents of the state file.
-/

/-- What the command finds under the name of its state file. -/
inductive StateFile where
  | absent
  | text (s : String)
  | unreadable
  deriving DecidableEq, Repr

/-- What the command leaves behind. `saved` is the new text of the state file. -/
structure Report where
  code : UInt32
  out : String
  err : String
  saved : Option String := none
  deriving DecidableEq, Repr

namespace Report

/-- How to use the command. -/
def usageText : String :=
  "usage: [--demo sum|counter|dispatch] [--disassemble] [--state-file FILE] " ++
    "[--no-inline-cache] [--iterations N]\n"

/-- The report on a wrong use of the command. -/
def usage : Report :=
  ⟨2, "", usageText, none⟩

/-- The report after the state file could not be written. -/
def unsaved (r : Report) (path : String) : Report :=
  ⟨1, r.out, r.err ++ s!"Error writing state file '{path}'\n", none⟩

end Report

/-- Computations of a session. What is printed is the output; an error is the last word of the
    command before it ends with exit code 1. -/
abbrev Session := ExceptT String (StateM Machine)

namespace Session

/-- Prints a text. -/
def print (text : String) : Session Unit :=
  modify fun m => { m with printed := m.printed ++ text }

/-- Performs a computation on the machine and reports how it went. -/
def perform {α : Type} (a : Machine.Action α) : Session (Except Fault α) := fun m =>
  let (r, m) := a m
  (.ok r, m)

/-! ### Listing -/

/-- The listing of a block. -/
def blockListing (id : BlockId) : World.Action String := do
  let program ← World.program (← World.compile id)
  return s!"== {blockText id} {program.name} ==\n" ++ program.listing

/-- Prints the listing of every block that compiles. -/
def listBlocks : Session Unit := do
  let ids := List.range (← get).world.blocks.size
  ids.forM fun id => do
    match ← perform (Machine.onWorld (blockListing id)) with
    | .ok text => print text
    | .error _ => return ()

/-! ### Running -/

section

variable (libraries : Libraries)

/-- More instructions than a demonstration executes. -/
def fuel : Nat := 1000000

/-- Runs a stack on through its pauses, `resumes` times at most. -/
def finish : Nat → Machine.Action Outcome
  | 0 => throw .outOfFuel
  | resumes + 1 => do
    match ← Machine.run fuel libraries with
    | .paused => finish resumes
    | outcome => return outcome

/-- Runs a block to its end, and gives its outputs. -/
def runOnce (block : BlockId) (inputs : List Value) : Session (List Value) := do
  match ← perform (Machine.push block inputs) with
  | .ok () => pure ()
  | .error (.raised e) => throw s!"Error: {e.message}\n"
  | .error _ => throw ""
  match ← perform (finish libraries fuel) with
  | .ok .finished =>
    let outputs := (← get).outputs
    let _ ← perform (Machine.reset false)
    return outputs
  | .error (.raised e) =>
    match (← get).stack.error with
    | some info =>
      throw s!"Error in frame {info.frame} at pc {info.pc.offset}: {e.message}\n"
    | none => throw ""
  | _ => throw ""

/-- Runs a block a number of times, printing the outputs of every run on a line. -/
def iterate (block : BlockId) (inputs : List Value) : Nat → Session Unit
  | 0 => return ()
  | n + 1 => do
    let outputs ← runOnce libraries block inputs
    print (" ".intercalate (outputs.map (·.text)) ++ "\n")
    iterate block inputs n

end

/-! ### The state file -/

/-- Makes the text of the state file the state tree. -/
def loadState (path : String) (file : StateFile) : Session Unit := do
  let refuse (why : String) : Session Unit :=
    throw s!"Error reading state file '{path}': {why}\n"
  match file with
  | .absent => return ()
  | .unreadable => refuse "not readable"
  | .text s =>
    match ← perform (Machine.loadState s) with
    | .ok (.ok ()) => return ()
    | .ok (.error e) => refuse (e.message?.getD "not a state tree")
    | .error _ => refuse "not a state tree"

/-- The text of the state tree. -/
def stateText (path : String) : Session String := do
  match toJsonText (← get).stack.state with
  | .ok text => return text
  | .error e =>
    let why := e.message?.getD "not a state tree"
    throw s!"Error writing state file '{path}': {why}\n"

/-- Everything the command does; the result is the text to save, if there is a state file. -/
def script (libraries : Libraries) (o : Options) (file : StateFile) (setup : Setup) :
    Session (Option String) := do
  if o.listing then listBlocks
  match o.stateFile with
  | some path => loadState path file
  | none => pure ()
  iterate libraries setup.main setup.inputs o.iterations
  match o.stateFile with
  | some path => return some (← stateText path)
  | none => return none

/-- Runs the command. -/
def run (libraries : Libraries) (o : Options) (file : StateFile) : Report :=
  let setup := o.demo.setup
  let machine : Machine := ⟨setup.world, .new { inlineCache := o.inlineCache }, ""⟩
  match script libraries o file setup machine with
  | (.ok saved, m) => ⟨0, m.printed, "", saved⟩
  | (.error message, m) => ⟨1, m.printed, message, none⟩

end Session

end BlockMachine

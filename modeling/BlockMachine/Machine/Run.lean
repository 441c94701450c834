import BlockMachine.Machine.Step

namespace BlockMachine

/-!
# Runs

A run executes the active frame's program until the root returns, a pause is reached, the stack
is asked to stop, or an error is raised.

* `Machine.execute` is the loop; its fuel bounds the number of instructions;
* `Machine.runBy` runs or resumes a stack under an embedder, `Machine.run` under one without
  natives of its own, and `Machine.call` runs one block to its end.
-/

namespace Machine

/-- Whether a frame runs the current program of its block. -/
def isCurrent (f : Frame) : Action Bool := do
  match ← tryWorld (World.program f.program) with
  | .ok p => return p.version = f.version
  | .error _ => return false

/-- Whether all frames run the current programs of their blocks. -/
def allCurrent : List Frame → Action Bool
  | [] => return true
  | f :: rest => do
    if ← isCurrent f then allCurrent rest else return false

/-- Takes all frames but the root away, the innermost first. -/
def unwindToRoot (s : Stack) : Stack :=
  { s with
    frames := s.frames.drop (s.depth - 1)
    retained := s.retained ++
      ((s.frames.take (s.depth - 1)).filter (·.retain)).map Frame.snapshot }

/-- A root frame that starts over with a program: its inputs stay in their registers, all else
    is as new. -/
def restarted (root : Frame) (program : Program) (state : Value) : Frame :=
  let inputs := root.registers.take root.inputCount
  { root with
    registers := Frame.resized inputs (max program.registers root.inputCount)
    version := program.version
    pc := ⟨0, program.nodeAt 0⟩
    incoming := state
    outgoing := [] }

/-- Starts the root over if a block was replaced while the stack was paused, since then a pc
    points into an old program. -/
def restartIfStale : Action Unit := do
  if ← allCurrent (← getStack).frames.reverse then return ()
  modifyStack unwindToRoot
  let program ← onWorld (World.program (← active).program)
  -- the root reads the tree as it is now, not the one it was pushed with
  let state := (← getStack).state
  modifyActive (restarted · program state)

/-- The program of the active frame, in the version that its pc points into. -/
def currentProgram : Action Program := do
  let f ← active
  let program ← onWorld (World.program f.program)
  if program.version = f.version then return program
  else violate (.replacedWhileRunning program.name)

/-- A stack whose run ended. -/
def conclude (outcome : Outcome) (s : Stack) : Stack :=
  { s with
    -- a pause is the only outcome after which a stack can be run again
    phase := if outcome = .paused then .ready else .finished
    lastOutcome := some outcome }

/-- Runs a stack, executing the program of its active frame by `exec`. A finished stack reports
    again how it ended. -/
def runWith (exec : Program → Action Outcome) : Action Outcome := do
  let s ← getStack
  match s.phase with
  | .finished =>
    match s.error with
    | some e => raise e.error
    | none => return s.lastOutcome.getD .finished
  | .running => violate .alreadyRunning
  | .ready =>
    if s.frames.isEmpty then violate .noFrame
    modifyStack fun s => { s with phase := .running }
    -- an error is noted on the stack before it goes on to the caller
    let result ← attempt do
      restartIfStale
      exec (← currentProgram)
    match result with
    | .ok outcome =>
      modifyStack (conclude outcome)
      return outcome
    | .error (.raised e) =>
      recordError e
      raise e
    -- a crash or the end of the fuel is no error of the program and is not recorded
    | .error fault => throw fault

/-- The instruction that the active frame is at, and the offset behind it. -/
def fetch (program : Program) (pc : Nat) : Action (Instruction × Nat) :=
  match program.instructionAt pc with
  | .ok found => return found
  | .error e => raise (.compile (.malformed e))

/-- Executes a program until the run ends. The program is fetched anew only after instructions
    that can leave the frame. An instruction that fails leaves the frame's pc at itself. -/
def execute (host : Embedder) : Nat → Program → Action Outcome
  | 0, _ => throw .outOfFuel
  | fuel + 1, program => do
    let s ← getStack
    if s.cancelled then return .cancelled
    match s.frames with
    | [] => violate .framesEmptied
    | f :: _ =>
      let top := s.depth - 1
      let pc := f.pc.offset
      let (i, next) ← fetch program pc
      -- jumps and calls see the offset behind their instruction
      setActive { f with pc := { f.pc with offset := next } }
      match ← attempt (step host (runWith (execute host fuel)) program next i) with
      | .ok .next => execute host fuel program
      | .ok .reload => execute host fuel (← currentProgram)
      | .ok .pause =>
        modifyStack (·.modifyFrameAt top fun f =>
          { f with pc := { f.pc with node := program.nodeAt next } })
        return .paused
      | .ok .finish => return .finished
      | .error fault =>
        -- the frame is found by its depth: a native may have pushed others, or dropped this one
        modifyStack (·.modifyFrameAt top fun f => { f with pc := ⟨pc, program.nodeAt pc⟩ })
        throw fault

/-- Runs or resumes a stack until its root returns or the run is interrupted, with the natives
    of an embedder. -/
def runBy (host : Embedder) (fuel : Nat) : Action Outcome :=
  runWith (execute host fuel)

/-- Runs or resumes a stack whose embedder installed no natives of its own. -/
def run (fuel : Nat) (libraries : Libraries := .simple) : Action Outcome :=
  runBy (.idle libraries) fuel

/-- Runs a block to its end and takes its outputs. -/
def call (fuel : Nat) (block : BlockId) (inputs : List Value) (libraries : Libraries := .simple) :
    Action (List Value) :=
  callWith (run fuel libraries) block inputs

end Machine

end BlockMachine

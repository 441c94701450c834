import BlockMachine.Dispatch.Cache
import BlockMachine.Machine.Error
import BlockMachine.Machine.Frame
import BlockMachine.Machine.Random

namespace BlockMachine

/-!
# Stacks

A stack holds the frames of one running program, and what persists between runs: the state tree,
the environment, message channels, caches and random numbers.

* `Phase` is where a stack is in its life;
* `Stack.popFrame`, `Stack.startOver` and `Stack.reset` take frames away;
* `Stack.emit` and `Stack.consume` are the message channels.
-/

/-- Where a stack is in its life. -/
inductive Phase where
  | ready
  | running
  | finished
  deriving DecidableEq, Repr

/-- The name of a phase. -/
def Phase.name : Phase → String
  | ready => "Ready"
  | running => "Running"
  | finished => "Finished"

/-- How a stack was set up. -/
structure StackConfig where
  maxFrames : Nat := 1024
  inlineCache : Bool := true
  seed : UInt64 := 0x5eed

/-- The error that ended a run and where it happened. -/
structure StackError where
  error : RuntimeError
  frame : Nat
  block : Option BlockId
  pc : Pc
  deriving DecidableEq, Repr

/-- The frames of a running program, the innermost first, and what outlives them. -/
structure Stack where
  frames : List Frame := []
  state : Value := .null
  caches : Caches := {}
  error : Option StackError := none
  phase : Phase := .ready
  random : Random
  retained : List Snapshot := []
  env : List (Key × Value) := []
  /-- The channels that the host listens on, with what was emitted on them. -/
  messages : List (Key × List Value) := []
  /-- Whether the host asked the stack to stop. -/
  cancelled : Bool := false
  /-- How the last run ended. -/
  lastOutcome : Option Outcome := none
  config : StackConfig

namespace Stack

/-- A new stack. -/
def new (config : StackConfig) : Stack :=
  { random := ⟨config.seed, []⟩, config := config }

/-- The number of frames. -/
def depth (s : Stack) : Nat :=
  s.frames.length

/-! ### Frames -/

/-- Changes the frame at a position counted from the root, if there is one. -/
def modifyFrameAt (s : Stack) (i : Nat) (f : Frame → Frame) : Stack :=
  -- positions count from the root, the list from the innermost frame
  if i < s.depth then { s with frames := s.frames.modify (s.depth - 1 - i) f } else s

/-- Removes the innermost frame, keeping a snapshot if it asked for one. The removed frame has
    no registers left. -/
def popFrame (s : Stack) : Option Frame × Stack :=
  match s.frames with
  | [] => (none, s)
  | f :: rest =>
    (some { f with registers := #[] },
      { s with
        frames := rest
        retained := if f.retain then s.retained ++ [f.snapshot] else s.retained })

/-- Removes all frames, the innermost first. -/
def clearFrames (s : Stack) : Stack :=
  { s with
    frames := []
    retained := s.retained ++ (s.frames.filter (·.retain)).map Frame.snapshot }

/-- Drops frames, errors and the wish to stop. -/
def startOver (s : Stack) : Stack :=
  { s.clearFrames with
    error := none
    phase := .ready
    lastOutcome := none
    cancelled := false }

/-- Starts over without snapshots, and without the state tree if it is to be discarded. -/
def reset (s : Stack) (discardState : Bool) : Stack :=
  let s := s.startOver
  { s with retained := [], state := if discardState then .null else s.state }

/-- An independent copy, which nobody asked to stop. -/
def duplicate (s : Stack) : Stack :=
  { s with cancelled := false }

/-! ### Channels and environment -/

/-- Starts listening on a channel, dropping what it held. -/
def expect (s : Stack) (channel : Key) : Stack :=
  { s with messages := Entries.insert channel [] s.messages }

/-- Takes everything emitted on a channel and stops listening on it; `none` when nobody listens
    on it. -/
def consume (s : Stack) (channel : Key) : Option (List Value) × Stack :=
  match Entries.get? channel s.messages with
  | some queue => (some queue, { s with messages := Entries.erase channel s.messages })
  | none => (none, s)

/-- Emits a message on a channel, and tells whether anybody listens. -/
def emit (s : Stack) (channel : Key) (message : Value) : Bool × Stack :=
  match Entries.get? channel s.messages with
  | some queue =>
    (true, { s with messages := Entries.insert channel (queue ++ [message]) s.messages })
  | none => (false, s)

/-- Sets an entry of the environment. -/
def setEnv (s : Stack) (k : Key) (v : Value) : Stack :=
  { s with env := Entries.insert k v s.env }

/-- The values that a stack holds. -/
def roots (s : Stack) : List Value :=
  s.state ::
    (s.frames.flatMap fun f =>
      f.incoming :: f.registers.toList ++ f.outgoing.map (·.2) ++ f.bindings) ++
    (s.retained.flatMap fun r => r.incoming :: r.registers.toList ++ r.outgoing.map (·.2)) ++
    s.env.map (·.2) ++ s.messages.flatMap (·.2)

end Stack

end BlockMachine

import BlockMachine.Machine.Basic
import BlockMachine.State.Format

namespace BlockMachine

/-!
# Operations of the host

What the owner of a stack, or a native on its behalf, does to it besides running it.

* `Machine.push` starts a block, `Machine.callWith` runs one to its end and takes its outputs;
* `Machine.migrateTo`, `Machine.migrateToFunc` and `Machine.migrate` give the stack another main
  block;
* `Machine.frameList` lists the frames with their graph nodes.
-/

namespace Machine

/-! ### Frames -/

/-- Pushes a block on top of the stack. A finished stack starts over. -/
def push (block : BlockId) (inputs : List Value) : Action Unit := do
  if (← getStack).phase = .finished then modifyStack Stack.startOver
  enter block inputs {}

/-- Pushes a block, runs it by `run` and takes its outputs. -/
def callWith (run : Action Outcome) (block : BlockId) (inputs : List Value) :
    Action (List Value) := do
  push block inputs
  match ← run with
  | .finished =>
    let outputs := (← get).outputs
    modifyStack fun s => { s.clearFrames with phase := .ready }
    return outputs
  -- the frames of an interrupted call stay where they are
  | outcome => violate (.didNotFinish block outcome)

/-- Removes the active frame. -/
def pop : Action (Option Frame) :=
  onStack Stack.popFrame

/-- Grows or shrinks the registers of the active frame. -/
def resize (count : Nat) : Action Unit :=
  modifyActive (·.resize count)

/-- Drops frames and errors, and the state tree if it is to be discarded. -/
def reset (discardState : Bool) : Action Unit :=
  modifyStack (·.reset discardState)

/-- Asks the stack to stop before its next instruction. -/
def cancel : Action Unit :=
  modifyStack fun s => { s with cancelled := true }

/-! ### Migration -/

/-- Makes a block the main block of the stack. Frames and errors are dropped; the state tree,
    the environment and the channels stay. -/
def changeMain (block : BlockId) (inputs bindings : List Value) : Action Unit := do
  -- the old frames are gone even if the new block cannot be entered
  modifyStack fun s => { s.startOver with retained := [] }
  enter block inputs { bindings := bindings }

/-- Moves the stack to another main block. -/
def migrateTo (block : BlockId) (inputs : List Value) : Action Unit :=
  changeMain block inputs []

/-- Moves the stack to a closure, whose bindings become those of the root. -/
def migrateToFunc (func : Value) (inputs : List Value) : Action Unit :=
  match func.func? with
  | some (block, bindings) => changeMain block inputs bindings
  | none => mismatch "func" func

/-- Moves everything from one block to another: closures in the state tree are rebound, and a
    root that runs the old block starts over as the new one with the same inputs. -/
def migrate (old new : BlockId) : Action Unit := do
  let state ← allocate ((← getStack).state.rebind old new)
  modifyStack fun s => { s with state := state }
  match (← getStack).frames.getLast? with
  | some root =>
    if root.block = old then
      -- the inputs are what the registers hold by now
      changeMain new (root.registers.toList.take root.inputCount) root.bindings
  | none => return ()

/-! ### State and channels -/

/-- Replaces the state tree. -/
def setState (tree : Value) : Action Unit :=
  modifyStack fun s => { s with state := tree }

/-- Reads the state tree from its text; a text that cannot be read changes nothing. -/
def loadState (text : String) : Action (Except StateError Unit) := do
  let m ← get
  match ofJsonText m.world.registry text m.world.supply with
  | .ok (tree, supply) =>
    set { m with
      world := { m.world with supply := supply }
      stack := { m.stack with state := tree } }
    return .ok ()
  | .error e => return .error e

/-- Takes everything emitted on a channel. -/
def consume (channel : Key) : Action (List Value) := do
  match ← onStack (·.consume channel) with
  | some queue => return queue
  | none => raise (.hostRaised ("message channel was not expected: " ++ channel.text))

/-! ### Reflection -/

/-- A frame as its host sees it. -/
structure FrameInfo where
  depth : Nat
  block : BlockId
  name : String
  pc : Pc

/-- A frame with the name of its block and its graph node; a frame whose block does not compile
    has neither. -/
def frameInfo (depth : Nat) (f : Frame) : Action FrameInfo := do
  match ← tryWorld (World.program f.program) with
  | .ok p => return ⟨depth, f.block, p.name, ⟨f.pc.offset, p.nodeAt f.pc.offset⟩⟩
  | .error _ => return ⟨depth, f.block, "", ⟨f.pc.offset, none⟩⟩

/-- The frames from the root up. -/
def frameList : Action (List FrameInfo) := do
  (← getStack).frames.reverse.zipIdx.mapM fun (f, depth) => frameInfo depth f

end Machine

end BlockMachine

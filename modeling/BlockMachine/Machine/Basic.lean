import BlockMachine.Machine.Stack
import BlockMachine.State.Tree
import BlockMachine.World

namespace BlockMachine

/-!
# Machines

A machine is a world with a stack that runs against it, and what was printed so far. Its
computations keep what they changed also when they fail.

* `Machine.Action` is the type of computations;
* `Machine.register` reads a register, refusing a moved one, `Machine.setRegister` writes one;
* `Machine.enter` pushes a frame for a block;
* `Machine.recordError` ends a run with an error.
-/

/-- A world, a stack that runs against it, and the printed text. -/
structure Machine where
  world : World
  stack : Stack
  printed : String := ""

namespace Machine

/-- Computations on a machine. -/
abbrev Action := ExceptT Fault (StateM Machine)

/-! ### Building blocks -/

/-- Fails with an error. -/
def raise {α : Type} (e : RuntimeError) : Action α :=
  throw (.raised e)

/-- Fails with a violation. -/
def violate {α : Type} (v : Violation) : Action α :=
  raise (.violation v)

/-- Fails because a value of another type is wanted. -/
def mismatch {α : Type} (expected : String) (v : Value) : Action α :=
  raise (.typeMismatch expected v.typeName)

/-- The stack. -/
def getStack : Action Stack :=
  return (← get).stack

/-- Changes the stack. -/
def modifyStack (f : Stack → Stack) : Action Unit :=
  modify fun m => { m with stack := f m.stack }

/-- Runs a computation on the stack. -/
def onStack {α : Type} (f : Stack → α × Stack) : Action α := do
  let m ← get
  let (a, stack) := f m.stack
  set { m with stack := stack }
  return a

/-- Runs a computation on the world; a compile error ends the run. -/
def onWorld {α : Type} (f : World.Action α) : Action α := do
  let m ← get
  let (r, world) := f m.world
  set { m with world := world }
  match r with
  | .ok a => return a
  | .error e => raise (.compile e)

/-- Runs a computation on the world and reports its error. -/
def tryWorld {α : Type} (f : World.Action α) : Action (Except CompileError α) := do
  let m ← get
  let (r, world) := f m.world
  set { m with world := world }
  return r

/-- Runs a computation that takes buffer numbers. -/
def allocate {α : Type} (f : Fresh α) : Action α := do
  let m ← get
  let (a, supply) := f m.world.supply
  set { m with world := { m.world with supply := supply } }
  return a

/-- Casts a value, and reports a failure. -/
def tryCast (ty : Ty) (v : Value) : Action (Except CastError Value) := do
  let m ← get
  match ty.cast v m.world.supply with
  | .ok (w, supply) =>
    set { m with world := { m.world with supply := supply } }
    return .ok w
  | .error e => return .error e

/-- Casts a value; a failure is a type mismatch. -/
def cast (ty : Ty) (v : Value) : Action Value := do
  match ← tryCast ty v with
  | .ok w => return w
  | .error e => raise (.ofCast e)

/-- Runs a computation and reports how it went, keeping its changes. -/
def attempt {α : Type} (a : Action α) : Action (Except Fault α) := fun m =>
  let (r, m) := a m
  (.ok r, m)

/-! ### Registers -/

/-- The innermost frame. -/
def active : Action Frame := do
  match (← getStack).frames with
  | f :: _ => return f
  | [] => violate .noActiveFrame

/-- Replaces the innermost frame. -/
def setActive (f : Frame) : Action Unit :=
  modifyStack fun s => { s with frames := f :: s.frames.tail }

/-- Changes the innermost frame. -/
def modifyActive (change : Frame → Frame) : Action Unit := do
  setActive (change (← active))

/-- The value of a register, whatever it is. -/
def rawRegister (r : Reg) : Action Value := do
  match (← active).registers[r.toNat]? with
  | some v => return v
  | none => violate (.registerRange r)

/-- The value of a register, which must not have been moved away. -/
def register (r : Reg) : Action Value := do
  let v ← rawRegister r
  if v.isMoved then violate (.movedRead r) else return v

/-- Writes a register. -/
def setRegister (r : Reg) (v : Value) : Action Unit := do
  let f ← active
  if r.toNat < f.registers.size then
    setActive { f with registers := f.registers.setIfInBounds r.toNat v }
  else violate (.registerRange r)

/-- The register `n` places after `base`. -/
def offsetRegister (base : Reg) (n : Nat) : Action Reg :=
  if base.toNat + n < 65536 then return UInt16.ofNat (base.toNat + n)
  else violate (.offsetRange base n)

/-- The values of `count` registers from the `start`-th after `base` on. -/
def argumentsFrom (base : Reg) (start : Nat) : Nat → Action (List Value)
  | 0 => return []
  | count + 1 => do
    let v ← register (← offsetRegister base start)
    return v :: (← argumentsFrom base (start + 1) count)

/-- The values of `count` registers from `base` on. -/
def arguments (base : Reg) (count : Nat) : Action (List Value) :=
  argumentsFrom base 0 count

/-! ### Entering a block -/

/-- How a new frame hangs off its caller. -/
structure Link where
  returnTo : Option Reg := none
  key : Option Key := none
  bindings : List Value := []

/-- Casts arguments to the placeholders from position `i` on; null is kept for an optional
    placeholder, and an argument without placeholder is taken as it is. -/
def castArguments (s : Signature) : Nat → List Value → Action (List Value)
  | _, [] => return []
  | i, v :: rest => do
    let w ← match s.placeholder? i with
      | some p => if v.isNull && p.isOptional then pure v else cast p.type v
      | none => pure v
    return w :: (← castArguments s (i + 1) rest)

/-- The part of the state tree that a new frame reads: all of it for the root, the entry under
    its key for a keyed child, nothing for others. -/
def incomingFor (s : Stack) (key : Option Key) : Value :=
  match s.frames, key with
  | [], _ => s.state
  | parent :: _, some k => StateTree.child parent.incoming k
  | _ :: _, none => .null

/-- Checks arguments against a block's signature and pushes a frame for it. Nothing is pushed
    when the check fails. -/
def enter (block : BlockId) (args : List Value) (link : Link) : Action Unit := do
  let s ← getStack
  if s.config.maxFrames ≤ s.depth then raise (.stackOverflow s.depth)
  -- compiling may fail and leaves its index behind, but it pushes nothing
  let index ← onWorld (World.compile block)
  let program ← onWorld (World.program index)
  let signature := program.signature
  let got := args.length
  if got < signature.requiredInputs || (signature.inputs.length < got && !signature.isVariadic) then
    raise (.arityMismatch signature.name signature.inputs.length got)
  -- casts may take buffer numbers even if a later argument is refused
  let args ← castArguments signature 0 args
  let frame : Frame :=
    { block := block
      program := index
      version := program.version
      registers := Frame.resized args.toArray (max program.registers got)
      pc := ⟨0, program.nodeAt 0⟩
      parent := if s.depth = 0 then none else some (s.depth - 1)
      key := link.key
      incoming := incomingFor s link.key
      bindings := link.bindings
      inputCount := got
      returnTo := link.returnTo }
  modifyStack fun s => { s with frames := frame :: s.frames }

/-! ### Outputs and errors -/

/-- The register of an output of the active frame, as its block declares it now. -/
def outputRegister? (m : Machine) (index : Nat) : Option Reg := do
  let f ← m.stack.frames.head?
  let b ← m.world.blocks[f.block]?
  let o ← b.signature.outputs[index]?
  return o.register

/-- Input `index` of the active frame, which is its register of that number. -/
def input? (m : Machine) (index : Nat) : Option Value :=
  m.stack.frames.head?.bind (·.registers[index]?)

/-- The number of arguments that the active frame was entered with. -/
def inputCount (m : Machine) : Nat :=
  match m.stack.frames with
  | f :: _ => f.inputCount
  | [] => 0

/-- Output `index` of the active frame. -/
def output? (m : Machine) (index : Nat) : Option Value := do
  let r ← m.outputRegister? index
  m.input? r.toNat

/-- All declared outputs of the active frame; one without a register is null. -/
def outputs (m : Machine) : List Value :=
  match m.stack.frames with
  | [] => []
  | f :: _ =>
    match m.world.blocks[f.block]? with
    | some b => b.signature.outputs.map fun o => (f.registers[o.register.toNat]?).getD .null
    | none => []

/-- Writes an output of the active frame, growing its registers if need be. -/
def setOutput (index : Nat) (v : Value) : Action Unit := do
  match (← get).outputRegister? index with
  | none => violate (.outputUndeclared index)
  | some r =>
    let f ← active
    let registers :=
      if f.registers.size ≤ r.toNat then Frame.resized f.registers (r.toNat + 1) else f.registers
    setActive { f with registers := registers.setIfInBounds r.toNat v }

/-- Overwrites an input of the active frame. -/
def setInput (index : Nat) (v : Value) : Action Unit := do
  let f ← active
  if index < f.registers.size then
    setActive { f with registers := f.registers.setIfInBounds index v }
  else violate (.inputRange index)

/-- Ends the run with an error, and notes where it happened. -/
def recordError (e : RuntimeError) : Action Unit := do
  let s ← getStack
  let (block, pc) ← match s.frames with
    | [] => pure (none, ({} : Pc))
    | f :: _ => do
      -- the node is looked up in the current program, which may be a newer one
      let node := match ← tryWorld (World.program f.program) with
        | .ok p => p.nodeAt f.pc.offset
        | .error _ => none
      pure (some f.block, ⟨f.pc.offset, node⟩)
  modifyStack fun s =>
    { s with error := some ⟨e, s.depth - 1, block, pc⟩, phase := .finished }

/-- Ends the run with a message of the host, which is also left as an error value in the first
    output if there is one. -/
def raiseError (message : String) : Action RuntimeError := do
  -- without a first output only the error is recorded
  if ((← get).outputRegister? 0).isSome then setOutput 0 (.error message)
  let e := RuntimeError.hostRaised message
  recordError e
  return e

end Machine

end BlockMachine

import BlockMachine.Machine.Basic
import BlockMachine.Machine.Compute

namespace BlockMachine

/-!
# Calls and returns

* `Machine.callFunc` and `Machine.applyFunc` call closures;
* `Machine.collectVarargs` gathers the repeated inputs of a variadic block;
* `Machine.leave` returns from the active frame.
-/

namespace Machine

/-- The block and the bindings of the closure in a register. -/
def funcRegister (r : Reg) : Action (BlockId × List Value) := do
  let v ← register r
  match v.func? with
  | some closure => return closure
  | none => mismatch "func" v

/-- The state key in a register. -/
def keyRegister (r : Reg) : Action Key := do
  let v ← register r
  match v.key? with
  | some k => return k
  | none => mismatch "state key" v

/-- Calls the closure in register `base` with the values of the registers behind it. -/
def callFunc (base : Reg) (argc : UInt8) (out : Reg) : Action Unit := do
  let (block, bindings) ← funcRegister base
  -- the closure is checked before the arguments are read
  let first ← offsetRegister base 1
  enter block (← arguments first argc.toNat) { returnTo := some out, bindings := bindings }

/-- Calls a closure with the items of a list. -/
def applyFunc (func args out : Reg) : Action Unit := do
  let (block, bindings) ← funcRegister func
  let list ← register args
  match list.list? with
  | some items => enter block items { returnTo := some out, bindings := bindings }
  | none => mismatch "list" list

/-- Writes values to the registers from the `i`-th after `first` on. -/
def spread (first : Reg) : Nat → List Value → Action Unit
  | _, [] => return ()
  | i, v :: rest => do
    setRegister (← offsetRegister first i) v
    spread first (i + 1) rest

/-- Writes the bindings of the active frame to the registers from `first` on. -/
def splatBindings (first : Reg) (count : UInt8) : Action Unit := do
  let bindings := (← active).bindings
  if bindings.length = count.toNat then spread first 0 bindings
  else violate (.bindingCount count.toNat bindings.length)

/-- Replaces the inputs from register `first` on by null, and puts the list of them into
    `first`. The inputs are looked for where the frame was entered with them, so a frame that
    was cut short since has no such registers. -/
def collectVarargs (first : Reg) : Action Unit := do
  let f ← active
  let start := first.toNat
  let stop := max f.inputCount start
  if f.registers.size ≤ start then violate (.varargsRange start)
  else if f.registers.size < stop then throw .crashed
  else
    let list ← allocate (Value.newList (f.registers.extract start stop).toList)
    let cleared := f.registers.mapIdx fun i v => if start ≤ i && i < stop then .null else v
    setActive { f with registers := cleared.setIfInBounds start list }

/-! ### Returning -/

/-- The outputs from position `i` on, cast to their declared types. Null is kept for an optional
    output. -/
def castOutputs (program : Program) (registers : Array Value) :
    Nat → List Output → Action (List Value)
  | _, [] => return []
  | i, o :: rest => do
    -- an embedder may have shrunk the frame since it was entered
    let some v := registers[o.register.toNat]? | violate (.outputRange o.register)
    let w ←
      if v.isNull && o.placeholder.isOptional then pure .null
      else
        match ← tryCast o.placeholder.type v with
        | .ok w => pure w
        | .error e => raise (.outputTypeMismatch program.name i e.target e.source)
    return w :: (← castOutputs program registers (i + 1) rest)

/-- Registers with the outputs of a returning root in their declared places. -/
def placeOutputs (registers : Array Value) (outputs : List (Output × Value)) : Array Value :=
  outputs.foldl (fun rs (o, v) => rs.setIfInBounds o.register.toNat v) registers

/-- Registers with values from position `out` on, grown to hold them. -/
def receive (registers : Array Value) (out : Nat) (values : List Value) : Array Value :=
  let stop := out + values.length
  let registers := if registers.size < stop then Frame.resized registers stop else registers
  (values.zipIdx out).foldl (fun rs (v, i) => rs.setIfInBounds i v) registers

/-- Ends the root frame: its outputs stay in their registers, and what it saved becomes the
    state tree. -/
def leaveRoot (f : Frame) (outputs : List (Output × Value)) : Action Unit := do
  let state ← allocate (StateTree.ofOutgoing f.outgoing)
  setActive { f with registers := placeOutputs f.registers outputs, outgoing := [] }
  modifyStack fun s => { s with state := state }

/-- Hands the outputs and the saved state of a popped frame to its caller. -/
def deliver (child : Frame) (outputs : List Value) : Action Unit := do
  let parent ← active
  let outgoing ← match child.key with
    | some k => allocate (StateTree.merge parent.outgoing k child.outgoing)
    | none => pure parent.outgoing
  let registers := match child.returnTo with
    | some out => receive parent.registers out.toNat outputs
    | none => parent.registers
  setActive { parent with outgoing := outgoing, registers := registers }

/-- Returns from the active frame, and tells whether it was the root. Nothing changes unless all
    outputs have their declared types. -/
def leave (program : Program) : Action Bool := do
  let f ← active
  let declared := program.signature.outputs
  -- all outputs are cast before anything is popped or handed over
  let outputs ← castOutputs program f.registers 0 declared
  if f.parent.isNone then
    leaveRoot f (declared.zip outputs)
    return true
  else
    let _ ← onStack Stack.popFrame
    deliver f outputs
    return false

end Machine

end BlockMachine

import BlockMachine.Machine.Call
import BlockMachine.Machine.Compute
import BlockMachine.Machine.Natives
import BlockMachine.Machine.Send

namespace BlockMachine

/-!
# Steps

The effect of one instruction on a machine. The pc of the active frame already points behind the
instruction; the `Flow` that a step returns says how the run goes on.
-/

/-- How a run goes on after an instruction. -/
inductive Flow where
  /-- The same program goes on. -/
  | next
  /-- The active frame may be another one, or its program may have changed. -/
  | reload
  | pause
  | finish
  deriving DecidableEq, Repr

namespace Machine

/-- An entry of a pool. -/
def entry {α : Type} (pool : Pool) (entries : Array α) (index : UInt16) : Action α :=
  match entries[index.toNat]? with
  | some a => return a
  | none => violate (.poolRange pool index)

/-- Calls a native. A native may also fail by recording an error and returning. -/
def callNative (host : Embedder) (resume : Action Outcome) (index : UInt16) : Action Unit := do
  let some (_, f) := (← get).world.natives.get? index | violate (.poolRange .native index)
  invoke host resume f
  match (← getStack).error with
  | some e => raise e.error
  | none => return ()

/-- Reads a saved value. -/
def readState (name : String) : Action Value := do
  let f ← active
  return if f.isStateful then StateTree.read f.incoming name else .null

/-- Saves a value; only a stateful frame keeps it. -/
def saveState (name : String) (v : Value) : Action Unit :=
  modifyActive fun f =>
    if f.isStateful then { f with outgoing := StateTree.save f.outgoing name v } else f

/-- The effect of an instruction other than a pause or a return. -/
def perform (host : Embedder) (resume : Action Outcome) (program : Program) (next : Nat) :
    Instruction → Action Unit
  | .loadConst dst idx => do setRegister dst (← entry .constant program.constants idx)
  | .loadInt dst value => setRegister dst (.int value.toInt64)
  | .setNull dst => setRegister dst .null
  | .setEmptyList dst => do setRegister dst (← allocate (Value.newList []))
  | .copy dst src => do setRegister dst (← register src)
  | .move dst src => move dst src
  | .swap a b => swap a b
  | .cast dst src type => do
    let ty ← entry .type program.types type
    setRegister dst (← cast ty (← register src))
  | .binary op dst lhs rhs => do setRegister dst (← combine op lhs rhs)
  | .increment r => increment r
  | .getIndex dst container index => do setRegister dst (← readIndex container index)
  | .setIndex container index src => writeIndex container index src
  | .append list src => append list src
  | .length dst container => do
    setRegister dst (.int (Int64.ofNat (← lengthOf container)))
  | .jump cond offset => do
    if ← isTaken cond then jump next offset
  | .call block base argc out => do
    let block ← entry .block program.blocks block
    enter block (← arguments base argc.toNat) { returnTo := some out }
  | .callKeyed block base argc out key => do
    let block ← entry .block program.blocks block
    let key ← keyRegister key
    enter block (← arguments base argc.toNat) { returnTo := some out, key := some key }
  | .callFunc base argc out => callFunc base argc out
  | .callFuncApply func args out => applyFunc func args out
  | .callMethod name base argc out site => do
    let name ← entry .name program.names name
    send ⟨name, base, argc, out, program.index, site⟩
  | .makeFunc dst block first count => do
    let block ← entry .block program.blocks block
    let bindings ← arguments first count.toNat
    setRegister dst (← allocate (Value.newFunc block bindings))
  | .splatBindings first count => splatBindings first count
  | .varargsToList first => collectVarargs first
  | .growFrame size => modifyActive fun f =>
    if f.registers.size < size.toNat then f.resize size.toNat else f
  | .native idx => callNative host resume idx
  | .getState dst name => do
    let name ← entry .name program.names name
    setRegister dst (← readState name)
  | .saveState name src => do
    let name ← entry .name program.names name
    saveState name (← register src)
  | .retainFrame => modifyActive fun f => { f with retain := true }
  | .pause | .ret => return ()

/-- Performs an instruction and tells how the run goes on. -/
def step (host : Embedder) (resume : Action Outcome) (program : Program) (next : Nat)
    (i : Instruction) : Action Flow := do
  match i with
  | .pause => return .pause
  | .ret => return if ← leave program then .finish else .reload
  | i =>
    perform host resume program next i
    return if i.leavesFrame then .reload else .next

end Machine

end BlockMachine

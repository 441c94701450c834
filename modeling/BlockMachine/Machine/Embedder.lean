import BlockMachine.Machine.Host
import BlockMachine.Machine.Libraries

namespace BlockMachine

/-!
# Embedders

A host drives a machine, and the natives it installs work on the machine that calls them, both
through the same operations. What they do is a `Script`: operations one after the other, each
chosen by the answers so far.

* `HostOp` lists the operations with what they answer, `HostOp.perform` performs one;
* `Script` is a course of action, `Script.perform` follows it;
* `Embedder` gives the scripts of the installed natives by their codes, and the libraries that the
  other natives use.
-/

namespace Stack

/-- The stack without what its caches hold and without the setting that turns them on. -/
def uncached (s : Stack) : Stack :=
  { s with caches := {}, config := { s.config with inlineCache := false } }

end Stack

namespace Machine

/-- The machine as its host sees it: everything but caches. -/
def uncached (m : Machine) : Machine :=
  { m with stack := m.stack.uncached }

end Machine

open Machine in
/-- An operation of a host or a native, and the type of its answer. -/
inductive HostOp : Type → Type where
  /-- Reads the machine. -/
  | look : HostOp Machine
  | push (block : BlockId) (inputs : List Value) : HostOp Unit
  | run : HostOp Outcome
  | call (block : BlockId) (inputs : List Value) : HostOp (List Value)
  | pop : HostOp (Option Frame)
  | resize (count : Nat) : HostOp Unit
  | reset (discardState : Bool) : HostOp Unit
  | cancel : HostOp Unit
  /-- Goes on with an independent copy of the stack. -/
  | duplicate : HostOp Unit
  | migrateTo (block : BlockId) (inputs : List Value) : HostOp Unit
  | migrateToFunc (func : Value) (inputs : List Value) : HostOp Unit
  | migrate (old new : BlockId) : HostOp Unit
  | setState (tree : Value) : HostOp Unit
  | loadState (text : String) : HostOp (Except StateError Unit)
  | setInput (index : Nat) (v : Value) : HostOp Unit
  | setOutput (index : Nat) (v : Value) : HostOp Unit
  | raise (message : String) : HostOp RuntimeError
  | setEnv (k : Key) (v : Value) : HostOp Unit
  | expect (channel : Key) : HostOp Unit
  | consume (channel : Key) : HostOp (List Value)
  | emit (channel : Key) (message : Value) : HostOp Bool
  | takeRetained : HostOp (List Snapshot)
  | frameList : HostOp (List FrameInfo)
  | setRandom (random : Random) : HostOp Unit
  | print (text : String) : HostOp Unit
  /-- Takes a buffer number for a value of its own. -/
  | number : HostOp BufferId
  | cast (type : Ty) (v : Value) : HostOp (Except CastError Value)
  | addBlock (signature : Signature) (body : List Directive) : HostOp BlockId
  | replaceBlock (block : BlockId) (signature : Signature) (body : List Directive) :
    HostOp (Except CompileError Nat)
  | compile (block : BlockId) : HostOp (Except CompileError Nat)
  | program (index : Nat) : HostOp (Except CompileError Program)
  | registerNative (name : String) (f : Native) : HostOp (Except CompileError UInt16)
  | patchNative (name : String) (f : Native) : HostOp (Except CompileError UInt16)
  | addRecord (name : String) (fields : List (String × Ty)) : HostOp RecordType
  | addMethod (type : TypeId) (name : String) (block : BlockId) : HostOp Unit
  | addModule (name : String) (members : List (String × Member)) : HostOp Module

/-- A course of action: done with a result, or an operation and how to go on with its answer. -/
inductive Script (α : Type) : Type 1 where
  | done (r : Except RuntimeError α)
  | op {β : Type} (o : HostOp β) (next : Except RuntimeError β → Script α)

/-- What the installed natives do, by their codes, and what the other natives take from libraries. -/
structure Embedder where
  script : Nat → Script Unit
  libraries : Libraries := .simple

/-- An embedder whose natives do nothing. -/
def Embedder.idle (libraries : Libraries := .simple) : Embedder :=
  ⟨fun _ => .done (.ok ()), libraries⟩

namespace Machine

/-- Changes the world. -/
def changeWorld {α : Type} (f : World → α × World) : Action α := do
  let m ← get
  let (a, world) := f m.world
  set { m with world := world }
  return a

end Machine

open Machine in
/-- Performs an operation, running the stack by `resume`. -/
def HostOp.perform (resume : Action Outcome) {β : Type} : HostOp β → Action β
  | .look => return (← get).uncached
  | .push block inputs => Machine.push block inputs
  | .run => resume
  | .call block inputs => callWith resume block inputs
  | .pop => Machine.pop
  | .resize count => Machine.resize count
  | .reset discardState => Machine.reset discardState
  | .cancel => Machine.cancel
  | .duplicate => modifyStack Stack.duplicate
  | .migrateTo block inputs => Machine.migrateTo block inputs
  | .migrateToFunc func inputs => Machine.migrateToFunc func inputs
  | .migrate old new => Machine.migrate old new
  | .setState tree => Machine.setState tree
  | .loadState text => Machine.loadState text
  | .setInput index v => Machine.setInput index v
  | .setOutput index v => Machine.setOutput index v
  | .raise message => raiseError message
  | .setEnv k v => modifyStack (·.setEnv k v)
  | .expect channel => modifyStack (·.expect channel)
  | .consume channel => Machine.consume channel
  | .emit channel message => onStack (·.emit channel message)
  | .takeRetained => onStack fun s => (s.retained, { s with retained := [] })
  | .frameList => Machine.frameList
  | .setRandom random => modifyStack fun s => { s with random := random }
  | .print text => modify fun m => { m with printed := m.printed ++ text }
  | .number => allocate fresh
  | .cast type v => tryCast type v
  | .addBlock signature body => changeWorld (·.addBlock signature body)
  | .replaceBlock block signature body => tryWorld (World.replaceBlock block signature body)
  | .compile block => tryWorld (World.compile block)
  | .program index => tryWorld (World.program index)
  | .registerNative name f => tryWorld (World.registerNative name f)
  | .patchNative name f => tryWorld (World.patchNative name f)
  | .addRecord name fields => changeWorld (·.addRecord name fields)
  | .addMethod type name block => changeWorld fun w => ((), w.addMethod type name block)
  | .addModule name members => changeWorld (·.addModule name members)

/-- Follows a script. An error of an operation is an answer like any other; only what is no
    error of the program ends the script. -/
def Script.perform (resume : Machine.Action Outcome) {α : Type} : Script α → Machine.Action α
  | .done (.ok a) => return a
  | .done (.error e) => Machine.raise e
  | .op o next => do
    match ← Machine.attempt (o.perform resume) with
    | .ok b => (next (.ok b)).perform resume
    | .error (.raised e) => (next (.error e)).perform resume
    | .error fault => throw fault

end BlockMachine

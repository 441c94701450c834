import BlockMachine.Dispatch.Resolve
import BlockMachine.Machine.Basic

namespace BlockMachine

/-!
# Sends

A send looks a name up on the receiver in register `base`. A method gets the receiver as its
first argument, a function of a module does not; values of modules and maps are read out.
-/

/-- A send: the name, the receiver's register, the number of arguments with the receiver, the
    first register for the results, and the call site. -/
structure Send where
  name : String
  base : Reg
  argc : UInt8
  out : Reg
  program : Nat
  site : UInt16

namespace Machine

/-- What the name of a send means for its receiver, asking the site's cache if caches are on. -/
def sendLine (send : Send) (receiver : Value) : Action CacheLine := do
  let m ← get
  let resolved := m.world.resolvedLine receiver send.name
  if m.stack.config.inlineCache then
    let (line, caches) := m.stack.caches.consult send.program send.site.toNat resolved
    modifyStack fun s => { s with caches := caches }
    return line
  else return resolved

/-- The value that a module or a map holds under a name. -/
def heldValue? (w : World) (receiver : Value) (name : String) : Option Value :=
  match receiver with
  | .module type =>
    match (w.module? type).bind (·.member? name) with
    | some (.value v) => some v
    | _ => none
  | .map _ entries => Entries.get? (.name name) entries
  | _ => none

/-- Performs a send. -/
def send (send : Send) : Action Unit := do
  let receiver ← register send.base
  let line ← sendLine send receiver
  match line.kind, line.target with
  | .method, some block =>
    enter block (← arguments send.base send.argc.toNat) { returnTo := some send.out }
  -- a function of a module is called without the module
  | .moduleMember, some block =>
    let first ← offsetRegister send.base 1
    enter block (← arguments first (send.argc.toNat - 1)) { returnTo := some send.out }
  -- values are read anew, as the cache remembers only that there is one
  | .moduleMember, none | .mapKey, _ =>
    match heldValue? (← get).world receiver send.name with
    | some v => setRegister send.out v
    | none => raise (.methodNotFound send.name receiver.typeName)
  | _, _ => raise (.methodNotFound send.name receiver.typeName)

end Machine

end BlockMachine

import BlockMachine.Bytecode.Decode
import BlockMachine.Value.Type

namespace BlockMachine

/-!
# Compile errors
-/

/-- The pools of a program whose indices are limited to sixteen bits. -/
inductive Pool where
  | constant
  | block
  | type
  | name
  | native
  | callSite
  deriving DecidableEq, Repr

/-- The name of a pool. -/
def Pool.label : Pool → String
  | constant => "constant"
  | block => "block"
  | type => "type"
  | name => "name"
  | native => "native"
  | callSite => "call site"

/-- Why a block has no program. -/
inductive CompileError where
  | unknownBlock (id : BlockId)
  | unknownProgram (index : Nat)
  | unknownNative (name : String)
  | poolOverflow (block : String) (pool : Pool)
  | lowering (block message : String)
  | malformed (e : DecodeError)
  deriving DecidableEq, Repr

/-- The wording of a compile error. -/
def CompileError.message : CompileError → String
  | unknownBlock id => s!"unknown block BlockId({id})"
  | unknownProgram index => s!"unknown program index {index}"
  | unknownNative name => s!"unknown native '{name}'"
  | poolOverflow block pool => s!"{pool.label} pool of '{block}' overflowed"
  | lowering block message => s!"lowering '{block}' failed: {message}"
  | malformed e => s!"malformed bytecode: {e.message}"

end BlockMachine

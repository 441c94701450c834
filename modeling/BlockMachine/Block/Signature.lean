import BlockMachine.Value.Type
import BlockMachine.Bytecode.Instruction

namespace BlockMachine

/-!
# Block signatures

A signature names the inputs and outputs of a block. Inputs arrive in the first registers of a
frame; each output is read from a register of its own choice when the block returns.

* `Signature.registerCount` is the number of registers a frame needs;
* `Signature.requiredInputs` is the least number of arguments;
* `Signature.placeholder?` is what an argument is checked against.
-/

/-- A named, typed input or output. An optional one may be null whatever its type. -/
structure Placeholder where
  name : String
  type : Ty
  isOptional : Bool := false

/-- An output and the register it is read from. -/
structure Output where
  placeholder : Placeholder
  register : Reg

/-- The inputs and outputs of a block. In a variadic block the last input repeats for any extra
    arguments. -/
structure Signature where
  name : String
  inputs : List Placeholder := []
  isVariadic : Bool := false
  outputs : List Output := []
  locals : UInt16 := 0

namespace Signature

/-- The number of registers a fresh frame needs: enough for locals, inputs and outputs. -/
def registerCount (s : Signature) : Nat :=
  s.outputs.foldl (fun n o => max n (o.register.toNat + 1)) (max s.locals.toNat s.inputs.length)

/-- The number of arguments a caller must supply: the repeated input of a variadic block and
    then all trailing optional inputs may be left out. -/
def requiredInputs (s : Signature) : Nat :=
  let inputs := if s.isVariadic then s.inputs.dropLast else s.inputs
  (inputs.reverse.dropWhile (·.isOptional)).length

/-- The placeholder that argument `i` is checked against. -/
def placeholder? (s : Signature) (i : Nat) : Option Placeholder :=
  match s.inputs[i]? with
  | some p => some p
  | none => if s.isVariadic then s.inputs.getLast? else none

end Signature

end BlockMachine

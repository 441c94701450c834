namespace BlockMachine

/-!
# Opcodes

Every instruction starts with one opcode byte, optionally preceded by a width marker.

* `Op` lists the opcodes in the order of their byte values;
* `Op.toByte` and `Op.ofByte?` convert between opcodes and bytes;
* `Op.isScalable` tells which opcodes have operands that a width marker widens.
-/

/-- The opcodes, in the order of their byte values: the two width markers come first. -/
inductive Op where
  | wide
  | extraWide
  | loadConst
  | loadInt
  | setNull
  | setEmptyList
  | copy
  | move
  | swap
  | cast
  | addInt
  | subInt
  | mulInt
  | divInt
  | addFloat
  | subFloat
  | mulFloat
  | divFloat
  | equals
  | lessThan
  | increment
  | getIndex
  | setIndex
  | append
  | length
  | jump
  | jumpIf
  | jumpIfNot
  | jumpIfDone
  | call
  | callKeyed
  | callFunc
  | callFuncApply
  | callMethod
  | makeFunc
  | splatBindings
  | varargsToList
  | growFrame
  | native
  | getState
  | saveState
  | retainFrame
  | pause
  | ret
  deriving DecidableEq, Repr

namespace Op

/-- All opcodes, each at the index of its byte value. -/
def all : Array Op :=
  #[wide, extraWide, loadConst, loadInt, setNull, setEmptyList, copy, move, swap, cast,
    addInt, subInt, mulInt, divInt, addFloat, subFloat, mulFloat, divFloat, equals, lessThan,
    increment, getIndex, setIndex, append, length, jump, jumpIf, jumpIfNot, jumpIfDone,
    call, callKeyed, callFunc, callFuncApply, callMethod, makeFunc, splatBindings,
    varargsToList, growFrame, native, getState, saveState, retainFrame, pause, ret]

/-- The byte value of an opcode. -/
def toByte (op : Op) : UInt8 :=
  UInt8.ofNat op.ctorIdx

/-- The opcode with a byte value, if there is one. -/
def ofByte? (b : UInt8) : Option Op :=
  all[b.toNat]?

/-- The written name of an opcode. -/
def name : Op → String
  | wide => "Wide"
  | extraWide => "ExtraWide"
  | loadConst => "LoadConst"
  | loadInt => "LoadInt"
  | setNull => "SetNull"
  | setEmptyList => "SetEmptyList"
  | copy => "Copy"
  | move => "Move"
  | swap => "Swap"
  | cast => "Cast"
  | addInt => "AddInt"
  | subInt => "SubInt"
  | mulInt => "MulInt"
  | divInt => "DivInt"
  | addFloat => "AddFloat"
  | subFloat => "SubFloat"
  | mulFloat => "MulFloat"
  | divFloat => "DivFloat"
  | equals => "Equals"
  | lessThan => "LessThan"
  | increment => "Increment"
  | getIndex => "GetIndex"
  | setIndex => "SetIndex"
  | append => "Append"
  | length => "Length"
  | jump => "Jump"
  | jumpIf => "JumpIf"
  | jumpIfNot => "JumpIfNot"
  | jumpIfDone => "JumpIfDone"
  | call => "Call"
  | callKeyed => "CallKeyed"
  | callFunc => "CallFunc"
  | callFuncApply => "CallFuncApply"
  | callMethod => "CallMethod"
  | makeFunc => "MakeFunc"
  | splatBindings => "SplatBindings"
  | varargsToList => "VarargsToList"
  | growFrame => "GrowFrame"
  | native => "Native"
  | getState => "GetState"
  | saveState => "SaveState"
  | retainFrame => "RetainFrame"
  | pause => "Pause"
  | ret => "Return"

/-- Whether an opcode has register operands, which a width marker widens. -/
def isScalable : Op → Bool
  | wide | extraWide | jump | growFrame | native | retainFrame | pause | ret => false
  | _ => true

/-- Reading the byte of an opcode gives the opcode back. -/
@[simp] theorem ofByte?_toByte (op : Op) : ofByte? op.toByte = some op := by
  cases op <;> rfl

end Op

end BlockMachine

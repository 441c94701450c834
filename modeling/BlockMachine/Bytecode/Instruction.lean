import BlockMachine.Bytecode.Op

namespace BlockMachine

/-!
# Instructions

An `Instruction` is an operation with its operands at their widest types, so nothing of the
encoding's width choice is left in it.

* `BinaryOp` and `Condition` factor out the ten binary operations and the four jumps;
* `Instruction.op` is the opcode of an instruction;
* `Instruction.leavesFrame` tells whether another frame or the host may run next.
-/

/-- A register number of the active frame. -/
abbrev Reg := UInt16

/-- The operations that combine two registers into a third. -/
inductive BinaryOp where
  | addInt
  | subInt
  | mulInt
  | divInt
  | addFloat
  | subFloat
  | mulFloat
  | divFloat
  | equals
  | lessThan
  deriving DecidableEq, Repr

/-- The opcode of a binary operation. -/
def BinaryOp.op : BinaryOp → Op
  | addInt => .addInt
  | subInt => .subInt
  | mulInt => .mulInt
  | divInt => .divInt
  | addFloat => .addFloat
  | subFloat => .subFloat
  | mulFloat => .mulFloat
  | divFloat => .divFloat
  | equals => .equals
  | lessThan => .lessThan

/-- When a jump is taken: always, on a true or false register, or once an index has reached
    the length of a container. -/
inductive Condition where
  | always
  | ifTrue (cond : Reg)
  | ifFalse (cond : Reg)
  | ifDone (index container : Reg)
  deriving DecidableEq, Repr

/-- The opcode of a jump. -/
def Condition.op : Condition → Op
  | always => .jump
  | ifTrue _ => .jumpIf
  | ifFalse _ => .jumpIfNot
  | ifDone _ _ => .jumpIfDone

/-- The registers a jump reads. -/
def Condition.registers : Condition → List Reg
  | always => []
  | ifTrue cond => [cond]
  | ifFalse cond => [cond]
  | ifDone index container => [index, container]

/-- A decoded instruction. Jump offsets count from the end of the instruction. -/
inductive Instruction where
  | loadConst (dst : Reg) (idx : UInt16)
  | loadInt (dst : Reg) (value : Int32)
  | setNull (dst : Reg)
  | setEmptyList (dst : Reg)
  | copy (dst src : Reg)
  | move (dst src : Reg)
  | swap (a b : Reg)
  | cast (dst src : Reg) (type : UInt16)
  | binary (op : BinaryOp) (dst lhs rhs : Reg)
  | increment (reg : Reg)
  | getIndex (dst container index : Reg)
  | setIndex (container index src : Reg)
  | append (list src : Reg)
  | length (dst container : Reg)
  | jump (cond : Condition) (offset : Int16)
  | call (block : UInt16) (base : Reg) (argc : UInt8) (out : Reg)
  | callKeyed (block : UInt16) (base : Reg) (argc : UInt8) (out key : Reg)
  | callFunc (base : Reg) (argc : UInt8) (out : Reg)
  | callFuncApply (func args out : Reg)
  | callMethod (name : UInt16) (base : Reg) (argc : UInt8) (out : Reg) (site : UInt16)
  | makeFunc (dst : Reg) (block : UInt16) (first : Reg) (count : UInt8)
  | splatBindings (first : Reg) (count : UInt8)
  | varargsToList (first : Reg)
  | growFrame (size : UInt16)
  | native (idx : UInt16)
  | getState (dst : Reg) (name : UInt16)
  | saveState (name : UInt16) (src : Reg)
  | retainFrame
  | pause
  | ret
  deriving DecidableEq, Repr

namespace Instruction

/-- The opcode of an instruction. -/
def op : Instruction → Op
  | loadConst .. => .loadConst
  | loadInt .. => .loadInt
  | setNull .. => .setNull
  | setEmptyList .. => .setEmptyList
  | copy .. => .copy
  | move .. => .move
  | swap .. => .swap
  | cast .. => .cast
  | binary o .. => o.op
  | increment .. => .increment
  | getIndex .. => .getIndex
  | setIndex .. => .setIndex
  | append .. => .append
  | length .. => .length
  | jump c _ => c.op
  | call .. => .call
  | callKeyed .. => .callKeyed
  | callFunc .. => .callFunc
  | callFuncApply .. => .callFuncApply
  | callMethod .. => .callMethod
  | makeFunc .. => .makeFunc
  | splatBindings .. => .splatBindings
  | varargsToList .. => .varargsToList
  | growFrame .. => .growFrame
  | native .. => .native
  | getState .. => .getState
  | saveState .. => .saveState
  | retainFrame => .retainFrame
  | pause => .pause
  | ret => .ret

/-- Whether executing an instruction can hand control to another frame or to the host. -/
def leavesFrame : Instruction → Bool
  | call .. | callKeyed .. | callFunc .. | callFuncApply .. | callMethod .. | native ..
  | pause | ret => true
  | _ => false

/-- Whether an instruction is a jump of any kind. -/
def isJump : Instruction → Bool
  | jump .. => true
  | _ => false

end Instruction

end BlockMachine

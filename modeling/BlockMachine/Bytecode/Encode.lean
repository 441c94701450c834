import BlockMachine.Bytecode.Instruction

namespace BlockMachine

/-!
# Encoding of instructions

An instruction is encoded as an optional width marker, its opcode byte and its operands in
little-endian order. Registers take one byte, or two after a marker; pool indices, frame sizes
and jump offsets always take two bytes, counts one.

* `Instruction.width` chooses the narrowest width that holds all operands;
* `Instruction.encodeWith` is the encoding at a given width, `Instruction.encode` the shortest.
-/

/-- Bytecode as a string of bytes. -/
abbrev Code := Array UInt8

/-- How wide the scalable operands of an instruction are. -/
inductive Width where
  | narrow
  | wide
  | extraWide
  deriving DecidableEq, Repr

/-- The marker byte that selects a width. -/
def Width.marker : Width → List UInt8
  | narrow => []
  | wide => [Op.wide.toByte]
  | extraWide => [Op.extraWide.toByte]

/-- The two bytes of a word, low byte first. -/
def wordBytes (v : UInt16) : List UInt8 :=
  [v.toUInt8, (v >>> 8).toUInt8]

/-- The four bytes of a double word, low byte first. -/
def doubleWordBytes (v : UInt32) : List UInt8 :=
  [v.toUInt8, (v >>> 8).toUInt8, (v >>> 16).toUInt8, (v >>> 24).toUInt8]

/-- A register takes one byte, or two after a marker. -/
def registerBytes (w : Width) (r : Reg) : List UInt8 :=
  match w with
  | .narrow => [r.toUInt8]
  | .wide | .extraWide => wordBytes r

/-- A small integer takes one, two or four bytes. -/
def integerBytes (w : Width) (v : Int32) : List UInt8 :=
  match w with
  | .narrow => [v.toUInt32.toUInt8]
  | .wide => wordBytes v.toUInt32.toUInt16
  | .extraWide => doubleWordBytes v.toUInt32

/-- The operand bytes of a jump's condition. -/
def Condition.bytes (w : Width) : Condition → List UInt8
  | always => []
  | ifTrue cond => registerBytes w cond
  | ifFalse cond => registerBytes w cond
  | ifDone index container => registerBytes w index ++ registerBytes w container

namespace Instruction

/-- The registers among the operands of an instruction. -/
def registers : Instruction → List Reg
  | loadConst dst _ => [dst]
  | loadInt dst _ => [dst]
  | setNull dst => [dst]
  | setEmptyList dst => [dst]
  | copy dst src => [dst, src]
  | move dst src => [dst, src]
  | swap a b => [a, b]
  | cast dst src _ => [dst, src]
  | binary _ dst lhs rhs => [dst, lhs, rhs]
  | increment r => [r]
  | getIndex dst container index => [dst, container, index]
  | setIndex container index src => [container, index, src]
  | append list src => [list, src]
  | length dst container => [dst, container]
  | jump cond _ => cond.registers
  | call _ base _ out => [base, out]
  | callKeyed _ base _ out key => [base, out, key]
  | callFunc base _ out => [base, out]
  | callFuncApply func args out => [func, args, out]
  | callMethod _ base _ out _ => [base, out]
  | makeFunc dst _ first _ => [dst, first]
  | splatBindings first _ => [first]
  | varargsToList first => [first]
  | growFrame _ => []
  | native _ => []
  | getState dst _ => [dst]
  | saveState _ src => [src]
  | retainFrame => []
  | pause => []
  | ret => []

/-- Whether an integer is within the range of `bits`-bit two's complement. -/
def fits (bits : Nat) (v : Int) : Bool :=
  -Int.pow 2 (bits - 1) ≤ v && v < Int.pow 2 (bits - 1)

/-- The narrowest width at which all operands fit. -/
def width (i : Instruction) : Width :=
  let narrow := i.registers.all (· ≤ 255)
  match i with
  | loadInt _ value =>
    if narrow && fits 8 value.toInt then .narrow
    else if fits 16 value.toInt then .wide
    else .extraWide
  | _ => if narrow then .narrow else .wide

/-- The operand bytes of an instruction at a given width. -/
def operandBytes (w : Width) : Instruction → List UInt8
  | loadConst dst idx => registerBytes w dst ++ wordBytes idx
  | loadInt dst value => registerBytes w dst ++ integerBytes w value
  | setNull dst => registerBytes w dst
  | setEmptyList dst => registerBytes w dst
  | copy dst src => registerBytes w dst ++ registerBytes w src
  | move dst src => registerBytes w dst ++ registerBytes w src
  | swap a b => registerBytes w a ++ registerBytes w b
  | cast dst src type => registerBytes w dst ++ registerBytes w src ++ wordBytes type
  | binary _ dst lhs rhs => registerBytes w dst ++ registerBytes w lhs ++ registerBytes w rhs
  | increment r => registerBytes w r
  | getIndex dst container index =>
    registerBytes w dst ++ registerBytes w container ++ registerBytes w index
  | setIndex container index src =>
    registerBytes w container ++ registerBytes w index ++ registerBytes w src
  | append list src => registerBytes w list ++ registerBytes w src
  | length dst container => registerBytes w dst ++ registerBytes w container
  | jump cond offset => cond.bytes w ++ wordBytes offset.toUInt16
  | call block base argc out =>
    wordBytes block ++ registerBytes w base ++ [argc] ++ registerBytes w out
  | callKeyed block base argc out key =>
    wordBytes block ++ registerBytes w base ++ [argc] ++ registerBytes w out ++ registerBytes w key
  | callFunc base argc out => registerBytes w base ++ [argc] ++ registerBytes w out
  | callFuncApply func args out =>
    registerBytes w func ++ registerBytes w args ++ registerBytes w out
  | callMethod name base argc out site =>
    wordBytes name ++ registerBytes w base ++ [argc] ++ registerBytes w out ++ wordBytes site
  | makeFunc dst block first count =>
    registerBytes w dst ++ wordBytes block ++ registerBytes w first ++ [count]
  | splatBindings first count => registerBytes w first ++ [count]
  | varargsToList first => registerBytes w first
  | growFrame size => wordBytes size
  | native idx => wordBytes idx
  | getState dst name => registerBytes w dst ++ wordBytes name
  | saveState name src => wordBytes name ++ registerBytes w src
  | retainFrame => []
  | pause => []
  | ret => []

/-- The encoding of an instruction at a given width. -/
def encodeWith (w : Width) (i : Instruction) : List UInt8 :=
  w.marker ++ i.op.toByte :: i.operandBytes w

/-- The shortest encoding of an instruction. -/
def encode (i : Instruction) : List UInt8 :=
  i.encodeWith i.width

end Instruction

end BlockMachine

import BlockMachine.Machine.Basic
import BlockMachine.Value.Equality

namespace BlockMachine

/-!
# Computing in the active frame

The instructions that stay inside the active frame: arithmetic and comparison, containers, and
the decision whether a jump is taken.

* `Machine.combine` is the result of a binary operation;
* `Machine.readIndex`, `Machine.writeIndex` and `Machine.append` are the container operations;
* `Machine.isTaken` and `Machine.jump` are jumps.
-/

namespace Machine

/-! ### Typed operands -/

/-- The integer in a register. -/
def intRegister (r : Reg) : Action Int64 := do
  let v ← register r
  match v.int? with
  | some i => return i
  | none => mismatch "int" v

/-- A value as a float. -/
def asFloat (v : Value) : Action Float :=
  match v.float? with
  | some x => return x
  | none => mismatch "float" v

/-- The number in a register as a float. -/
def floatRegister (r : Reg) : Action Float := do
  asFloat (← register r)

/-- The truth value in a register. -/
def boolRegister (r : Reg) : Action Bool := do
  let v ← register r
  match v.bool? with
  | some b => return b
  | none => mismatch "bool" v

/-- The length of the container in a register. -/
def lengthOf (r : Reg) : Action Nat := do
  let v ← register r
  match v.length? with
  | some n => return n
  | none => mismatch "container" v

/-! ### Arithmetic and comparison -/

/-- Whether one value is less than another: integers and strings among themselves, all other
    numbers as floats. -/
def isLess : Value → Value → Action Bool
  | .int a, .int b => return a < b
  | .str _ a, .str _ b => return a < b
  | a, b => do
    let x ← asFloat a
    return x < (← asFloat b)

/-- An integer operation on two registers. -/
def onInts (f : Int64 → Int64 → Int64) (lhs rhs : Reg) : Action Value := do
  let a ← intRegister lhs
  return .int (f a (← intRegister rhs))

/-- A float operation on two registers. -/
def onFloats (f : Float → Float → Float) (lhs rhs : Reg) : Action Value := do
  let a ← floatRegister lhs
  return .float (f a (← floatRegister rhs))

/-- The result of a binary operation. Integers wrap; only a zero divisor is an error. -/
def combine (op : BinaryOp) (lhs rhs : Reg) : Action Value :=
  match op with
  | .addInt => onInts (· + ·) lhs rhs
  | .subInt => onInts (· - ·) lhs rhs
  | .mulInt => onInts (· * ·) lhs rhs
  | .divInt => do
    let a ← intRegister lhs
    let b ← intRegister rhs
    if b = 0 then raise .divisionByZero else return .int (a / b)
  | .addFloat => onFloats (· + ·) lhs rhs
  | .subFloat => onFloats (· - ·) lhs rhs
  | .mulFloat => onFloats (· * ·) lhs rhs
  | .divFloat => do
    let a ← floatRegister lhs
    let b ← floatRegister rhs
    if b == 0.0 then raise .divisionByZero else return .float (a / b)
  | .equals => do
    let a ← register lhs
    return .bool (a.equals (← register rhs))
  | .lessThan => do
    let a ← register lhs
    return .bool (← isLess a (← register rhs))

/-- Adds one to the number in a register. -/
def increment (r : Reg) : Action Unit := do
  -- read without the check for marks, so a moved value is a mismatch
  match ← rawRegister r with
  | .int i => setRegister r (.int (i + 1))
  | .float x => setRegister r (.float (x + 1.0))
  | v => mismatch "int" v

/-! ### Containers -/

/-- The part of a container at an index; null when there is none. -/
def readIndex (container index : Reg) : Action Value := do
  let target ← register container
  let index ← register index
  match target with
  | .map _ entries => return (index.key?.bind (Entries.get? · entries)).getD .null
  | .list .. | .str .. | .record .. =>
    match index with
    | .int i =>
      if i < 0 then return .null
      else return (← allocate (target.item? i.toInt.toNat)).getD .null
    | _ => mismatch "int" index
  | _ => mismatch "container" target

/-- The position that an index value names in a container of a length. -/
def position (index : Value) (length : Nat) : Action Nat :=
  match index with
  | .int i =>
    if 0 ≤ i && i.toInt < length then return i.toInt.toNat
    else raise (.indexOutOfRange i length)
  | _ => mismatch "int" index

/-- Writes a part of the container in a register. Fields of records keep their declared types. -/
def writeIndex (container index src : Reg) : Action Unit := do
  let item ← register src
  let index ← register index
  -- read without the check for marks, so a container that was moved away is a mismatch
  match ← rawRegister container with
  | .map _ entries =>
    match index.key? with
    | some k => setRegister container (← allocate (Value.newMap (Entries.insert k item entries)))
    | none => mismatch "key" index
  | .list _ items =>
    let i ← position index items.length
    setRegister container (← allocate (Value.newList (items.set i item)))
  | .record _ type fields =>
    let i ← position index fields.length
    match type.fields[i]? with
    | some (_, ty) =>
      let item ← cast ty item
      setRegister container (← allocate (Value.newRecord type (fields.set i item)))
    | none => raise (.indexOutOfRange (Int64.ofNat i) fields.length)
  | target => mismatch "container" target

/-- Appends the value of a register to the list in another. -/
def append (list src : Reg) : Action Unit := do
  let item ← register src
  match ← rawRegister list with
  | .list _ items => setRegister list (← allocate (Value.newList (items ++ [item])))
  | target => mismatch "list" target

/-! ### Moves and jumps -/

/-- Moves a value to another register, leaving a mark behind; a register moved to itself stays. -/
def move (dst src : Reg) : Action Unit := do
  if dst ≠ src then
    let v ← register src
    -- the mark is written first, so a target out of range still costs the source
    setRegister src .moved
    setRegister dst v

/-- Exchanges two registers, whatever they hold. -/
def swap (a b : Reg) : Action Unit := do
  let f ← active
  match f.registers[a.toNat]?, f.registers[b.toNat]? with
  | some x, some y =>
    let registers := (f.registers.setIfInBounds a.toNat y).setIfInBounds b.toNat x
    setActive { f with registers := registers }
  | _, _ => violate (.swapRange a b)

/-- Whether the condition of a jump holds. -/
def isTaken : Condition → Action Bool
  | .always => return true
  | .ifTrue cond => boolRegister cond
  | .ifFalse cond => return !(← boolRegister cond)
  | .ifDone index container => do
    -- a negative index is below every length
    let i ← intRegister index
    return (← lengthOf container) ≤ i.toInt

/-- Goes on at a distance from the offset `next` behind the jump. -/
def jump (next : Nat) (offset : Int16) : Action Unit := do
  let target : Int := next + offset.toInt
  if target < 0 then violate (.jumpRange offset next)
  else modifyActive fun f => { f with pc := { f.pc with offset := target.toNat } }

end Machine

end BlockMachine

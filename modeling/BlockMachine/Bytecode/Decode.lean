import BlockMachine.Text.Hex
import BlockMachine.Bytecode.Encode

namespace BlockMachine

/-!
# Decoding of bytecode

Decoding reads one instruction at an offset; every read is checked against the end of the code,
so any byte string either yields an instruction or a `DecodeError`.

* `decodeAt` decodes the instruction at an offset and gives the offset after it;
* `decodeAll` walks a whole byte string and stops after the first malformed instruction.
-/

/-- Why no instruction could be decoded. -/
inductive DecodeError where
  /-- The code ends inside the operand that starts at `offset`. -/
  | truncated (offset : Nat)
  /-- The byte at `offset` is no opcode. -/
  | invalidOpcode (byte : UInt8) (offset : Nat)
  /-- The width marker at `offset` does not apply to the opcode after it. -/
  | invalidMarker (op : Op) (offset : Nat)
  deriving DecidableEq, Repr

/-- The wording of a decode error. -/
def DecodeError.message : DecodeError → String
  | truncated offset => s!"bytecode truncated at offset {offset}"
  | invalidOpcode byte offset => s!"invalid opcode 0x{Hex.encode [byte]} at offset {offset}"
  | invalidMarker op offset => s!"prefix not valid before {op.name} at offset {offset}"

/-! ### Reading operands -/

/-- A read moves an offset forward or fails. -/
abbrev Cursor := StateT Nat (Except DecodeError)

namespace Cursor

variable (code : Code)

/-- The next byte. -/
def byte : Cursor UInt8 := fun pos =>
  match code[pos]? with
  | some b => .ok (b, pos + 1)
  | none => .error (.truncated pos)

/-- The next two bytes, low byte first. -/
def word : Cursor UInt16 := fun pos =>
  match code[pos]?, code[pos + 1]? with
  | some b0, some b1 => .ok (b0.toUInt16 ||| (b1.toUInt16 <<< 8), pos + 2)
  | _, _ => .error (.truncated pos)

/-- The next four bytes, low byte first. -/
def doubleWord : Cursor UInt32 := fun pos =>
  match code[pos]?, code[pos + 1]?, code[pos + 2]?, code[pos + 3]? with
  | some b0, some b1, some b2, some b3 =>
    .ok (b0.toUInt32 ||| (b1.toUInt32 <<< 8) ||| (b2.toUInt32 <<< 16) ||| (b3.toUInt32 <<< 24),
      pos + 4)
  | _, _, _, _ => .error (.truncated pos)

/-- The next opcode. -/
def op : Cursor Op := fun pos =>
  match code[pos]? with
  | none => .error (.truncated pos)
  | some b =>
    match Op.ofByte? b with
    | some o => .ok (o, pos + 1)
    | none => .error (.invalidOpcode b pos)

/-- The next register at a given width. -/
def register : Width → Cursor Reg
  | .narrow => UInt8.toUInt16 <$> byte code
  | .wide | .extraWide => word code

/-- The next small integer at a given width. -/
def integer : Width → Cursor Int32
  | .narrow => (fun b => b.toInt8.toInt32) <$> byte code
  | .wide => (fun v => v.toInt16.toInt32) <$> word code
  | .extraWide => UInt32.toInt32 <$> doubleWord code

/-- The next jump offset. -/
def offset : Cursor Int16 :=
  UInt16.toInt16 <$> word code

/-- The operands of a binary operation. -/
def binary (w : Width) (o : BinaryOp) : Cursor Instruction :=
  return .binary o (← register code w) (← register code w) (← register code w)

/-- The operands of the instruction with opcode `o`, whose encoding starts at `start`. -/
def instruction (start : Nat) (w : Width) (o : Op) : Cursor Instruction :=
  let reg := register code w
  let idx := word code
  let count := byte code
  match o with
  -- a marker behind a marker
  | .wide | .extraWide => throw (.invalidMarker o start)
  | .loadConst => return .loadConst (← reg) (← idx)
  | .loadInt => return .loadInt (← reg) (← integer code w)
  | .setNull => return .setNull (← reg)
  | .setEmptyList => return .setEmptyList (← reg)
  | .copy => return .copy (← reg) (← reg)
  | .move => return .move (← reg) (← reg)
  | .swap => return .swap (← reg) (← reg)
  | .cast => return .cast (← reg) (← reg) (← idx)
  | .addInt => binary code w .addInt
  | .subInt => binary code w .subInt
  | .mulInt => binary code w .mulInt
  | .divInt => binary code w .divInt
  | .addFloat => binary code w .addFloat
  | .subFloat => binary code w .subFloat
  | .mulFloat => binary code w .mulFloat
  | .divFloat => binary code w .divFloat
  | .equals => binary code w .equals
  | .lessThan => binary code w .lessThan
  | .increment => return .increment (← reg)
  | .getIndex => return .getIndex (← reg) (← reg) (← reg)
  | .setIndex => return .setIndex (← reg) (← reg) (← reg)
  | .append => return .append (← reg) (← reg)
  | .length => return .length (← reg) (← reg)
  | .jump => return .jump .always (← offset code)
  | .jumpIf => return .jump (.ifTrue (← reg)) (← offset code)
  | .jumpIfNot => return .jump (.ifFalse (← reg)) (← offset code)
  | .jumpIfDone => return .jump (.ifDone (← reg) (← reg)) (← offset code)
  | .call => return .call (← idx) (← reg) (← count) (← reg)
  | .callKeyed => return .callKeyed (← idx) (← reg) (← count) (← reg) (← reg)
  | .callFunc => return .callFunc (← reg) (← count) (← reg)
  | .callFuncApply => return .callFuncApply (← reg) (← reg) (← reg)
  | .callMethod => return .callMethod (← idx) (← reg) (← count) (← reg) (← idx)
  | .makeFunc => return .makeFunc (← reg) (← idx) (← reg) (← count)
  | .splatBindings => return .splatBindings (← reg) (← count)
  | .varargsToList => return .varargsToList (← reg)
  | .growFrame => return .growFrame (← idx)
  | .native => return .native (← idx)
  | .getState => return .getState (← reg) (← idx)
  | .saveState => return .saveState (← idx) (← reg)
  | .retainFrame => return .retainFrame
  | .pause => return .pause
  | .ret => return .ret

/-- One instruction: an optional width marker, an opcode the marker applies to, and operands. -/
def marked : Cursor Instruction := do
  let start ← get
  match ← op code with
  | .wide =>
    let o ← op code
    if o.isScalable then instruction code start .wide o else throw (.invalidMarker o start)
  | .extraWide =>
    let o ← op code
    if o = .loadInt then instruction code start .extraWide o else throw (.invalidMarker o start)
  | o => instruction code start .narrow o

end Cursor

/-! ### Whole instructions -/

/-- The instruction that starts at offset `pc`, with the offset after it.

    Offsets have no bound here. Where they are machine words, the end of a read from the top of their range
    is beyond it. If such a sum wraps around, no bytes are found and decoding ends truncated at that offset,
    as it does here; if sums are checked, the program stops. No code reaches that far, so no instruction is
    given either way. -/
def decodeAt (code : Code) (pc : Nat) : Except DecodeError (Instruction × Nat) :=
  Cursor.marked code pc

/-- One item of a decoded byte string: where it starts and what it is. -/
structure DecodedItem where
  offset : Nat
  result : Except DecodeError Instruction

/-- A decoded byte string: its items and the offset where decoding stopped. -/
structure Decoded where
  items : Array DecodedItem
  stop : Nat

/-- Decodes from `pos` on, adding to `items`; `fuel` bounds the number of instructions. -/
def decodeFrom (code : Code) : Nat → Nat → Array DecodedItem → Decoded
  | 0, pos, items => ⟨items, pos⟩
  | fuel + 1, pos, items =>
    if code.size ≤ pos then ⟨items, pos⟩
    else
      match decodeAt code pos with
      | .ok (i, next) => decodeFrom code fuel next (items.push ⟨pos, .ok i⟩)
      | .error e => ⟨items.push ⟨pos, .error e⟩, code.size⟩

/-- All instructions of a byte string, ending with the first decode error if there is one.
    An instruction takes at least one byte, so the size of the code bounds their number. -/
def decodeAll (code : Code) : Decoded :=
  decodeFrom code code.size 0 #[]

end BlockMachine

import BlockMachine.Bytecode.Decode

namespace BlockMachine

/-!
# Decoding inverts encoding

An encoded instruction decodes to itself wherever it stands in a piece of code.

* `BytesAt` says that given bytes stand in the code at an offset;
* `Reads` says that a cursor takes given bytes for a given result; such facts compose along
  `>>=`, so that every instruction is read operand by operand;
* `decodeAt_encode` is the round trip of one instruction, `decodeFrom_encodes` that of a
  sequence.
-/

/-! ### Bytes in code -/

/-- The bytes `bs` stand in `code` from offset `pos` on. -/
def BytesAt (code : Code) (pos : Nat) (bs : List UInt8) : Prop :=
  bs <+: code.toList.drop pos

/-- Bytes stand in the code if both parts of them do. -/
theorem bytesAt_append {code : Code} {pos : Nat} {as bs : List UInt8} :
    BytesAt code pos (as ++ bs) ↔ BytesAt code pos as ∧ BytesAt code (pos + as.length) bs := by
  constructor
  · rintro ⟨rest, h⟩
    refine ⟨⟨bs ++ rest, by rw [← h, List.append_assoc]⟩, ⟨rest, ?_⟩⟩
    rw [← List.drop_drop, ← h, List.append_assoc, List.drop_left]
  · rintro ⟨⟨rest, h⟩, ⟨rest', h'⟩⟩
    refine ⟨rest', ?_⟩
    rw [← List.drop_drop, ← h, List.drop_left] at h'
    rw [← h, ← h', List.append_assoc]

/-- Bytes stand in the code if the first one does and the others stand behind it. -/
theorem bytesAt_cons {code : Code} {pos : Nat} {b : UInt8} {bs : List UInt8} :
    BytesAt code pos (b :: bs) ↔ code[pos]? = some b ∧ BytesAt code (pos + 1) bs := by
  have hone : BytesAt code pos [b] ↔ code[pos]? = some b := by
    rw [← Array.getElem?_toList, ← List.head?_drop, BytesAt]
    cases code.toList.drop pos <;> simp [List.cons_prefix_cons, eq_comm]
  rw [← List.singleton_append, bytesAt_append, hone, List.length_singleton]

/-- The bytes of a piece of code stand at its start, behind whatever is in front of it. -/
theorem bytesAt_of_toList {code : Code} {front bs rest : List UInt8}
    (h : code.toList = front ++ (bs ++ rest)) : BytesAt code front.length bs :=
  ⟨rest, by rw [h, List.drop_left]⟩

/-! ### Words from their bytes -/

/-- The bytes of a word make up the word. -/
theorem wordBytes_join (v : UInt16) :
    v.toUInt8.toUInt16 ||| ((v >>> 8).toUInt8.toUInt16 <<< 8) = v := by
  apply UInt16.toBitVec_inj.1
  simp only [UInt16.toBitVec_or, UInt8.toBitVec_toUInt16, UInt16.toBitVec_toUInt8,
    UInt16.toBitVec_shiftLeft, UInt16.toBitVec_shiftRight]
  -- bit by bit: a bit of the word is a bit of exactly one of its bytes
  ext i hi
  simp
  grind

/-- The bytes of a double word make up the double word. -/
theorem doubleWordBytes_join (v : UInt32) :
    v.toUInt8.toUInt32 ||| ((v >>> 8).toUInt8.toUInt32 <<< 8) |||
      ((v >>> 16).toUInt8.toUInt32 <<< 16) ||| ((v >>> 24).toUInt8.toUInt32 <<< 24) = v := by
  apply UInt32.toBitVec_inj.1
  simp only [UInt32.toBitVec_or, UInt8.toBitVec_toUInt32, UInt32.toBitVec_toUInt8,
    UInt32.toBitVec_shiftLeft, UInt32.toBitVec_shiftRight]
  ext i hi
  simp
  grind

/-- A register that fits a byte is not changed by taking its low byte. -/
theorem register_narrow {r : Reg} (h : r ≤ 255) : r.toUInt8.toUInt16 = r := by
  have hr : r.toNat ≤ 255 := by simpa [UInt16.le_iff_toNat_le] using h
  apply UInt16.toNat_inj.1
  simp only [UInt8.toNat_toUInt16, UInt16.toNat_toUInt8]
  omega

/-- A small integer that fits eight bits is the sign extension of its low byte. -/
theorem integer_narrow {v : Int32} (h : Instruction.fits 8 v.toInt = true) :
    v.toUInt32.toUInt8.toInt8.toInt32 = v := by
  have hpow : Int.pow 2 (8 - 1) = 128 := rfl
  simp only [Instruction.fits, hpow, Bool.and_eq_true, decide_eq_true_eq] at h
  -- Going through unsigned numbers cuts off the same bits as the direct conversion.
  have hlow : v.toUInt32.toUInt8.toInt8 = v.toInt8 := by
    apply Int8.toBitVec_inj.1
    exact (BitVec.signExtend_eq_setWidth_of_le _ (show 8 ≤ 32 by decide)).symm
  rw [hlow]
  apply Int32.toInt_inj.1
  simp only [Int8.toInt_toInt32, Int32.toInt_toInt8, Int.bmod]
  omega

/-- A small integer that fits sixteen bits is the sign extension of its low word. -/
theorem integer_wide {v : Int32} (h : Instruction.fits 16 v.toInt = true) :
    v.toUInt32.toUInt16.toInt16.toInt32 = v := by
  have hpow : Int.pow 2 (16 - 1) = 32768 := rfl
  simp only [Instruction.fits, hpow, Bool.and_eq_true, decide_eq_true_eq] at h
  have hlow : v.toUInt32.toUInt16.toInt16 = v.toInt16 := by
    apply Int16.toBitVec_inj.1
    exact (BitVec.signExtend_eq_setWidth_of_le _ (show 16 ≤ 32 by decide)).symm
  rw [hlow]
  apply Int32.toInt_inj.1
  simp only [Int16.toInt_toInt32, Int32.toInt_toInt16, Int.bmod]
  omega

/-! ### Cursors and the bytes they take -/

/-- Wherever the bytes `bs` stand, the cursor takes them all and gives `a`. -/
def Reads {α : Type} (code : Code) (r : Cursor α) (bs : List UInt8) (a : α) : Prop :=
  ∀ pos, BytesAt code pos bs → r pos = .ok (a, pos + bs.length)

namespace Reads

variable {α β : Type} {code : Code} {bs bs' : List UInt8}

/-- A cursor that takes no bytes gives what it is told. -/
theorem pure (a : α) : Reads code (Pure.pure a) [] a :=
  fun _ _ => rfl

/-- Two cursors one after the other take their bytes one after the other. -/
theorem bind {r : Cursor α} {f : α → Cursor β} {a : α} {b : β}
    (hr : Reads code r bs a) (hf : Reads code (f a) bs' b) :
    Reads code (r >>= f) (bs ++ bs') b := by
  intro pos h
  obtain ⟨h₁, h₂⟩ := bytesAt_append.1 h
  have hf := hf _ h₂
  rw [Nat.add_assoc, ← List.length_append] at hf
  calc (r >>= f) pos = (r pos >>= fun x => f x.1 x.2) := rfl
    _ = f a (pos + bs.length) := by rw [hr pos h₁]; rfl
    _ = .ok (b, pos + (bs ++ bs').length) := hf

/-- What a cursor gives may be changed. -/
theorem map {r : Cursor α} {a : α} (f : α → β) (hr : Reads code r bs a) :
    Reads code (f <$> r) bs (f a) := by
  intro pos h
  calc (f <$> r) pos = (r pos >>= fun x => Except.ok (f x.1, x.2)) := rfl
    _ = .ok (f a, pos + bs.length) := by rw [hr pos h]; rfl

/-- The last operand of an instruction completes it. -/
theorem last {r : Cursor α} {f : α → β} {a : α} (hr : Reads code r bs a) :
    Reads code (r >>= fun x => Pure.pure (f x)) bs (f a) :=
  hr.map f

/-- Asking for the position takes no bytes. -/
theorem get_bind {f : Nat → Cursor α} {a : α} (hf : ∀ start, Reads code (f start) bs a) :
    Reads code (get >>= f) bs a :=
  fun pos => hf pos pos

/-- The bytes may be written in another way. -/
theorem of_eq {r : Cursor α} {a : α} (h : Reads code r bs a) (e : bs = bs') :
    Reads code r bs' a :=
  e ▸ h

end Reads

/-! ### Reading operands back -/

section Operands

variable {code : Code}

/-- A byte is read as itself. -/
theorem reads_byte (b : UInt8) : Reads code (Cursor.byte code) [b] b := by
  intro pos h
  simp only [Cursor.byte, (bytesAt_cons.1 h).1, List.length_singleton]

/-- The bytes of a word are read as the word. -/
theorem reads_word (v : UInt16) : Reads code (Cursor.word code) (wordBytes v) v := by
  intro pos h
  obtain ⟨h₀, h₁⟩ := bytesAt_cons.1 h
  simp only [Cursor.word, h₀, (bytesAt_cons.1 h₁).1, wordBytes_join]
  rfl

/-- The bytes of a double word are read as the double word. -/
theorem reads_doubleWord (v : UInt32) :
    Reads code (Cursor.doubleWord code) (doubleWordBytes v) v := by
  intro pos h
  obtain ⟨h₀, h₁⟩ := bytesAt_cons.1 h
  obtain ⟨h₁, h₂⟩ := bytesAt_cons.1 h₁
  obtain ⟨h₂, h₃⟩ := bytesAt_cons.1 h₂
  simp only [Cursor.doubleWord, h₀, h₁, h₂, (bytesAt_cons.1 h₃).1, doubleWordBytes_join]
  rfl

/-- The byte of an opcode is read as the opcode. -/
theorem reads_op (o : Op) : Reads code (Cursor.op code) [o.toByte] o := by
  intro pos h
  simp only [Cursor.op, (bytesAt_cons.1 h).1, Op.ofByte?_toByte, List.length_singleton]

/-- The bytes of an offset are read as the offset. -/
theorem reads_offset (off : Int16) :
    Reads code (Cursor.offset code) (wordBytes off.toUInt16) off :=
  (reads_word off.toUInt16).map UInt16.toInt16

/-- A register is read back at every width that holds it. -/
theorem reads_register {w : Width} {r : Reg} (h : w = .narrow → r ≤ 255) :
    Reads code (Cursor.register code w) (registerBytes w r) r := by
  cases w with
  | narrow =>
    have hread := (@reads_byte code r.toUInt8).map UInt8.toUInt16
    rwa [register_narrow (h rfl)] at hread
  | wide => exact reads_word r
  | extraWide => exact reads_word r

/-- Whether a small integer can be written at a width. -/
def integerFits (v : Int32) : Width → Prop
  | .narrow => Instruction.fits 8 v.toInt = true
  | .wide => Instruction.fits 16 v.toInt = true
  | .extraWide => True

/-- A small integer is read back at every width that holds it. -/
theorem reads_integer {w : Width} {v : Int32} (h : integerFits v w) :
    Reads code (Cursor.integer code w) (integerBytes w v) v := by
  cases w with
  | narrow =>
    have hread := (@reads_byte code v.toUInt32.toUInt8).map fun b => b.toInt8.toInt32
    rwa [integer_narrow h] at hread
  | wide =>
    have hread := (@reads_word code v.toUInt32.toUInt16).map fun u => u.toInt16.toInt32
    rwa [integer_wide h] at hread
  | extraWide => exact (reads_doubleWord v.toUInt32).map UInt32.toInt32

end Operands

/-! ### Whole instructions -/

namespace Instruction

/-- Whether all operands of an instruction can be written at a width. -/
def FitsAt (i : Instruction) (w : Width) : Prop :=
  (w = .narrow → ∀ r ∈ i.registers, r ≤ 255) ∧ ∀ dst v, i = .loadInt dst v → integerFits v w

/-- The chosen width holds all operands. -/
theorem fitsAt_width (i : Instruction) : i.FitsAt i.width := by
  by_cases hnarrow : i.registers.all (· ≤ 255) = true
  · have hregs : ∀ r ∈ i.registers, r ≤ 255 := by simpa using hnarrow
    refine ⟨fun _ => hregs, ?_⟩
    rintro dst v rfl
    by_cases h8 : fits 8 v.toInt = true
    · simp [width, hnarrow, h8, integerFits]
    · by_cases h16 : fits 16 v.toInt = true <;> simp [width, h8, h16, integerFits]
  · -- some register takes a word, so no instruction chooses the narrow width
    refine ⟨fun hw => ?_, ?_⟩
    · cases i
      case loadInt dst v =>
        simp only [width, hnarrow, Bool.false_and, Bool.false_eq_true, if_false] at hw
        split at hw <;> cases hw
      all_goals simp_all [width]
    · rintro dst v rfl
      by_cases h16 : fits 16 v.toInt = true <;> simp [width, hnarrow, h16, integerFits]

/-- The operands of an instruction are read back at every width that holds them. -/
theorem reads_operands (code : Code) (start : Nat) {w : Width} {i : Instruction}
    (hfit : i.FitsAt w) :
    Reads code (Cursor.instruction code start w i.op) (i.operandBytes w) i := by
  have hreg : ∀ r ∈ i.registers, Reads code (Cursor.register code w) (registerBytes w r) r :=
    fun r hr => reads_register fun hw => hfit.1 hw r hr
  -- One case per instruction: the operands in the order in which they are written.
  cases i <;> simp only [registers, List.forall_mem_cons] at hreg
  case loadConst dst idx => exact hreg.1.bind (reads_word idx).last
  case loadInt dst v => exact hreg.1.bind (reads_integer (hfit.2 dst v rfl)).last
  case setNull dst => exact hreg.1.last
  case setEmptyList dst => exact hreg.1.last
  case copy dst src => exact hreg.1.bind hreg.2.1.last
  case move dst src => exact hreg.1.bind hreg.2.1.last
  case swap a b => exact hreg.1.bind hreg.2.1.last
  case cast dst src type =>
    exact .of_eq (hreg.1.bind (hreg.2.1.bind (reads_word type).last)) (List.append_assoc ..).symm
  case binary o dst lhs rhs =>
    -- all binary opcodes share one reader, so their operands are read before the opcode is known
    have hread : Reads code (Cursor.binary code w o) _ (.binary o dst lhs rhs) :=
      hreg.1.bind (hreg.2.1.bind hreg.2.2.1.last)
    rw [← List.append_assoc] at hread
    cases o <;> exact hread
  case increment r => exact hreg.1.last
  case getIndex dst container index =>
    exact .of_eq (hreg.1.bind (hreg.2.1.bind hreg.2.2.1.last)) (List.append_assoc ..).symm
  case setIndex container index src =>
    exact .of_eq (hreg.1.bind (hreg.2.1.bind hreg.2.2.1.last)) (List.append_assoc ..).symm
  case append list src => exact hreg.1.bind hreg.2.1.last
  case length dst container => exact hreg.1.bind hreg.2.1.last
  case jump cond offset =>
    cases cond <;> simp only [Condition.registers, List.forall_mem_cons] at hreg
    case always => exact (reads_offset offset).last
    case ifTrue cond => exact hreg.1.bind (reads_offset offset).last
    case ifFalse cond => exact hreg.1.bind (reads_offset offset).last
    case ifDone index container =>
      exact .of_eq (hreg.1.bind (hreg.2.1.bind (reads_offset offset).last))
        (List.append_assoc ..).symm
  case call block base argc out =>
    refine .of_eq ((reads_word block).bind (hreg.1.bind ((reads_byte argc).bind hreg.2.1.last))) ?_
    simp only [operandBytes, List.append_assoc]
  case callKeyed block base argc out key =>
    refine .of_eq ((reads_word block).bind (hreg.1.bind ((reads_byte argc).bind
      (hreg.2.1.bind hreg.2.2.1.last)))) ?_
    simp only [operandBytes, List.append_assoc]
  case callFunc base argc out =>
    exact .of_eq (hreg.1.bind ((reads_byte argc).bind hreg.2.1.last)) (List.append_assoc ..).symm
  case callFuncApply func args out =>
    exact .of_eq (hreg.1.bind (hreg.2.1.bind hreg.2.2.1.last)) (List.append_assoc ..).symm
  case callMethod name base argc out site =>
    refine .of_eq ((reads_word name).bind (hreg.1.bind ((reads_byte argc).bind
      (hreg.2.1.bind (reads_word site).last)))) ?_
    simp only [operandBytes, List.append_assoc]
  case makeFunc dst block first count =>
    refine .of_eq (hreg.1.bind ((reads_word block).bind (hreg.2.1.bind (reads_byte count).last))) ?_
    simp only [operandBytes, List.append_assoc]
  case splatBindings first count => exact hreg.1.bind (reads_byte count).last
  case varargsToList first => exact hreg.1.last
  case growFrame size => exact (reads_word size).last
  case native idx => exact (reads_word idx).last
  case getState dst name => exact hreg.1.bind (reads_word name).last
  case saveState name src => exact (reads_word name).bind hreg.1.last
  case retainFrame => exact .pure _
  case pause => exact .pure _
  case ret => exact .pure _

/-- Only instructions with registers are ever widened. -/
theorem isScalable_op {i : Instruction} (h : i.width ≠ .narrow) : i.op.isScalable = true := by
  cases i <;> first | rfl | exact absurd rfl h | skip
  case binary o _ _ _ => cases o <;> rfl
  case jump cond _ => cases cond <;> first | rfl | exact absurd rfl h

/-- Only small integers take four bytes. -/
theorem op_of_extraWide {i : Instruction} (h : i.width = .extraWide) : i.op = .loadInt := by
  cases i
  case loadInt => rfl
  all_goals (simp only [width] at h; split at h <;> cases h)

/-- No instruction has the opcode of a width marker. -/
theorem op_ne_marker (i : Instruction) : i.op ≠ .wide ∧ i.op ≠ .extraWide := by
  cases i
  case binary o _ _ _ => cases o <;> simp [op, BinaryOp.op]
  case jump cond _ => cases cond <;> simp [op, Condition.op]
  all_goals simp [op]

/-- The shortest encoding of an instruction is read back. -/
theorem reads_encode (code : Code) (i : Instruction) :
    Reads code (Cursor.marked code) i.encode i := by
  -- the start of the instruction is only kept for errors
  refine .get_bind fun start => ?_
  have hoperands := i.reads_operands code start i.fitsAt_width
  have hop : Reads code _ _ _ := reads_op i.op
  unfold encode encodeWith
  cases hw : i.width with
  | narrow =>
    rw [hw] at hoperands
    refine hop.bind ?_
    -- without a marker the first byte is the opcode itself, which is never a marker's
    split
    · rename_i he; exact absurd he i.op_ne_marker.1
    · rename_i he; exact absurd he i.op_ne_marker.2
    · exact hoperands
  | wide =>
    rw [hw] at hoperands
    refine (reads_op .wide).bind (hop.bind ?_)
    rw [if_pos (isScalable_op (by rw [hw]; decide))]
    exact hoperands
  | extraWide =>
    rw [hw] at hoperands
    refine (reads_op .extraWide).bind (hop.bind ?_)
    rw [if_pos (op_of_extraWide hw)]
    exact hoperands

/-- Every instruction takes a byte at least. -/
theorem encode_ne_nil (i : Instruction) : i.encode ≠ [] := by
  simp [encode, encodeWith]

end Instruction

/-! ### Sequences of instructions -/

/-- **Round trip of one instruction.** Wherever its encoding stands, an instruction is decoded
    with its operands, and decoding goes on right behind it. -/
theorem decodeAt_encode {code : Code} {pos : Nat} {i : Instruction}
    (h : BytesAt code pos i.encode) : decodeAt code pos = .ok (i, pos + i.encode.length) :=
  i.reads_encode code pos h

/-- The items that a sequence of instructions decodes to when its encoding starts at `pos`. -/
def itemsFrom (pos : Nat) : List Instruction → List DecodedItem
  | [] => []
  | i :: rest => ⟨pos, .ok i⟩ :: itemsFrom (pos + i.encode.length) rest

/-- **Round trip of a sequence.** Code that ends with the encodings of a sequence of
    instructions is decoded from there to its end, each instruction at its own offset. -/
theorem decodeFrom_encodes {code : Code} {is : List Instruction} {fuel pos : Nat}
    {items : Array DecodedItem} (hcode : code.toList.drop pos = is.flatMap Instruction.encode)
    (hpos : pos ≤ code.size) (hfuel : is.length ≤ fuel) :
    decodeFrom code fuel pos items = ⟨items ++ (itemsFrom pos is).toArray, code.size⟩ := by
  have hsize := congrArg List.length hcode
  rw [List.length_drop, Array.length_toList] at hsize
  induction is generalizing fuel pos items with
  | nil =>
    -- no bytes are left, and the decoder stops before it looks at its fuel
    have hend : pos = code.size := by
      rw [List.flatMap_nil, List.length_nil] at hsize
      omega
    subst hend
    cases fuel <;> simp [decodeFrom, itemsFrom]
  | cons i rest ih =>
    rw [List.flatMap_cons] at hcode hsize
    rw [List.length_append] at hsize
    have hlen := List.length_pos_iff.2 i.encode_ne_nil
    obtain ⟨fuel, rfl⟩ : ∃ f, fuel = f + 1 := ⟨fuel - 1, by simp at hfuel; omega⟩
    have hdecode : decodeAt code pos = .ok (i, pos + i.encode.length) :=
      decodeAt_encode ⟨_, hcode.symm⟩
    have hrest : code.toList.drop (pos + i.encode.length) = rest.flatMap Instruction.encode := by
      rw [← List.drop_drop, hcode, List.drop_left]
    rw [decodeFrom, if_neg (by omega), hdecode]
    simp only
    rw [ih hrest (by omega) (by simpa using hfuel) (by omega)]
    simp [itemsFrom]

/-- Code made of the encodings of a sequence of instructions decodes to that sequence. -/
theorem decodeAll_encodes {code : Code} {is : List Instruction}
    (hcode : code.toList = is.flatMap Instruction.encode) :
    decodeAll code = ⟨(itemsFrom 0 is).toArray, code.size⟩ := by
  -- Every instruction takes a byte at least, so the size of the code is fuel enough.
  have hfuel : is.length ≤ code.size := by
    rw [← Array.length_toList, hcode, List.length_flatMap]
    clear hcode
    induction is with
    | nil => simp
    | cons i rest ih =>
      have hlen := List.length_pos_iff.2 i.encode_ne_nil
      simp only [List.map_cons, List.sum_cons, List.length_cons]
      omega
  rw [decodeAll, decodeFrom_encodes (by simpa using hcode) (Nat.zero_le _) hfuel]
  simp

end BlockMachine

import BlockMachine.Proofs.Bytecode.Assembly
import BlockMachine.Proofs.Bytecode.Decoding

namespace BlockMachine

/-!
# Decoded code assembled again

An instruction can be encoded at every width that holds its operands. The decoder reads all of these
encodings, the assembler writes the one at the narrowest width.

* `Takes` says of a cursor which bytes it took for what it gave, and `takes_marked` that a decoded
  instruction was encoded at some width that holds its operands;
* `Instruction.encode_shortest`: the assembler's encoding is the only one of its length, and the others
  are longer;
* `reassemble` assembles what was decoded, and `reassemble_shortest` is about instructions and whole code.
-/

/-! ### Operands and the bytes they were read from -/

/-- A word that is read from two bytes is written as these. -/
theorem wordBytes_of_bytes (b₀ b₁ : UInt8) :
    wordBytes (b₀.toUInt16 ||| (b₁.toUInt16 <<< 8)) = [b₀, b₁] := by
  simp only [wordBytes, List.cons.injEq, and_true]
  constructor <;> apply UInt8.toBitVec_inj.1 <;> ext i hi <;> simp <;> grind

/-- A double word that is read from four bytes is written as these. -/
theorem doubleWordBytes_of_bytes (b₀ b₁ b₂ b₃ : UInt8) :
    doubleWordBytes (b₀.toUInt32 ||| (b₁.toUInt32 <<< 8) ||| (b₂.toUInt32 <<< 16) |||
      (b₃.toUInt32 <<< 24)) = [b₀, b₁, b₂, b₃] := by
  simp only [doubleWordBytes, List.cons.injEq, and_true]
  refine ⟨?_, ?_, ?_, ?_⟩ <;> apply UInt8.toBitVec_inj.1 <;> ext i hi <;> simp <;> grind

/-- An opcode is written as the byte that it is read from. -/
theorem Op.toByte_of_ofByte? {b : UInt8} {o : Op} (h : Op.ofByte? b = some o) : o.toByte = b := by
  have hall : ∀ k : Fin 44, Op.all[k.val]?.map (·.toByte.toNat) = some k.val := by decide
  obtain ⟨hlt, -⟩ := Array.getElem?_eq_some_iff.1 h
  have hb := hall ⟨b.toNat, hlt⟩
  rw [show Op.all[b.toNat]? = some o from h] at hb
  exact UInt8.toNat_inj.1 (Option.some.inj hb)

/-- A byte as a register is written in one byte. -/
theorem registerBytes_of_byte (b : UInt8) :
    b.toUInt16 ≤ 255 ∧ registerBytes .narrow b.toUInt16 = [b] := by
  constructor
  · have := b.toNat_lt
    simp only [UInt16.le_iff_toNat_le, UInt8.toNat_toUInt16]
    change b.toNat ≤ 255
    omega
  · simp [registerBytes]

/-- A byte as an integer is written in one byte. -/
theorem integerBytes_of_byte (b : UInt8) :
    integerFits b.toInt8.toInt32 .narrow ∧ integerBytes .narrow b.toInt8.toInt32 = [b] := by
  constructor
  · have hpow : Int.pow 2 (8 - 1) = 128 := rfl
    have hlt := b.toInt8.toInt_lt
    have hle := b.toInt8.le_toInt
    simp only [integerFits, Instruction.fits, hpow, Int8.toInt_toInt32, Bool.and_eq_true, decide_eq_true_eq]
    omega
  · -- widening with the sign leaves the low byte
    simp only [integerBytes, List.cons.injEq, and_true]
    apply UInt8.toBitVec_inj.1
    ext i hi
    have hwide : i < 32 := by omega
    simp [BitVec.getElem_signExtend, hi, hwide]

/-- A word as an integer is written in one word. -/
theorem integerBytes_of_word (v : UInt16) :
    integerFits v.toInt16.toInt32 .wide ∧ integerBytes .wide v.toInt16.toInt32 = wordBytes v := by
  constructor
  · have hpow : Int.pow 2 (16 - 1) = 32768 := rfl
    have hlt := v.toInt16.toInt_lt
    have hle := v.toInt16.le_toInt
    simp only [integerFits, Instruction.fits, hpow, Int16.toInt_toInt32, Bool.and_eq_true, decide_eq_true_eq]
    omega
  · refine congrArg wordBytes ?_
    apply UInt16.toBitVec_inj.1
    ext i hi
    have hwide : i < 32 := by omega
    simp [BitVec.getElem_signExtend, hi, hwide]

/-! ### Cursors and the bytes they took -/

/-- Wherever the cursor gives something, it took bytes that stand there, and `Q` relates the two. -/
def Takes {α : Type} (code : Code) (r : Cursor α) (Q : α → List UInt8 → Prop) : Prop :=
  ∀ ⦃pos a next⦄, r pos = .ok (a, next) → ∃ bs, BytesAt code pos bs ∧ next = pos + bs.length ∧ Q a bs

namespace Takes

variable {α β : Type} {code : Code} {Q : α → List UInt8 → Prop} {R : β → List UInt8 → Prop}

/-- A cursor that takes nothing gives what it is told. -/
theorem pure {a : α} (h : Q a []) : Takes code (Pure.pure a) Q := by
  intro pos b next hr
  obtain ⟨rfl, rfl⟩ := Prod.mk.inj (Except.ok.inj hr)
  exact ⟨[], ⟨_, List.nil_append _⟩, rfl, h⟩

/-- A cursor that fails takes no bytes. -/
theorem throw (e : DecodeError) : Takes code (MonadExcept.throw e : Cursor α) Q :=
  fun _ _ _ hr => nomatch hr

/-- Two cursors one after the other took their bytes one after the other. -/
theorem bind {r : Cursor α} {f : α → Cursor β} (hr : Takes code r Q)
    (hf : ∀ a bs, Q a bs → Takes code (f a) fun b bs' => R b (bs ++ bs')) :
    Takes code (r >>= f) R := by
  intro pos b next h
  change (r pos >>= fun x => f x.1 x.2) = _ at h
  cases hfirst : r pos with
  | error e =>
    rw [hfirst] at h
    exact nomatch h
  | ok found =>
    obtain ⟨a, mid⟩ := found
    rw [hfirst] at h
    obtain ⟨bs, hbs, rfl, hQ⟩ := hr hfirst
    obtain ⟨bs', hbs', rfl, hR⟩ := hf a bs hQ h
    refine ⟨bs ++ bs', bytesAt_append.2 ⟨hbs, hbs'⟩, ?_, hR⟩
    rw [List.length_append, Nat.add_assoc]

/-- What a cursor gives may be changed, if that fits the bytes that it took. -/
theorem map {r : Cursor α} (f : α → β) (hr : Takes code r Q) (hf : ∀ a bs, Q a bs → R (f a) bs) :
    Takes code (f <$> r) R :=
  hr.bind fun a bs ha => .pure (by simpa using hf a bs ha)

/-- A cursor may look where it is first. -/
theorem get_bind {f : Nat → Cursor α} (hf : ∀ start, Takes code (f start) Q) :
    Takes code (get >>= f) Q :=
  fun pos => @hf pos pos

end Takes

section Operands

variable (code : Code)

/-- A byte was written as itself. -/
theorem takes_byte : Takes code (Cursor.byte code) fun b bs => bs = [b] := by
  intro pos b next h
  unfold Cursor.byte at h
  split at h
  next c hc =>
    obtain ⟨rfl, rfl⟩ := Prod.mk.inj (Except.ok.inj h)
    exact ⟨[c], bytesAt_cons.2 ⟨hc, _, List.nil_append _⟩, rfl, rfl⟩
  next => exact nomatch h

/-- A word was written as its bytes. -/
theorem takes_word : Takes code (Cursor.word code) fun v bs => bs = wordBytes v := by
  intro pos v next h
  unfold Cursor.word at h
  split at h
  next b₀ b₁ h₀ h₁ =>
    obtain ⟨rfl, rfl⟩ := Prod.mk.inj (Except.ok.inj h)
    refine ⟨[b₀, b₁], ?_, rfl, (wordBytes_of_bytes b₀ b₁).symm⟩
    exact bytesAt_cons.2 ⟨h₀, bytesAt_cons.2 ⟨h₁, _, List.nil_append _⟩⟩
  next => exact nomatch h

/-- A double word was written as its bytes. -/
theorem takes_doubleWord :
    Takes code (Cursor.doubleWord code) fun v bs => bs = doubleWordBytes v := by
  intro pos v next h
  unfold Cursor.doubleWord at h
  split at h
  next b₀ b₁ b₂ b₃ h₀ h₁ h₂ h₃ =>
    obtain ⟨rfl, rfl⟩ := Prod.mk.inj (Except.ok.inj h)
    refine ⟨[b₀, b₁, b₂, b₃], ?_, rfl, (doubleWordBytes_of_bytes b₀ b₁ b₂ b₃).symm⟩
    exact bytesAt_cons.2 ⟨h₀, bytesAt_cons.2 ⟨h₁, bytesAt_cons.2 ⟨h₂, bytesAt_cons.2
      ⟨h₃, _, List.nil_append _⟩⟩⟩⟩
  next => exact nomatch h

/-- An opcode was written as its byte. -/
theorem takes_op : Takes code (Cursor.op code) fun o bs => bs = [o.toByte] := by
  intro pos o next h
  obtain ⟨b, hb, ho, rfl⟩ := op_ok h
  refine ⟨[o.toByte], bytesAt_cons.2 ⟨?_, _, List.nil_append _⟩, rfl, rfl⟩
  rw [hb, Op.toByte_of_ofByte? ho]

/-- An offset was written as a word. -/
theorem takes_offset : Takes code (Cursor.offset code) fun d bs => bs = wordBytes d.toUInt16 :=
  (takes_word code).map UInt16.toInt16 fun v bs h => by simpa using h

/-- A register was written at its width, which holds it. -/
theorem takes_register (w : Width) :
    Takes code (Cursor.register code w) fun r bs => (w = .narrow → r ≤ 255) ∧ bs = registerBytes w r := by
  cases w with
  | narrow =>
    refine (takes_byte code).map UInt8.toUInt16 ?_
    rintro b _ rfl
    exact ⟨fun _ => (registerBytes_of_byte b).1, (registerBytes_of_byte b).2.symm⟩
  | wide | extraWide =>
    intro pos r next h
    obtain ⟨bs, hbs, hnext, rfl⟩ := takes_word code h
    exact ⟨_, hbs, hnext, nofun, rfl⟩

/-- An integer was written at its width, which holds it. -/
theorem takes_integer (w : Width) :
    Takes code (Cursor.integer code w) fun v bs => integerFits v w ∧ bs = integerBytes w v := by
  cases w with
  | narrow =>
    refine (takes_byte code).map (fun b => b.toInt8.toInt32) ?_
    rintro b _ rfl
    exact ⟨(integerBytes_of_byte b).1, (integerBytes_of_byte b).2.symm⟩
  | wide =>
    refine (takes_word code).map (fun v => v.toInt16.toInt32) ?_
    rintro v _ rfl
    exact ⟨(integerBytes_of_word v).1, (integerBytes_of_word v).2.symm⟩
  | extraWide =>
    refine (takes_doubleWord code).map UInt32.toInt32 ?_
    rintro v _ rfl
    exact ⟨trivial, by simp [integerBytes]⟩

end Operands

/-! ### Instructions and the bytes they were read from -/

namespace Instruction

/-- An instruction with an opcode was written at a width, which holds its operands. -/
structure WrittenAs (i : Instruction) (o : Op) (w : Width) (bs : List UInt8) : Prop where
  op : i.op = o
  fits : i.FitsAt w
  bytes : bs = i.operandBytes w

/-- Only the registers of most instructions have to fit. -/
theorem WrittenAs.of_registers {i : Instruction} {o : Op} {w : Width} {bs : List UInt8} (hop : i.op = o)
    (hint : o ≠ .loadInt) (hregs : ∀ r ∈ i.registers, w = .narrow → r ≤ 255)
    (hbytes : bs = i.operandBytes w) : i.WrittenAs o w bs := by
  refine ⟨hop, ⟨fun hw r hr => hregs r hr hw, ?_⟩, hbytes⟩
  rintro dst v rfl
  exact absurd hop.symm hint

end Instruction

open Instruction in

/-- What is read behind an opcode is what an instruction with this opcode is written as. -/
theorem takes_instruction (code : Code) (start : Nat) (w : Width) (o : Op) :
    Takes code (Cursor.instruction code start w o) fun i bs => i.WrittenAs o w bs := by
  -- the operands come in few shapes; the opcodes are grouped by the one they have
  have reg := takes_register code w
  have idx := takes_word code
  have count := takes_byte code
  cases o
  case wide | extraWide => exact .throw _
  case retainFrame | pause | ret => exact .pure (.of_registers rfl (by decide) (List.forall_mem_nil _) rfl)
  -- only here the width also bounds an integer
  case loadInt =>
    refine reg.bind fun dst _ hdst => (takes_integer code w).bind fun v _ hv => .pure ⟨rfl, ?_, ?_⟩
    · refine ⟨fun hw r hr => ?_, ?_⟩
      · obtain rfl := List.mem_singleton.1 hr
        exact hdst.1 hw
      · rintro _ _ ⟨⟩
        exact hv.1
    · simp [operandBytes, hdst.2, hv.2]
  case growFrame | native =>
    exact idx.bind fun _ _ hv =>
      .pure (.of_registers rfl (by decide) (List.forall_mem_nil _) (by simp [operandBytes, hv]))
  case setNull | setEmptyList | increment | varargsToList =>
    exact reg.bind fun _ _ ha =>
      .pure (.of_registers rfl (by decide) (by simpa [registers] using ha.1) (by simp [operandBytes, ha.2]))
  case copy | move | swap | append | length =>
    exact reg.bind fun _ _ ha => reg.bind fun _ _ hb =>
      .pure (.of_registers rfl (by decide) (by simpa [registers] using ⟨ha.1, hb.1⟩)
        (by simp [operandBytes, ha.2, hb.2]))
  case loadConst | getState =>
    exact reg.bind fun _ _ ha => idx.bind fun _ _ hv =>
      .pure (.of_registers rfl (by decide) (by simpa [registers] using ha.1)
        (by simp [operandBytes, ha.2, hv]))
  case saveState =>
    exact idx.bind fun _ _ hv => reg.bind fun _ _ ha =>
      .pure (.of_registers rfl (by decide) (by simpa [registers] using ha.1)
        (by simp [operandBytes, ha.2, hv]))
  case splatBindings =>
    exact reg.bind fun _ _ ha => count.bind fun _ _ hn =>
      .pure (.of_registers rfl (by decide) (by simpa [registers] using ha.1)
        (by simp [operandBytes, ha.2, hn]))
  case getIndex | setIndex | callFuncApply | addInt | subInt | mulInt | divInt | addFloat | subFloat
      | mulFloat | divFloat | equals | lessThan =>
    exact reg.bind fun _ _ ha => reg.bind fun _ _ hb => reg.bind fun _ _ hc =>
      .pure (.of_registers rfl (by decide) (by simpa [registers] using ⟨ha.1, hb.1, hc.1⟩)
        (by simp [operandBytes, ha.2, hb.2, hc.2]))
  case cast =>
    exact reg.bind fun _ _ ha => reg.bind fun _ _ hb => idx.bind fun _ _ hv =>
      .pure (.of_registers rfl (by decide) (by simpa [registers] using ⟨ha.1, hb.1⟩)
        (by simp [operandBytes, ha.2, hb.2, hv]))
  case jump =>
    exact (takes_offset code).bind fun _ _ hd =>
      .pure (.of_registers rfl (by decide) (List.forall_mem_nil _)
        (by simp [operandBytes, Condition.bytes, hd]))
  case jumpIf | jumpIfNot =>
    exact reg.bind fun _ _ ha => (takes_offset code).bind fun _ _ hd =>
      .pure (.of_registers rfl (by decide) (by simpa [registers, Condition.registers] using ha.1)
        (by simp [operandBytes, Condition.bytes, ha.2, hd]))
  case jumpIfDone =>
    exact reg.bind fun _ _ ha => reg.bind fun _ _ hb => (takes_offset code).bind fun _ _ hd =>
      .pure (.of_registers rfl (by decide)
        (by simpa [registers, Condition.registers] using ⟨ha.1, hb.1⟩)
        (by simp [operandBytes, Condition.bytes, ha.2, hb.2, hd]))
  case callFunc =>
    exact reg.bind fun _ _ ha => count.bind fun _ _ hn => reg.bind fun _ _ hb =>
      .pure (.of_registers rfl (by decide) (by simpa [registers] using ⟨ha.1, hb.1⟩)
        (by simp [operandBytes, ha.2, hb.2, hn]))
  case call =>
    exact idx.bind fun _ _ hv => reg.bind fun _ _ ha => count.bind fun _ _ hn => reg.bind fun _ _ hb =>
      .pure (.of_registers rfl (by decide) (by simpa [registers] using ⟨ha.1, hb.1⟩)
        (by simp [operandBytes, ha.2, hb.2, hv, hn]))
  case callKeyed =>
    exact idx.bind fun _ _ hv => reg.bind fun _ _ ha => count.bind fun _ _ hn => reg.bind fun _ _ hb =>
      reg.bind fun _ _ hc =>
        .pure (.of_registers rfl (by decide) (by simpa [registers] using ⟨ha.1, hb.1, hc.1⟩)
          (by simp [operandBytes, ha.2, hb.2, hc.2, hv, hn]))
  case callMethod =>
    exact idx.bind fun _ _ hv => reg.bind fun _ _ ha => count.bind fun _ _ hn => reg.bind fun _ _ hb =>
      idx.bind fun _ _ hs =>
        .pure (.of_registers rfl (by decide) (by simpa [registers] using ⟨ha.1, hb.1⟩)
          (by simp [operandBytes, ha.2, hb.2, hv, hn, hs]))
  case makeFunc =>
    exact reg.bind fun _ _ ha => idx.bind fun _ _ hv => reg.bind fun _ _ hb => count.bind fun _ _ hn =>
      .pure (.of_registers rfl (by decide) (by simpa [registers] using ⟨ha.1, hb.1⟩)
        (by simp [operandBytes, ha.2, hb.2, hv, hn]))

/-- The widths at which the decoder reads an instruction. -/
structure Instruction.ReadAt (i : Instruction) (w : Width) : Prop where
  fits : i.FitsAt w
  wide : w = .wide → i.op.isScalable = true
  extraWide : w = .extraWide → i.op = .loadInt

/-- **A decoded instruction was encoded** at one of the widths at which it is read. -/
theorem takes_marked (code : Code) :
    Takes code (Cursor.marked code) fun i bs => ∃ w, i.ReadAt w ∧ bs = i.encodeWith w := by
  rw [Cursor.marked_eq]
  refine .get_bind fun start => (takes_op code).bind ?_
  rintro o _ rfl
  by_cases hwide : o = .wide
  · subst hwide
    refine (takes_op code).bind ?_
    rintro o _ rfl
    by_cases ho : o.isScalable
    · rw [if_pos ho]
      intro pos i next h
      obtain ⟨bs, hbs, hnext, hi⟩ := takes_instruction code start .wide o h
      refine ⟨bs, hbs, hnext, .wide, ⟨hi.fits, fun _ => hi.op ▸ ho, by simp⟩, ?_⟩
      simp [Instruction.encodeWith, Width.marker, hi.op, hi.bytes]
    · rw [if_neg ho]
      exact .throw _
  by_cases hextra : o = .extraWide
  · subst hextra
    refine (takes_op code).bind ?_
    rintro o _ rfl
    by_cases ho : o = .loadInt
    · rw [if_pos ho]
      intro pos i next h
      obtain ⟨bs, hbs, hnext, hi⟩ := takes_instruction code start .extraWide o h
      refine ⟨bs, hbs, hnext, .extraWide, ⟨hi.fits, by simp, fun _ => hi.op.trans ho⟩, ?_⟩
      simp [Instruction.encodeWith, Width.marker, hi.op, hi.bytes]
    · rw [if_neg ho]
      exact .throw _
  have hnarrow : Cursor.afterOp start o code = Cursor.instruction code start .narrow o := by
    cases o <;> first | rfl | contradiction
  rw [hnarrow]
  intro pos i next h
  obtain ⟨bs, hbs, hnext, hi⟩ := takes_instruction code start .narrow o h
  refine ⟨bs, hbs, hnext, .narrow, ⟨hi.fits, by simp, by simp⟩, ?_⟩
  simp [Instruction.encodeWith, Width.marker, hi.op, hi.bytes]

/-! ### Which encoding is the shortest -/

namespace Instruction

variable {i : Instruction} {w : Width}

/-- Registers make an instruction longer with a marker than without one. -/
theorem length_narrow_lt_wide (h : i.op.isScalable = true) :
    (i.encodeWith .narrow).length < (i.encodeWith .wide).length := by
  cases i
  case jump cond offset =>
    cases cond
    case always => cases h
    all_goals simp [encodeWith, operandBytes, Width.marker, Condition.bytes, registerBytes, wordBytes]
  case growFrame | native | retainFrame | pause | ret => cases h
  all_goals simp [encodeWith, operandBytes, Width.marker, registerBytes, integerBytes, wordBytes]

/-- An integer makes a load longer at the largest width. -/
theorem length_wide_lt_extraWide (h : i.op = .loadInt) :
    (i.encodeWith .wide).length < (i.encodeWith .extraWide).length := by
  cases i
  case loadInt =>
    simp [encodeWith, operandBytes, Width.marker, registerBytes, integerBytes, wordBytes, doubleWordBytes]
  case binary o _ _ _ => cases o <;> cases h
  case jump cond _ => cases cond <;> cases h
  all_goals cases h

/-- An instruction whose operands fit a byte each is encoded without a marker. -/
theorem width_of_fitsAt_narrow (h : i.FitsAt .narrow) : i.width = .narrow := by
  have hregs : i.registers.all (· ≤ 255) = true := by simpa using h.1 rfl
  cases i
  case loadInt dst v =>
    have hint : fits 8 v.toInt = true := h.2 dst v rfl
    simp [width, hregs, hint]
  all_goals simp only [width, hregs, if_true]

/-- An instruction whose operands fit a word each is not encoded with double words. -/
theorem width_of_fitsAt_wide (h : i.FitsAt .wide) : i.width ≠ .extraWide := by
  intro hwidth
  cases i
  case loadInt dst v =>
    have hint : fits 16 v.toInt = true := h.2 dst v rfl
    simp only [width, hint, if_true] at hwidth
    split at hwidth <;> cases hwidth
  all_goals simp only [width] at hwidth; split at hwidth <;> cases hwidth

/-- **The shortest encoding is the only one of its length.** An encoding that the decoder reads is the one
    of the assembler, or it is longer. -/
theorem encode_shortest (h : i.ReadAt w) :
    i.encodeWith w = i.encode ∨ i.encode.length < (i.encodeWith w).length := by
  cases w with
  | narrow => exact .inl (by rw [encode, width_of_fitsAt_narrow h.fits])
  | wide =>
    cases hw : i.width with
    | narrow => exact .inr (by rw [encode, hw]; exact length_narrow_lt_wide (h.wide rfl))
    | wide => exact .inl (by rw [encode, hw])
    | extraWide => exact absurd hw (width_of_fitsAt_wide h.fits)
  | extraWide =>
    have hop := h.extraWide rfl
    have hscalable : i.op.isScalable = true := by rw [hop]; rfl
    have hlong := length_wide_lt_extraWide hop
    cases hw : i.width with
    | narrow =>
      refine .inr ?_
      rw [encode, hw]
      exact Nat.lt_trans (length_narrow_lt_wide hscalable) hlong
    | wide => exact .inr (by rw [encode, hw]; exact hlong)
    | extraWide => exact .inl (by rw [encode, hw])

end Instruction

/-- A decoded instruction has taken bytes that are its encoding, or more bytes than its encoding has. -/
theorem decodeAt_encoded {code : Code} {pc next : Nat} {i : Instruction}
    (h : decodeAt code pc = .ok (i, next)) :
    ∃ bs, BytesAt code pc bs ∧ next = pc + bs.length ∧ (bs = i.encode ∨ i.encode.length < bs.length) := by
  obtain ⟨bs, hbs, hnext, w, hw, rfl⟩ := takes_marked code h
  exact ⟨_, hbs, hnext, Instruction.encode_shortest hw⟩

/-! ### Code assembled again -/

/-- The instructions among decoded items. -/
def instructionsOf (items : List DecodedItem) : List Instruction :=
  items.filterMap fun x => x.result.toOption

/-- The instructions of decoded code, in order. -/
def Decoded.instructions (d : Decoded) : List Instruction :=
  instructionsOf d.items.toList

/-- Assembles the instructions that some code decodes to. -/
def reassemble (code : Code) : Code :=
  assemble ((decodeAll code).instructions.map .emit)

/-- Assembled instructions are their encodings, one after the other. -/
theorem toList_assemble_emits (is : List Instruction) :
    (assemble (is.map .emit)).toList = is.flatMap Instruction.encode := by
  have hfold : ∀ a : Assembler, ((is.map Assembler.Call.emit).foldl Assembler.apply a).code.toList =
      a.code.toList ++ is.flatMap Instruction.encode := by
    induction is with
    | nil => simp
    | cons i rest ih =>
      intro a
      rw [List.map_cons, List.foldl_cons, ih, Assembler.apply, Assembler.toList_emit, List.append_assoc,
        List.flatMap_cons]
  simpa [assemble] using hfold {}

/-- The instructions among the items of some instructions are these. -/
theorem instructionsOf_itemsFrom (pos : Nat) (is : List Instruction) :
    instructionsOf (itemsFrom pos is) = is := by
  induction is generalizing pos with
  | nil => rfl
  | cons i rest ih => exact congrArg (i :: ·) (ih _)

/-- Assembled instructions are decoded to themselves. -/
theorem instructions_assemble_emits (is : List Instruction) :
    (decodeAll (assemble (is.map .emit))).instructions = is := by
  rw [decodeAll_encodes (toList_assemble_emits is), Decoded.instructions]
  exact instructionsOf_itemsFrom 0 is

/-- The instructions that fill some code are no longer than it when they are encoded, and if they are as
    long they are the code. -/
theorem Tiles.encodes_shortest {code : Code} {pos : Nat} {items : List DecodedItem}
    (h : Tiles code pos items) :
    (instructionsOf items).flatMap Instruction.encode = code.toList.drop pos ∨
      ((instructionsOf items).flatMap Instruction.encode).length < (code.toList.drop pos).length := by
  induction items generalizing pos with
  | nil =>
    obtain rfl : pos = code.size := h
    exact .inl (by simp [instructionsOf])
  | cons x rest ih =>
    obtain ⟨hlt, ⟨i, next, rfl, hdec, -, hrest⟩ | ⟨e, rfl, -, rfl⟩⟩ := h.cons_cases
    · obtain ⟨bs, ⟨back, hback⟩, rfl, hbs⟩ := decodeAt_encoded hdec
      have hdrop : code.toList.drop (pos + bs.length) = back := by
        rw [← List.drop_drop, ← hback, List.drop_left]
      have hinstructions : instructionsOf (⟨pos, .ok i⟩ :: rest) = i :: instructionsOf rest := rfl
      have hshort := ih hrest
      rw [hdrop] at hshort
      rw [hinstructions, List.flatMap_cons, ← hback]
      simp only [List.length_append]
      rcases hbs with rfl | hbs <;> rcases hshort with hshort | hshort
      · exact .inl (by rw [hshort])
      · exact .inr (by omega)
      · exact .inr (by rw [hshort]; omega)
      · exact .inr (by omega)
    · -- a malformed instruction is left out, and it stands in front of the end
      refine .inr ?_
      simp only [instructionsOf, List.filterMap_cons, Except.toOption, List.filterMap_nil, List.flatMap_nil,
        List.length_nil, List.length_drop, Array.length_toList]
      omega

/-- **The encoding of the assembler is the only shortest one.** An instruction that is decoded somewhere
    and emitted again is decoded to itself; it takes no more bytes than before, and if it takes as many,
    then the same. All the instructions that some code decodes to, assembled again, are decoded to
    themselves; their code is no longer than the code they were decoded from, and if it is as long, it is
    the same; and assembling them once more changes nothing. Jumps keep the offsets that they have. -/
theorem reassemble_shortest (code : Code) :
    (∀ pc i next, decodeAt code pc = .ok (i, next) → ∀ a : Assembler,
      decodeAt (a.emit i).code a.position = .ok (i, (a.emit i).position) ∧
      (a.emit i).position - a.position ≤ next - pc ∧
      ((a.emit i).position - a.position = next - pc →
        (a.emit i).code = a.code ++ code.extract pc next)) ∧
    (decodeAll (reassemble code)).instructions = (decodeAll code).instructions ∧
    (reassemble code).size ≤ code.size ∧
    ((reassemble code).size = code.size → reassemble code = code) ∧
    reassemble (reassemble code) = reassemble code := by
  refine ⟨fun pc i next hdec a => ?_, instructions_assemble_emits _, ?_⟩
  · obtain ⟨bs, ⟨back, hback⟩, rfl, hbs⟩ := decodeAt_encoded hdec
    have hcode := Assembler.toList_emit a i
    have hlength : (a.emit i).position - a.position = i.encode.length := by
      rw [Assembler.position_emit]
      omega
    have hstands : BytesAt (a.emit i).code a.position i.encode := by
      have hsplit : (a.emit i).code.toList = a.code.toList ++ (i.encode ++ []) := by simp [hcode]
      simpa [Assembler.position] using bytesAt_of_toList hsplit
    refine ⟨?_, ?_, fun hsame => ?_⟩
    · rw [decodeAt_encode hstands, Assembler.position_emit]
    · rw [hlength]
      rcases hbs with rfl | hbs <;> omega
    · rw [hlength] at hsame
      obtain rfl : bs = i.encode := hbs.resolve_right (by omega)
      apply Array.toList_inj.1
      rw [hcode, Array.toList_append, Array.toList_extract, List.extract_eq_take_drop, ← hback]
      simp
  · obtain ⟨items, h⟩ := exists_tiles code (Nat.zero_le _)
    have hdecoded : (decodeAll code).instructions = instructionsOf items := by
      have hlen : items.length ≤ code.size := by
        have := h.length_le
        omega
      rw [decodeAll, decodeFrom_tiles h hlen, Decoded.instructions]
      simp
    have hbytes : (reassemble code).toList = (instructionsOf items).flatMap Instruction.encode := by
      rw [reassemble, toList_assemble_emits, hdecoded]
    have hshort := h.encodes_shortest
    rw [List.drop_zero, ← hbytes, Array.length_toList, Array.length_toList] at hshort
    refine ⟨?_, fun hsize => ?_, ?_⟩
    · rcases hshort with hsame | hlt
      · exact Nat.le_of_eq (congrArg Array.size (Array.toList_inj.1 hsame))
      · exact Nat.le_of_lt hlt
    · exact Array.toList_inj.1 (hshort.resolve_right (by omega))
    · rw [reassemble, reassemble, instructions_assemble_emits]

/-- A copy with a marker that its registers do not need is shorter when it is emitted again, and without
    the marker it is emitted as the same bytes. -/
theorem reassemble_shortest_copy :
    (decodeAt #[0, 6, 1, 0, 2, 0] 0 = .ok (.copy 1 2, 6) ∧
      decodeAt (({} : Assembler).emit (.copy 1 2)).code 0 = .ok (.copy 1 2, 3) ∧
      (reassemble #[0, 6, 1, 0, 2, 0]).size ≤ 6) ∧
    decodeAt #[6, 1, 2] 0 = .ok (.copy 1 2, 3) ∧
      (({} : Assembler).emit (.copy 1 2)).code = #[6, 1, 2] ∧ reassemble #[6, 1, 2] = #[6, 1, 2] := by
  have hmarked := reassemble_shortest #[0, 6, 1, 0, 2, 0]
  have hshort := reassemble_shortest #[6, 1, 2]
  have hdecoded : decodeAt #[0, 6, 1, 0, 2, 0] 0 = .ok (.copy 1 2, 6) := rfl
  have hsame : decodeAt #[6, 1, 2] 0 = .ok (.copy 1 2, 3) := rfl
  refine ⟨⟨hdecoded, (hmarked.1 0 _ 6 hdecoded {}).1, hmarked.2.2.1⟩, hsame, ?_, hshort.2.2.2.1 rfl⟩
  exact (hshort.1 0 _ 3 hsame {}).2.2 rfl

end BlockMachine

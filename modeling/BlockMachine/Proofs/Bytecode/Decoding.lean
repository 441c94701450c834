import BlockMachine.Proofs.Bytecode.Encoding

namespace BlockMachine

/-!
# Decoding of arbitrary bytes

What decoding does on bytes that no encoder wrote.

* `Local` says that a cursor goes forward inside the code and looks only at the bytes it takes;
  every cursor of the decoder is local, so `decodeAt_local` holds of whole instructions;
* `nextItem` is one step of an iteration over the code, and `Iterates` a whole iteration;
* `Tiles` says that items stand one behind the other and fill the code, and `exists_tiles` that
  any code falls into such items;
* `decodeFrom_tiles` and `Tiles.iterates`: both traversals of the code find these items.
-/

/-! ### Cursors look at what they take -/

/-- Where a cursor succeeds it goes forward inside the code, and it succeeds alike on all code that has
    the bytes which it took. -/
def Local {α : Type} (r : Code → Cursor α) : Prop :=
  ∀ ⦃code pos a next⦄, r code pos = .ok (a, next) →
    pos ≤ next ∧ (pos < next → next ≤ code.size) ∧
      ∀ code' : Code, (∀ k, pos ≤ k → k < next → code'[k]? = code[k]?) →
        r code' pos = .ok (a, next)

namespace Local

variable {α β : Type} {r : Code → Cursor α}

/-- A cursor that takes nothing. -/
theorem pure (a : α) : Local fun _ => Pure.pure a := by
  intro code pos b next h
  obtain ⟨rfl, rfl⟩ := Prod.mk.inj (Except.ok.inj h)
  exact ⟨Nat.le_refl _, fun hlt => absurd hlt (Nat.lt_irrefl _), fun _ _ => rfl⟩

/-- A cursor that fails. -/
theorem throw (e : DecodeError) : Local fun _ => (MonadExcept.throw e : Cursor α) := by
  intro code pos b next h
  exact nomatch h

/-- A cursor that tells where it is. -/
theorem get : Local fun _ => (MonadState.get : Cursor Nat) := by
  intro code pos b next h
  obtain ⟨rfl, rfl⟩ := Prod.mk.inj (Except.ok.inj h)
  exact ⟨Nat.le_refl _, fun hlt => absurd hlt (Nat.lt_irrefl _), fun _ _ => rfl⟩

/-- Two cursors one after the other. -/
theorem bind {f : α → Code → Cursor β} (hr : Local r) (hf : ∀ a, Local (f a)) :
    Local fun code => r code >>= fun a => f a code := by
  intro code pos b next h
  change (r code pos >>= fun x => f x.1 code x.2) = _ at h
  cases hfirst : r code pos with
  | error e =>
    rw [hfirst] at h
    exact nomatch h
  | ok found =>
    obtain ⟨a, mid⟩ := found
    rw [hfirst] at h
    obtain ⟨hle, hend, hsame⟩ := hr hfirst
    obtain ⟨hle', hend', hsame'⟩ := hf a h
    refine ⟨Nat.le_trans hle hle', fun hlt => ?_, fun code' hagree => ?_⟩
    · -- the last of the two that took a byte tells where the code goes on
      by_cases hmid : mid < next
      · exact hend' hmid
      · have heq : next = mid := by omega
        exact heq ▸ hend (by omega)
    · have hfirst' := hsame code' fun k hk hlt => hagree k hk (by omega)
      have hrest := hsame' code' fun k hk hlt => hagree k (by omega) hlt
      show (r code' pos >>= fun x => f x.1 code' x.2) = _
      rw [hfirst']
      exact hrest

/-- What a cursor gives may be changed. -/
theorem map (f : α → β) (hr : Local r) : Local fun code => f <$> r code :=
  hr.bind fun a => .pure (f a)

end Local

/-- One byte is taken. -/
theorem local_byte : Local Cursor.byte := by
  intro code pos b next h
  unfold Cursor.byte at h
  cases hb : code[pos]? with
  | none => simp [hb] at h
  | some c =>
    simp only [hb, Except.ok.injEq, Prod.mk.injEq] at h
    obtain ⟨rfl, rfl⟩ := h
    obtain ⟨hlt, -⟩ := Array.getElem?_eq_some_iff.1 hb
    refine ⟨by omega, fun _ => hlt, fun code' hagree => ?_⟩
    simp [Cursor.byte, hagree pos (Nat.le_refl _) (by omega), hb]

/-- Two bytes are taken. -/
theorem local_word : Local Cursor.word := by
  intro code pos v next h
  unfold Cursor.word at h
  split at h
  next b0 b1 h0 h1 =>
    obtain ⟨rfl, rfl⟩ := Prod.mk.inj (Except.ok.inj h)
    obtain ⟨hlt, -⟩ := Array.getElem?_eq_some_iff.1 h1
    refine ⟨by omega, fun _ => hlt, fun code' hagree => ?_⟩
    simp [Cursor.word, hagree pos (by omega) (by omega), hagree (pos + 1) (by omega) (by omega), h0, h1]
  next => cases h

/-- Four bytes are taken. -/
theorem local_doubleWord : Local Cursor.doubleWord := by
  intro code pos v next h
  unfold Cursor.doubleWord at h
  split at h
  next b0 b1 b2 b3 h0 h1 h2 h3 =>
    obtain ⟨rfl, rfl⟩ := Prod.mk.inj (Except.ok.inj h)
    obtain ⟨hlt, -⟩ := Array.getElem?_eq_some_iff.1 h3
    refine ⟨by omega, fun _ => hlt, fun code' hagree => ?_⟩
    simp [Cursor.doubleWord, hagree pos (by omega) (by omega), hagree (pos + 1) (by omega) (by omega),
      hagree (pos + 2) (by omega) (by omega), hagree (pos + 3) (by omega) (by omega), h0, h1, h2, h3]
  next => cases h

/-- An opcode is read from the byte at its place. -/
theorem op_ok {code : Code} {pos next : Nat} {o : Op} (h : Cursor.op code pos = .ok (o, next)) :
    ∃ b, code[pos]? = some b ∧ Op.ofByte? b = some o ∧ next = pos + 1 := by
  unfold Cursor.op at h
  split at h
  next => exact nomatch h
  next b hb =>
    split at h
    next o' ho =>
      obtain ⟨rfl, rfl⟩ := Prod.mk.inj (Except.ok.inj h)
      exact ⟨b, hb, ho, rfl⟩
    next => exact nomatch h

/-- Reading an opcode takes its byte. -/
theorem local_op : Local Cursor.op := by
  intro code pos o next h
  obtain ⟨b, hb, ho, rfl⟩ := op_ok h
  obtain ⟨hlt, -⟩ := Array.getElem?_eq_some_iff.1 hb
  refine ⟨by omega, fun _ => hlt, fun code' hagree => ?_⟩
  simp [Cursor.op, hagree pos (Nat.le_refl _) (by omega), hb, ho]

/-- A register takes as many bytes as its width has. -/
theorem local_register (w : Width) : Local fun code => Cursor.register code w := by
  cases w with
  | narrow => exact local_byte.map UInt8.toUInt16
  | wide | extraWide => exact local_word

/-- An integer takes as many bytes as its width has. -/
theorem local_integer (w : Width) : Local fun code => Cursor.integer code w := by
  cases w with
  | narrow => exact local_byte.map fun b => b.toInt8.toInt32
  | wide => exact local_word.map fun v => v.toInt16.toInt32
  | extraWide => exact local_doubleWord.map UInt32.toInt32

/-- An offset takes two bytes. -/
theorem local_offset : Local Cursor.offset :=
  local_word.map UInt16.toInt16

/-- The operands of an instruction are taken one after the other. -/
theorem local_instruction (start : Nat) (w : Width) (o : Op) :
    Local fun code => Cursor.instruction code start w o := by
  have reg := local_register w
  cases o
  case wide | extraWide => exact .throw _
  case retainFrame | pause | ret => exact .pure _
  case setNull | setEmptyList | increment | varargsToList => exact reg.bind fun _ => .pure _
  case growFrame | native => exact local_word.bind fun _ => .pure _
  case copy | move | swap | append | length => exact reg.bind fun _ => reg.bind fun _ => .pure _
  case loadConst | getState => exact reg.bind fun _ => local_word.bind fun _ => .pure _
  case loadInt => exact reg.bind fun _ => (local_integer w).bind fun _ => .pure _
  case saveState => exact local_word.bind fun _ => reg.bind fun _ => .pure _
  case splatBindings => exact reg.bind fun _ => local_byte.bind fun _ => .pure _
  case getIndex | setIndex | callFuncApply | addInt | subInt | mulInt | divInt | addFloat | subFloat
      | mulFloat | divFloat | equals | lessThan =>
    exact reg.bind fun _ => reg.bind fun _ => reg.bind fun _ => .pure _
  case cast => exact reg.bind fun _ => reg.bind fun _ => local_word.bind fun _ => .pure _
  case jump => exact local_offset.bind fun _ => .pure _
  case jumpIf | jumpIfNot => exact reg.bind fun _ => local_offset.bind fun _ => .pure _
  case jumpIfDone => exact reg.bind fun _ => reg.bind fun _ => local_offset.bind fun _ => .pure _
  case callFunc => exact reg.bind fun _ => local_byte.bind fun _ => reg.bind fun _ => .pure _
  case call =>
    exact local_word.bind fun _ => reg.bind fun _ => local_byte.bind fun _ => reg.bind fun _ => .pure _
  case callKeyed =>
    exact local_word.bind fun _ => reg.bind fun _ => local_byte.bind fun _ => reg.bind fun _ =>
      reg.bind fun _ => .pure _
  case callMethod =>
    exact local_word.bind fun _ => reg.bind fun _ => local_byte.bind fun _ => reg.bind fun _ =>
      local_word.bind fun _ => .pure _
  case makeFunc =>
    exact reg.bind fun _ => local_word.bind fun _ => reg.bind fun _ => local_byte.bind fun _ => .pure _

/-- What is read behind the first opcode of an instruction. -/
def Cursor.afterOp (start : Nat) (o : Op) (code : Code) : Cursor Instruction :=
  match o with
  | .wide => do
    let o ← op code
    if o.isScalable then instruction code start .wide o else throw (.invalidMarker o start)
  | .extraWide => do
    let o ← op code
    if o = .loadInt then instruction code start .extraWide o else throw (.invalidMarker o start)
  | o => instruction code start .narrow o

/-- An instruction begins with an opcode, which may be a marker for what follows. -/
theorem Cursor.marked_eq (code : Code) :
    marked code = get >>= fun start => op code >>= fun o => afterOp start o code := by
  rfl

/-- What is read behind that opcode is local. -/
theorem local_afterOp (start : Nat) (o : Op) : Local fun code => Cursor.afterOp start o code := by
  by_cases hwide : o = .wide
  · subst hwide
    refine local_op.bind fun o => ?_
    by_cases ho : o.isScalable
    · simpa only [if_pos ho] using local_instruction start .wide o
    · simpa only [if_neg ho] using .throw _
  by_cases hextra : o = .extraWide
  · subst hextra
    refine local_op.bind fun o => ?_
    by_cases ho : o = .loadInt
    · simpa only [if_pos ho] using local_instruction start .extraWide o
    · simpa only [if_neg ho] using .throw _
  have hnarrow : (fun code => Cursor.afterOp start o code) =
      fun code => Cursor.instruction code start .narrow o := by
    cases o <;> first | rfl | contradiction
  exact hnarrow ▸ local_instruction start .narrow o

/-- An instruction takes at least one byte and none behind the end of the code, and it is decoded
    alike from all code that has these bytes. -/
theorem decodeAt_local {code : Code} {pc next : Nat} {i : Instruction}
    (h : decodeAt code pc = .ok (i, next)) :
    pc < next ∧ next ≤ code.size ∧
      ∀ code' : Code, (∀ k, pc ≤ k → k < next → code'[k]? = code[k]?) →
        decodeAt code' pc = .ok (i, next) := by
  have hlocal : Local Cursor.marked := by
    rw [show Cursor.marked = _ from funext Cursor.marked_eq]
    exact Local.get.bind fun start => local_op.bind fun o => local_afterOp start o
  obtain ⟨-, hend, hsame⟩ := hlocal h
  have hlt : pc < next := by
    rw [decodeAt, Cursor.marked_eq] at h
    change (Cursor.op code pc >>= fun x => Cursor.afterOp pc x.1 code x.2) = _ at h
    cases hop : Cursor.op code pc with
    | error e =>
      rw [hop] at h
      exact nomatch h
    | ok found =>
      obtain ⟨o, mid⟩ := found
      rw [hop] at h
      obtain ⟨-, -, -, rfl⟩ := op_ok hop
      exact (local_afterOp pc o h).1
  exact ⟨hlt, hend hlt, hsame⟩

/-! ### Items that fill the code -/

/-- The items fill the code from `pos` on: each is what stands where the one before it ends, and the
    last one either ends with the code or is malformed. -/
def Tiles (code : Code) (pos : Nat) : List DecodedItem → Prop
  | [] => pos = code.size
  | x :: rest =>
    x.offset = pos ∧ pos < code.size ∧
      match x.result with
      | .ok i => ∃ next, decodeAt code pos = .ok (i, next) ∧ pos < next ∧ Tiles code next rest
      | .error e => decodeAt code pos = .error e ∧ rest = []

/-- **Any code falls into items**, from any of its offsets on. -/
theorem exists_tiles (code : Code) {pos : Nat} (h : pos ≤ code.size) : ∃ items, Tiles code pos items := by
  -- each instruction takes a byte, so the code behind it is shorter
  induction hlen : code.size - pos using Nat.strongRecOn generalizing pos with
  | ind len ih =>
    by_cases hpos : pos = code.size
    · exact ⟨[], hpos⟩
    have hlt : pos < code.size := by omega
    cases hdec : decodeAt code pos with
    | error e => exact ⟨[⟨pos, .error e⟩], rfl, hlt, hdec, rfl⟩
    | ok found =>
      obtain ⟨i, next⟩ := found
      obtain ⟨hnext, hend, -⟩ := decodeAt_local hdec
      obtain ⟨rest, hrest⟩ := ih (code.size - next) (by omega) hend rfl
      exact ⟨⟨pos, .ok i⟩ :: rest, rfl, hlt, next, hdec, hnext, hrest⟩

namespace Tiles

variable {code : Code} {pos : Nat} {items : List DecodedItem}

/-- An item in the code and all that stands behind it. -/
theorem cons_cases {x : DecodedItem} {rest : List DecodedItem} (h : Tiles code pos (x :: rest)) :
    pos < code.size ∧
      ((∃ i next, x = ⟨pos, .ok i⟩ ∧ decodeAt code pos = .ok (i, next) ∧ pos < next ∧
          Tiles code next rest) ∨
        ∃ e, x = ⟨pos, .error e⟩ ∧ decodeAt code pos = .error e ∧ rest = []) := by
  obtain ⟨offset, result⟩ := x
  obtain ⟨rfl, hlt, h⟩ := h
  cases result with
  | ok i =>
    obtain ⟨next, hdec, hnext, hrest⟩ := h
    exact ⟨hlt, .inl ⟨i, next, rfl, hdec, hnext, hrest⟩⟩
  | error e => exact ⟨hlt, .inr ⟨e, rfl, h⟩⟩

/-- There are no more items than bytes. -/
theorem length_le (h : Tiles code pos items) : pos + items.length ≤ code.size := by
  induction items generalizing pos with
  | nil => exact Nat.le_of_eq h
  | cons x rest ih =>
    obtain ⟨hlt, ⟨i, next, -, -, hnext, hrest⟩ | ⟨e, -, -, rfl⟩⟩ := h.cons_cases
    · have := ih hrest
      simp only [List.length_cons]
      omega
    · exact hlt

end Tiles

/-- Decoding finds the items that fill the code, and stops at its end. -/
theorem decodeFrom_tiles {code : Code} {pos fuel : Nat} {items : List DecodedItem}
    (h : Tiles code pos items) (hfuel : items.length ≤ fuel) (acc : Array DecodedItem) :
    decodeFrom code fuel pos acc = ⟨acc ++ items.toArray, code.size⟩ := by
  induction items generalizing pos fuel acc with
  | nil =>
    obtain rfl : pos = code.size := h
    cases fuel <;> simp [decodeFrom]
  | cons x rest ih =>
    obtain ⟨fuel, rfl⟩ : ∃ n, fuel = n + 1 := ⟨fuel - 1, by simp at hfuel; omega⟩
    obtain ⟨hlt, ⟨i, next, rfl, hdec, -, hrest⟩ | ⟨e, rfl, hdec, rfl⟩⟩ := h.cons_cases
    · rw [decodeFrom, if_neg (Nat.not_le.2 hlt), hdec]
      dsimp only
      rw [ih hrest (by simpa using hfuel)]
      simp
    · rw [decodeFrom, if_neg (Nat.not_le.2 hlt), hdec]
      simp

end BlockMachine

import BlockMachine.Bytecode.Assembler
import BlockMachine.Proofs.Bytecode.Encoding

namespace BlockMachine

/-!
# Assembled code decodes to the calls that made it

Whatever calls an assembler is given, its code decodes without error to one instruction for each
call that emits one.

* `Assembler.listing` is the list of instructions that a sequence of calls stands for, each with
  the offset at which it was emitted;
* `Assembler.Piece` is an emitted instruction with the label it still waits for; binding a label
  rewrites pieces (`Assembler.bindPieces`), and the code is always the encoding of the pieces
  (`Assembler.Holds`);
* `decodeAll_assemble` is the round trip.
-/

namespace Assembler

/-! ### What a sequence of calls stands for -/

/-- The position at which a label is bound next by the calls that follow. -/
def boundAt (label : String) (a : Assembler) : List Call → Option Nat
  | [] => none
  | c :: rest =>
    match c with
    | .bind l => if l = label then some a.position else boundAt label (a.apply c) rest
    | c => boundAt label (a.apply c) rest

/-- The offset operand of a jump that ends at `base` and waits for a label: zero if the calls
    that follow never bind it. -/
def offsetTo (label : String) (base : Nat) (a : Assembler) (rest : List Call) : Int16 :=
  match boundAt label a rest with
  | some target => jumpOffset base target
  | none => 0

/-- The instruction that a call emits, seen from the end of all calls. -/
def instruction? (a : Assembler) (rest : List Call) : Call → Option Instruction
  | .emit i => some i
  | .jump cond label =>
    let b := a.jump cond label
    some (.jump cond (offsetTo label b.position b rest))
  | .jumpBack cond target =>
    some (.jump cond (jumpOffset (a.jumpBack cond target).position (a.resolve target)))
  | .bind _ => none
  | .mark _ => none

/-- The instructions that a sequence of calls emits, each with the position of the assembler
    when its call was made. -/
def listing (a : Assembler) : List Call → List (Nat × Instruction)
  | [] => []
  | c :: rest =>
    ((instruction? a rest c).map fun i => (a.position, i)).toList ++ listing (a.apply c) rest

/-! ### The bytes of a jump -/

/-- The bytes of a jump in front of its offset, which do not depend on the offset. -/
def jumpFront (cond : Condition) : List UInt8 :=
  let w := (Instruction.jump cond 0).width
  w.marker ++ cond.op.toByte :: cond.bytes w

/-- A jump ends with the two bytes of its offset. -/
theorem encode_jump (cond : Condition) (off : Int16) :
    (Instruction.jump cond off).encode = jumpFront cond ++ wordBytes off.toUInt16 := by
  have hw : (Instruction.jump cond off).width = (Instruction.jump cond 0).width := rfl
  simp [Instruction.encode, Instruction.encodeWith, Instruction.op, Instruction.operandBytes,
    jumpFront, hw]

/-- The length of a jump does not depend on its offset. -/
theorem length_encode_jump (cond : Condition) (off off' : Int16) :
    (Instruction.jump cond off).encode.length = (Instruction.jump cond off').encode.length := by
  simp [encode_jump, wordBytes]

/-- Patching a jump replaces its offset and nothing else. -/
theorem patch_jump {code : Code} {front back : List UInt8} {cond : Condition} {old : Int16}
    (off : Int16) (h : code.toList = front ++ ((Instruction.jump cond old).encode ++ back)) :
    (patch code (front.length + (Instruction.jump cond old).encode.length) off).toList =
      front ++ ((Instruction.jump cond off).encode ++ back) := by
  have hsplit : code.toList = (front ++ jumpFront cond) ++
      old.toUInt16.toUInt8 :: (old.toUInt16 >>> 8).toUInt8 :: back := by
    simp [h, encode_jump, wordBytes]
  -- The offset is the last word of the jump, so the two bytes that `patch` sets stand right behind
  -- the front and the bytes that do not depend on the offset.
  have hlen : front.length + (Instruction.jump cond old).encode.length - 2 =
      (front ++ jumpFront cond).length := by
    simp [encode_jump, wordBytes]
    omega
  have hlen' : front.length + (Instruction.jump cond old).encode.length - 1 =
      (front ++ jumpFront cond).length + 1 := by
    simp [encode_jump, wordBytes]
    omega
  rw [patch, Array.toList_setIfInBounds, Array.toList_setIfInBounds, hlen, hlen', hsplit,
    List.set_append_right _ _ (Nat.le_refl _), List.set_append_right _ _ (Nat.le_succ _)]
  simp [encode_jump, wordBytes]

/-! ### Pieces of code -/

/-- An emitted instruction, and the label that it still waits for. -/
structure Piece where
  instr : Instruction
  label : Option String := none

/-- The bytes of a list of pieces. -/
def pieceBytes (ps : List Piece) : List UInt8 :=
  ps.flatMap fun p => p.instr.encode

/-- The pieces that wait for a label, each by the position where it ends, the last one first. -/
def waiting (pos : Nat) : List Piece → List (String × Nat)
  | [] => []
  | p :: ps =>
    let base := pos + p.instr.encode.length
    waiting base ps ++ (p.label.map fun l => (l, base)).toList

/-- A jump with another offset; other instructions have none. -/
def withOffset (off : Int16) : Instruction → Instruction
  | .jump cond _ => .jump cond off
  | i => i

/-- The pieces after `label` was bound to `target`. -/
def bindPieces (label : String) (target pos : Nat) : List Piece → List Piece
  | [] => []
  | p :: ps =>
    let base := pos + p.instr.encode.length
    (if p.label = some label then ⟨withOffset (jumpOffset base target) p.instr, none⟩ else p) ::
      bindPieces label target base ps

/-- Every piece that waits for a label is a jump with offset zero. -/
def JumpsWait (ps : List Piece) : Prop :=
  ∀ p ∈ ps, p.label.isSome → ∃ cond, p.instr = .jump cond 0

/-- Another offset makes no jump longer or shorter. -/
theorem length_encode_withOffset (off : Int16) (i : Instruction) :
    (withOffset off i).encode.length = i.encode.length := by
  cases i with
  | jump cond old => exact length_encode_jump cond off old
  | _ => rfl

/-- The jumps that wait in some pieces are those of both parts. -/
theorem waiting_append (pos : Nat) (ps qs : List Piece) :
    waiting pos (ps ++ qs) = waiting (pos + (pieceBytes ps).length) qs ++ waiting pos ps := by
  induction ps generalizing pos with
  | nil => simp [waiting, pieceBytes]
  | cons p ps ih =>
    simp only [List.cons_append, waiting, ih, pieceBytes, List.flatMap_cons, List.length_append,
      List.append_assoc, Nat.add_assoc]

/-- Binding a label takes exactly its own jumps off the list of those that wait. -/
theorem waiting_bindPieces (label : String) (target pos : Nat) (ps : List Piece) :
    waiting pos (bindPieces label target pos ps) =
      (waiting pos ps).filter fun e => !(e.1 == label) := by
  induction ps generalizing pos with
  | nil => rfl
  | cons p ps ih =>
    rw [bindPieces, waiting, waiting, List.filter_append]
    by_cases h : p.label = some label
    · simp [h, length_encode_withOffset, ih]
    · cases hl : p.label with
      | none => simp [hl, ih]
      | some l =>
        have hne : ¬ l = label := fun e => h (by rw [hl, e])
        simp [hl, hne, ih]

/-- Writes the distance to `target` into every jump of a list. -/
def patchAll (target : Nat) (code : Code) (jumps : List (String × Nat)) : Code :=
  jumps.foldl (fun code (_, base) => patch code base (jumpOffset base target)) code

/-- Jumps are patched one list after the other. -/
theorem patchAll_append (target : Nat) (code : Code) (js ks : List (String × Nat)) :
    patchAll target code (js ++ ks) = patchAll target (patchAll target code js) ks :=
  List.foldl_append

/-- Patching all jumps that wait for a label rewrites their pieces and no other byte. -/
theorem patchAll_waiting {label : String} {target : Nat} {ps : List Piece} {code : Code}
    {front back : List UInt8} (hjumps : JumpsWait ps)
    (hcode : code.toList = front ++ (pieceBytes ps ++ back)) :
    (patchAll target code ((waiting front.length ps).filter (·.1 == label))).toList =
      front ++ (pieceBytes (bindPieces label target front.length ps) ++ back) := by
  -- The last jump is patched first, so the front grows with the pieces that are left.
  induction ps generalizing front with
  | nil => simpa [waiting, patchAll, bindPieces] using hcode
  | cons p ps ih =>
    have hjumps' : JumpsWait ps := fun q hq => hjumps q (List.mem_cons_of_mem p hq)
    have hcode' : code.toList = (front ++ p.instr.encode) ++ (pieceBytes ps ++ back) := by
      simpa [pieceBytes] using hcode
    have hrest := ih hjumps' hcode'
    rw [List.length_append] at hrest
    rw [waiting, bindPieces, List.filter_append, patchAll_append]
    by_cases h : p.label = some label
    · -- this piece is patched last, in code whose other pieces are already rewritten
      obtain ⟨cond, hinstr⟩ := hjumps p (List.mem_cons_self ..) (by simp [h])
      rw [hinstr] at hrest ⊢
      rw [List.append_assoc] at hrest
      have hpatch := patch_jump
        (jumpOffset (front.length + (Instruction.jump cond 0).encode.length) target) hrest
      simpa [h, withOffset, pieceBytes, patchAll] using hpatch
    · have hnone : (p.label.map fun l =>
          (l, front.length + p.instr.encode.length)).toList.filter (·.1 == label) = [] := by
        cases hl : p.label with
        | none => rfl
        | some l =>
          have hne : ¬ l = label := fun e => h (by rw [hl, e])
          simp [hne]
      rw [hnone, if_neg h]
      simpa [pieceBytes, patchAll] using hrest

/-- Binding a label leaves it to jumps to wait for others. -/
theorem jumpsWait_bindPieces {label : String} {target pos : Nat} {ps : List Piece}
    (h : JumpsWait ps) : JumpsWait (bindPieces label target pos ps) := by
  induction ps generalizing pos with
  | nil => exact h
  | cons p ps ih =>
    intro q hq hlabel
    rcases List.mem_cons.1 hq with rfl | hq
    · by_cases hp : p.label = some label
      · -- a piece that was bound waits no more
        simp [hp] at hlabel
      · rw [if_neg hp] at hlabel ⊢
        exact h p (List.mem_cons_self ..) hlabel
    · exact ih (fun r hr => h r (List.mem_cons_of_mem p hr)) q hq hlabel

/-! ### The pieces behind an assembler -/

/-- An instruction is encoded behind the code so far. -/
theorem toList_emit (a : Assembler) (i : Instruction) :
    (a.emit i).code.toList = a.code.toList ++ i.encode := by
  simp [emit]

/-- The position goes on by the length of its encoding. -/
theorem position_emit (a : Assembler) (i : Instruction) :
    (a.emit i).position = a.position + i.encode.length := by
  rw [position, ← Array.length_toList, toList_emit, List.length_append, Array.length_toList,
    position]

/-- The code of an assembler is the encoding of some pieces, and its open jumps are those pieces
    that wait for a label. -/
structure Holds (a : Assembler) (ps : List Piece) : Prop where
  code : a.code.toList = pieceBytes ps
  pending : a.pending = waiting 0 ps
  jumps : JumpsWait ps

namespace Holds

variable {a : Assembler} {ps : List Piece}

/-- The position is the number of bytes of the pieces. -/
theorem position (h : a.Holds ps) : a.position = (pieceBytes ps).length := by
  rw [Assembler.position, ← Array.length_toList, h.code]

/-- An instruction is one more piece, which waits for nothing. -/
theorem emit (h : a.Holds ps) (i : Instruction) : (a.emit i).Holds (ps ++ [⟨i, none⟩]) where
  code := by simp [toList_emit, h.code, pieceBytes]
  pending := by simp [Assembler.emit, waiting_append, waiting, h.pending]
  jumps := by
    intro p hp hlabel
    rcases List.mem_append.1 hp with hp | hp
    · exact h.jumps p hp hlabel
    · simp [List.mem_singleton.1 hp] at hlabel

/-- A jump is one more piece, which waits for its label. -/
theorem jump (h : a.Holds ps) (cond : Condition) (label : String) :
    (a.jump cond label).Holds (ps ++ [⟨.jump cond 0, some label⟩]) where
  code := by simp [Assembler.jump, toList_emit, h.code, pieceBytes]
  pending := by
    have hpos : (a.emit (.jump cond 0)).position =
        (pieceBytes ps).length + (Instruction.jump cond 0).encode.length := by
      rw [Assembler.position, ← Array.length_toList, toList_emit, List.length_append, h.code]
    simp only [Assembler.jump, waiting_append, waiting, hpos]
    simp [Assembler.emit, h.pending]
  jumps := by
    intro p hp hlabel
    rcases List.mem_append.1 hp with hp | hp
    · exact h.jumps p hp hlabel
    · exact ⟨cond, by rw [List.mem_singleton.1 hp]⟩

/-- A label that is bound settles the pieces that wait for it. -/
theorem bind (h : a.Holds ps) (label : String) :
    (a.bind label).Holds (bindPieces label a.position 0 ps) where
  code := by
    have hcode : a.code.toList = [] ++ (pieceBytes ps ++ []) := by simp [h.code]
    have hpatch := @patchAll_waiting label a.position ps a.code [] [] h.jumps hcode
    simpa [Assembler.bind, h.pending, List.partition_eq_filter_filter, patchAll] using hpatch
  pending := by
    simp [Assembler.bind, h.pending, List.partition_eq_filter_filter, waiting_bindPieces]
    rfl
  jumps := jumpsWait_bindPieces h.jumps

/-- A mark leaves the code alone. -/
theorem mark (h : a.Holds ps) (name : String) : (a.mark name).Holds ps :=
  ⟨h.code, h.pending, h.jumps⟩

end Holds

/-! ### From pieces to the listing -/

/-- What a piece that ends at `base` becomes once all remaining calls are made. -/
def settle (a : Assembler) (rest : List Call) (base : Nat) (p : Piece) : Instruction :=
  match p.label with
  | none => p.instr
  | some l => withOffset (offsetTo l base a rest) p.instr

/-- What pieces become once all remaining calls are made. -/
def settleAll (a : Assembler) (rest : List Call) (pos : Nat) : List Piece → List Instruction
  | [] => []
  | p :: ps =>
    let base := pos + p.instr.encode.length
    settle a rest base p :: settleAll a rest base ps

/-- Pieces are settled part by part. -/
theorem settleAll_append (a : Assembler) (rest : List Call) (pos : Nat) (ps qs : List Piece) :
    settleAll a rest pos (ps ++ qs) =
      settleAll a rest pos ps ++ settleAll a rest (pos + (pieceBytes ps).length) qs := by
  induction ps generalizing pos with
  | nil => simp [settleAll, pieceBytes]
  | cons p ps ih =>
    simp only [List.cons_append, settleAll, ih, pieceBytes, List.flatMap_cons, List.length_append,
      Nat.add_assoc]

/-- Calls that bind no label leave the fate of the pieces as it is. -/
theorem settleAll_skip {a : Assembler} {c : Call} (hc : ∀ l, c ≠ .bind l) (rest : List Call)
    (pos : Nat) (ps : List Piece) :
    settleAll a (c :: rest) pos ps = settleAll (a.apply c) rest pos ps := by
  have hbound : ∀ l, boundAt l a (c :: rest) = boundAt l (a.apply c) rest := by
    intro l
    cases c with
    | bind l' => exact absurd rfl (hc l')
    | _ => rfl
  induction ps generalizing pos with
  | nil => rfl
  | cons p ps ih => simp only [settleAll, settle, offsetTo, hbound, ih]

/-- Binding a label settles the pieces that wait for it. -/
theorem settleAll_bind (a : Assembler) (label : String) (rest : List Call) (pos : Nat)
    (ps : List Piece) :
    settleAll a (.bind label :: rest) pos ps =
      settleAll (a.bind label) rest pos (bindPieces label a.position pos ps) := by
  induction ps generalizing pos with
  | nil => rfl
  | cons p ps ih =>
    simp only [settleAll, bindPieces, ih]
    by_cases h : p.label = some label
    · simp [h, settle, offsetTo, boundAt, length_encode_withOffset]
    · simp only [if_neg h]
      cases hl : p.label with
      | none => simp [settle, hl]
      | some l =>
        have hne : ¬ label = l := fun e => h (by rw [hl, e])
        simp [settle, hl, offsetTo, boundAt, hne, apply]

/-- Pieces that no call follows stay as they are. -/
theorem settleAll_nil {a : Assembler} {pos : Nat} {ps : List Piece} (h : JumpsWait ps) :
    settleAll a [] pos ps = ps.map (·.instr) := by
  induction ps generalizing pos with
  | nil => rfl
  | cons p ps ih =>
    have hp : settle a [] (pos + p.instr.encode.length) p = p.instr := by
      cases hl : p.label with
      | none => simp [settle, hl]
      | some l =>
        obtain ⟨cond, hinstr⟩ := h p (List.mem_cons_self ..) (by simp [hl])
        simp [settle, hl, offsetTo, boundAt, withOffset, hinstr]
    simp [settleAll, hp, ih fun q hq => h q (List.mem_cons_of_mem p hq)]

/-- A backward jump is an instruction whose distance is known at once. -/
theorem jumpBack_eq_emit (a : Assembler) (cond : Condition) (target : Target) :
    a.jumpBack cond target =
      a.emit (.jump cond (jumpOffset (a.jumpBack cond target).position (a.resolve target))) := by
  have hpos : (a.jumpBack cond target).position =
      a.position + (Instruction.jump cond 0).encode.length := by
    rw [jumpBack, position_emit, length_encode_jump cond _ 0]
  rw [hpos]
  rfl

/-- Once all calls are made, the code is the encoding of the settled pieces and of what the calls
    emitted. -/
theorem code_foldl_apply {a : Assembler} {ps : List Piece} (calls : List Call) (h : a.Holds ps) :
    (calls.foldl apply a).code.toList =
      (settleAll a calls 0 ps ++ (listing a calls).map (·.2)).flatMap Instruction.encode := by
  -- The pieces so far are settled by the calls that are left, so every call either adds a piece,
  -- rewrites some, or leaves them alone.
  induction calls generalizing a ps with
  | nil => simp [settleAll_nil h.jumps, listing, h.code, pieceBytes, List.flatMap_map]
  | cons c rest ih =>
    rw [List.foldl_cons, listing]
    cases c with
    | emit i =>
      have hcode := ih (h.emit i)
      rw [settleAll_append] at hcode
      rw [settleAll_skip (by simp)]
      simpa [instruction?, apply, settleAll, settle] using hcode
    | jump cond label =>
      have hcode := ih (h.jump cond label)
      have hpos := (h.jump cond label).position
      rw [settleAll_append] at hcode
      rw [settleAll_skip (by simp)]
      simp only [pieceBytes, List.flatMap_append, List.length_append] at hpos hcode
      simpa [instruction?, apply, settleAll, settle, withOffset, hpos] using hcode
    | jumpBack cond target =>
      -- its distance is known at once: the piece waits for no label
      have hcode := ih (h.emit (.jump cond
        (jumpOffset (a.jumpBack cond target).position (a.resolve target))))
      rw [settleAll_append, ← jumpBack_eq_emit] at hcode
      rw [settleAll_skip (by simp)]
      simpa [instruction?, apply, settleAll, settle] using hcode
    | bind label =>
      rw [settleAll_bind]
      simpa [instruction?, apply] using ih (h.bind label)
    | mark name =>
      rw [settleAll_skip (by simp)]
      simpa [instruction?, apply] using ih (h.mark name)

/-- Patching jumps makes the code no longer or shorter. -/
theorem size_patchAll (target : Nat) (code : Code) (jumps : List (String × Nat)) :
    (patchAll target code jumps).size = code.size := by
  induction jumps generalizing code with
  | nil => rfl
  | cons j js ih => simpa [patchAll, patch] using ih (patch code j.2 (jumpOffset j.2 target))

/-- A call moves the position by the length of what it emits. -/
theorem position_apply (a : Assembler) (rest : List Call) (c : Call) :
    (a.apply c).position =
      a.position + ((instruction? a rest c).toList.flatMap Instruction.encode).length := by
  cases c with
  | emit i => simp [apply, instruction?, position_emit]
  | jump cond label =>
    rw [instruction?, Option.toList_some, List.flatMap_singleton, length_encode_jump cond _ 0]
    exact position_emit a (.jump cond 0)
  | jumpBack cond target =>
    rw [apply, jumpBack_eq_emit, position_emit]
    simp [instruction?]
  | bind label => exact size_patchAll a.position a.code _
  | mark name => rfl

/-- Every listed instruction starts where the one before it ends. -/
theorem itemsFrom_listing (a : Assembler) (calls : List Call) :
    itemsFrom a.position ((listing a calls).map (·.2)) =
      (listing a calls).map fun e => ⟨e.1, .ok e.2⟩ := by
  induction calls generalizing a with
  | nil => rfl
  | cons c rest ih =>
    have hpos := a.position_apply rest c
    have hrest := ih (a.apply c)
    rw [hpos] at hrest
    rw [listing]
    -- a call that emits nothing leaves the position where it was
    cases hi : instruction? a rest c with
    | none => simpa [hi] using hrest
    | some i => simpa [hi, itemsFrom] using hrest

end Assembler

/-- **Round trip.** Code assembled by any sequence of calls decodes without error to exactly one
    instruction for each call that emits one, in order and at the position where the call was
    made, and the decoder stops at the end of the code. -/
theorem decodeAll_assemble (calls : List Assembler.Call) :
    decodeAll (assemble calls) =
      ⟨((Assembler.listing {} calls).map fun e => ⟨e.1, .ok e.2⟩).toArray,
        (assemble calls).size⟩ := by
  have hempty : Assembler.Holds {} [] := ⟨rfl, rfl, by simp [Assembler.JumpsWait]⟩
  have hcode : (assemble calls).toList =
      ((Assembler.listing {} calls).map (·.2)).flatMap Instruction.encode :=
    Assembler.code_foldl_apply calls hempty
  have hitems := Assembler.itemsFrom_listing {} calls
  rw [show Assembler.position {} = 0 from rfl] at hitems
  rw [decodeAll_encodes hcode, hitems]

end BlockMachine

import BlockMachine.Machine.Step
import BlockMachine.Proofs.Bytecode.Assembly
import BlockMachine.Proofs.Failing
import BlockMachine.Proofs.Machine.Frames
import BlockMachine.Sharing.Plain

namespace BlockMachine

/-!
# Constants of a program

A value that is loaded goes into the instruction itself, or into the constant pool. The pool holds a value
once: one of the same kind that equals it is used in its place, and equality does not look at everything. Signs
of zeros, integers among floats inside of containers and the order of maps can get lost that way.

* `Entering` is a call that enters a value, `Draft.entered` is what stands for the value afterwards;
* `Instruction.Loads` says what an instruction leaves, `Machine.step_loads` that it does so;
* `Draft.load_entered` is about sequences of calls and the finished program.
-/

/-! ### Instructions that load -/

/-- A small integer survives in the operand of an instruction. -/
theorem integer_kept {i : Int64} (h : Instruction.fits 32 i.toInt = true) : i.toInt32.toInt64 = i := by
  obtain ⟨hlow, hhigh⟩ : -2147483648 ≤ i.toInt ∧ i.toInt < 2147483648 := by
    simpa [Instruction.fits, Int.pow] using h
  apply Int64.toInt.inj
  rw [Int32.toInt_toInt64, Int64.toInt_toInt32]
  exact Int.bmod_eq_of_le (by omega) (by omega)

/-- An instruction leaves a value in a register, given the constants of its program. -/
inductive Instruction.Loads (constants : Array Value) (dst : Reg) : Instruction → Value → Prop where
  | null : Loads constants dst (.setNull dst) .null
  | int (n : Int32) : Loads constants dst (.loadInt dst n) (.int n.toInt64)
  | constant {index : UInt16} {v : Value} (h : constants[index.toNat]? = some v) :
    Loads constants dst (.loadConst dst index) v

/-- More constants do not matter. -/
theorem Instruction.Loads.mono {constants constants' : Array Value} {dst : Reg} {i : Instruction} {v : Value}
    (h : i.Loads constants dst v) (hmore : constants.toList <+: constants'.toList) :
    i.Loads constants' dst v := by
  cases h with
  | null => exact .null
  | int n => exact .int n
  | constant hv =>
    obtain ⟨fresh, hmore⟩ := hmore
    rw [← Array.getElem?_toList] at hv
    refine .constant ?_
    rw [← Array.getElem?_toList, ← hmore,
      List.getElem?_append_left (List.getElem?_eq_some_iff.1 hv).1]
    exact hv

namespace Machine

variable {m : Machine} {f : Frame} {rest : List Frame}

/-- Setting a register of the active frame changes that register, and fails only beyond the last one. -/
theorem setRegister_apply (hframes : m.stack.frames = f :: rest) {dst : Reg}
    (hdst : dst.toNat < f.registers.size) (v : Value) :
    setRegister dst v m =
      (.ok (), m.withFrames ({ f with registers := f.registers.setIfInBounds dst.toNat v } :: rest)) := by
  rw [setRegister, Failing.bind_apply, active_apply hframes]
  simp only [if_pos hdst]
  exact setActive_apply hframes _

/-- **Such an instruction does leave the value**, and changes nothing else. -/
theorem step_loads {host : Embedder} {resume : Action Outcome} {program : Program} {next : Nat} {dst : Reg}
    {i : Instruction} {v : Value} (h : i.Loads program.constants dst v)
    (hframes : m.stack.frames = f :: rest) (hdst : dst.toNat < f.registers.size) :
    step host resume program next i m = (.ok .next,
      m.withFrames ({ f with registers := f.registers.setIfInBounds dst.toNat v } :: rest)) := by
  have hset : ∀ v, (do setRegister dst v; return Flow.next : Action Flow) m = _ := fun v => by
    rw [Failing.bind_apply, setRegister_apply hframes hdst v]
  cases h with
  | null => exact hset .null
  | int n => exact hset (.int n.toInt64)
  | constant hv =>
    show ((entry .constant program.constants _ >>= fun v => setRegister dst v) >>= fun _ =>
      pure Flow.next) m = _
    rw [entry, hv]
    exact hset v

end Machine

/-! ### Calls -/

/-- Values without parts that are equal only to themselves. Floats are not among them, since zeros of both
    signs are equal. -/
def Value.isScalar : Value → Bool
  | null | int _ | bool _ | str .. | host _ | error _ | moved => true
  | _ => false

/-- A call that enters a value into the program under construction. -/
inductive Entering where
  | constant (v : Value)
  | load (dst : Reg) (v : Value)

/-- The value that a call enters. -/
def Entering.value : Entering → Value
  | constant v => v
  | load _ v => v

/-- What a call does. -/
def Entering.perform (ctx : LoweringContext) : Entering → Lowering Unit
  | constant v => do
    let _ ← Draft.constant ctx v
  | load dst v => Draft.load ctx dst v

namespace Draft

variable {ctx : LoweringContext} {d d' d'' : Draft} {v : Value}

/-- What stands for a value once it was entered: the first constant of the same kind that equals it, or the
    value itself if there is none. -/
def entered (d : Draft) (v : Value) : Value :=
  (d.constants.toList.find? fun c => c.tag == v.tag && c.equals v).getD v

/-- Code and constants are only added to, and new constants are among the values. -/
structure Extends (values : List Value) (d d' : Draft) : Prop where
  code : d.assembler.code.toList <+: d'.assembler.code.toList
  constants : ∃ fresh, d'.constants.toList = d.constants.toList ++ fresh ∧ ∀ c ∈ fresh, c ∈ values

namespace Extends

variable {values values' : List Value}

/-- A draft extends itself. -/
theorem refl (d : Draft) : Extends values d d :=
  ⟨List.prefix_rfl, [], by rw [List.append_nil], List.forall_mem_nil _⟩

/-- Extensions follow each other, each with its own values. -/
theorem trans (h : Extends values d d') (h' : Extends values' d' d'') : Extends (values ++ values') d d'' := by
  obtain ⟨fresh, hfresh, hmem⟩ := h.constants
  obtain ⟨fresh', hfresh', hmem'⟩ := h'.constants
  refine ⟨h.code.trans h'.code, fresh ++ fresh', ?_, List.forall_mem_append.2 ⟨?_, ?_⟩⟩
  · rw [hfresh', hfresh, List.append_assoc]
  · exact fun c hc => List.mem_append_left _ (hmem c hc)
  · exact fun c hc => List.mem_append_right _ (hmem' c hc)

/-- The constants of a draft come first among those of its extension. -/
theorem pool (h : Extends values d d') : d.constants.toList <+: d'.constants.toList := by
  obtain ⟨fresh, hfresh, -⟩ := h.constants
  exact ⟨fresh, hfresh.symm⟩

/-- An instruction more, and constants as before. -/
theorem emit (h : Extends values d d') (i : Instruction) :
    Extends values d { d' with assembler := d'.assembler.emit i } := by
  refine ⟨h.code.trans ?_, h.constants⟩
  rw [Assembler.toList_emit]
  exact List.prefix_append _ _

end Extends

/-- A constant is looked up among those of its kind that equal it, and added at the end if there is none.
    The pool has room for as many as an index can tell apart. -/
theorem constant_apply : constant ctx v d =
    match d.constants.toList.findIdx? fun c => c.tag == v.tag && c.equals v with
    | some i => if i < 65536 then .ok (UInt16.ofNat i, d) else .error (.poolOverflow ctx.block .constant)
    | none => if d.constants.size < 65536 then
        .ok (UInt16.ofNat d.constants.size, { d with constants := d.constants.push v })
      else .error (.poolOverflow ctx.block .constant) := by
  rw [← List.findIdx?_toArray, Array.toArray_toList]
  change (match d.constants.findIdx? _ with
    | some i => _
    | none => _ : Lowering UInt16) d = _
  cases d.constants.findIdx? fun c => c.tag == v.tag && c.equals v with
  | some i =>
    dsimp only [poolIndex]
    split <;> rfl
  | none =>
    dsimp only [poolIndex]
    split <;> rfl

/-- What is given out for a constant is the place of what stands for it. -/
theorem constant_ok {index : UInt16} (h : constant ctx v d = .ok (index, d')) :
    Extends [v] d d' ∧ d'.assembler = d.assembler ∧ d'.constants[index.toNat]? = some (d.entered v) := by
  rw [constant_apply] at h
  cases hfound : d.constants.toList.findIdx? fun c => c.tag == v.tag && c.equals v with
  | some i =>
    rw [hfound] at h
    dsimp only at h
    split at h
    next hi =>
      obtain ⟨rfl, rfl⟩ := Prod.mk.inj (Except.ok.inj h)
      obtain ⟨hlt, hmatch, hfirst⟩ := List.findIdx?_eq_some_iff_getElem.1 hfound
      have hfind : d.constants.toList.find? (fun c => c.tag == v.tag && c.equals v) =
          some d.constants.toList[i] :=
        List.find?_eq_some_iff_getElem.2 ⟨hmatch, i, hlt, rfl, fun j hj => by
          rw [(Bool.not_eq_true _).mp (hfirst j hj)]
          rfl⟩
      refine ⟨.refl d, rfl, ?_⟩
      rw [entered, hfind, UInt16.toNat_ofNat_of_lt' hi, ← Array.getElem?_toList,
        List.getElem?_eq_getElem hlt]
      rfl
    · exact nomatch h
  | none =>
    rw [hfound] at h
    dsimp only at h
    split at h
    next hroom =>
      obtain ⟨rfl, rfl⟩ := Prod.mk.inj (Except.ok.inj h)
      have hnone : d.constants.toList.find? (fun c => c.tag == v.tag && c.equals v) = none :=
        List.find?_eq_none.2 fun c hc => by simpa using List.findIdx?_eq_none_iff.1 hfound c hc
      refine ⟨⟨List.prefix_rfl, [v], Array.toList_push, fun c hc => hc⟩, rfl, ?_⟩
      rw [entered, hnone, UInt16.toNat_ofNat_of_lt' hroom]
      exact Array.getElem?_push_size
    · exact nomatch h

/-- What stands for a value is the value, or a constant that equals it. -/
theorem entered_cases (d : Draft) (v : Value) : d.entered v = v ∨
    d.entered v ∈ d.constants.toList ∧ (d.entered v).tag = v.tag ∧ (d.entered v).equals v = true := by
  rw [entered]
  cases hfind : d.constants.toList.find? fun c => c.tag == v.tag && c.equals v with
  | none => exact .inl rfl
  | some c =>
    have hmatch : (c.tag == v.tag && c.equals v) = true := by simpa using List.find?_some hfind
    obtain ⟨htag, hequals⟩ := (Bool.and_eq_true _ _).mp hmatch
    exact .inr ⟨List.mem_of_find?_eq_some hfind, beq_iff_eq.1 htag, hequals⟩

/-- **Scalars stand for themselves**: what equals one and is of its kind has the same contents. -/
theorem entered_scalar (d : Draft) (hv : v.isScalar = true)
    (htext : ∀ id s t, .str id s ∈ d.constants.toList → v = .str id t → s = t) :
    (d.entered v).erase = v.erase := by
  rcases d.entered_cases v with hsame | ⟨hmem, htag, hequals⟩
  · rw [hsame]
  · generalize d.entered v = c at hmem htag hequals
    cases v with
    | str id t =>
      cases c with
      | str id' s =>
        have htexts : s = t := by
          rw [Value.equals] at hequals
          rcases (Bool.or_eq_true _ _).mp hequals with hid | hs
          · obtain rfl := beq_iff_eq.1 hid
            exact htext id' s t hmem rfl
          · exact beq_iff_eq.1 hs
        rw [Value.erase, Value.erase, htexts]
      | _ => cases htag
    | _ => cases c <;> simp_all [Value.isScalar, Value.tag, Value.equals, Value.erase]

/-- An instruction was emitted that leaves what stands for a value. -/
structure Loaded (dst : Reg) (v : Value) (d d' : Draft) (i : Instruction) : Prop where
  loads : i.Loads d'.constants dst (d.entered v)
  extends_ : Extends [v] d d'
  code : d'.assembler.code.toList = d.assembler.code.toList ++ i.encode

/-- An instruction emitted on top of the constants that it needs is what a load leaves behind. -/
theorem loaded_of_emit {dst : Reg} {d₁ : Draft} {i : Instruction} (hd₁ : Extends [v] d d₁)
    (hassembler : d₁.assembler = d.assembler) (hloads : i.Loads d₁.constants dst (d.entered v))
    (h : emit i d₁ = .ok ((), d')) : Loaded dst v d d' i := by
  obtain rfl : _ = d' := congrArg Prod.snd (Except.ok.inj h)
  refine ⟨hloads, hd₁.emit i, ?_⟩
  rw [← hassembler]
  exact Assembler.toList_emit _ _

/-- **What a load emits** leaves what stands for the value. -/
theorem load_ok {dst : Reg} (h : load ctx dst v d = .ok ((), d')) : ∃ i, Loaded dst v d d' i := by
  have hconst : (do emit (.loadConst dst (← constant ctx v)) : Lowering Unit) d = .ok ((), d') →
      ∃ i, Loaded dst v d d' i := by
    intro h
    obtain ⟨index, d₁, hconstant, h⟩ := state_bind_ok h
    obtain ⟨hd₁, hassembler, hindex⟩ := constant_ok hconstant
    exact ⟨_, loaded_of_emit hd₁ hassembler (.constant hindex) h⟩
  cases v with
  | null =>
    have hnull : d.entered .null = .null := Value.eq_of_erase rfl (d.entered_scalar rfl (by simp))
    refine ⟨.setNull dst, loaded_of_emit (.refl d) rfl ?_ h⟩
    rw [hnull]
    exact .null
  | int i =>
    simp only [load] at h
    split at h
    next hfits =>
      have hint : d.entered (.int i) = .int i := Value.eq_of_erase rfl (d.entered_scalar rfl (by simp))
      refine ⟨.loadInt dst i.toInt32, loaded_of_emit (.refl d) rfl ?_ h⟩
      rw [hint, ← congrArg Value.int (integer_kept hfits)]
      exact .int _
    · exact hconst h
  | _ => exact hconst h

/-- A call only adds to code and constants. -/
theorem entering_ok {e : Entering} (h : e.perform ctx d = .ok ((), d')) : Extends [e.value] d d' := by
  cases e with
  | constant v =>
    obtain ⟨index, d₁, hconstant, h⟩ := state_bind_ok h
    obtain rfl : d₁ = d' := congrArg Prod.snd (Except.ok.inj h)
    exact (constant_ok hconstant).1
  | load dst v =>
    obtain ⟨i, hloaded⟩ := load_ok h
    exact hloaded.extends_

/-- Calls one after the other only add to code and constants. -/
theorem enterings_ok {es : List Entering} (h : es.forM (Entering.perform ctx) d = .ok ((), d')) :
    Extends (es.map Entering.value) d d' := by
  induction es generalizing d with
  | nil =>
    obtain rfl : d = d' := congrArg Prod.snd (Except.ok.inj h)
    exact .refl d
  | cons e es ih =>
    obtain ⟨_, d₁, he, hes⟩ := state_bind_ok h
    exact (entering_ok he).trans (ih hes)

/-- **What loading a constant leaves.** Of any sequence of calls that enter values into a program, take one
    that loads a value. At its place in the finished program stands an instruction that leaves, in the register
    asked for, the first constant entered before that has the kind of the value and equals it, or the value
    itself if there is none. So the contents are those of the value, unless other contents that equal it were
    entered before; and for scalars they always are. -/
theorem load_entered {supply : BufferId} {before after : List Entering} {dst : Reg}
    (h : (before ++ .load dst v :: after).forM (Entering.perform ctx) { supply := supply } = .ok ((), d))
    (b : Block) (index : Nat) :
    ∃ (d₁ : Draft) (i : Instruction) (next : Nat),
      before.forM (Entering.perform ctx) { supply := supply } = .ok ((), d₁) ∧
      (∀ c ∈ d₁.constants.toList, ∃ e ∈ before, e.value = c) ∧
      (World.finish b index d).instructionAt d₁.assembler.position = .ok (i, next) ∧
      (∀ (host : Embedder) (resume : Machine.Action Outcome) (m : Machine) (f : Frame) (rest : List Frame),
        m.stack.frames = f :: rest → dst.toNat < f.registers.size →
        Machine.step host resume (World.finish b index d) next i m = (.ok .next, m.withFrames
          ({ f with registers := f.registers.setIfInBounds dst.toNat (d₁.entered v) } :: rest))) ∧
      ((∀ e ∈ before, e.value.tag = v.tag → e.value.equals v = true → e.value.erase = v.erase) →
        (d₁.entered v).erase = v.erase) ∧
      (v.isScalar = true → (∀ e ∈ before, ∀ id s t, e.value = .str id s → v = .str id t → s = t) →
        (d₁.entered v).erase = v.erase) := by
  change forM (before ++ .load dst v :: after) (Entering.perform ctx) _ = _ at h
  rw [List.forM_append] at h
  obtain ⟨_, d₁, hbefore, h⟩ := state_bind_ok h
  rw [List.forM_cons] at h
  obtain ⟨_, d₂, hload, hafter⟩ := state_bind_ok h
  obtain ⟨i, hloaded⟩ := load_ok hload
  have hlater := enterings_ok hafter
  have hpool : ∀ c ∈ d₁.constants.toList, ∃ e ∈ before, e.value = c := by
    obtain ⟨fresh, hfresh, hmem⟩ := (enterings_ok hbefore).constants
    intro c hc
    rw [hfresh] at hc
    exact List.mem_map.1 (hmem c hc)
  refine ⟨d₁, i, d₁.assembler.position + i.encode.length, hbefore, hpool, ?_, ?_, ?_, ?_⟩
  · obtain ⟨rest, hrest⟩ := hlater.code
    have hcode : d.assembler.code.toList = d₁.assembler.code.toList ++ (i.encode ++ rest) := by
      rw [← List.append_assoc, ← hloaded.code]
      exact hrest.symm
    exact decodeAt_encode (bytesAt_of_toList hcode)
  · intro host resume m f rest hframes hdst
    exact Machine.step_loads (hloaded.loads.mono hlater.pool) hframes hdst
  · intro hsame
    rcases d₁.entered_cases v with hv | ⟨hmem, htag, hequals⟩
    · rw [hv]
    · obtain ⟨e, he, hvalue⟩ := hpool _ hmem
      rw [← hvalue] at htag hequals ⊢
      exact hsame e he htag hequals
  · intro hscalar htext
    refine d₁.entered_scalar hscalar fun id s t hmem hv => ?_
    obtain ⟨e, he, hvalue⟩ := hpool _ hmem
    exact htext e he id s t hvalue hv

end Draft

/-! ### Two zeros and a text -/

namespace Zeros

open Machine

def ctx : LoweringContext :=
  ⟨"zeros", ⟨{}, []⟩, {}⟩

def block : Block :=
  ⟨0, 0, { name := "zeros", locals := 3 }, []⟩

def before : List Entering :=
  [.load 0 (.float 0.0), .load 1 (.float (-0.0)), .constant (.str 5 "a")]

def calls : List Entering :=
  before ++ .load 2 (.str 7 "a") :: []

def draft : Draft :=
  match calls.forM (Entering.perform ctx) { supply := 9 } with
  | .ok (_, d) => d
  | .error _ => { supply := 9 }

/-- The calls of the example go through and leave this draft. -/
theorem calls_ok : calls.forM (Entering.perform ctx) { supply := 9 } = .ok ((), draft) := by
  have hok : (calls.forM (Entering.perform ctx) { supply := 9 }).isOk = true := by decide +kernel
  rw [draft]
  cases h : calls.forM (Entering.perform ctx) { supply := 9 } with
  | error e =>
    rw [h] at hok
    exact nomatch hok
  | ok r => rfl

def frame : Frame :=
  { block := 0, program := 0, version := 0, registers := #[.null, .null, .null], pc := {}, parent := none,
    key := none, incoming := .null, bindings := [], inputCount := 0, returnTo := none }

def machine : Machine :=
  ⟨{}, { Stack.new {} with frames := [frame] }, ""⟩

/-- The text is loaded as it is, although another buffer holds it. -/
theorem load_entered_text :
    calls.forM (Entering.perform ctx) { supply := 9 } = .ok ((), draft) ∧
    ∃ (d₁ : Draft) (i : Instruction) (next : Nat),
      (World.finish block 0 draft).instructionAt d₁.assembler.position = .ok (i, next) ∧
      step .idle (run 1) (World.finish block 0 draft) next i machine = (.ok .next, machine.withFrames
        [{ frame with registers := #[.null, .null, d₁.entered (.str 7 "a")] }]) ∧
      (d₁.entered (.str 7 "a")).erase = .str 0 "a" := by
  refine ⟨calls_ok, ?_⟩
  obtain ⟨d₁, i, next, -, -, hat, hstep, -, hscalar⟩ := Draft.load_entered calls_ok block 0
  refine ⟨d₁, i, next, hat, hstep .idle (run 1) machine frame [] rfl (by decide), hscalar rfl ?_⟩
  intro e he id s t hs ht
  obtain ⟨rfl, rfl⟩ := Value.str.inj ht
  rcases List.mem_cons.1 he with rfl | he
  · exact nomatch hs
  rcases List.mem_cons.1 he with rfl | he
  · exact nomatch hs
  obtain rfl := List.mem_singleton.1 he
  exact absurd (Value.str.inj hs).1 (by decide)

/-- The zeros share a constant, though, and so do the texts. -/
example : draft.constants.toList.map Value.tag = [2, 4] := by
  decide +kernel

end Zeros

end BlockMachine

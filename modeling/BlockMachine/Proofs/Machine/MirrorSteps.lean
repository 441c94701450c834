import BlockMachine.Machine.Step
import BlockMachine.Proofs.Machine.Mirror

namespace BlockMachine

/-!
# Instructions side by side

Two machines whose active frames are alike perform the same instruction in step.

* `Machine.perform_inside_mirrors` is about the instructions that only compute in the active frame;
* `Machine.perform_call_mirrors` reduces calls of every kind to entering a block.
-/

namespace Instruction

/-- Whether an instruction only computes in the active frame and leaves what it saved alone. -/
def staysInside : Instruction → Bool
  | saveState .. => false
  | i => !i.leavesFrame

/-- Whether an instruction may enter a block. -/
def isCall : Instruction → Bool
  | call .. | callKeyed .. | callFunc .. | callFuncApply .. | callMethod .. => true
  | _ => false

end Instruction

namespace Machine

variable {α β : Type} {lax : Fault → Prop} {S T E : Matching → Machine → Machine → Prop}
  {ρ : Matching}

/-! ### Operands -/

section Reading

variable (hS : Reading S)
include hS

/-- The same integer is read on both sides. -/
theorem intRegister_mirrors (r : Reg) :
    Mirrors lax S ρ (intRegister r) (intRegister r) Equally := by
  refine .bind (register_mirrors hS r) fun ρ' _ v w hvw => ?_
  rw [hvw.int?_eq]
  split
  · exact .pure rfl
  · exact .mismatch _ hvw

omit hS in
/-- Alike values are the same number, or none. -/
theorem asFloat_mirrors {v w : Value} (hvw : v.Like ρ w) :
    Mirrors lax S ρ (asFloat v) (asFloat w) Equally := by
  rw [asFloat, asFloat, hvw.float?_eq]
  split
  · exact .pure rfl
  · exact .mismatch _ hvw

/-- The same number is read on both sides. -/
theorem floatRegister_mirrors (r : Reg) :
    Mirrors lax S ρ (floatRegister r) (floatRegister r) Equally :=
  .bind (register_mirrors hS r) fun _ _ _ _ hvw => asFloat_mirrors hvw

/-- The same truth value is read on both sides. -/
theorem boolRegister_mirrors (r : Reg) :
    Mirrors lax S ρ (boolRegister r) (boolRegister r) Equally := by
  refine .bind (register_mirrors hS r) fun ρ' _ v w hvw => ?_
  rw [hvw.bool?_eq]
  split
  · exact .pure rfl
  · exact .mismatch _ hvw

/-- Alike values have the same length. -/
theorem lengthOf_mirrors (r : Reg) : Mirrors lax S ρ (lengthOf r) (lengthOf r) Equally := by
  refine .bind (register_mirrors hS r) fun ρ' _ v w hvw => ?_
  rw [hvw.length?_eq]
  split
  · exact .pure rfl
  · exact .mismatch _ hvw

/-- The same key is read on both sides. -/
theorem keyRegister_mirrors (r : Reg) :
    Mirrors lax S ρ (keyRegister r) (keyRegister r) Equally := by
  refine .bind (register_mirrors hS r) fun ρ' _ v w hvw => ?_
  rw [hvw.key?_eq]
  split
  · exact .pure rfl
  · exact .mismatch _ hvw

/-- Two closures over the same block. -/
def LikeClosures (ρ : Matching) (c c' : BlockId × List Value) : Prop :=
  c.1 = c'.1 ∧ Items.Like ρ c.2 c'.2

/-- Closures that are read are over the same block, with alike bindings. -/
theorem funcRegister_mirrors (r : Reg) :
    Mirrors lax S ρ (funcRegister r) (funcRegister r) LikeClosures := by
  refine .bind (register_mirrors hS r) fun ρ' _ v w hvw => ?_
  have hfunc := hvw.func?
  generalize v.func? = x at hfunc
  generalize w.func? = y at hfunc
  cases hfunc with
  | none => exact .mismatch _ hvw
  | some hclosure => exact .pure hclosure

omit hS in
/-- Alike values compare the same. -/
theorem isLess_mirrors {a b a' b' : Value} (ha : a.Like ρ a') (hb : b.Like ρ b') :
    Mirrors lax S ρ (isLess a b) (isLess a' b') Equally := by
  have hfloats : Mirrors lax S ρ (do let x ← asFloat a; return decide (x < (← asFloat b)))
      (do let x ← asFloat a'; return decide (x < (← asFloat b'))) Equally := by
    refine .bind (asFloat_mirrors ha) fun ρ₁ hle x x' hx => ?_
    refine .bind (asFloat_mirrors (hb.mono hle)) fun ρ₂ _ y y' hy => ?_
    rw [hx, hy]
    exact .pure rfl
  -- integers and strings are compared among themselves, and alike values are of one kind
  cases ha with
  | atom hid =>
    cases hb with
    | atom hid' =>
      cases a with
      | int i =>
        cases b with
        | int j => exact .pure rfl
        | _ => exact hfloats
      | str => exact nomatch hid
      | _ => exact hfloats
    | _ =>
      cases a with
      | str => exact nomatch hid
      | _ => exact hfloats
  | str hpair =>
    cases hb with
    | str _ => exact .pure rfl
    | atom hid' =>
      cases b with
      | str => exact nomatch hid'
      | _ => exact hfloats
    | _ => exact hfloats
  | list | map | record | func => exact hfloats

/-- Integers are combined the same. -/
theorem onInts_mirrors (f : Int64 → Int64 → Int64) (lhs rhs : Reg) :
    Mirrors lax S ρ (onInts f lhs rhs) (onInts f lhs rhs) Value.Like := by
  refine .bind (intRegister_mirrors hS lhs) fun ρ₁ _ a a' ha => ?_
  refine .bind (intRegister_mirrors hS rhs) fun ρ₂ _ b b' hb => ?_
  rw [ha, hb]
  exact .pure (.atom rfl)

/-- Numbers are combined the same on both sides. -/
theorem onFloats_mirrors (f : Float → Float → Float) (lhs rhs : Reg) :
    Mirrors lax S ρ (onFloats f lhs rhs) (onFloats f lhs rhs) Value.Like := by
  refine .bind (floatRegister_mirrors hS lhs) fun ρ₁ _ a a' ha => ?_
  refine .bind (floatRegister_mirrors hS rhs) fun ρ₂ _ b b' hb => ?_
  rw [ha, hb]
  exact .pure (.atom rfl)

/-- **Operators give alike values**, since equality and order do not look at buffer numbers. -/
theorem combine_mirrors (op : BinaryOp) (lhs rhs : Reg) :
    Mirrors lax S ρ (combine op lhs rhs) (combine op lhs rhs) Value.Like := by
  cases op with
  | addInt => exact onInts_mirrors hS _ lhs rhs
  | subInt => exact onInts_mirrors hS _ lhs rhs
  | mulInt => exact onInts_mirrors hS _ lhs rhs
  | divInt =>
    refine .bind (intRegister_mirrors hS lhs) fun ρ₁ _ a a' ha => ?_
    refine .bind (intRegister_mirrors hS rhs) fun ρ₂ _ b b' hb => ?_
    rw [ha, hb]
    split
    · exact .raise _
    · exact .pure (.atom rfl)
  | addFloat => exact onFloats_mirrors hS _ lhs rhs
  | subFloat => exact onFloats_mirrors hS _ lhs rhs
  | mulFloat => exact onFloats_mirrors hS _ lhs rhs
  | divFloat =>
    refine .bind (floatRegister_mirrors hS lhs) fun ρ₁ _ a a' ha => ?_
    refine .bind (floatRegister_mirrors hS rhs) fun ρ₂ _ b b' hb => ?_
    rw [ha, hb]
    split
    · exact .raise _
    · exact .pure (.atom rfl)
  | equals =>
    refine .bind (register_mirrors hS lhs) fun ρ₁ _ a a' ha => ?_
    refine .bind (register_mirrors hS rhs) fun ρ₂ hle b b' hb => ?_
    rw [(ha.mono hle).equals_eq hb]
    exact .pure (.atom rfl)
  | lessThan =>
    refine .bind (register_mirrors hS lhs) fun ρ₁ _ a a' ha => ?_
    refine .bind (register_mirrors hS rhs) fun ρ₂ hle b b' hb => ?_
    refine .bind (isLess_mirrors (ha.mono hle) hb) fun ρ₃ _ x y hxy => ?_
    rw [hxy]
    exact .pure (.atom rfl)

omit hS in
/-- Alike values are the same position. -/
theorem position_mirrors {i j : Value} (hij : i.Like ρ j) (length : Nat) :
    Mirrors lax S ρ (position i length) (position j length) Equally := by
  cases hij with
  | atom hid =>
    unfold position
    split
    · split
      · exact .pure rfl
      · exact .raise _
    · exact .mismatch _ (.atom hid)
  | str hpair => exact .mismatch _ (.str hpair)
  | list hpair items => exact .mismatch _ (.list hpair items)
  | map hpair keys values => exact .mismatch _ (.map hpair keys values)
  | record hpair fields => exact .mismatch _ (.record hpair fields)
  | func hpair bindings => exact .mismatch _ (.func hpair bindings)

/-- An item of a list, a string or a record, which is read by position. -/
def readItem (container index : Value) : Action Value :=
  match index with
  | .int n => if n < 0 then return .null
    else return (← allocate (container.item? n.toInt.toNat)).getD .null
  | _ => mismatch "int" index

/-- The items of alike containers are alike. -/
theorem readItem_mirrors {c c' i i' : Value} (hc : c.Like ρ c') (hi : i.Like ρ i') :
    Mirrors lax S ρ (readItem c i) (readItem c' i') Value.Like := by
  cases hi with
  | atom hid =>
    cases i with
    | int n =>
      dsimp only [readItem]
      split
      · exact .pure (.atom rfl)
      · exact .bind (allocate_mirrors hS.toDrawing fun hT h => Value.item?_alike hT h hc _)
          fun _ _ _ _ h => .pure (Value.Like.getD h)
    | _ => exact .mismatch _ (.atom hid)
  | str hpair => exact .mismatch _ (.str hpair)
  | list hpair items => exact .mismatch _ (.list hpair items)
  | map hpair keys values => exact .mismatch _ (.map hpair keys values)
  | record hpair fields => exact .mismatch _ (.record hpair fields)
  | func hpair bindings => exact .mismatch _ (.func hpair bindings)

/-- The parts of alike containers under alike keys are alike. -/
theorem readIndex_mirrors (container index : Reg) :
    Mirrors lax S ρ (readIndex container index) (readIndex container index) Value.Like := by
  refine .bind (register_mirrors hS container) fun ρ₁ _ c c' hc => ?_
  refine .bind (register_mirrors hS index) fun ρ₂ hle i i' hi => ?_
  replace hc := hc.mono hle
  cases hc with
  | atom hid =>
    cases c with
    | str | list | map | record | func => cases hid
    | _ => exact .mismatch _ (.atom hid)
  | str hpair => exact readItem_mirrors hS (.str hpair) hi
  | list hpair items => exact readItem_mirrors hS (.list hpair items) hi
  | record hpair fields => exact readItem_mirrors hS (.record hpair fields) hi
  | map hpair keys values =>
    refine .pure (Value.Like.getD ?_)
    rw [hi.key?_eq]
    cases i'.key? with
    | none => exact .none
    | some k => exact (Value.Like.map hpair keys values).entries.get? k
  | func hpair bindings => exact .mismatch _ (.func hpair bindings)

/-- A condition holds on both sides or on none. -/
theorem isTaken_mirrors (cond : Condition) :
    Mirrors lax S ρ (isTaken cond) (isTaken cond) Equally := by
  cases cond with
  | always => exact .pure rfl
  | ifTrue cond => exact boolRegister_mirrors hS cond
  | ifFalse cond =>
    refine .bind (boolRegister_mirrors hS cond) fun _ _ b b' hb => ?_
    rw [hb]
    exact .pure rfl
  | ifDone index container =>
    refine .bind (intRegister_mirrors hS index) fun _ _ i i' hi => ?_
    refine .bind (lengthOf_mirrors hS container) fun _ _ n n' hn => ?_
    rw [hi, hn]
    exact .pure rfl

omit hS in
/-- The same entry of a pool is found on both sides. -/
theorem entry_mirrors (pool : Pool) (entries : Array α) (index : UInt16) :
    Mirrors lax S ρ (entry pool entries index) (entry pool entries index)
      fun _ a b => a = b ∧ a ∈ entries := by
  rw [entry]
  split
  next a ha => exact .pure ⟨rfl, Array.mem_of_getElem? ha⟩
  next => exact .violate _

omit hS in

/-- Constants at one position are alike. -/
theorem constant_mirrors {p q : Program} (hpq : p.Like ρ q) (index : UInt16) :
    Mirrors lax S ρ (entry .constant p.constants index) (entry .constant q.constants index)
      Value.Like := by
  have hread := hpq.constants index.toNat
  rw [entry, entry]
  generalize p.constants[index.toNat]? = x at hread
  generalize q.constants[index.toNat]? = y at hread
  cases hread with
  | none => exact .violate _
  | some hvw => exact .pure hvw

/-- The state that the frames find is alike. -/
theorem readState_mirrors (name : String) :
    Mirrors lax S ρ (readState name) (readState name) Value.Like := by
  refine .bind (active_mirrors hS) fun ρ' _ f₁ f₂ hf => .pure ?_
  rw [hf.stateful]
  split
  · exact StateTree.child_like hf.incoming _
  · exact .atom rfl

end Reading

/-! ### Instructions inside a frame -/

section Mirroring

variable (hS : Mirroring S)
include hS

/-- A value is moved on both sides. -/
theorem move_mirrors (dst src : Reg) : Mirrors lax S ρ (move dst src) (move dst src) Anyhow := by
  rw [move]
  split
  · refine .bind (register_mirrors hS.toReading src) fun ρ₁ _ v w hvw => ?_
    refine .bind (setRegister_mirrors hS src (.atom rfl)) fun ρ₂ hle _ _ _ => ?_
    exact setRegister_mirrors hS dst (hvw.mono hle)
  · exact .pure trivial

/-- Registers are exchanged on both sides. -/
theorem swap_mirrors (a b : Reg) : Mirrors lax S ρ (swap a b) (swap a b) Anyhow := by
  refine active_bind_mirrors hS.toReading fun m₁ m₂ f₁ f₂ rest₁ rest₂ hm h₁ h₂ hf => ?_
  have ha := hf.registers a.toNat
  have hb := hf.registers b.toNat
  generalize f₁.registers[a.toNat]? = x₁ at ha
  generalize f₂.registers[a.toNat]? = x₂ at ha
  generalize f₁.registers[b.toNat]? = y₁ at hb
  generalize f₂.registers[b.toNat]? = y₂ at hb
  cases ha with
  | none => exact .error le_rfl hm
  | some hx =>
    cases hb with
    | none => exact .error le_rfl hm
    | some hy => exact hS.setRegisters hm h₁ h₂ hf ((hf.registers.set _ hy).set _ hx)

/-- The same number is written back on both sides. -/
theorem increment_mirrors (r : Reg) : Mirrors lax S ρ (increment r) (increment r) Anyhow := by
  refine .bind (rawRegister_mirrors hS.toReading r) fun ρ' _ v w hvw => ?_
  cases hvw with
  | atom hid =>
    split
    · exact setRegister_mirrors hS r (.atom rfl)
    · exact setRegister_mirrors hS r (.atom rfl)
    · exact .mismatch _ (.atom hid)
  | str hpair => exact .mismatch _ (.str hpair)
  | list hpair items => exact .mismatch _ (.list hpair items)
  | map hpair keys values => exact .mismatch _ (.map hpair keys values)
  | record hpair fields => exact .mismatch _ (.record hpair fields)
  | func hpair bindings => exact .mismatch _ (.func hpair bindings)

/-- Alike containers get alike parts, in new buffers. -/
theorem writeIndex_mirrors (container index src : Reg) :
    Mirrors lax S ρ (writeIndex container index src) (writeIndex container index src) Anyhow := by
  have hR := hS.toReading
  refine .bind (register_mirrors hR src) fun ρ₁ _ v v' hv => ?_
  refine .bind (register_mirrors hR index) fun ρ₂ hle₂ i i' hi => ?_
  refine .bind (rawRegister_mirrors hR container) fun ρ₃ hle₃ c c' hc => ?_
  replace hv := hv.mono (le_trans hle₂ hle₃)
  replace hi := hi.mono hle₃
  have hwrite : ∀ {ρ} {g g' : Fresh Value},
      (∀ {T : Matching → BufferId → BufferId → Prop} {n₁ n₂ : BufferId}, Numbering T →
        T ρ n₁ n₂ → DrawnAlike T ρ Value.Like (g n₁) (g' n₂)) →
      Mirrors lax S ρ (allocate g >>= setRegister container) (allocate g' >>= setRegister container)
        Anyhow :=
    fun hg => .bind (allocate_mirrors hR.toDrawing hg) fun _ _ _ _ h =>
      setRegister_mirrors hS container h
  cases hc with
  | atom hid =>
    cases c with
    | str | list | map | record | func => cases hid
    | _ => exact .mismatch _ (.atom hid)
  | str hpair => exact .mismatch _ (.str hpair)
  | list hpair items =>
    dsimp only
    rw [items.length_eq]
    refine .bind (position_mirrors hi _) fun ρ₄ hle₄ j j' hj => ?_
    rw [show j = j' from hj]
    exact hwrite fun hT h => Value.newList_alike hT h
      ((Items.Like.mono items hle₄).set _ (hv.mono hle₄))
  | map hpair keys values =>
    have hentries := (Value.Like.map hpair keys values).entries
    dsimp only
    rw [hi.key?_eq]
    split
    next k _ => exact hwrite fun hT h => Value.newMap_alike hT h (hentries.insert k hv)
    next => exact .mismatch _ hi
  | @record _ _ type _ _ _ fields =>
    -- a field keeps its declared type: the item is cast to it first
    dsimp only
    rw [fields.length_eq]
    refine .bind (position_mirrors hi _) fun ρ₄ hle₄ j j' hj => ?_
    rw [show j = j' from hj]
    split
    next name ty _ =>
      refine .bind (cast_mirrors hR.toDrawing ty (hv.mono hle₄)) fun ρ₅ hle₅ w w' hw => ?_
      exact hwrite fun hT h => Value.newRecord_alike hT h type
        ((Items.Like.mono fields (le_trans hle₄ hle₅)).set _ hw)
    next => exact .raise _
  | func hpair bindings => exact .mismatch _ (.func hpair bindings)

/-- Alike lists get an alike item more. -/
theorem append_mirrors (list src : Reg) :
    Mirrors lax S ρ (append list src) (append list src) Anyhow := by
  have hR := hS.toReading
  refine .bind (register_mirrors hR src) fun ρ₁ _ v v' hv => ?_
  refine .bind (rawRegister_mirrors hR list) fun ρ₂ hle c c' hc => ?_
  replace hv := hv.mono hle
  cases hc with
  | atom hid =>
    cases c with
    | list => cases hid
    | _ => exact .mismatch _ (.atom hid)
  | list hpair items =>
    exact .bind (allocate_mirrors hR.toDrawing fun hT h =>
      Value.newList_alike hT h (Items.Like.append items (.cons hv .nil)))
      fun _ _ _ _ h => setRegister_mirrors hS list h
  | str hpair => exact .mismatch _ (.str hpair)
  | map hpair keys values => exact .mismatch _ (.map hpair keys values)
  | record hpair fields => exact .mismatch _ (.record hpair fields)
  | func hpair bindings => exact .mismatch _ (.func hpair bindings)

/-- Alike values are written to the same registers. -/
theorem spread_mirrors (first : Reg) (i : Nat) {vs ws : List Value} (hvs : Items.Like ρ vs ws) :
    Mirrors lax S ρ (spread first i vs) (spread first i ws) Anyhow := by
  induction vs generalizing ρ ws i with
  | nil =>
    cases hvs
    exact .pure trivial
  | cons v vs ih =>
    cases hvs with
    | cons hhead htail =>
      refine .bind (offsetRegister_mirrors first i) fun ρ₁ hle₁ r r' hr => ?_
      rw [show r = r' from hr]
      refine .bind (setRegister_mirrors hS r' (hhead.mono hle₁)) fun ρ₂ hle₂ _ _ _ => ?_
      exact ih (i + 1) (Items.Like.mono htail (le_trans hle₁ hle₂))

/-- The bindings of alike frames are written to the same registers. -/
theorem splatBindings_mirrors (first : Reg) (count : UInt8) :
    Mirrors lax S ρ (splatBindings first count) (splatBindings first count) Anyhow := by
  refine .bind (active_mirrors hS.toReading) fun ρ' _ f₁ f₂ hf => ?_
  dsimp only
  rw [hf.bindings.length_eq]
  split
  · exact spread_mirrors hS first 0 hf.bindings
  · exact .violate _

/-- Alike inputs are collected into alike lists. -/
theorem collectVarargs_mirrors (first : Reg) :
    Mirrors lax S ρ (collectVarargs first) (collectVarargs first) Anyhow := by
  refine active_bind_mirrors hS.toReading fun m₁ m₂ f₁ f₂ rest₁ rest₂ hm h₁ h₂ hf => ?_
  have hstop : max f₁.inputCount first.toNat = max f₂.inputCount first.toNat := by
    rw [hf.inputCount]
  dsimp only
  rw [hf.registers.size_eq, hstop]
  split
  · exact .error le_rfl hm
  split
  · exact .error le_rfl hm
  -- the list is made first; the frames stay as they are meanwhile
  have hlist : Mirrors lax _ ρ (allocate (Value.newList _)) (allocate (Value.newList _)) _ :=
    allocate_mirrors (hS.toDrawing.holding m₁ m₂) fun hT h => Value.newList_alike hT h
      (hf.registers.extract first.toNat (max f₂.inputCount first.toNat)).toList
  refine ((hlist m₁ m₂ ⟨hm, rfl, rfl⟩).imp (fun _ _ _ _ h => h) (fun _ _ _ _ h => h.1) fun _ _ _ _ h => h).bind ?_
  rintro ρ' m₁' m₂' list list' hle ⟨hm', hs₁, hs₂⟩ hlike
  refine hS.setRegisters hm' (hs₁ ▸ h₁) (hs₂ ▸ h₂) (hf.mono hle) (Registers.Like.set ?_ _ hlike)
  refine (hf.registers.mono hle).mapIdx fun i v w hvw => ?_
  split
  · exact .atom rfl
  · exact hvw

/-- Both machines jump to the same offset. -/
theorem jump_mirrors (next : Nat) (offset : Int16) :
    Mirrors lax S ρ (jump next offset) (jump next offset) Anyhow := by
  rw [jump]
  dsimp only
  split
  · exact .violate _
  · exact modifyActive_mirrors hS (fun _ => rfl) fun _ _ _ hf => ⟨hf.registers, rfl, id⟩

/-- Both active frames get as many registers more. -/
theorem growFrame_mirrors (size : Nat) :
    Mirrors lax S ρ (modifyActive fun f => if f.registers.size < size then f.resize size else f)
      (modifyActive fun f => if f.registers.size < size then f.resize size else f) Anyhow := by
  refine modifyActive_mirrors hS (fun f => ?_) fun ρ f₁ f₂ hf => ?_
  · split <;> rfl
  · rw [hf.registers.size_eq]
    split
    · exact ⟨hf.registers.resized size, hf.offset, id⟩
    · exact ⟨hf.registers, hf.offset, id⟩

/-- **Instructions inside a frame go in step.** What they read and write is in the active frame and
    in the program. -/
theorem perform_inside_mirrors {host₁ host₂ : Embedder} {resume₁ resume₂ : Action Outcome}
    {p q : Program} (hpq : p.Like ρ q) (next : Nat) {i : Instruction} (hi : i.staysInside = true) :
    Mirrors lax S ρ (perform host₁ resume₁ p next i) (perform host₂ resume₂ q next i) Anyhow := by
  have hR := hS.toReading
  have hconstant : ∀ idx, Mirrors lax S ρ _ _ Value.Like := constant_mirrors hpq
  have ⟨_, _, _, _, hblocks, htypes, hnames, _, _⟩ := hpq
  -- most instructions compute a value and write it to a register
  have hwrite : ∀ {a b : Action Value} (dst : Reg), Mirrors lax S ρ a b Value.Like →
      Mirrors lax S ρ (a >>= setRegister dst) (b >>= setRegister dst) Anyhow :=
    fun dst h => .bind h fun _ _ _ _ hvw => setRegister_mirrors hS dst hvw
  cases i with
  | loadConst dst idx =>
    exact hwrite dst (hconstant idx)
  | loadInt dst value => exact setRegister_mirrors hS dst (.atom rfl)
  | setNull dst => exact setRegister_mirrors hS dst (.atom rfl)
  | setEmptyList dst =>
    exact hwrite dst (allocate_mirrors hR.toDrawing fun hT h => Value.newList_alike hT h .nil)
  | copy dst src => exact hwrite dst (register_mirrors hR src)
  | move dst src => exact move_mirrors hS dst src
  | swap a b => exact swap_mirrors hS a b
  | cast dst src type =>
    rw [perform, perform, htypes]
    refine .bind (entry_mirrors _ _ type) fun ρ₁ _ ty ty' hty => ?_
    rw [← hty.1]
    refine .bind (register_mirrors hR src) fun ρ₂ _ v w hvw => ?_
    exact .bind (cast_mirrors hR.toDrawing ty hvw) fun _ _ _ _ h => setRegister_mirrors hS dst h
  | binary op dst lhs rhs => exact hwrite dst (combine_mirrors hR op lhs rhs)
  | increment r => exact increment_mirrors hS r
  | getIndex dst container index => exact hwrite dst (readIndex_mirrors hR container index)
  | setIndex container index src => exact writeIndex_mirrors hS container index src
  | append list src => exact append_mirrors hS list src
  | length dst container =>
    refine .bind (lengthOf_mirrors hR container) fun _ _ n n' hn => ?_
    rw [hn]
    exact setRegister_mirrors hS dst (.atom rfl)
  | jump cond offset =>
    refine .bind (isTaken_mirrors hR cond) fun _ _ b b' hb => ?_
    rw [hb]
    split
    · exact jump_mirrors hS next offset
    · exact .pure trivial
  | makeFunc dst block first count =>
    rw [perform, perform, hblocks]
    refine .bind (entry_mirrors _ _ block) fun ρ₁ _ b b' hb => ?_
    rw [← hb.1]
    refine .bind (arguments_mirrors hR first count.toNat) fun ρ₂ _ vs ws hvs => ?_
    exact .bind (allocate_mirrors hR.toDrawing fun hT h => Value.newFunc_alike hT h b hvs)
      fun _ _ _ _ h => setRegister_mirrors hS dst h
  | splatBindings first count => exact splatBindings_mirrors hS first count
  | varargsToList first => exact collectVarargs_mirrors hS first
  | growFrame size => exact growFrame_mirrors hS size.toNat
  | getState dst name =>
    rw [perform, perform, hnames]
    refine .bind (entry_mirrors _ _ name) fun ρ₁ _ s s' hs => ?_
    rw [← hs.1]
    exact .bind (readState_mirrors hR s) fun _ _ _ _ h => setRegister_mirrors hS dst h
  | retainFrame =>
    exact modifyActive_mirrors hS (fun _ => rfl) fun _ _ _ hf => ⟨hf.registers, hf.offset, fun _ => rfl⟩
  | call | callKeyed | callFunc | callFuncApply | callMethod | native | saveState | pause | ret =>
    exact nomatch hi

end Mirroring

/-! ### Calls -/

/-- Two frames will hang off their callers in the same way. -/
structure Link.Like (ρ : Matching) (l l' : Link) : Prop where
  returnTo : l.returnTo = l'.returnTo
  key : l.key = l'.key
  bindings : Items.Like ρ l.bindings l'.bindings

/-- Links that are alike under equal numbers are equal. -/
theorem Link.like_same {l l' : Link} (h : Link.Like .same l l') : l = l' := by
  obtain ⟨hreturn, hkey, hbindings⟩ := h
  have hbindings := Items.like_same hbindings
  cases l
  cases l'
  simp_all

/-- What a send does to a receiver that holds a value under the name: it is written to a register. -/
def sendHeld (name : String) (out : Reg) (receiver : Value) : Action Unit := do
  match heldValue? (← get).world receiver name with
  | some v => setRegister out v
  | none => raise (.methodNotFound name receiver.typeName)

/-- A send to a receiver that holds something under the name reads it, and fails otherwise. -/
theorem sendHeld_apply (name : String) (out : Reg) (receiver : Value) (m : Machine) :
    sendHeld name out receiver m =
      (match heldValue? m.world receiver name with
        | some v => setRegister out v
        | none => raise (.methodNotFound name receiver.typeName) : Action Unit) m :=
  rfl

/-- Sends from the programs at two indices mean the same on two machines. -/
structure Sending (lax : Fault → Prop) (S : Matching → Machine → Machine → Prop) (i j : Nat) : Prop
    extends Mirroring S where
  line : ∀ {ρ v w} (s : Send), s.program = i → Value.Like ρ v w →
    Mirrors lax S ρ (sendLine s v) (sendLine { s with program := j } w) Equally
  held : ∀ {ρ m₁ m₂ v w} (name : String), S ρ m₁ m₂ → Value.Like ρ v w →
    Option.Rel (Value.Like ρ) (heldValue? m₁.world v name) (heldValue? m₂.world w name)

/-- **Calls of every kind go in step** as far as entering blocks does. -/
theorem perform_call_mirrors {p q : Program} (hS : Sending lax S p.index q.index) (hpq : p.Like ρ q)
    (hT : ∀ {ρ m₁ m₂}, S ρ m₁ m₂ → T ρ m₁ m₂) (hE : ∀ {ρ m₁ m₂}, S ρ m₁ m₂ → E ρ m₁ m₂)
    (henter : ∀ ρ' block args args' link link', ρ ≤ ρ' → Items.Like ρ' args args' →
      Link.Like ρ' link link' → ∀ m₁ m₂, S ρ' m₁ m₂ →
      Mirrored lax T E ρ' Anyhow (enter block args link m₁) (enter block args' link' m₂))
    {host₁ host₂ : Embedder} {resume₁ resume₂ : Action Outcome} (next : Nat) {i : Instruction}
    (hi : i.isCall = true) {m₁ m₂ : Machine} (hm : S ρ m₁ m₂) :
    Mirrored lax T E ρ Anyhow (perform host₁ resume₁ p next i m₁)
      (perform host₂ resume₂ q next i m₂) := by
  have hR := hS.toReading
  have ⟨_, _, _, _, hblocks, _, hnames, _, _⟩ := hpq
  -- operands are read inside the relation, then a block is entered
  have hread : ∀ {α β : Type} {V : Matching → α → β → Prop} {ρ' : Matching} {a : Action α}
      {b : Action β} {f : α → Action Unit} {g : β → Action Unit} {m₁ m₂ : Machine},
      Mirrors lax S ρ' a b V → S ρ' m₁ m₂ →
      (∀ ρ'' m₁ m₂ x y, ρ' ≤ ρ'' → S ρ'' m₁ m₂ → V ρ'' x y →
        Mirrored lax T E ρ'' Anyhow (f x m₁) (g y m₂)) →
      Mirrored lax T E ρ' Anyhow ((a >>= f) m₁) ((b >>= g) m₂) :=
    fun h hm hnext => ((h _ _ hm).imp (fun _ _ _ _ h => h) (fun _ _ _ _ h => hE h)
      fun _ _ _ _ h => h).bind hnext
  cases i with
  | call block base argc out =>
    rw [perform, perform, hblocks]
    refine hread (entry_mirrors _ _ block) hm fun ρ₁ m₁ m₂ b b' hle₁ hm hb => ?_
    rw [← hb.1]
    refine hread (arguments_mirrors hR base argc.toNat) hm fun ρ₂ m₁ m₂ vs ws hle₂ hm hvs => ?_
    exact henter ρ₂ b vs ws _ _ (le_trans hle₁ hle₂) hvs ⟨rfl, rfl, .nil⟩ m₁ m₂ hm
  | callKeyed block base argc out key =>
    rw [perform, perform, hblocks]
    refine hread (entry_mirrors _ _ block) hm fun ρ₁ m₁ m₂ b b' hle₁ hm hb => ?_
    rw [← hb.1]
    refine hread (keyRegister_mirrors hR key) hm fun ρ₂ m₁ m₂ k k' hle₂ hm hk => ?_
    rw [show k = k' from hk]
    refine hread (arguments_mirrors hR base argc.toNat) hm fun ρ₃ m₁ m₂ vs ws hle₃ hm hvs => ?_
    exact henter ρ₃ b vs ws _ _ (le_trans hle₁ (le_trans hle₂ hle₃)) hvs ⟨rfl, rfl, .nil⟩ m₁ m₂ hm
  | callFunc base argc out =>
    refine hread (funcRegister_mirrors hR base) hm fun ρ₁ m₁ m₂ c c' hle₁ hm hc => ?_
    obtain ⟨b, bindings⟩ := c
    obtain ⟨b', bindings'⟩ := c'
    obtain ⟨hb, hbindings⟩ := hc
    obtain rfl : b = b' := hb
    refine hread (offsetRegister_mirrors base 1) hm fun ρ₂ m₁ m₂ r r' hle₂ hm hr => ?_
    rw [show r = r' from hr]
    refine hread (arguments_mirrors hR r' argc.toNat) hm fun ρ₃ m₁ m₂ vs ws hle₃ hm hvs => ?_
    exact henter ρ₃ b vs ws { returnTo := some out, bindings := bindings }
      { returnTo := some out, bindings := bindings' } (le_trans hle₁ (le_trans hle₂ hle₃)) hvs
      ⟨rfl, rfl, Items.Like.mono hbindings (le_trans hle₂ hle₃)⟩ m₁ m₂ hm
  | callFuncApply func args out =>
    refine hread (funcRegister_mirrors hR func) hm fun ρ₁ m₁ m₂ c c' hle₁ hm hc => ?_
    obtain ⟨b, bindings⟩ := c
    obtain ⟨b', bindings'⟩ := c'
    obtain ⟨hb, hbindings⟩ := hc
    obtain rfl : b = b' := hb
    refine hread (register_mirrors hR args) hm fun ρ₂ m₁ m₂ v w hle₂ hm hvw => ?_
    have hlist := hvw.list?
    generalize v.list? = x at hlist
    generalize w.list? = y at hlist
    cases hlist with
    | none =>
      exact (Mirrors.mismatch _ hvw m₁ m₂ hm).imp (fun _ _ _ _ h => hT h) (fun _ _ _ _ h => hE h)
        fun _ _ _ _ h => h
    | some hitems =>
      exact henter ρ₂ b _ _ { returnTo := some out, bindings := bindings }
        { returnTo := some out, bindings := bindings' } (le_trans hle₁ hle₂) hitems
        ⟨rfl, rfl, Items.Like.mono hbindings hle₂⟩ m₁ m₂ hm
  | callMethod name base argc out site =>
    rw [perform, perform, hnames]
    refine hread (entry_mirrors _ _ name) hm fun ρ₁ m₁ m₂ s s' hle₁ hm hs => ?_
    rw [← hs.1]
    refine hread (register_mirrors hR base) hm fun ρ₂ m₁ m₂ v w hle₂ hm hvw => ?_
    refine hread (hS.line _ rfl hvw) hm fun ρ₃ m₁ m₂ line line' hle₃ hm hline => ?_
    rw [← hline]
    replace hvw := hvw.mono hle₃
    have hle := le_trans hle₁ (le_trans hle₂ hle₃)
    have hmiss : Mirrored lax T E ρ₃ Anyhow
        ((raise (.methodNotFound s v.typeName) : Action Unit) m₁)
        ((raise (.methodNotFound s w.typeName) : Action Unit) m₂) := by
      rw [hvw.typeName_eq]
      exact .error le_rfl (hE hm)
    have hheld := hS.held s hm hvw
    have hvalue : Mirrored lax T E ρ₃ Anyhow (sendHeld s out v m₁) (sendHeld s out w m₂) := by
      rw [sendHeld_apply, sendHeld_apply]
      generalize heldValue? m₁.world v s = x at hheld
      generalize heldValue? m₂.world w s = y at hheld
      cases hheld with
      | none => exact hmiss
      | some hxy =>
        exact (setRegister_mirrors hS.toMirroring out hxy m₁ m₂ hm).imp (fun _ _ _ _ h => hT h)
          (fun _ _ _ _ h => hE h) fun _ _ _ _ h => h
    dsimp only
    generalize line.kind = kind
    generalize line.target = target
    cases kind with
    | method =>
      cases target with
      | none => exact hmiss
      | some block =>
        refine hread (arguments_mirrors hR base argc.toNat) hm fun ρ₄ m₁ m₂ vs ws hle₄ hm hvs => ?_
        exact henter ρ₄ block vs ws _ _ (le_trans hle hle₄) hvs ⟨rfl, rfl, .nil⟩ m₁ m₂ hm
    | moduleMember =>
      cases target with
      | none => exact hvalue
      | some block =>
        refine hread (offsetRegister_mirrors base 1) hm fun ρ₄ m₁ m₂ r r' hle₄ hm hr => ?_
        rw [show r = r' from hr]
        refine hread (arguments_mirrors hR r' _) hm fun ρ₅ m₁ m₂ vs ws hle₅ hm hvs => ?_
        exact henter ρ₅ block vs ws _ _ (le_trans hle (le_trans hle₄ hle₅)) hvs ⟨rfl, rfl, .nil⟩
          m₁ m₂ hm
    | mapKey => exact hvalue
    | _ => exact hmiss
  | _ => exact nomatch hi

end Machine

end BlockMachine

import BlockMachine.Proofs.Machine.Frames

namespace BlockMachine

/-!
# Instructions and caches

Instructions other than native calls do not depend on caches, sends included, because a sound cache
answers what a resolution from scratch would.

* `Machine.combine_keeps`, `Machine.writeIndex_keeps` and their companions are about the
  instructions that stay inside the active frame;
* `Machine.leave_keeps` is about returns, `Machine.send_agrees` about sends.
-/

/-- Taking a frame away has nothing to do with caches. -/
theorem Stack.popFrame_uncached (s : Stack) :
    s.uncached.popFrame = (s.popFrame.1, s.popFrame.2.uncached) := by
  obtain ⟨frames⟩ := s
  cases frames <;> rfl

namespace Machine

variable {α β : Type} {reg : Registry} {S : Machine → Prop} {m : Machine}

/-! ### Operands and results -/

section Quiet

variable (hS : Quiet reg S)
include hS

/-- Reading an integer does not depend on caches. -/
theorem intRegister_keeps (r : Reg) : Keeps S (intRegister r) fun _ => True := by
  refine .bind (register_keeps hS r) fun v _ => ?_
  split
  · exact .pure trivial
  · exact .mismatch _ _

omit hS in
/-- Taking a value for a number does not depend on caches. -/
theorem asFloat_keeps (v : Value) : Keeps S (asFloat v) fun _ => True := by
  rw [asFloat]
  split
  · exact .pure trivial
  · exact .mismatch _ _

/-- Reading a number does not depend on caches. -/
theorem floatRegister_keeps (r : Reg) : Keeps S (floatRegister r) fun _ => True :=
  .bind (register_keeps hS r) fun v _ => asFloat_keeps v

/-- Reading a truth value does not depend on caches. -/
theorem boolRegister_keeps (r : Reg) : Keeps S (boolRegister r) fun _ => True := by
  refine .bind (register_keeps hS r) fun v _ => ?_
  split
  · exact .pure trivial
  · exact .mismatch _ _

/-- Asking for a length does not depend on caches. -/
theorem lengthOf_keeps (r : Reg) : Keeps S (lengthOf r) fun _ => True := by
  refine .bind (register_keeps hS r) fun v _ => ?_
  split
  · exact .pure trivial
  · exact .mismatch _ _

/-- Reading a key does not depend on caches. -/
theorem keyRegister_keeps (r : Reg) : Keeps S (keyRegister r) fun _ => True := by
  refine .bind (register_keeps hS r) fun v _ => ?_
  split
  · exact .pure trivial
  · exact .mismatch _ _

/-- Reading a closure does not depend on caches, and what it is bound to is known. -/
theorem funcRegister_keeps (r : Reg) :
    Keeps S (funcRegister r) fun closure => ∀ v ∈ closure.2, v.Known reg := by
  refine .bind (register_keeps hS r) fun v hv => ?_
  cases v with
  | func id block bindings => exact .pure hv.inside
  | _ => exact .mismatch _ _

omit hS in
/-- Comparing does not depend on caches. -/
theorem isLess_keeps (a b : Value) : Keeps S (isLess a b) fun _ => True := by
  have hfloats : Keeps S (do let x ← asFloat a; return decide (x < (← asFloat b))) fun _ => True :=
    .bind (asFloat_keeps a) fun x _ => .bind (asFloat_keeps b) fun y _ => .pure trivial
  unfold isLess
  split
  · exact .pure trivial
  · exact .pure trivial
  · exact hfloats

/-- Arithmetic on integers gives integers, which every registry knows. -/
theorem onInts_keeps (f : Int64 → Int64 → Int64) (lhs rhs : Reg) :
    Keeps S (onInts f lhs rhs) (Value.Known reg) :=
  .bind (intRegister_keeps hS lhs) fun _ _ => .bind (intRegister_keeps hS rhs) fun _ _ =>
    .pure (Value.known_atom rfl rfl)

/-- Arithmetic on numbers gives numbers, which every registry knows. -/
theorem onFloats_keeps (f : Float → Float → Float) (lhs rhs : Reg) :
    Keeps S (onFloats f lhs rhs) (Value.Known reg) :=
  .bind (floatRegister_keeps hS lhs) fun _ _ => .bind (floatRegister_keeps hS rhs) fun _ _ =>
    .pure (Value.known_atom rfl rfl)

/-- **Operators give known values**, and do not depend on caches. -/
theorem combine_keeps (op : BinaryOp) (lhs rhs : Reg) :
    Keeps S (combine op lhs rhs) (Value.Known reg) := by
  cases op with
  | addInt => exact onInts_keeps hS _ lhs rhs
  | subInt => exact onInts_keeps hS _ lhs rhs
  | mulInt => exact onInts_keeps hS _ lhs rhs
  | divInt =>
    refine .bind (intRegister_keeps hS lhs) fun a _ => ?_
    refine .bind (intRegister_keeps hS rhs) fun b _ => ?_
    split
    · exact .raise _
    · exact .pure (Value.known_atom rfl rfl)
  | addFloat => exact onFloats_keeps hS _ lhs rhs
  | subFloat => exact onFloats_keeps hS _ lhs rhs
  | mulFloat => exact onFloats_keeps hS _ lhs rhs
  | divFloat =>
    refine .bind (floatRegister_keeps hS lhs) fun a _ =>
      .bind (floatRegister_keeps hS rhs) fun b _ => ?_
    split
    · exact .raise _
    · exact .pure (Value.known_atom rfl rfl)
  | equals =>
    exact .bind (register_keeps hS lhs) fun a _ => .bind (register_keeps hS rhs) fun b _ =>
      .pure (Value.known_atom rfl rfl)
  | lessThan =>
    exact .bind (register_keeps hS lhs) fun a _ => .bind (register_keeps hS rhs) fun b _ =>
      .bind (isLess_keeps a b) fun _ _ => .pure (Value.known_atom rfl rfl)

omit hS in

/-- The part of a known value is known. -/
theorem item?_known {v : Value} (hv : v.Known reg) (i : Nat) (n : BufferId) :
    ((v.item? i n).1.getD .null).Known reg := by
  have hget : ∀ vs : List Value, (∀ v ∈ vs, v.Known reg) → (vs[i]?.getD .null).Known reg := by
    intro vs hvs
    cases hi : vs[i]? with
    | none => exact StateTree.known_null
    | some w => exact hvs w (List.mem_of_getElem? hi)
  cases v with
  | str id s =>
    rw [Value.item?]
    cases s.toList[i]? with
    | none => exact StateTree.known_null
    | some c => exact Value.known_atom rfl rfl
  | list id items => exact hget items hv.inside
  | map id entries =>
    -- a map is read by position here, through the list of its values
    have hvalues := hget (entries.map Prod.snd) hv.inside
    rw [List.getElem?_map] at hvalues
    exact hvalues
  | record id type fields => exact hget fields hv.inside
  | _ => exact StateTree.known_null

/-- What is read from a container is a part of it, so it is known. -/
theorem readIndex_keeps (container index : Reg) :
    Keeps S (readIndex container index) (Value.Known reg) := by
  refine .bind (register_keeps hS container) fun target htarget =>
    .bind (register_keeps hS index) fun i _ => ?_
  cases target with
  | map id entries =>
    refine .pure ?_
    cases hget : i.key?.bind (Entries.get? · entries) with
    | none => exact StateTree.known_null
    | some v =>
      obtain ⟨k, _, hv⟩ := Option.bind_eq_some_iff.1 hget
      exact (Entries.known_of_map htarget).get? hv
  | list | str | record =>
    dsimp only
    split
    next n =>
      split
      · exact .pure StateTree.known_null
      · exact .bind (allocate_keeps hS fun supply => item?_known htarget _ supply)
          fun _ hv => .pure hv
    next => exact .mismatch _ _
  | _ => exact .mismatch _ _

omit hS in
/-- Finding a position does not depend on caches. -/
theorem position_keeps (index : Value) (length : Nat) :
    Keeps S (position index length) fun _ => True := by
  unfold position
  split
  · split
    · exact .pure trivial
    · exact .raise _
  · exact .mismatch _ _

/-- Looking at a condition does not depend on caches. -/
theorem isTaken_keeps (cond : Condition) : Keeps S (isTaken cond) fun _ => True := by
  cases cond with
  | always => exact .pure trivial
  | ifTrue cond => exact boolRegister_keeps hS cond
  | ifFalse cond => exact .bind (boolRegister_keeps hS cond) fun _ _ => .pure trivial
  | ifDone index container =>
    exact .bind (intRegister_keeps hS index) fun _ _ =>
      .bind (lengthOf_keeps hS container) fun _ _ => .pure trivial

omit hS in
/-- What is found in a pool has the property that its entries have. -/
theorem entry_keeps {pool : Pool} {entries : Array α} {Q : α → Prop} (index : UInt16)
    (h : ∀ a, entries[index.toNat]? = some a → Q a) : Keeps S (entry pool entries index) Q := by
  rw [entry]
  split
  next a ha => exact .pure (h a ha)
  next => exact .violate _

/-- State that is read is known, as the incoming tree of the frame is. -/
theorem readState_keeps (name : String) : Keeps S (readState name) (Value.Known reg) := by
  refine .bind (active_keeps hS) fun f hf => .pure ?_
  split
  · exact StateTree.child_known _ hf.incoming
  · exact StateTree.known_null

/-- Outputs are cast before anything changes. -/
theorem castOutputs_keeps (program : Program) {registers : Array Value}
    (hregisters : ∀ v ∈ registers, v.Known reg) {outputs : List Output}
    (houtputs : ∀ o ∈ outputs, o.placeholder.type.Known reg) (i : Nat) :
    Keeps S (castOutputs program registers i outputs) fun vs => ∀ v ∈ vs, v.Known reg := by
  induction outputs generalizing i with
  | nil => exact .pure (List.forall_mem_nil _)
  | cons o rest ih =>
    obtain ⟨ho, hrest⟩ := List.forall_mem_cons.1 houtputs
    have hdone : ∀ w, w.Known reg → Keeps S
        (do return w :: (← castOutputs program registers (i + 1) rest))
        fun vs => ∀ v ∈ vs, v.Known reg :=
      fun w hw => .bind (ih hrest (i + 1)) fun vs hvs => .pure (List.forall_mem_cons.2 ⟨hw, hvs⟩)
    rw [castOutputs]
    split
    next v hv =>
      dsimp only
      split
      · exact .bind (.pure StateTree.known_null) hdone
      · refine .bind (tryCast_keeps hS ho (hregisters v (Array.mem_of_getElem? hv))) fun r hr => ?_
        cases r with
        | ok w => exact .bind (.pure (hr w rfl)) hdone
        | error e => exact .raise_bind _
    next => exact .violate _

end Quiet

/-! ### Instructions inside a frame -/

section Steady

variable (hS : Steady reg S)
include hS

/-- A number more is written back. -/
theorem increment_keeps (r : Reg) : Keeps S (increment r) fun _ => True := by
  refine .bind (rawRegister_keeps hS.toQuiet r) fun v _ => ?_
  split
  · exact setRegister_keeps hS r (Value.known_atom rfl rfl)
  · exact setRegister_keeps hS r (Value.known_atom rfl rfl)
  · exact .mismatch _ _

omit hS in
/-- Values stay known when one of them is exchanged for a known one. -/
theorem setItem_known {items : List Value} (h : ∀ v ∈ items, v.Known reg) (i : Nat) {w : Value}
    (hw : w.Known reg) : ∀ v ∈ items.set i w, v.Known reg := by
  intro v hv
  rcases List.mem_or_eq_of_mem_set hv with hold | rfl
  · exact h v hold
  · exact hw

/-- A container with a known part exchanged is known, and is written back. -/
theorem writeIndex_keeps (container index src : Reg) :
    Keeps S (writeIndex container index src) fun _ => True := by
  have hQ := hS.toQuiet
  refine .bind (register_keeps hQ src) fun item hitem => .bind (register_keeps hQ index) fun i _ =>
    .bind (rawRegister_keeps hQ container) fun target htarget => ?_
  have hwrite : ∀ {g : Fresh Value}, (∀ n, (g n).1.Known reg) →
      Keeps S (allocate g >>= setRegister container) fun _ => True :=
    fun hg => .bind (allocate_keeps hQ hg) fun _ hv => setRegister_keeps hS container hv
  cases target with
  | map id entries =>
    dsimp only
    split
    next k _ =>
      exact hwrite fun n => ((Entries.known_of_map htarget).insert hitem).map n
    next => exact .mismatch _ _
  | list id items =>
    exact .bind (position_keeps i _) fun j _ =>
      hwrite fun n => Value.known_list (setItem_known htarget.inside j hitem) n
  | record id type fields =>
    -- a field keeps its declared type: the item is cast to it first
    refine .bind (position_keeps i _) fun j _ => ?_
    split
    next name ty hty =>
      cases htarget.type with
      | record declared hfields =>
        have hty' := hfields _ (List.mem_of_getElem? hty)
        exact .bind (cast_keeps hQ hty' hitem) fun w hw => hwrite fun n =>
          Value.known_iff.2 ⟨.record declared hfields, setItem_known htarget.inside j hw⟩
    next => exact .raise _
  | _ => exact .mismatch _ _

/-- A list with a known value more is known, and is written back. -/
theorem append_keeps (list src : Reg) : Keeps S (append list src) fun _ => True := by
  have hQ := hS.toQuiet
  refine .bind (register_keeps hQ src) fun item hitem =>
    .bind (rawRegister_keeps hQ list) fun target htarget => ?_
  cases target with
  | list id items =>
    have hitems : ∀ v ∈ items ++ [item], v.Known reg :=
      List.forall_mem_append.2 ⟨htarget.inside, List.forall_mem_singleton.2 hitem⟩
    exact .bind (allocate_keeps hQ fun n => Value.known_list hitems n) fun v hv =>
      setRegister_keeps hS list hv
  | _ => exact .mismatch _ _

/-- Known values may be written to registers one after the other. -/
theorem spread_keeps (first : Reg) (i : Nat) {vs : List Value} (hvs : ∀ v ∈ vs, v.Known reg) :
    Keeps S (spread first i vs) fun _ => True := by
  induction vs generalizing i with
  | nil => exact .pure trivial
  | cons v rest ih =>
    obtain ⟨hv, hrest⟩ := List.forall_mem_cons.1 hvs
    exact .bind (offsetRegister_keeps first i) fun r _ =>
      .bind (setRegister_keeps hS r hv) fun _ _ => ih (i + 1) hrest

/-- The bindings of a frame are known, and may be written to its registers. -/
theorem splatBindings_keeps (first : Reg) (count : UInt8) :
    Keeps S (splatBindings first count) fun _ => True := by
  refine .bind (active_keeps hS.toQuiet) fun f hf => ?_
  dsimp only
  split
  · exact spread_keeps hS first 0 hf.bindings
  · exact .violate _

/-- Inputs that are collected into a list were known before. -/
theorem collectVarargs_keeps (first : Reg) : Keeps S (collectVarargs first) fun _ => True := by
  refine active_bind_keeps hS.toQuiet fun m f rest hm hframes hf => ?_
  dsimp only
  split
  · exact .raise hm
  split
  · exact .throw_fatal nofun
  refine .bind (.allocate (Q := fun v m' => S m' ∧ m'.stack.frames = f :: rest ∧ v.Known reg)
    ⟨hS.supply hm _, hframes, Value.known_list ?_ _⟩) fun list m' ⟨hm', hframes', hlist⟩ => ?_
  · exact fun v hv => extract_known hf.registers _ _ v (Array.mem_toList_iff.1 hv)
  · refine hS.setRegisters hm' hframes' hf (setIfInBounds_known (fun v hv => ?_) _ hlist)
    -- the registers whose values went into the list hold null now
    obtain ⟨i, hi, rfl⟩ := Array.mem_mapIdx.1 hv
    split
    · exact StateTree.known_null
    · exact hf.registers _ (Array.getElem_mem hi)

/-- A known value may be saved by the active frame. -/
theorem saveState_keeps (name : String) {v : Value} (hv : v.Known reg) :
    Keeps S (saveState name v) fun _ => True := by
  refine modifyActive_keeps hS fun f hf => ?_
  split
  · exact ⟨⟨hf.registers, hf.incoming, StateTree.save_known name hf.outgoing hv, hf.bindings⟩,
      ⟨rfl, rfl, rfl⟩⟩
  · exact ⟨hf, ⟨rfl, rfl, rfl⟩⟩

/-- New registers of the active frame hold null. -/
theorem growFrame_keeps (size : Nat) :
    Keeps S (modifyActive fun f => if f.registers.size < size then f.resize size else f)
      fun _ => True := by
  refine modifyActive_keeps hS fun f hf => ?_
  split
  · exact ⟨hf.withRegisters (Frame.resized_known hf.registers size), ⟨rfl, rfl, rfl⟩⟩
  · exact ⟨hf, ⟨rfl, rfl, rfl⟩⟩

end Steady

/-! ### Calls and returns -/

/-- Calling a closure enters its block with known arguments and bindings. -/
theorem callFunc_keeps (hS : Open reg S) (base : Reg) (argc : UInt8) (out : Reg) :
    Keeps S (callFunc base argc out) fun _ => True :=
  have hQ := hS.steady.toQuiet
  .bind (funcRegister_keeps hQ base) fun _ hclosure => .bind (offsetRegister_keeps base 1)
    fun first _ => .bind (arguments_keeps hQ first argc.toNat) fun _ hargs =>
    enter_keeps hS _ hargs hclosure

/-- Applying a closure to a list enters its block with known arguments and bindings. -/
theorem applyFunc_keeps (hS : Open reg S) (func args out : Reg) :
    Keeps S (applyFunc func args out) fun _ => True := by
  have hQ := hS.steady.toQuiet
  refine .bind (funcRegister_keeps hQ func) fun _ hclosure =>
    .bind (register_keeps hQ args) fun list hlist => ?_
  cases list with
  | list id items => exact enter_keeps hS _ hlist.inside hclosure
  | _ => exact .mismatch _ _

/-- A machine stays sound with any known tree of state. -/
theorem Sound.withState (h : m.Sound) {v : Value} (hv : v.Known m.world.registry) :
    Sound { m with stack := { m.stack with state := v } } :=
  ⟨⟨h.world, ⟨h.stack.frames, hv, h.stack.retained, h.stack.env, h.stack.messages⟩, h.caches⟩,
    h.ended, h.runs⟩

/-- A popped frame leaves the frames behind it, and maybe a snapshot. -/
theorem Sound.popFrame (h : m.Sound) : Sound { m with stack := m.stack.popFrame.2 } ∧
    m.stack.popFrame.2.error = m.stack.error ∧
    ∀ f, m.stack.popFrame.1 = some f → f.Known m.world.registry := by
  rw [Stack.popFrame]
  cases hframes : m.stack.frames with
  | nil => exact ⟨h, rfl, nofun⟩
  | cons f rest =>
    have hf := h.stack.frames f (hframes ▸ List.mem_cons_self)
    have hrest : ∀ g ∈ rest, g ∈ m.stack.frames := fun g hg => hframes ▸ List.mem_cons_of_mem _ hg
    refine ⟨⟨⟨h.world, ⟨fun g hg => h.stack.frames g (hrest g hg), h.stack.state, ?_, h.stack.env,
      h.stack.messages⟩, h.caches⟩, h.ended, fun herror g hg => h.runs herror g (hrest g hg)⟩,
      rfl, ?_⟩
    · dsimp only
      split
      · exact List.forall_mem_append.2
          ⟨h.stack.retained, List.forall_mem_singleton.2 hf.snapshot⟩
      · exact h.stack.retained
    · intro g hg
      obtain rfl := Option.some.inj hg
      exact hf.withRegisters (by simp)

/-- Outputs that were cast are placed in registers, where they are known. -/
theorem placeOutputs_known {registers : Array Value} (h : ∀ v ∈ registers, v.Known reg)
    {outputs : List (Output × Value)} (houtputs : ∀ o ∈ outputs, o.2.Known reg) :
    ∀ v ∈ placeOutputs registers outputs, v.Known reg := by
  induction outputs generalizing registers with
  | nil => exact h
  | cons o rest ih =>
    obtain ⟨ho, hrest⟩ := List.forall_mem_cons.1 houtputs
    exact ih (setIfInBounds_known h _ ho) hrest

/-- A parent receives known values in its registers. -/
theorem receive_known {registers : Array Value} (h : ∀ v ∈ registers, v.Known reg) (out : Nat)
    {values : List Value} (hvalues : ∀ v ∈ values, v.Known reg) :
    ∀ v ∈ receive registers out values, v.Known reg := by
  have hfold : ∀ (placed : List (Value × Nat)) (registers : Array Value),
      (∀ e ∈ placed, e.1.Known reg) → (∀ v ∈ registers, v.Known reg) →
      ∀ v ∈ placed.foldl (fun rs e => rs.setIfInBounds e.2 e.1) registers, v.Known reg := by
    intro placed
    induction placed with
    | nil => exact fun _ _ hregisters => hregisters
    | cons e rest ih =>
      intro registers hplaced hregisters
      obtain ⟨he, hrest⟩ := List.forall_mem_cons.1 hplaced
      exact ih _ hrest (setIfInBounds_known hregisters _ he)
  refine hfold _ _ (fun e he => hvalues e.1 (List.fst_mem_of_mem_zipIdx he)) ?_
  split
  · exact Frame.resized_known h _
  · exact h

/-- When the root returns, its outputs and its state stay with the stack, with caches and without. -/
theorem leaveRoot_agrees (hS : Open reg S) (hm : S m) {f : Frame} {rest : List Frame}
    (hframes : m.stack.frames = f :: rest) {outputs : List (Output × Value)}
    (houtputs : ∀ o ∈ outputs, o.2.Known reg) :
    Agrees (leaveRoot f outputs) m (fun _ m' => S m' ∧ True) S := by
  have hf := (hS.steady.stack hm).frames f (hframes ▸ List.mem_cons_self)
  refine .bind (.allocate (Q := fun v m' => S m' ∧ m'.stack.frames = f :: rest ∧ v.Known reg)
    ⟨hS.steady.supply hm _, hframes, StateTree.ofOutgoing_known _ hf.outgoing⟩)
    fun state m₁ ⟨hm₁, hframes₁, hstate⟩ => ?_
  refine .bind (hS.steady.setActive hm₁ hframes₁
    ⟨placeOutputs_known hf.registers houtputs, hf.incoming, nofun, hf.bindings⟩ ⟨rfl, rfl, rfl⟩)
    fun _ m₂ ⟨hm₂, _⟩ => ?_
  have hreg := hS.registry hm₂
  exact .modifyStack rfl ⟨hS.other hm₂ ((hS.sound hm₂).withState (hreg ▸ hstate)) hreg rfl, trivial⟩

/-- What a child delivers to its parent is known: outputs, and the state it has saved. -/
theorem deliver_keeps (hS : Open reg S) {child : Frame} (hchild : child.Known reg)
    {outputs : List Value} (houtputs : ∀ v ∈ outputs, v.Known reg) :
    Keeps S (deliver child outputs) fun _ => True := by
  refine active_bind_keeps hS.steady.toQuiet fun m parent rest hm hframes hparent => ?_
  have hreceived : ∀ out, ∀ v ∈ receive parent.registers out outputs, v.Known reg :=
    fun out => receive_known hparent.registers out houtputs
  dsimp only
  -- the state of the child goes into the parent's, if the child has a key
  split
  next k _ =>
    refine .bind (.allocate
      (Q := fun es m' => (S m' ∧ m'.stack.frames = parent :: rest) ∧ Entries.Known reg es)
      ⟨⟨hS.steady.supply hm _, hframes⟩,
        StateTree.merge_known k _ hparent.outgoing hchild.outgoing⟩)
      fun es m' h => hS.steady.setActive h.1.1 h.1.2
        ⟨?_, hparent.incoming, h.2, hparent.bindings⟩ ⟨rfl, rfl, rfl⟩
    -- the outputs go where the call asked for them
    dsimp only
    split
    · exact hreceived _
    · exact hparent.registers
  next =>
    refine .bind (.pure (Q := fun es m' => m' = m ∧ es = parent.outgoing) ⟨rfl, rfl⟩)
      fun es m' h => h.1 ▸ h.2 ▸ hS.steady.setActive hm hframes
        ⟨?_, hparent.incoming, hparent.outgoing, hparent.bindings⟩ ⟨rfl, rfl, rfl⟩
    dsimp only
    split
    · exact hreceived _
    · exact hparent.registers

/-- Returning hands outputs and state to the caller, or leaves them with the root. -/
theorem leave_keeps (hS : Open reg S) {program : Program} (hprogram : program.signature.Known reg) :
    Keeps S (leave program) fun _ => True := by
  have hQ := hS.steady.toQuiet
  refine active_bind_keeps hQ fun m f rest hm hframes hf => ?_
  -- casting outputs only takes buffer numbers, so the frame that returns stays on top
  have hhere := hQ.and (T := fun m => m.stack.frames = f :: rest) fun h _ => h
  refine .bind ((castOutputs_keeps hhere program hf.registers hprogram.outputs 0 m
    ⟨hm, hframes⟩).relax fun _ h => h.1) fun vs m₁ ⟨hm₁, hvs⟩ => ?_
  split
  · refine .bind (leaveRoot_agrees hS hm₁.1 hm₁.2 fun o ho => ?_) fun _ _ h => .pure h
    exact hvs o.2 (List.of_mem_zip ho).2
  · obtain ⟨hsound, herror, _⟩ := (hS.sound hm₁.1).popFrame
    have hpop := hS.other hm₁.1 hsound (hS.registry (m := m₁) hm₁.1) herror
    refine .bind (.onStack (Q := fun _ m' => S m') (Stack.popFrame_uncached _) hpop)
      fun _ m₂ hm₂ => ?_
    exact .bind (deliver_keeps hS hf hvs m₂ hm₂) fun _ _ h => .pure h

/-! ### Jumps and sends -/

variable {p : Program}

/-- The active frame stands where the control flow of the program leads. -/
theorem On.reaches (h : On reg p m) {f : Frame} {rest : List Frame}
    (hframes : m.stack.frames = f :: rest) : p.Reaches f.pc.offset := by
  obtain ⟨⟨⟨hsound, _⟩, herror⟩, hslot, g, rest', hframes', hindex, hversion⟩ := h
  rw [hframes] at hframes'
  obtain ⟨rfl, rfl⟩ := List.cons.inj hframes'
  have hruns := hsound.runs herror f (hframes ▸ List.mem_cons_self)
  exact hruns.reaches hsound.world (hindex.symm ▸ hslot) hversion

/-- The active frame goes on at another offset that control flow leads to. -/
theorem On.advance (h : On reg p m) {f f' : Frame} {rest : List Frame}
    (hframes : m.stack.frames = f :: rest) (hf' : f'.Known reg) (hprogram : f'.program = f.program)
    (hversion : f'.version = f.version) (hreaches : p.Reaches f'.pc.offset) :
    On reg p (m.withFrames (f' :: rest)) := by
  obtain ⟨⟨⟨hsound, hreg⟩, herror⟩, hslot, g, rest', hframes', hindex, hcurrent⟩ := h
  rw [hframes] at hframes'
  obtain ⟨rfl, rfl⟩ := List.cons.inj hframes'
  have hruns : f'.Runs m.world :=
    .of_reaches hsound.world (by rw [hprogram, hindex, hslot]) (hversion.trans hcurrent) hreaches
  have hrest : ∀ g ∈ rest, g ∈ m.stack.frames := fun g hg => hframes ▸ List.mem_cons_of_mem _ hg
  refine ⟨⟨⟨hsound.withFrames ?_ fun _ => ?_, hreg⟩, herror⟩, hslot, f', rest, rfl,
    hprogram.trans hindex, hversion.trans hcurrent⟩
  · exact List.forall_mem_cons.2 ⟨hreg ▸ hf', fun g hg => hsound.stack.frames g (hrest g hg)⟩
  · exact List.forall_mem_cons.2 ⟨hruns, fun g hg => hsound.runs herror g (hrest g hg)⟩

/-- The active frame gets new contents, and stands where the program can reach. -/
theorem On.setActive (h : On reg p m) {f f' : Frame} {rest : List Frame}
    (hframes : m.stack.frames = f :: rest) (hf' : f'.Known reg) (hprogram : f'.program = f.program)
    (hversion : f'.version = f.version) (hreaches : p.Reaches f'.pc.offset) :
    Agrees (setActive f') m (fun _ m' => On reg p m' ∧ True) (On reg p) := by
  have htail : m.stack.frames.tail = rest := by rw [hframes]; rfl
  have hadvance : On reg p (m.withFrames (f' :: m.stack.frames.tail)) :=
    htail ▸ h.advance hframes hf' hprogram hversion hreaches
  exact .modifyStack rfl ⟨hadvance, trivial⟩

/-- A jump goes on where the program can reach. -/
theorem jump_keeps {next : Nat} {offset : Int16}
    (hreaches : p.Reaches (next + offset.toInt).toNat) :
    Keeps (On reg p) (jump next offset) fun _ => True := by
  rw [jump]
  dsimp only
  split
  · exact .violate _
  refine active_bind_keeps (steady_on reg p).toQuiet fun m f rest hm hframes hf => ?_
  exact hm.setActive hframes ⟨hf.registers, hf.incoming, hf.outgoing, hf.bindings⟩ rfl rfl hreaches

/-- **Sends do not depend on caches.** With and without a cache, a name that the running program
    sends at a site means the same. -/
theorem sendLine_agrees (hm : On reg p m) {send : Send} (hprogram : send.program = p.index)
    (hsends : p.Sends send.site send.name) {receiver : Value} (hreceiver : receiver.Known reg)
    {E : Machine → Prop} : Agrees (sendLine send receiver) m (fun _ m' => Calm reg m') E := by
  obtain ⟨⟨⟨hsound, hreg⟩, herror⟩, hslot, _⟩ := hm
  have huncached : sendLine send receiver m.uncached =
      (.ok (m.world.resolvedLine receiver send.name), m.uncached) := rfl
  cases hcache : m.stack.config.inlineCache with
  | false =>
    have hrun : sendLine send receiver m =
        (.ok (m.world.resolvedLine receiver send.name), m) := by
      simp only [sendLine, Failing.bind_apply, Failing.get_apply, hcache]
      rfl
    exact .ok hrun huncached ⟨⟨hsound, hreg⟩, herror⟩
  | true =>
    -- here the invariant pays off: the cached answer is the resolution itself
    obtain ⟨hline, hcaches⟩ := hsound.caches.consult hsound.world hslot hsends (hreg ▸ hreceiver)
    rw [← hprogram] at hline hcaches
    have hrun : sendLine send receiver m =
        (.ok (m.world.resolvedLine receiver send.name), { m with stack := { m.stack with
          caches := (m.stack.caches.consult send.program send.site.toNat
            (m.world.resolvedLine receiver send.name)).2 } }) := by
      rw [← hline]
      simp only [sendLine, Failing.bind_apply, Failing.get_apply, hcache, hline]
      rfl
    have hstack := hsound.stack
    exact .ok hrun huncached ⟨⟨⟨⟨hsound.world, ⟨hstack.frames, hstack.state, hstack.retained,
      hstack.env, hstack.messages⟩, hcaches⟩, hsound.ended, hsound.runs⟩, hreg⟩, herror⟩

/-- What a receiver holds under a name is known. -/
theorem heldValue?_known {w : World} (hw : w.Coherent) {receiver v : Value}
    (hreceiver : receiver.Known w.registry) {name : String}
    (hv : heldValue? w receiver name = some v) : v.Known w.registry := by
  cases receiver with
  | module type =>
    simp only [heldValue?] at hv
    split at hv
    next u hmember =>
      obtain rfl := Option.some.inj hv
      obtain ⟨mod, hmod, hu⟩ := Option.bind_eq_some_iff.1 hmember
      obtain ⟨front, back, hmembers, _⟩ := List.lookup_eq_some_iff.1 hu
      have hmem : (name, Member.value u) ∈ mod.members := by
        rw [hmembers]
        exact List.mem_append_right _ List.mem_cons_self
      exact (hw.modules mod (List.mem_of_find?_eq_some hmod)).members _ hmem u rfl
    next => exact nomatch hv
  | map id entries => exact (Entries.known_of_map hreceiver).get? hv
  | _ => exact nomatch hv

/-- A send ends in a call, a read or an error. -/
theorem send_agrees (hm : On reg p m) {s : Send} (hprogram : s.program = p.index)
    (hsends : p.Sends s.site s.name) :
    Agrees (send s) m (fun _ m' => Calm reg m' ∧ True) (Calm reg) := by
  have hS := open_calm reg
  have hQ := hS.steady.toQuiet
  refine .bind ((register_keeps (steady_on reg p).toQuiet s.base m hm).relax
    fun _ h => h.1) fun receiver m₁ ⟨hm₁, hreceiver⟩ => ?_
  refine .bind (sendLine_agrees hm₁ hprogram hsends hreceiver) fun line m₂ hm₂ => ?_
  split
  · exact (Keeps.bind (arguments_keeps hQ s.base s.argc.toNat) fun args hargs =>
      enter_keeps hS _ hargs (List.forall_mem_nil _)) m₂ hm₂
  · exact (Keeps.bind (offsetRegister_keeps s.base 1) fun first _ =>
      .bind (arguments_keeps hQ first _) fun args hargs =>
        enter_keeps hS _ hargs (List.forall_mem_nil _)) m₂ hm₂
  -- modules without a block for the name and maps are read the same way
  case h_3 | h_4 =>
    refine .get_bind rfl ?_
    split
    next v hv =>
      have hknown := heldValue?_known hm₂.1.1.world (hm₂.1.2 ▸ hreceiver) hv
      exact setRegister_keeps hS.steady s.out (hm₂.1.2 ▸ hknown) m₂ hm₂
    next => exact .raise hm₂
  · exact .raise hm₂

end Machine

end BlockMachine

import BlockMachine.Proofs.Machine.MirrorNatives
import BlockMachine.Proofs.Program.Filing
import BlockMachine.Proofs.State.Course

namespace BlockMachine

/-!
# Outlines of machines

The outline of a machine is what the state of its run depends on: the tree, how frames hang together
and what they read and saved, the table of natives and the phase. Most operations leave it alone.

* `Machine.Preserves` holds of computations that leave a view of the machine alone, however they end;
* `Machine.perform_inside_preserves`: instructions inside a frame do, saves apart, if the view does not
  show what a frame computes with;
* `Machine.enter_outline` and `Machine.leave_outline` say what calls and returns do to it.
-/

/-- What the state of a run depends on. -/
structure Outline where
  state : Value
  strands : List Strand
  natives : NativeTable
  phase : Phase

/-- What a new frame reads. -/
def Outline.incomingFor (o : Outline) (key : Option Key) : Value :=
  match o.strands, key with
  | [], _ => o.state
  | parent :: _, some k => StateTree.child parent.incoming k
  | _ :: _, none => .null

/-- The outline with one more frame. -/
def Outline.enter (o : Outline) (key : Option Key) : Outline :=
  { o with strands := ⟨o.strands.isEmpty, key, o.incomingFor key, []⟩ :: o.strands }

namespace Machine

variable {α β σ : Type} {m m' : Machine}

/-- The outline of a machine. -/
def outline (m : Machine) : Outline :=
  ⟨m.stack.state, m.stack.frames.map Frame.strand, m.world.natives, m.stack.phase⟩

/-- The outline of a machine, and the error that ended its run if one did. -/
def status (m : Machine) : Outline × Option StackError :=
  (m.outline, m.stack.error)

/-- A computation on the world changes the world, and raises its errors. -/
theorem onWorld_apply (g : World.Action α) (m : Machine) : onWorld g m =
    match g m.world with
    | (.ok a, w) => (.ok a, { m with world := w })
    | (.error e, w) => (.error (.raised (.compile e)), { m with world := w }) := by
  simp only [onWorld, Failing.bind_apply, Failing.get_apply]
  rcases g m.world with ⟨_ | _, w⟩ <;> rfl

/-- A computation leaves what is seen of a machine alone, however it ends. -/
def Preserves (view : Machine → σ) (a : Action α) : Prop :=
  ∀ m, view (a m).2 = view m

namespace Preserves

variable {view : Machine → σ} {a : Action α} {f : α → Action β}

/-- What is preserved in full is preserved in part. -/
theorem part {τ : Type} (ha : Preserves view a) (g : σ → τ) : Preserves (fun m => g (view m)) a :=
  fun m => congrArg g (ha m)

/-- Nothing is changed where a value is given back. -/
theorem pure (x : α) : Preserves view (pure x) := fun _ => rfl

/-- Nothing is changed where a computation fails at once. -/
theorem throw (e : Fault) : Preserves view (throw e : Action α) := fun _ => rfl

/-- Computations that leave a view alone do so one after the other. -/
theorem bind (ha : Preserves view a) (hf : ∀ x, Preserves view (f x)) :
    Preserves view (a >>= f) := by
  intro m
  have hm := ha m
  rw [Failing.bind_apply]
  generalize a m = r at hm
  obtain ⟨_ | x, m'⟩ := r
  · exact hm
  · exact (hf x m').trans hm

/-- What looks at the machine first has to leave what is seen of it. -/
theorem get_bind {f : Machine → Action β} (hf : ∀ m, view (f m m).2 = view m) :
    Preserves view (get >>= f) :=
  hf

/-- What looks at the stack first has to leave what is seen of the machine. -/
theorem getStack_bind {f : Stack → Action β} (hf : ∀ m, view (f m.stack m).2 = view m) :
    Preserves view (getStack >>= f) :=
  hf

/-- A change of the world has to be one that is not seen. -/
theorem tryWorld {g : World.Action α}
    (hg : ∀ m, view { m with world := (g m.world).2 } = view m) : Preserves view (tryWorld g) :=
  hg

/-- A change of the world whose errors are raised has to be one that is not seen. -/
theorem onWorld {g : World.Action α}
    (hg : ∀ m, view { m with world := (g m.world).2 } = view m) : Preserves view (onWorld g) := by
  intro m
  have hm := hg m
  rw [onWorld_apply]
  generalize g m.world = r at hm
  obtain ⟨_ | _, w⟩ := r <;> exact hm

end Preserves

/-- What the world can do without being noticed in the outline. -/
theorem outline_world {w : World} (h : w.natives = m.world.natives) :
    outline { m with world := w } = m.outline := by
  rw [outline, h]
  rfl

/-- Of the world only the natives show in the status. -/
theorem status_world {w : World} (h : w.natives = m.world.natives) :
    status { m with world := w } = m.status := by
  rw [status, outline_world h]
  rfl

/-- Fetching a program leaves the outline alone. -/
theorem program_outline (index : Nat) : Preserves outline (onWorld (World.program index)) :=
  .onWorld fun m => outline_world (World.program_only index m.world).natives

/-! ### Instructions inside a frame -/

/-- A view that does not show what a frame computes with: buffer numbers, caches, registers. -/
structure Aloof (view : Machine → σ) : Prop where
  supply : ∀ m supply, view (m.withSupply supply) = view m
  caches : ∀ m caches, view { m with stack := { m.stack with caches := caches } } = view m
  role : ∀ {m f f' rest}, m.stack.frames = f :: rest → f'.role = f.role →
    view (m.withFrames (f' :: rest)) = view m

/-- The status does not show what a frame computes with. -/
theorem aloof_status : Aloof status where
  supply _ _ := rfl
  caches _ _ := rfl
  role := by
    intro m f f' rest hframes hrole
    -- the strand of a frame is part of its role
    have hstrand : f'.strand = f.strand :=
      show f'.role.strand = f.role.strand from congrArg Frame.strand hrole
    rw [status, status, outline, outline, hframes]
    simp only [withFrames, List.map_cons, hstrand]

/-- Less is shown. -/
theorem Aloof.part {τ : Type} {view : Machine → σ} (h : Aloof view) (g : σ → τ) :
    Aloof fun m => g (view m) where
  supply m supply := congrArg g (h.supply m supply)
  caches m caches := congrArg g (h.caches m caches)
  role hframes hrole := congrArg g (h.role hframes hrole)

/-- The outline does not show what a frame computes with. -/
theorem aloof_outline : Aloof outline :=
  aloof_status.part Prod.fst

/-- Two machines are the same, and look in a given way. -/
def Still (view : Machine → σ) (o : σ) : Matching → Machine → Machine → Prop :=
  fun ρ m₁ m₂ => ρ = .same ∧ m₁ = m₂ ∧ view m₁ = o

/-- No fault is let pass. -/
abbrev Strict : Fault → Prop :=
  fun _ => False

section

variable {view : Machine → σ} (hview : Aloof view)
include hview

/-- A machine and itself may compute in step where that is not seen. -/
theorem Aloof.mirroring (o : σ) : Mirroring (Still view o) where
  fresh := by
    rintro ρ m₁ m₂ ⟨rfl, rfl, hm⟩
    exact ⟨.same, le_rfl, fun _ _ => rfl, rfl, rfl, (hview.supply m₁ _).trans hm⟩
  frames := by
    rintro ρ m₁ m₂ ⟨rfl, rfl, -⟩
    cases hframes : m₁.stack.frames with
    | nil => exact .inl ⟨rfl, rfl⟩
    | cons f rest => exact .inr ⟨f, rest, f, rest, rfl, rfl, .refl f⟩
  update := by
    rintro ρ m₁ m₂ f₁ f₂ f₁' f₂' rest₁ rest₂ ⟨rfl, rfl, hm⟩ h₁ h₂ hrole₁ hrole₂ hregisters hoffset
      hretain
    obtain ⟨rfl, rfl⟩ := List.cons.inj (h₁.symm.trans h₂)
    obtain rfl : f₁' = f₂' := Frame.eq_of_role (hrole₁.trans hrole₂.symm)
      (Registers.like_same hregisters) hoffset (hretain rfl)
    exact ⟨rfl, rfl, (hview.role h₁ hrole₁).trans hm⟩

/-- Sends mean the same in a machine and itself. -/
theorem Aloof.sending (o : σ) (i : Nat) : Sending Strict (Still view o) i i where
  toMirroring := hview.mirroring o
  line := by
    rintro ρ v w s rfl hvw m₁ m₂ ⟨rfl, rfl, hm⟩
    obtain rfl := Value.like_same.1 hvw
    cases hcache : m₁.stack.config.inlineCache with
    | false =>
      simp only [sendLine, Failing.bind_apply, Failing.get_apply, hcache]
      exact .ok le_rfl ⟨rfl, rfl, hm⟩ rfl
    | true =>
      simp only [sendLine, Failing.bind_apply, Failing.get_apply, hcache]
      exact .ok le_rfl ⟨rfl, rfl, (hview.caches m₁ _).trans hm⟩ rfl
  held := by
    rintro ρ m₁ m₂ v w name ⟨rfl, rfl, -⟩ hvw
    obtain rfl := Value.like_same.1 hvw
    cases heldValue? m₁.world v name with
    | none => exact .none
    | some u => exact .some (Value.like_same.2 rfl)

end

/-- A computation that keeps a machine in step with itself keeps what is seen of it. -/
theorem still_of_mirrors {view : Machine → σ} {o : σ} {a : Action α} {V : Matching → α → α → Prop}
    (h : Mirrors Strict (Still view o) .same a a V) (hm : view m = o) : view (a m).2 = o := by
  have hend := h m m ⟨rfl, rfl, hm⟩
  generalize a m = r at hend
  cases hend with
  | ok _ machines _ => exact machines.2.2
  | error _ machines => exact machines.2.2
  | pass h => exact h.elim

/-- What keeps every machine in step with itself leaves the view alone. -/
theorem Preserves.of_mirrors {view : Machine → σ} {a : Action α} {V : Matching → α → α → Prop}
    (h : ∀ o, Mirrors Strict (Still view o) .same a a V) : Preserves view a :=
  fun m => still_of_mirrors (h (view m)) rfl

section

variable {view : Machine → σ} (hview : Aloof view)
include hview

/-- Natives do not see the difference either, if channels, random numbers and what is printed do not matter
    to the view. -/
theorem Aloof.serving {o : σ}
    (hprinted : ∀ m printed, view { m with printed := printed } = view m)
    (hrandom : ∀ m random, view { m with stack := { m.stack with random := random } } = view m)
    (hmessages : ∀ m messages, view { m with stack := { m.stack with messages := messages } } = view m)
    (hraises : ∀ message m, view m = o → view (raiseError message m).2 = o) :
    Serving Strict (Still view o) where
  toMirroring := hview.mirroring o
  outputs := by
    rintro ρ m₁ m₂ ⟨-, rfl, -⟩ i
    rfl
  prints := by
    rintro ρ m₁ m₂ ⟨rfl, rfl, hm⟩ text
    exact ⟨rfl, rfl, (hprinted m₁ _).trans hm⟩
  draws := by
    rintro ρ m₁ m₂ ⟨rfl, rfl, hm⟩
    exact ⟨rfl, fun random => ⟨rfl, rfl, (hrandom m₁ random).trans hm⟩⟩
  env := by
    rintro ρ m₁ m₂ ⟨rfl, rfl, -⟩ k
    cases Entries.get? k m₁.stack.env with
    | none => exact .none
    | some v => exact .some (Value.like_same.2 rfl)
  emits := by
    rintro ρ v w channel hvw m₁ m₂ ⟨rfl, rfl, hm⟩
    obtain rfl := Value.like_same.1 hvw
    refine .ok le_rfl ⟨rfl, rfl, ?_⟩ rfl
    show view { m₁ with stack := (m₁.stack.emit channel v).2 } = o
    rw [Stack.emit]
    cases Entries.get? channel m₁.stack.messages with
    | none => exact hm
    | some queue => exact (hmessages m₁ _).trans hm
  raises := by
    rintro ρ message m₁ m₂ ⟨rfl, rfl, hm⟩
    have hraised := hraises message m₁ hm
    generalize raiseError message m₁ = r at hraised
    obtain ⟨e | x, m'⟩ := r
    · exact .error le_rfl ⟨rfl, rfl, hraised⟩
    · exact .ok le_rfl ⟨rfl, rfl, hraised⟩ rfl

/-! What is written to registers is not seen in such a view. -/

/-- An output is set in a register, which is not seen. -/
theorem Aloof.setOutput (index : Nat) (v : Value) : Preserves view (setOutput index v) :=
  .of_mirrors fun o => setOutput_mirrors (hview.mirroring o)
    (fun hm i => by obtain ⟨-, rfl, -⟩ := hm; rfl) index (Value.like_same.2 rfl)

/-- An input is set in a register, which is not seen. -/
theorem Aloof.setInput (index : Nat) (v : Value) : Preserves view (setInput index v) :=
  .of_mirrors fun o => setInput_mirrors (hview.mirroring o) index (Value.like_same.2 rfl)

/-- The number of registers is not seen. -/
theorem Aloof.resize (count : Nat) : Preserves view (resize count) :=
  .of_mirrors fun o => modifyActive_mirrors (hview.mirroring o) (fun _ => rfl)
    fun _ _ _ hf => ⟨hf.registers.resized count, hf.offset, id⟩

/-- The buffers that a cast takes are not seen. -/
theorem Aloof.tryCast (ty : Ty) (v : Value) : Preserves view (tryCast ty v) :=
  .of_mirrors fun o => tryCast_mirrors (hview.mirroring o).toDrawing ty (Value.like_same.2 rfl)

end

/-- **Instructions inside a frame are not seen** in a view that does not show what frames compute with. -/
theorem perform_inside_preserves {view : Machine → σ} (hview : Aloof view) {host : Embedder}
    {resume : Action Outcome} {program : Program} (next : Nat) {i : Instruction}
    (hi : i.staysInside = true) : Preserves view (perform host resume program next i) :=
  .of_mirrors fun o => perform_inside_mirrors (hview.mirroring o)
    (.refl program) next hi

/-- Instructions inside a frame leave the outline alone. -/
theorem perform_inside_outline {host : Embedder} {resume : Action Outcome} {program : Program}
    (next : Nat) {i : Instruction} (hi : i.staysInside = true) :
    Preserves outline (perform host resume program next i) :=
  perform_inside_preserves aloof_outline next hi

/-- Drawing buffer numbers is not seen in most views. -/
theorem castOutputs_preserves {view : Machine → σ}
    (hview : ∀ m supply, view (m.withSupply supply) = view m) (program : Program)
    (registers : Array Value) (i : Nat) (outputs : List Output) :
    Preserves view (castOutputs program registers i outputs) := by
  have hdrawing : ∀ o, Drawing (Still view o) := fun o => {
    fresh := by
      rintro ρ m₁ m₂ ⟨rfl, rfl, hm⟩
      exact ⟨.same, le_rfl, fun _ _ => rfl, rfl, rfl, (hview m₁ _).trans hm⟩ }
  exact .of_mirrors fun o =>
    castOutputs_mirrors (hdrawing o) rfl (.refl registers) i outputs

/-- Casting arguments is not seen in such a view. -/
theorem castArguments_preserves {view : Machine → σ} (hview : Aloof view) (s : Signature) (i : Nat)
    (args : List Value) : Preserves view (castArguments s i args) :=
  .of_mirrors fun o => castArguments_mirrors (hview.mirroring o).toDrawing s i
    (List.forall₂_same.2 fun _ _ => Value.like_same.2 rfl)

/-! ### Calls -/

/-- What entering a block may do: fail and leave the outline alone, or push a frame. -/
def Entered (key : Option Key) (m : Machine) (r : Except Fault Unit × Machine) : Prop :=
  match r with
  | (.error _, m') => m'.outline = m.outline
  | (.ok _, m') => m'.outline = m.outline.enter key

/-- **Entering a block** fails and leaves the outline alone, or adds a frame to it. -/
theorem enter_outline (block : BlockId) (args : List Value) (link : Link) (m : Machine) :
    Entered link.key m (enter block args link m) := by
  -- a computation that keeps the outline, followed by one that pushes
  have hbind : ∀ {α : Type} {a : Action α} {f : α → Action Unit} (n : Machine), Preserves outline a →
      n.outline = m.outline →
      (∀ x n', n'.outline = m.outline → Entered link.key m (f x n')) →
      Entered link.key m ((a >>= f) n) := by
    intro α a f n ha hn hf
    have hkeep := (ha n).trans hn
    rw [Failing.bind_apply]
    generalize a n = r at hkeep
    obtain ⟨_ | x, n'⟩ := r
    · exact hkeep
    · exact hf x n' hkeep
  have hstack : ∀ {f : Stack → Action Unit}, Entered link.key m (f m.stack m) →
      Entered link.key m ((getStack >>= f) m) := fun h => h
  refine hstack ?_
  dsimp only
  split
  · exact rfl
  have hcompile : Preserves outline (onWorld (World.compile block)) :=
    .onWorld fun m => outline_world (World.compile_only block m.world).natives
  refine hbind m hcompile rfl fun index m₁ h₁ => ?_
  refine hbind m₁ (program_outline index) h₁ fun program m₂ h₂ => ?_
  split
  · exact h₂
  refine hbind m₂ (castArguments_preserves aloof_outline _ 0 args) h₂ fun vs m₃ h₃ => ?_
  -- the frame that is pushed was made for the stack as it was before
  have hincoming : incomingFor m.stack link.key = m.outline.incomingFor link.key := by
    simp only [incomingFor, outline, Outline.incomingFor]
    cases m.stack.frames <;> cases link.key <;> rfl
  have hroot : (if m.stack.depth = 0 then none else some (m.stack.depth - 1)).isNone =
      m.outline.strands.isEmpty := by
    cases hframes : m.stack.frames <;> simp [outline, Stack.depth, hframes]
  show outline { m₃ with stack := { m₃.stack with frames := _ :: m₃.stack.frames } } = _
  rw [Outline.enter, ← hincoming, ← hroot, ← h₃]
  rfl

/-- Calls of every kind do no more than enter a block. -/
theorem perform_call_preserves {view : Machine → σ} (hview : Aloof view)
    (henter : ∀ block args link, Preserves view (enter block args link)) {host : Embedder}
    {resume : Action Outcome} {program : Program} (next : Nat) {i : Instruction}
    (hi : i.isCall = true) : Preserves view (perform host resume program next i) := by
  refine .of_mirrors fun o m₁ m₂ hm => perform_call_mirrors (hview.sending o _) (.refl program)
    (fun h => h) (fun h => h) ?_ next hi hm
  rintro ρ block args args' link link' - hargs hlink n₁ n₂ ⟨rfl, rfl, hn⟩
  obtain rfl := Items.like_same hargs
  obtain rfl := Link.like_same hlink
  have hview' := henter block args link n₁
  generalize enter block args link n₁ = r at hview'
  obtain ⟨e | _, m'⟩ := r
  · exact .error le_rfl ⟨rfl, rfl, hview'.trans hn⟩
  · exact .ok le_rfl ⟨rfl, rfl, hview'.trans hn⟩ trivial

/-- Calls of every kind fail, stay, or push a frame. -/
theorem perform_call_outline {host : Embedder} {resume : Action Outcome} {program : Program}
    (next : Nat) {i : Instruction} (hi : i.isCall = true) (m : Machine) :
    (perform host resume program next i m).2.outline = m.outline ∨
      ∃ key, (perform host resume program next i m).2.outline = m.outline.enter key := by
  have henter : ∀ ρ block args args' link link', Matching.same ≤ ρ → Items.Like ρ args args' →
      Link.Like ρ link link' → ∀ m₁ m₂, Still outline m.outline ρ m₁ m₂ →
      Mirrored Strict (fun ρ m₁ m₂ => ρ = .same ∧ m₁ = m₂ ∧
          (m₁.outline = m.outline ∨ ∃ key, m₁.outline = m.outline.enter key)) (Still outline m.outline) ρ
        Anyhow (enter block args link m₁) (enter block args' link' m₂) := by
    rintro ρ block args args' link link' - hargs hlink m₁ m₂ ⟨rfl, rfl, hm⟩
    obtain rfl := Items.like_same hargs
    obtain rfl := Link.like_same hlink
    have henter := enter_outline block args link m₁
    generalize enter block args link m₁ = r at henter
    obtain ⟨e | _, m'⟩ := r
    · exact .error le_rfl ⟨rfl, rfl, henter.trans hm⟩
    · exact .ok le_rfl ⟨rfl, rfl, .inr ⟨link.key, hm ▸ henter⟩⟩ trivial
  have hcall : Mirrored Strict _ _ .same _ (perform host resume program next i m)
      (perform host resume program next i m) :=
    perform_call_mirrors (aloof_outline.sending m.outline _) (.refl program)
      (fun h => ⟨h.1, h.2.1, .inl h.2.2⟩) (fun h => h) henter next hi ⟨rfl, rfl, rfl⟩
  generalize perform host resume program next i m = r at hcall
  cases hcall with
  | ok _ machines _ => exact machines.2.2
  | error _ machines => exact .inl machines.2.2
  | pass h => exact h.elim

end Machine

end BlockMachine

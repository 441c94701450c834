import BlockMachine.Proofs.Machine.Instructions

namespace BlockMachine

/-!
# Operations of honest hosts

A host is honest when it hands a machine only values and types of its world, and blocks whose
bodies use each call site with one name. Its operations do not depend on caches and keep the
machine sound.

* `HostOp.Honest` is what an operation may be given, `HostOp.Answers` what is known of its answer;
* `Machine.Resumes` is what is assumed of running the stack inside an operation;
* `HostOp.perform_agrees` is about all operations.
-/

/-- What an honest host gives an operation. -/
def HostOp.Honest (reg : Registry) {β : Type} : HostOp β → Prop
  | .push _ inputs | .call _ inputs | .migrateTo _ inputs => ∀ v ∈ inputs, v.Known reg
  | .migrateToFunc func inputs => func.Known reg ∧ ∀ v ∈ inputs, v.Known reg
  | .setState v | .setInput _ v | .setOutput _ v | .setEnv _ v | .emit _ v => v.Known reg
  | .cast type v => type.Known reg ∧ v.Known reg
  | .addBlock signature body | .replaceBlock _ signature body =>
    signature.Known reg ∧ OneNamePerSite body
  | .addRecord _ fields => ∀ e ∈ fields, e.2.Known reg
  | .addModule _ members => ∀ e ∈ members, ∀ v, e.2 = .value v → v.Known reg
  | _ => True

/-- What an operation answers. -/
def HostOp.Answers (reg : Registry) {β : Type} : HostOp β → β → Prop
  | .look, m => Machine.In reg m
  | .call _ _, vs => ∀ v ∈ vs, v.Known reg
  | .pop, f? => ∀ f, f? = some f → f.Known reg
  | .consume _, vs => ∀ v ∈ vs, v.Known reg
  | .takeRetained, rs => ∀ r ∈ rs, r.Known reg
  | .cast _ _, r => ∀ v, r = .ok v → v.Known reg
  | .program _, r => ∀ p, r = .ok p → p.Known reg
  | .addRecord _ _, r => (Ty.record r).Known reg
  | .addModule _ _, mod => mod.Known reg
  | _, _ => True

namespace Stack

variable {reg : Registry} {s : Stack}

/-- A stack that starts over holds nothing that is unknown. -/
theorem Known.startOver (h : s.Known reg) : s.startOver.Known reg where
  frames := nofun
  state := h.state
  retained := List.forall_mem_append.2 ⟨h.retained, snapshots_known h.frames⟩
  env := h.env
  messages := h.messages

/-- Taking the messages of a channel has nothing to do with caches. -/
theorem consume_uncached (s : Stack) (channel : Key) :
    s.uncached.consume channel = ((s.consume channel).1, (s.consume channel).2.uncached) := by
  have hmessages : s.uncached.messages = s.messages := rfl
  rw [consume, consume, hmessages]
  cases Entries.get? channel s.messages <;> rfl

/-- Putting a message into a channel has nothing to do with caches. -/
theorem emit_uncached (s : Stack) (channel : Key) (message : Value) :
    s.uncached.emit channel message =
      ((s.emit channel message).1, (s.emit channel message).2.uncached) := by
  have hmessages : s.uncached.messages = s.messages := rfl
  rw [emit, emit, hmessages]
  cases Entries.get? channel s.messages <;> rfl

end Stack

namespace Machine

variable {α β : Type} {reg : Registry} {m : Machine}

/-- A machine whose stack is new or whose frames and error are as before. -/
theorem In.withStack (h : In reg m) {s : Stack} (hs : s.Known reg)
    (hcaches : s.caches = m.stack.caches) (hended : s.error ≠ none → s.phase = .finished)
    (hruns : s.error = none → ∀ f ∈ s.frames, f.Runs m.world) : In reg { m with stack := s } :=
  ⟨⟨⟨h.1.world, h.2 ▸ hs, hcaches ▸ h.1.caches⟩, hended, hruns⟩, h.2⟩

/-- The stack of a sound machine holds known values. -/
theorem In.stack (h : In reg m) : m.stack.Known reg :=
  h.2 ▸ h.1.stack

/-! ### Frames -/

/-- A host may let the stack start over. -/
theorem startOver_keeps : Keeps (In reg) (modifyStack Stack.startOver) fun _ => True :=
  .modifyStack (fun _ => rfl) fun _ hm =>
    hm.withStack hm.stack.startOver rfl (fun h => absurd rfl h) fun _ => nofun

/-- A block is pushed on a stack that no error ended. -/
theorem push_keeps (block : BlockId) {inputs : List Value} (hinputs : ∀ v ∈ inputs, v.Known reg) :
    Keeps (In reg) (push block inputs) fun _ => True := by
  have henter : Keeps (In reg) (enter block inputs {}) fun _ => True :=
    enter_keeps (open_in reg) block hinputs (List.forall_mem_nil _)
  refine .getStack_bind (fun _ => rfl) fun _ _ => ?_
  dsimp only
  split
  · exact .bind startOver_keeps fun _ _ => henter
  · exact henter

/-- A host may take the top frame away, and gets a known one. -/
theorem pop_keeps : Keeps (In reg) pop fun f? => ∀ f, f? = some f → f.Known reg := by
  intro m hm
  obtain ⟨hsound, _, hknown⟩ := hm.1.popFrame
  exact .onStack (Stack.popFrame_uncached _) ⟨⟨hsound, hm.2⟩, hm.2 ▸ hknown⟩

/-- New registers hold null. -/
theorem resize_keeps (count : Nat) : Keeps (In reg) (resize count) fun _ => True :=
  modifyActive_keeps (open_in reg).steady fun _ hf =>
    ⟨hf.withRegisters (Frame.resized_known hf.registers count), ⟨rfl, rfl, rfl⟩⟩

/-- A host may take all frames away, with the state or without. -/
theorem reset_keeps (discardState : Bool) : Keeps (In reg) (reset discardState) fun _ => True := by
  refine .modifyStack (fun _ => rfl) fun m hm => ?_
  have hstack := hm.stack.startOver
  refine hm.withStack ⟨hstack.frames, ?_, nofun, hstack.env, hstack.messages⟩ rfl
    (fun h => absurd rfl h) fun _ => nofun
  dsimp only [Stack.reset]
  split
  · exact StateTree.known_null
  · exact hstack.state

/-- Settings that no value or frame depends on. -/
theorem setting_keeps {g : Stack → Stack} (huncached : ∀ s, g s.uncached = (g s).uncached)
    (h : ∀ s, ∃ random cancelled, g s = { s with random := random, cancelled := cancelled }) :
    Keeps (In reg) (modifyStack g) fun _ => True := by
  refine .modifyStack huncached fun m hm => ?_
  obtain ⟨random, cancelled, heq⟩ := h m.stack
  have hstack := hm.stack
  rw [heq]
  exact hm.withStack ⟨hstack.frames, hstack.state, hstack.retained, hstack.env, hstack.messages⟩ rfl
    hm.1.ended hm.1.runs

/-- The generator of random numbers is such a setting. -/
theorem setRandom_keeps (random : Random) :
    Keeps (In reg) (modifyStack fun s => { s with random := random }) fun _ => True :=
  setting_keeps (fun _ => rfl) fun s => ⟨random, s.cancelled, rfl⟩

/-- The wish to stop is such a setting. -/
theorem cancel_keeps : Keeps (In reg) cancel fun _ => True :=
  setting_keeps (fun _ => rfl) fun s => ⟨s.random, true, rfl⟩

/-! ### Migration -/

/-- Another root is entered with known inputs and bindings. -/
theorem changeMain_keeps (block : BlockId) {inputs bindings : List Value}
    (hinputs : ∀ v ∈ inputs, v.Known reg) (hbindings : ∀ v ∈ bindings, v.Known reg) :
    Keeps (In reg) (changeMain block inputs bindings) fun _ => True := by
  refine .bind (.modifyStack (fun _ => rfl) fun m hm => ?_) fun _ _ =>
    enter_keeps (open_in reg) block hinputs hbindings
  have hstack := hm.stack
  exact hm.withStack ⟨nofun, hstack.state, nofun, hstack.env, hstack.messages⟩ rfl
    (fun h => absurd rfl h) fun _ => nofun

/-- A host may migrate to a block with known inputs. -/
theorem migrateTo_keeps (block : BlockId) {inputs : List Value}
    (hinputs : ∀ v ∈ inputs, v.Known reg) :
    Keeps (In reg) (migrateTo block inputs) fun _ => True :=
  changeMain_keeps block hinputs (List.forall_mem_nil _)

/-- A host may migrate to a known closure, whose bindings are known then. -/
theorem migrateToFunc_keeps {func : Value} (hfunc : func.Known reg) {inputs : List Value}
    (hinputs : ∀ v ∈ inputs, v.Known reg) :
    Keeps (In reg) (migrateToFunc func inputs) fun _ => True := by
  cases func with
  | func id block bindings => exact changeMain_keeps block hinputs hfunc.inside
  | _ => exact .mismatch _ _

/-- A host may set a known tree of state. -/
theorem setState_keeps {tree : Value} (htree : tree.Known reg) :
    Keeps (In reg) (setState tree) fun _ => True :=
  .modifyStack (fun _ => rfl) fun _ hm => ⟨hm.1.withState (hm.2 ▸ htree), hm.2⟩

/-- A migration of a block rebinds values, which keeps them known. -/
theorem migrate_keeps (old new : BlockId) : Keeps (In reg) (migrate old new) fun _ => True := by
  have hQ := (open_in reg).steady.toQuiet
  refine .getStack_bind (fun _ => rfl) fun m hm => ?_
  -- the state tree is rebound first, and the main frame is replaced only if it runs the old block
  refine .bind (allocate_keeps hQ fun n => Value.rebind_known old new _ n hm.stack.state)
    fun state hstate => .bind (setState_keeps hstate) fun _ _ =>
    .getStack_bind (fun _ => rfl) fun m' hm' => ?_
  split
  next root hroot =>
    have hknown := hm'.stack.frames root (List.mem_of_getLast? hroot)
    split
    · exact changeMain_keeps new
        (fun v hv => hknown.registers v (Array.mem_toList_iff.1 (List.mem_of_mem_take hv)))
        hknown.bindings
    · exact .pure trivial
  next => exact .pure trivial

/-! ### State, environment and channels -/

/-- State that is read from a text is known. -/
theorem loadState_keeps (text : String) : Keeps (In reg) (loadState text) fun _ => True := by
  intro m hm
  cases htree : ofJsonText m.world.registry text m.world.supply with
  | error e =>
    have hrun : ∀ m' : Machine, m'.world = m.world → loadState text m' = (.ok (.error e), m') := by
      intro m' hworld
      simp only [loadState, Failing.bind_apply, Failing.get_apply, hworld, htree]
      rfl
    exact .ok (hrun m rfl) (hrun m.uncached rfl) ⟨hm, trivial⟩
  | ok r =>
    have hrun : ∀ m' : Machine, m'.world = m.world → loadState text m' =
        (.ok (.ok ()), { m' with
          world := { m'.world with supply := r.2 }, stack := { m'.stack with state := r.1 } }) := by
      intro m' hworld
      simp only [loadState, Failing.bind_apply, Failing.get_apply, hworld, htree]
      rfl
    have hknown := ofJsonText_known hm.1.world.registry text _ r.1 r.2 htree
    have hsound := (hm.1.withSupply r.2).withState hknown
    exact .ok (hrun m rfl) (hrun m.uncached rfl) ⟨⟨hsound, hm.2⟩, trivial⟩

/-- A known value may be put into the environment. -/
theorem setEnv_keeps (k : Key) {v : Value} (hv : v.Known reg) :
    Keeps (In reg) (modifyStack (·.setEnv k v)) fun _ => True := by
  refine .modifyStack (fun _ => rfl) fun m hm => ?_
  have hstack := hm.stack
  exact hm.withStack ⟨hstack.frames, hstack.state, hstack.retained, hstack.env.insert hv,
    hstack.messages⟩ rfl hm.1.ended hm.1.runs

/-- A channel may be opened for messages. -/
theorem expect_keeps (channel : Key) :
    Keeps (In reg) (modifyStack (·.expect channel)) fun _ => True := by
  refine .modifyStack (fun _ => rfl) fun m hm => ?_
  have hstack := hm.stack
  exact hm.withStack ⟨hstack.frames, hstack.state, hstack.retained, hstack.env,
    hstack.messages.insert (List.forall_mem_nil _)⟩ rfl hm.1.ended hm.1.runs

/-- A known message may be sent. -/
theorem emit_keeps (channel : Key) {message : Value} (hmessage : message.Known reg) :
    Keeps (In reg) (onStack (·.emit channel message)) fun _ => True := by
  intro m hm
  have hstack := hm.stack
  refine .onStack (Stack.emit_uncached _ channel message) ⟨?_, trivial⟩
  rw [Stack.emit]
  cases hqueue : Entries.get? channel m.stack.messages with
  | none => exact hm
  | some queue =>
    have hnew : ∀ v ∈ queue ++ [message], v.Known reg := List.forall_mem_append.2
      ⟨hstack.messages.get? hqueue, List.forall_mem_singleton.2 hmessage⟩
    exact hm.withStack ⟨hstack.frames, hstack.state, hstack.retained, hstack.env,
      hstack.messages.insert hnew⟩ rfl hm.1.ended hm.1.runs

/-- The messages of a channel are known. -/
theorem consume_keeps (channel : Key) :
    Keeps (In reg) (consume channel) fun vs => ∀ v ∈ vs, v.Known reg := by
  have htake : Keeps (In reg) (onStack (·.consume channel))
      fun queue? => ∀ queue, queue? = some queue → ∀ v ∈ queue, v.Known reg := by
    intro m hm
    have hstack := hm.stack
    refine .onStack (Stack.consume_uncached _ channel) ?_
    rw [Stack.consume]
    cases hqueue : Entries.get? channel m.stack.messages with
    | none => exact ⟨hm, nofun⟩
    | some queue =>
      refine ⟨hm.withStack ⟨hstack.frames, hstack.state, hstack.retained, hstack.env,
        hstack.messages.erase⟩ rfl hm.1.ended hm.1.runs, fun q hq => ?_⟩
      exact Option.some.inj hq ▸ hstack.messages.get? hqueue
  refine .bind htake fun queue? hqueue => ?_
  cases queue? with
  | none => exact .raise _
  | some queue => exact .pure (hqueue queue rfl)

/-- The frames that were retained are known. -/
theorem takeRetained_keeps :
    Keeps (In reg) (onStack fun s => (s.retained, { s with retained := [] }))
      fun rs => ∀ r ∈ rs, r.Known reg := by
  intro m hm
  have hstack := hm.stack
  exact .onStack rfl ⟨hm.withStack ⟨hstack.frames, hstack.state, nofun, hstack.env, hstack.messages⟩
    rfl hm.1.ended hm.1.runs, hstack.retained⟩

/-- What is printed makes no difference. -/
theorem print_keeps (text : String) :
    Keeps (In reg) (modify fun m => { m with printed := m.printed ++ text }) fun _ => True :=
  fun _ hm => .modify rfl
    ⟨⟨⟨⟨hm.1.world, hm.1.stack, hm.1.caches⟩, hm.1.ended, hm.1.runs⟩, hm.2⟩, trivial⟩

/-! ### Programs -/

/-- A computation that is done for each member of a list. -/
theorem Keeps.mapM {S : Machine → Prop} {f : α → Action β} {Q : β → Prop} {l : List α}
    (h : ∀ x ∈ l, Keeps S (f x) Q) : Keeps S (l.mapM f) fun ys => ∀ y ∈ ys, Q y := by
  induction l with
  | nil => exact .pure (List.forall_mem_nil _)
  | cons x rest ih =>
    obtain ⟨hx, hrest⟩ := List.forall_mem_cons.1 h
    rw [List.mapM_cons]
    exact .bind hx fun y hy => .bind (ih hrest) fun ys hys =>
      .pure (List.forall_mem_cons.2 ⟨hy, hys⟩)

/-- A program that is looked for is known, if it is found. -/
theorem tryProgram_keeps {S : Machine → Prop} (hS : Open reg S) (index : Nat) :
    Keeps S (tryWorld (World.program index)) fun r => ∀ p, r = .ok p → p.Known reg := by
  intro m hm
  obtain ⟨hcompiled, hprogram⟩ := (hS.sound hm).world.program index
  refine .tryWorld ⟨hS.compiled hm hcompiled, fun p hp => ?_⟩
  obtain ⟨_, _, _, _, _, hcurrent⟩ := hcompiled.coherent.current (hprogram p hp)
  have hreg : (World.program index m.world).2.registry = reg :=
    hcompiled.registry.trans (hS.registry hm)
  exact hreg ▸ hcurrent.known

/-- Listing the frames may compile their blocks, and does not depend on caches. -/
theorem frameList_keeps : Keeps (In reg) frameList fun _ => True := by
  refine .getStack_bind (fun _ => rfl) fun m _ => ?_
  refine (Keeps.mapM (Q := fun _ => True) fun x _ => ?_).mono fun _ _ => trivial
  refine .bind (tryProgram_keeps (open_in reg) x.1.program) fun r _ => ?_
  cases r with
  | ok p => exact .pure trivial
  | error e => exact .pure trivial

/-- A host may compile a block. -/
theorem compile_keeps (block : BlockId) :
    Keeps (In reg) (tryWorld (World.compile block)) fun _ => True :=
  fun _ hm => .tryWorld ⟨(open_in reg).compiled hm (hm.1.world.compile block).1, trivial⟩

/-- A machine stays sound when a block gets a known signature and a body with one name per site. -/
theorem In.replaceBlock (hm : In reg m) (block : BlockId) {signature : Signature}
    {body : List Directive} (hsignature : signature.Known reg) (hbody : OneNamePerSite body) :
    In reg { m with world := (World.replaceBlock block signature body m.world).2 } := by
  obtain ⟨hcoherent, hgrows, hregistry⟩ :=
    hm.1.world.replaceBlock block (hm.2 ▸ hsignature) hbody
  exact ⟨hm.1.grow hcoherent hgrows, hregistry.trans hm.2⟩

/-- A host may give a block such a definition. -/
theorem replaceBlock_keeps (block : BlockId) {signature : Signature} {body : List Directive}
    (hsignature : signature.Known reg) (hbody : OneNamePerSite body) :
    Keeps (In reg) (tryWorld (World.replaceBlock block signature body)) fun _ => True :=
  fun _ hm => .tryWorld ⟨hm.replaceBlock block hsignature hbody, trivial⟩

/-- A change of the natives of a world leaves everything else as it is. -/
theorem natives_keeps {g : World.Action α} (h : ∀ w : World, w.OnlyNatives (g w).2) :
    Keeps (In reg) (tryWorld g) fun _ => True := by
  intro m hm
  obtain ⟨natives, heq⟩ := h m.world
  have hin : In reg { m with world := { m.world with natives := natives } } :=
    ⟨hm.1.grow (hm.1.world.natives natives) (World.grows_natives _ natives), hm.2⟩
  exact .tryWorld ⟨heq ▸ hin, trivial⟩

/-- A host may register a native. -/
theorem registerNative_keeps (name : String) (f : Native) :
    Keeps (In reg) (tryWorld (World.registerNative name f)) fun _ => True :=
  natives_keeps fun w => World.registerNative_natives name f w

/-- A host may put another native in the place of one. -/
theorem patchNative_keeps (name : String) (f : Native) :
    Keeps (In reg) (tryWorld (World.patchNative name f)) fun _ => True :=
  natives_keeps fun w => World.patchNative_natives name f w

/-! ### All operations -/

/-- A sound machine that has all types of another. -/
def Later (m m' : Machine) : Prop :=
  m'.Sound ∧ m.world.registry.Within m'.world.registry

/-- Later machines follow each other. -/
theorem Later.trans {m' m'' : Machine} (h : m.Later m') (h' : m'.Later m'') : m.Later m'' :=
  ⟨h'.1, h.2.trans h'.2⟩

/-- A sound machine with the same registry is a later one. -/
theorem In.later {m' : Machine} (h : In m.world.registry m') : m.Later m' :=
  ⟨h.1, h.2 ▸ .refl _⟩

/-- Running the stack, from machines that have the types of a registry, does not depend on caches
    and leaves a sound machine; a run that gives an outcome leaves no error. -/
def Resumes (reg : Registry) (resume : Action Outcome) : Prop :=
  ∀ m : Machine, m.Sound → reg.Within m.world.registry →
    Agrees resume m (fun _ m' => m.Later m' ∧ m'.stack.error = none) m.Later

/-- Computations that keep the registry lead to later machines. -/
theorem Keeps.later {a : Action α} {Q : α → Prop} (h : Keeps (In m.world.registry) a Q)
    (hm : m.Sound) :
    Agrees a m (fun x m' => m.Later m' ∧ m'.world.registry = m.world.registry ∧ Q x) m.Later :=
  (h m ⟨hm, rfl⟩).mono (fun _ _ hx => ⟨hx.1.later, hx.1.2, hx.2⟩) fun _ hm' => hm'.later

/-- Computations that keep the registry lead on to later machines, with any answer. -/
theorem Keeps.onward {a : Action α} {Q : α → Prop} (h : Keeps (In m.world.registry) a Q)
    (hm : m.Sound) : Agrees a m (fun _ m' => m.Later m') m.Later :=
  (h.later hm).mono (fun _ _ hx => hx.1) fun _ h => h

/-- The outputs of a sound machine are known. -/
theorem outputs_known (hm : m.Sound) : ∀ v ∈ m.outputs, v.Known m.world.registry := by
  intro v hv
  unfold outputs at hv
  split at hv
  · exact nomatch hv
  next f rest hframes =>
    split at hv
    next b _ =>
      obtain ⟨o, _, rfl⟩ := List.mem_map.1 hv
      cases hget : f.registers[o.register.toNat]? with
      | none => exact StateTree.known_null
      | some v =>
        exact (hm.stack.frames f (hframes ▸ List.mem_cons_self)).registers v
          (Array.mem_of_getElem? hget)
    next => exact nomatch hv

/-- A call does not depend on caches, as far as runs do not: it is a push and a run, and its outputs are
    known. -/
theorem callWith_agrees {resume : Action Outcome} (hresume : Resumes reg resume) (hm : m.Sound)
    (hreg : reg.Within m.world.registry) (block : BlockId) {inputs : List Value}
    (hinputs : ∀ v ∈ inputs, v.Known m.world.registry) :
    Agrees (callWith resume block inputs) m
      (fun vs m' => m.Later m' ∧ ∀ v ∈ vs, v.Known m'.world.registry) m.Later := by
  refine .bind ((push_keeps block hinputs).later hm) fun _ m₁ ⟨hm₁, _⟩ => ?_
  refine .bind ((hresume m₁ hm₁.1 (hreg.trans hm₁.2)).relax
    fun _ h => hm₁.trans h) fun outcome m₂ ⟨hm₂, herror⟩ => ?_
  have hlater := hm₁.trans hm₂
  cases outcome with
  | finished =>
    have hstack := hm₂.1.stack
    have hsound : Sound { m₂ with stack := { m₂.stack.clearFrames with phase := .ready } } :=
      ⟨⟨hm₂.1.world, ⟨nofun, hstack.state, hstack.startOver.retained, hstack.env, hstack.messages⟩,
        hm₂.1.caches⟩, fun h => absurd herror h, fun _ => nofun⟩
    refine .get_bind rfl (.bind (.modifyStack (P := fun _ m' => m' = _) rfl rfl) ?_)
    rintro _ _ rfl
    exact .pure ⟨⟨hsound, hlater.2⟩, outputs_known hm₂.1⟩
  | paused => exact .raise hlater
  | cancelled => exact .raise hlater

end Machine

namespace HostOp

open Machine

variable {β : Type} {m : Machine} {reg : Registry}

/-- **Operations of honest hosts do not depend on caches.** They keep the machine sound, and their
    answers are known to it. -/
theorem perform_agrees {resume : Action Outcome} (hresume : Resumes reg resume) (hm : m.Sound)
    (hreg : reg.Within m.world.registry) (o : HostOp β) (ho : o.Honest m.world.registry) :
    Agrees (o.perform resume) m
      (fun x m' => m.Later m' ∧ o.Answers m'.world.registry x) m.Later := by
  have hsteady := (open_in m.world.registry).steady
  -- most operations keep the registry, and so the meaning of what they answer
  have hkeeps : Keeps (In m.world.registry) (o.perform resume) (o.Answers m.world.registry) →
      Agrees (o.perform resume) m (fun x m' => m.Later m' ∧ o.Answers m'.world.registry x)
        m.Later :=
    fun h => (h.later hm).mono (fun _ _ hx => ⟨hx.1, hx.2.1 ▸ hx.2.2⟩) fun _ h => h
  cases o with
  | look => exact hkeeps (.get_bind (fun _ => rfl) fun m' hm' => .pure ⟨hm'.1.uncached, hm'.2⟩)
  | push block inputs => exact hkeeps (push_keeps block ho)
  | run => exact (hresume m hm hreg).mono (fun _ _ h => ⟨h.1, trivial⟩) fun _ h => h
  | call block inputs => exact callWith_agrees hresume hm hreg block ho
  | pop => exact hkeeps pop_keeps
  | resize count => exact hkeeps (resize_keeps count)
  | reset discardState => exact hkeeps (reset_keeps discardState)
  | cancel => exact hkeeps cancel_keeps
  | duplicate => exact hkeeps (setting_keeps (fun _ => rfl) fun s => ⟨s.random, false, rfl⟩)
  | migrateTo block inputs => exact hkeeps (migrateTo_keeps block ho)
  | migrateToFunc func inputs => exact hkeeps (migrateToFunc_keeps ho.1 ho.2)
  | migrate old new => exact hkeeps (migrate_keeps old new)
  | setState tree => exact hkeeps (setState_keeps ho)
  | loadState text => exact hkeeps (loadState_keeps text)
  | setInput index v => exact hkeeps (setInput_keeps hsteady index ho)
  | setOutput index v => exact hkeeps (setOutput_keeps hsteady index ho)
  | raise message => exact hkeeps (raiseError_keeps message)
  | setEnv k v => exact hkeeps (setEnv_keeps k ho)
  | expect channel => exact hkeeps (expect_keeps channel)
  | consume channel => exact hkeeps (consume_keeps channel)
  | emit channel message => exact hkeeps (emit_keeps channel ho)
  | takeRetained => exact hkeeps takeRetained_keeps
  | frameList => exact hkeeps frameList_keeps
  | setRandom random => exact hkeeps (setRandom_keeps random)
  | print text => exact hkeeps (print_keeps text)
  | number =>
    have hnumber : Keeps (In m.world.registry) (allocate fresh) fun _ => True :=
      allocate_keeps hsteady.toQuiet fun _ => trivial
    exact hkeeps hnumber
  | cast type v => exact hkeeps (tryCast_keeps hsteady.toQuiet ho.1 ho.2)
  -- declarations change the world, and some of them the registry
  | addBlock signature body =>
    obtain ⟨hcoherent, hgrows⟩ := hm.world.addBlock ho.1 ho.2
    rw [perform]
    exact .changeWorld ⟨⟨hm.grow hcoherent hgrows, hgrows.registry⟩, trivial⟩
  | replaceBlock block signature body => exact hkeeps (replaceBlock_keeps block ho.1 ho.2)
  | compile block => exact hkeeps (compile_keeps block)
  | program index => exact hkeeps (tryProgram_keeps (open_in _) index)
  | registerNative name f => exact hkeeps (registerNative_keeps name f)
  | patchNative name f => exact hkeeps (patchNative_keeps name f)
  | addRecord name fields =>
    obtain ⟨hcoherent, hknown⟩ := hm.world.addRecord name ho
    have hgrows := m.world.grows_addRecord name fields
    rw [perform]
    exact .changeWorld ⟨⟨hm.grow hcoherent hgrows, hgrows.registry⟩, hknown⟩
  | addMethod type name block =>
    have hgrows := m.world.grows_addMethod type name block
    rw [perform]
    exact .changeWorld
      ⟨⟨hm.grow (hm.world.addMethod type name block) hgrows, hgrows.registry⟩, trivial⟩
  | addModule name members =>
    obtain ⟨hcoherent, hknown⟩ := hm.world.addModule name ho
    have hgrows := hm.world.grows_addModule name members
    rw [perform]
    exact .changeWorld ⟨⟨hm.grow hcoherent hgrows, hgrows.registry⟩, hknown⟩

end HostOp

/-! ### Scripts -/

/-- Every operation of a script is given what an honest host gives it, however the operations
    before it were answered. -/
def Script.Honest {α : Type} : Script α → Registry → Prop
  | .done _, _ => True
  | .op o next, reg => o.Honest reg ∧ ∀ reg', reg'.Sound → reg.Within reg' →
    (∀ b, o.Answers reg' b → (next (.ok b)).Honest reg') ∧ ∀ e, (next (.error e)).Honest reg'

/-- The natives of an embedder are honest in every world that has the types of a registry. -/
def Embedder.Honest (reg : Registry) (host : Embedder) : Prop :=
  ∀ code reg', reg'.Sound → reg.Within reg' → (host.script code).Honest reg'

open Machine in

/-- **Scripts of honest hosts do not depend on caches.** -/
theorem Script.perform_agrees {α : Type} {reg : Registry} {resume : Action Outcome}
    (hresume : Resumes reg resume) (script : Script α) {m : Machine} (hm : m.Sound)
    (hreg : reg.Within m.world.registry) (hscript : script.Honest m.world.registry) :
    Agrees (script.perform resume) m (fun _ m' => m.Later m') m.Later := by
  induction script generalizing m with
  | done r =>
    have hhere : m.Later m := ⟨hm, .refl _⟩
    cases r with
    | ok a => exact .pure hhere
    | error e => exact .raise hhere
  | op o next ih =>
    obtain ⟨ho, hnext⟩ := hscript
    rw [perform]
    refine .bind (o.perform_agrees hresume hm hreg ho).attempt fun r m' hended => ?_
    -- the rest of the script goes on from a later machine
    have hrest : ∀ x, m.Later m' → (next x).Honest m'.world.registry →
        Agrees ((next x).perform resume) m' (fun _ m'' => m.Later m'') m.Later := by
      intro x hlater hx
      exact (ih x hlater.1 (hreg.trans hlater.2) hx).mono (fun _ _ h => hlater.trans h)
        fun _ h => hlater.trans h
    cases r with
    | ok b =>
      obtain ⟨hlater, hanswer⟩ := hended
      exact hrest _ hlater ((hnext _ hlater.1.world.registry hlater.2).1 b hanswer)
    | error fault =>
      cases fault with
      | raised e =>
        have hlater : m.Later m' := hended
        exact hrest _ hlater ((hnext _ hlater.1.world.registry hlater.2).2 e)
      | crashed => exact .throw_fatal nofun
      | outOfFuel => exact .throw_fatal nofun

end BlockMachine

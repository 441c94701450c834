import BlockMachine.Proofs.Machine.HotReload

namespace BlockMachine

/-!
# What a machine holds

Registers, bindings, state trees, channels, the environment, constants and modules hold values. Programs
that use the default natives only make values of those that are there. So a hereditary property that all of
them have to begin with is never lost, if no mark of a moved value is taken for a value.

* `Frame.All`, `Stack.All`, `World.All` and `Machine.All` say that all values that are held have a property;
* `Machine.step_all` is about instructions, `Machine.invoke_all` about default natives;
* `Machine.restartIfStale_all`, `Machine.currentProgram_all` and `Machine.ended_all` are about the start and
  the end of a run.
-/

/-- The values that a frame holds have a property, except for registers that were moved away. -/
structure Frame.All (P : Value → Prop) (f : Frame) : Prop where
  registers : ∀ v ∈ f.registers, v.Cell P
  incoming : P f.incoming
  outgoing : Entries.All P f.outgoing
  bindings : ∀ v ∈ f.bindings, P v

/-- The values that a snapshot holds have a property, except for registers that were moved away. -/
structure Snapshot.All (P : Value → Prop) (s : Snapshot) : Prop where
  registers : ∀ v ∈ s.registers, v.Cell P
  incoming : P s.incoming
  outgoing : Entries.All P s.outgoing

/-- The values that a stack holds have a property, except for registers that were moved away. -/
structure Stack.All (P : Value → Prop) (s : Stack) : Prop where
  frames : ∀ f ∈ s.frames, f.All P
  state : P s.state
  env : Entries.All P s.env
  messages : ∀ channel ∈ s.messages, ∀ v ∈ channel.2, P v
  retained : ∀ r ∈ s.retained, r.All P

/-- The values that a world holds have a property: programs come from the bodies of blocks, whose constants
    have it, and so do the values of modules. Natives are the default ones. -/
structure World.All (P : Value → Prop) (w : World) : Prop where
  derived : w.Derived
  constants : ∀ b ∈ w.blocks, ∀ ctx supply d, lower ctx b.body supply = .ok d →
    ∀ c ∈ d.constants, P c
  modules : ∀ module ∈ w.modules, ∀ name v, (name, .value v) ∈ module.members → P v
  natives : w.natives.Only Native.isDefault

variable {P : Value → Prop}

/-- A snapshot holds what its frame held. -/
theorem Frame.All.snapshot {f : Frame} (h : f.All P) : f.snapshot.All P :=
  ⟨h.registers, h.incoming, h.outgoing⟩

namespace World.All

variable {w w' : World}

/-- Only programs are new. -/
theorem only (h : w.All P) (hw : w.OnlyPrograms w') (hderived : w'.Derived) : w'.All P := by
  refine ⟨hderived, ?_, ?_, ?_⟩
  · rw [hw.blocks]
    exact h.constants
  · rw [hw.modules]
    exact h.modules
  · rw [hw.natives]
    exact h.natives

/-- Compiling makes constants of what stands in the body of a block. -/
theorem compile (h : w.All P) (id : BlockId) : (World.compile id w).2.All P :=
  h.only (compile_only id w) (h.derived.compile id)

/-- Looking for a program may compile its block again, with constants of its body. -/
theorem program (h : w.All P) (index : Nat) : (World.program index w).2.All P :=
  h.only (program_only index w) (h.derived.program index)

/-- Programs that are filed have constants with the property. -/
theorem filed_constants (h : w.All P) {i : Nat} {p : Program} (hp : w.slotProgram? i = some p) :
    ∀ c ∈ p.constants, P c := by
  obtain ⟨slot, hslot, hprogram⟩ := Option.bind_eq_some_iff.1 hp
  obtain ⟨b, ctx, supply, d, hb, hd, rfl⟩ := h.derived.lowered i slot p hslot hprogram
  exact h.constants b (Array.mem_of_getElem? hb) ctx supply d hd

/-- The constants of a program that is found have the property. -/
theorem program_constants (h : w.All P) {index : Nat} {p : Program}
    (hp : (World.program index w).1 = .ok p) : ∀ c ∈ p.constants, P c :=
  (h.program index).filed_constants ((h.derived.filed.program index).2 p hp)

/-- What a module or a map holds has the property, if the map has it. -/
theorem heldValue? (hP : Value.Hereditary P) (h : w.All P) {receiver : Value} {name : String} {v : Value}
    (hreceiver : P receiver) (hv : Machine.heldValue? w receiver name = some v) : P v := by
  cases receiver with
  | map id entries => exact (hP.entries hreceiver).get? hv
  | module type =>
    simp only [Machine.heldValue?] at hv
    split at hv
    next u hmember =>
      obtain rfl := Option.some.inj hv
      -- a module gives out what it holds as it is, without a cast
      obtain ⟨module, hmodule, hlookup⟩ := Option.bind_eq_some_iff.1 hmember
      rw [Module.member?, List.lookup_eq_some_iff] at hlookup
      obtain ⟨before, after, hmembers, -⟩ := hlookup
      refine h.modules module (List.mem_of_find?_eq_some hmodule) name u ?_
      rw [hmembers]
      simp
    next => exact nomatch hv
  | _ => exact nomatch hv

end World.All

namespace Machine

variable {α β : Type} {m : Machine}

/-- **The invariant**: all values that a machine holds have a property, except for registers that were moved
    away. -/
structure All (P : Value → Prop) (m : Machine) : Prop where
  world : m.world.All P
  stack : m.stack.All P

/-- The active frame is changed. -/
theorem All.setActive (h : m.All P) {f f' : Frame} {rest : List Frame}
    (hframes : m.stack.frames = f :: rest) (hf' : f'.All P) :
    (m.withFrames (f' :: rest)).All P := by
  refine ⟨h.world, ⟨List.forall_mem_cons.2 ⟨hf', fun g hg => ?_⟩, h.stack.state, h.stack.env,
    h.stack.messages, h.stack.retained⟩⟩
  exact h.stack.frames g (hframes ▸ List.mem_cons_of_mem f hg)

/-- The active frame holds values with the property. -/
theorem All.active (h : m.All P) {f : Frame} {rest : List Frame}
    (hframes : m.stack.frames = f :: rest) : f.All P :=
  h.stack.frames f (hframes ▸ List.mem_cons_self)

/-- Other buffer numbers make no difference. -/
theorem All.withSupply (h : m.All P) (supply : BufferId) : (m.withSupply supply).All P :=
  ⟨h.world.only ⟨rfl, rfl, rfl, rfl, rfl⟩ (h.world.derived.congr rfl rfl), h.stack⟩

/-- Such machines may compute with values that have the property. -/
theorem closed_all : Closed P (All P) where
  supply hm supply := hm.withSupply supply
  cells hm hframes := (hm.active hframes).registers
  incoming hm hframes := (hm.active hframes).incoming
  bindings hm hframes := (hm.active hframes).bindings
  update _ hm hframes hregisters _ :=
    have hf := hm.active hframes
    hm.setActive hframes ⟨hregisters, hf.incoming, hf.outgoing, hf.bindings⟩

/-! ### Worlds and stacks -/

/-- A computation on the world whose errors are raised. -/
theorem onWorld_all {g : World.Action α} {Q : α → Prop}
    (hg : ∀ w : World, w.All P → (g w).2.All P ∧ ∀ x, (g w).1 = .ok x → Q x) :
    Ensures (All P) (onWorld g) Q := by
  intro m hm
  obtain ⟨hworld, hanswer⟩ := hg m.world hm.world
  rw [Meets, onWorld_apply]
  generalize g m.world = r at hworld hanswer
  obtain ⟨_ | x, w⟩ := r
  · exact ⟨⟨hworld, hm.stack⟩, by simp⟩
  · exact ⟨⟨hworld, hm.stack⟩, fun y hy => Except.ok.inj hy ▸ hanswer x rfl⟩

/-- A block may be compiled. -/
theorem compile_all (block : BlockId) :
    Ensures (All P) (onWorld (World.compile block)) fun _ => True :=
  onWorld_all fun _ hw => ⟨hw.compile block, fun _ _ => trivial⟩

/-- A program may be fetched, and its constants have the property. -/
theorem program_all (index : Nat) :
    Ensures (All P) (onWorld (World.program index)) fun p => ∀ c ∈ p.constants, P c :=
  onWorld_all fun _ hw => ⟨hw.program index, fun _ hp => hw.program_constants hp⟩

/-- A computation on the world whose errors are answers. -/
theorem tryWorld_all {g : World.Action α} (hg : ∀ w : World, w.All P → (g w).2.All P) :
    Ensures (All P) (tryWorld g) fun _ => True :=
  fun m hm => ⟨⟨hg m.world hm.world, hm.stack⟩, fun _ _ => trivial⟩

/-- A change of the stack has to keep what is held there. -/
theorem modifyStack_all {g : Stack → Stack} (hg : ∀ s : Stack, s.All P → (g s).All P) :
    Ensures (All P) (modifyStack g) fun _ => True :=
  fun m hm => ⟨⟨hm.world, hg m.stack hm.stack⟩, fun _ _ => trivial⟩

/-- A change of the stack that has an answer has to keep what is held there. -/
theorem onStack_all {g : Stack → α × Stack} (hg : ∀ s : Stack, s.All P → (g s).2.All P) :
    Ensures (All P) (onStack g) fun _ => True :=
  fun m hm => ⟨⟨hm.world, hg m.stack hm.stack⟩, fun _ _ => trivial⟩

/-- What looks at the stack first may use that its values have the property. -/
theorem getStack_bind_all {k : Stack → Action β} {R : β → Prop}
    (h : ∀ s : Stack, s.All P → Ensures (All P) (k s) R) :
    Ensures (All P) (getStack >>= k) R :=
  fun m hm => h m.stack hm.stack m hm

/-! ### Calls -/

section

variable (hP : Value.Hereditary P)
include hP

/-- A new frame reads a part of the state. -/
theorem incomingFor_all {s : Stack} (h : s.All P) (key : Option Key) :
    P (incomingFor s key) := by
  unfold incomingFor
  split
  · exact h.state
  next parent rest k hframes =>
    exact hP.child (h.frames parent (hframes ▸ List.mem_cons_self)).incoming k
  · exact hP.null

/-- A block is entered with arguments and bindings that have the property. -/
theorem enter_all (block : BlockId) {args : List Value} (hargs : ∀ v ∈ args, P v)
    {link : Link} (hbindings : ∀ v ∈ link.bindings, P v) :
    Ensures (All P) (enter block args link) fun _ => True := by
  refine getStack_bind_all fun s hs => ?_
  dsimp only
  split
  · exact .raise _
  refine .bind (compile_all block) fun index _ => .bind (program_all index) fun p _ => ?_
  split
  · exact .raise _
  -- the frame has the arguments, cast, and nulls in its other registers
  refine .bind (castArguments_ensures hP closed_all p.signature 0 hargs)
    fun vs hvs m hm => ⟨⟨hm.world, ⟨List.forall_mem_cons.2 ⟨⟨?_, incomingFor_all hP hs _,
      List.forall_mem_nil _, hbindings⟩, hm.stack.frames⟩, hm.stack.state, hm.stack.env,
      hm.stack.messages, hm.stack.retained⟩⟩, fun _ _ => trivial⟩
  exact resized_cells hP (fun v hv => .inr (hvs v (List.mem_toArray.1 hv))) _

/-! ### Returns -/

omit hP in
/-- Outputs with the property are placed in registers. -/
theorem placeOutputs_cells {registers : Array Value} (h : ∀ v ∈ registers, v.Cell P)
    {outputs : List (Output × Value)} (houtputs : ∀ o ∈ outputs, P o.2) :
    ∀ v ∈ placeOutputs registers outputs, v.Cell P := by
  induction outputs generalizing registers with
  | nil => exact h
  | cons o rest ih =>
    obtain ⟨ho, hrest⟩ := List.forall_mem_cons.1 houtputs
    exact ih (setIfInBounds_cells h _ (.inr ho)) hrest

/-- Values that a parent receives are placed in its registers. -/
theorem receive_cells {registers : Array Value} (h : ∀ v ∈ registers, v.Cell P) (out : Nat)
    {values : List Value} (hvalues : ∀ v ∈ values, P v) :
    ∀ v ∈ receive registers out values, v.Cell P := by
  have hwrite : ∀ (placed : List (Value × Nat)) (rs : Array Value), (∀ v ∈ rs, v.Cell P) →
      (∀ e ∈ placed, P e.1) →
      ∀ v ∈ placed.foldl (fun rs e => rs.setIfInBounds e.2 e.1) rs, v.Cell P := by
    intro placed
    induction placed with
    | nil => exact fun _ hrs _ => hrs
    | cons e rest ih =>
      intro rs hrs hplaced
      obtain ⟨he, hrest⟩ := List.forall_mem_cons.1 hplaced
      exact ih _ (setIfInBounds_cells hrs _ (.inr he)) hrest
  refine hwrite _ _ ?_ fun e he => hvalues e.1 (List.fst_mem_of_mem_zipIdx he)
  split
  · exact resized_cells hP h _
  · exact h

/-- A root that returns leaves its outputs in registers and its state with the stack. -/
theorem leaveRoot_all (hm : m.All P) {f : Frame} (hf : f.All P)
    {outputs : List (Output × Value)} (houtputs : ∀ o ∈ outputs, P o.2) :
    (leaveRoot f outputs m).2.All P := by
  have hplaced : Frame.All P { f with registers := placeOutputs f.registers outputs, outgoing := [] } :=
    ⟨placeOutputs_cells hf.registers houtputs, hf.incoming, List.forall_mem_nil _, hf.bindings⟩
  have hstate := hP.ofOutgoing hf.outgoing m.world.supply
  have hrest : ∀ g ∈ m.stack.frames.tail, g.All P :=
    fun g hg => hm.stack.frames g (List.mem_of_mem_tail hg)
  exact ⟨(hm.withSupply _).world, ⟨List.forall_mem_cons.2 ⟨hplaced, hrest⟩, hstate, hm.stack.env,
    hm.stack.messages, hm.stack.retained⟩⟩

omit hP in
/-- The frame that is taken away may be retained, and holds what it held. -/
theorem popFrame_all : Ensures (All P) (onStack Stack.popFrame) fun _ => True := by
  refine onStack_all fun s hs => ?_
  rw [Stack.popFrame]
  cases hframes : s.frames with
  | nil => exact hs
  | cons f rest =>
    have hf : f.All P := hs.frames f (hframes ▸ List.mem_cons_self)
    refine ⟨fun g hg => hs.frames g (hframes ▸ List.mem_cons_of_mem f hg), hs.state, hs.env, hs.messages, ?_⟩
    dsimp only
    split
    · exact List.forall_mem_append.2 ⟨hs.retained, List.forall_mem_singleton.2 hf.snapshot⟩
    · exact hs.retained

/-- A child delivers outputs and state, which have the property. -/
theorem deliver_all {child : Frame} (hchild : child.All P) {outputs : List Value}
    (houtputs : ∀ v ∈ outputs, P v) :
    Ensures (All P) (deliver child outputs) fun _ => True := by
  refine active_bind_ensures fun m parent rest hm hframes => ?_
  have hparent := hm.active hframes
  have hregisters : ∀ v ∈ parent.given child outputs, v.Cell P := by
    rw [Frame.given]
    split
    · exact receive_cells hP hparent.registers _ houtputs
    · exact hparent.registers
  have hset : ∀ {n : Machine} {outgoing : List (Key × Value)}, n.All P →
      n.stack.frames = parent :: rest → Entries.All P outgoing →
      Meets (Machine.setActive { parent with
        outgoing := outgoing, registers := parent.given child outputs }) n (All P) fun _ => True := by
    intro n outgoing hn hframes' houtgoing
    rw [Meets, setActive_apply hframes']
    exact ⟨hn.setActive hframes' ⟨hregisters, hparent.incoming, houtgoing, hparent.bindings⟩,
      fun _ _ => trivial⟩
  -- the saved state of the child is merged under its key
  dsimp only
  split
  next k _ =>
    exact hset (hm.withSupply _) hframes (hP.merge hparent.outgoing hchild.outgoing k _)
  next => exact hset hm hframes hparent.outgoing

/-- Returning hands out what was cast, and a cast refuses what was moved away. -/
theorem leave_all (program : Program) : Ensures (All P) (leave program) fun _ => True := by
  refine active_bind_ensures fun m f rest hm hframes => ?_
  have hf := hm.active hframes
  dsimp only
  refine Ensures.bind (castOutputs_ensures hP closed_all program hf.registers 0
    program.signature.outputs) (fun outputs houtputs => ?_) m hm
  split
  · exact .bind (fun n hn => ⟨leaveRoot_all hP hn hf fun o ho => houtputs o.2 (List.of_mem_zip ho).2,
      fun _ _ => trivial⟩) fun _ _ => .pure trivial
  · exact .bind popFrame_all fun _ _ => .bind (deliver_all hP hf houtputs) fun _ _ =>
      .pure trivial

/-! ### State and jumps -/

omit hP in
/-- A value that is saved has the property. -/
theorem saveState_all (name : String) {v : Value} (hv : P v) :
    Ensures (All P) (saveState name v) fun _ => True := by
  refine active_bind_ensures fun m f rest hm hframes => ?_
  have hf := hm.active hframes
  rw [Meets, setActive_apply hframes]
  refine ⟨hm.setActive hframes ?_, fun _ _ => trivial⟩
  dsimp only
  split
  · exact ⟨hf.registers, hf.incoming, hf.outgoing.save hv name, hf.bindings⟩
  · exact hf

omit hP in
/-- A jump has nothing to do with values. -/
theorem jump_all (next : Nat) (offset : Int16) :
    Ensures (All P) (jump next offset) fun _ => True := by
  rw [jump]
  dsimp only
  split
  · exact .violate _
  · refine active_bind_ensures fun m f rest hm hframes => ?_
    have hf := hm.active hframes
    rw [Meets, setActive_apply hframes]
    exact ⟨hm.setActive hframes ⟨hf.registers, hf.incoming, hf.outgoing, hf.bindings⟩,
      fun _ _ => trivial⟩

/-! ### Natives -/

omit hP in
/-- An argument has what the inputs of the frame have. -/
theorem argument_ensures {S : Machine → Prop} {Q : Value → Prop} (index : Nat)
    (h : ∀ n v, S n → n.input? index = some v → Q v) : Ensures S (argument index) Q := by
  refine .get_bind fun m hm => ?_
  split
  next v hv => exact .pure hm (h m v hm hv)
  next => exact .throw hm _

omit hP in
/-- Reading an integer from an argument changes nothing. -/
theorem intArgument_ensures {S : Machine → Prop} (index : Nat) :
    Ensures S (intArgument index) fun _ => True := by
  refine .bind (argument_ensures index fun _ _ _ _ => trivial) fun v _ => ?_
  split
  · exact .pure trivial
  · exact .mismatch _ _

omit hP in
/-- Reading a key from an argument changes nothing. -/
theorem keyArgument_ensures {S : Machine → Prop} (index : Nat) (what : String) :
    Ensures S (keyArgument index what) fun _ => True := by
  refine .bind (argument_ensures index fun _ _ _ _ => trivial) fun v _ => ?_
  split
  · exact .pure trivial
  · exact .mismatch _ _

/-- An output with the property may be set. -/
theorem setOutput_all (index : Nat) {v : Value} (hv : P v) :
    Ensures (All P) (setOutput index v) fun _ => True := by
  refine .get_bind fun m hm => ?_
  split
  · exact .throw hm _
  · refine active_bind_meets hm fun f rest hframes => ?_
    have hregisters := (hm.active hframes).registers
    refine closed_all.setRegisters hm hframes (setIfInBounds_cells ?_ _ (.inr hv)) ?_
    · split
      · exact resized_cells hP hregisters _
      · exact hregisters
    · rw [Array.size_setIfInBounds]
      exact Frame.size_le_grown f.registers (Nat.le_succ _)

omit hP in
/-- Noting an error has nothing to do with values. -/
theorem recordError_all (e : RuntimeError) :
    Ensures (All P) (recordError e) fun _ => True := by
  intro m hm
  obtain ⟨w, note, hmachine, hw⟩ := recordError_machine e m
  refine ⟨?_, fun _ _ => trivial⟩
  rw [hmachine]
  refine ⟨?_, ⟨hm.stack.frames, hm.stack.state, hm.stack.env, hm.stack.messages, hm.stack.retained⟩⟩
  obtain rfl | ⟨index, rfl⟩ := hw
  · exact hm.world
  · exact hm.world.program index

/-- A native that raises an error may set an error as its output, which has no parts. -/
theorem raiseError_all (message : String) :
    Ensures (All P) (raiseError message) fun _ => True := by
  have hdone : Ensures (All P) (do
      recordError (.hostRaised message)
      return RuntimeError.hostRaised message) fun _ => True :=
    .bind (recordError_all _) fun _ _ => .pure trivial
  refine .get_bind fun m hm => ?_
  split
  · exact Ensures.bind (setOutput_all hP 0 (hP.atom rfl rfl rfl)) (fun _ _ => hdone) m hm
  · exact hdone m hm

/-- Drawing a number changes nothing that is held. -/
theorem drawRandom_all (l : Libraries) : Ensures (All P) (drawRandom l) fun _ => True := by
  have hdraw : ∀ {γ : Type} (draw : Random → γ × Random), Ensures (All P) (onStack fun s =>
      ((draw s.random).1, { s with random := (draw s.random).2 })) fun _ => True :=
    fun draw => onStack_all fun s hs => ⟨hs.frames, hs.state, hs.env, hs.messages, hs.retained⟩
  refine .get_bind fun m hm => ?_
  split
  · exact Ensures.bind (hdraw l.float)
      (fun x _ => setOutput_all hP 0 (hP.atom rfl rfl rfl)) m hm
  · refine Ensures.bind (intArgument_ensures 0) (fun lo _ => .bind (intArgument_ensures 1)
      fun hi _ => ?_) m hm
    split
    · exact .bind (hdraw (l.int lo hi)) fun n _ =>
        setOutput_all hP 0 (hP.atom rfl rfl rfl)
    · exact .bind (raiseError_all hP _) fun e _ => .raise _

omit hP in

/-- A message with the property is put into its channel. -/
theorem emit_all (channel : Key) {message : Value} (hmessage : P message) :
    Ensures (All P) (onStack (·.emit channel message)) fun _ => True := by
  refine onStack_all fun s hs => ?_
  rw [Stack.emit]
  -- a message to a channel that nobody expects is dropped
  split
  next queue hqueue =>
    have hmessages : Entries.All (fun queue => ∀ v ∈ queue, P v) s.messages := hs.messages
    have hlonger : ∀ v ∈ queue ++ [message], P v := List.forall_mem_append.2
      ⟨hmessages.get? hqueue, List.forall_mem_singleton.2 hmessage⟩
    exact ⟨hs.frames, hs.state, hs.env, hmessages.insert hlonger, hs.retained⟩
  next => exact hs

/-- **Default natives** make values of those that are there. A message is taken from its register whatever it
    is. -/
theorem invoke_all (hm : m.All P) (host : Embedder) (resume : Action Outcome) {f : Native}
    (hf : f.isDefault = true)
    (hmessage : f = .emit → ∀ v, m.input? 1 = some v → P v) :
    (invoke host resume f m).2.All P := by
  have hatom : ∀ {v : Value}, v.isMoved = false → v.parts = [] → v.fields? = none →
      Ensures (All P) (setOutput 0 v) fun _ => True :=
    fun hmoved hparts hrecord => setOutput_all hP 0 (hP.atom hmoved hparts hrecord)
  have hargument : Ensures (All P) (argument 0) fun _ => True :=
    argument_ensures 0 fun _ _ _ _ => trivial
  cases f with
  | print => exact ⟨hm.world, hm.stack⟩
  | toText =>
    exact (Ensures.bind hargument (fun v _ => .bind (allocate_ensures closed_all
      fun n => hP.atom rfl rfl rfl) fun w hw => setOutput_all hP 0 hw) m hm).1
  | length =>
    refine (Ensures.bind (R := fun _ => True) hargument (fun v _ => ?_) m hm).1
    split
    · exact hatom rfl rfl rfl
    · exact .mismatch _ _
  | random => exact (drawRandom_all hP _ m hm).1
  | env =>
    exact (Ensures.bind (keyArgument_ensures 0 _) (fun k _ => getStack_bind_all fun s hs =>
      setOutput_all hP 0 (hP.getD fun v hv => hs.env.get? hv)) m hm).1
  | error =>
    exact (Ensures.bind (R := fun _ => True) hargument (fun v _ =>
      .bind (raiseError_all hP _) fun e _ => .raise _) m hm).1
  | hash => exact (Ensures.bind hargument (fun v _ => hatom rfl rfl rfl) m hm).1
  | emit =>
    -- the channel is read first, which leaves the message as it is
    have hread : Ensures (fun n => n.All P ∧ ∀ v, n.input? 1 = some v → P v) (argument 1) P :=
      argument_ensures 1 fun n v hn hv => hn.2 v hv
    exact (keyArgument_ensures 0 _).bind_leads (fun n hn => hn.1) (fun k _ => hread.bind_leads
      (fun n hn => hn.1) fun v hv n hn => (Ensures.bind (emit_all k hv) (fun _ _ =>
        .pure (Q := fun _ => True) trivial) n hn.1).1) m ⟨hm, hmessage rfl⟩
  | host | installed => exact nomatch hf

/-! ### Instructions -/

omit hP in

/-- An input is taken from a register. -/
theorem All.input? (h : m.All P) {index : Nat} {v : Value} (hv : m.input? index = some v) : v.Cell P := by
  obtain ⟨f, hf, hregister⟩ := Option.bind_eq_some_iff.1 hv
  exact (h.stack.frames f (List.mem_of_head? hf)).registers v (Array.mem_of_getElem? hregister)

omit hP in

/-- A native that a program calls is a default one. -/
theorem All.native (hm : m.All P) {index : UInt16} {name : String} {f : Native}
    (h : m.world.natives.get? index = some (name, f)) : f.isDefault = true :=
  hm.world.natives (name, f) (Array.mem_of_getElem? h)

/-- **Instructions make values of those that are there.** The inputs that are collected, and the message
    that is emitted, are taken from their registers whatever they are. -/
theorem step_all {host : Embedder} {resume : Action Outcome} {program : Program} {next : Nat}
    {i : Instruction} (hm : m.All P) (hconstants : ∀ c ∈ program.constants, P c)
    (hinputs : ∀ first f rest, i = .varargsToList first → m.stack.frames = f :: rest →
      ∀ v ∈ f.registers.extract first.toNat (max f.inputCount first.toNat), P v)
    (hmessage : ∀ index name, i = .native index → m.world.natives.get? index = some (name, .emit) →
      ∀ v, m.input? 1 = some v → P v) :
    (step host resume program next i m).2.All P := by
  -- a pause and a return are not performed like the rest, and a native answers to its embedder
  by_cases hpause : i = .pause
  · subst hpause
    exact hm
  by_cases hret : i = .ret
  · subst hret
    have hleave : Ensures (All P) (step host resume program next .ret) fun _ => True :=
      .bind (leave_all hP program) fun _ _ => .pure trivial
    exact (hleave m hm).1
  rw [step_machine hpause hret]
  cases hcall : i.isCall with
  | true =>
    -- calls take arguments from registers, bindings from closures and members from modules
    refine perform_call_leads hP closed_all (fun hn caches => ?_) (fun hn => hn.world.heldValue? hP)
      (fun _ hn => hn) (fun block args link hargs hbindings => (enter_all hP block hargs hbindings).leads)
      next hcall m hm
    exact ⟨hn.world, ⟨hn.stack.frames, hn.stack.state, hn.stack.env, hn.stack.messages,
      hn.stack.retained⟩⟩
  | false =>
    cases i with
    | native index =>
      rw [← step_machine (by nofun) (by nofun), step_native_apply]
      cases hf : m.world.natives.get? index with
      | none => exact hm
      | some entry =>
        have hinvoke := invoke_all hP hm host resume (hm.native hf) fun hemit =>
          hmessage index entry.1 rfl (hf.trans (congrArg some (Prod.ext rfl hemit)))
        dsimp only
        generalize invoke host resume entry.2 m = r at hinvoke
        obtain ⟨_ | _, m'⟩ := r
        · exact hinvoke
        · dsimp only
          cases m'.stack.error <;> exact hinvoke
    | saveState name src =>
      exact (Ensures.bind (entry_ensures _ _ name) (fun s _ =>
        .bind (register_ensures closed_all src) fun v hv => saveState_all s hv) m hm).1
    | jump cond offset =>
      refine (Ensures.bind (R := fun _ => True) (isTaken_ensures closed_all cond)
        (fun taken _ => ?_) m hm).1
      split
      · exact jump_all next offset
      · exact .pure trivial
    | varargsToList first =>
      exact (collectVarargs_meets hP closed_all first hm fun f rest => hinputs first f rest rfl).1
    | call | callKeyed | callFunc | callFuncApply | callMethod => exact nomatch hcall
    | pause => exact absurd rfl hpause
    | ret => exact absurd rfl hret
    | _ => exact (perform_inside_ensures hP closed_all hconstants next rfl rfl (by nofun) m hm).1

/-! ### The start and the end of a run -/

omit hP in
/-- The constants of the program that a run goes on with have the property. -/
theorem currentProgram_all : Ensures (All P) currentProgram fun p => ∀ c ∈ p.constants, P c := by
  refine active_bind_ensures fun m f rest hm _ => ?_
  refine Ensures.bind (program_all f.program) (fun p hp => ?_) m hm
  split
  · exact .pure hp
  · exact .violate _

omit hP in
/-- The check whether frames are up to date may compile their blocks. -/
theorem allCurrent_all (frames : List Frame) :
    Ensures (All P) (allCurrent frames) fun _ => True := by
  have hcurrent : ∀ f, Ensures (All P) (isCurrent f) fun _ => True := by
    intro f
    refine .bind (tryWorld_all fun w hw => hw.program f.program) fun r _ => ?_
    split
    · exact .pure trivial
    · exact .pure trivial
  induction frames with
  | nil => exact .pure trivial
  | cons f rest ih =>
    refine .bind (hcurrent f) fun current _ => ?_
    split
    · exact ih
    · exact .pure trivial

omit hP in
/-- The frames above the root are taken away. -/
theorem unwindToRoot_all {s : Stack} (h : s.All P) : (unwindToRoot s).All P := by
  refine ⟨fun f hf => h.frames f (List.mem_of_mem_drop hf), h.state, h.env, h.messages,
    List.forall_mem_append.2 ⟨h.retained, fun r hr => ?_⟩⟩
  obtain ⟨f, hf, rfl⟩ := List.mem_map.1 hr
  exact (h.frames f (List.mem_of_mem_take (List.mem_filter.1 hf).1)).snapshot

/-- A root that starts over keeps the registers of its inputs. -/
theorem restarted_all {root : Frame} (h : root.All P) (p : Program) {state : Value}
    (hstate : P state) : (restarted root p state).All P := by
  refine ⟨resized_cells hP (fun v hv => ?_) _, hstate, List.forall_mem_nil _, h.bindings⟩
  rw [Array.take_eq_extract] at hv
  obtain ⟨i, hi, rfl⟩ := Array.mem_extract_iff_getElem.1 hv
  exact h.registers _ (Array.getElem_mem _)

/-- **The check at the start of a run** compiles blocks, and may start the root over. -/
theorem restartIfStale_all : Ensures (All P) restartIfStale fun _ => True := by
  refine getStack_bind_all fun s hs => .bind (allCurrent_all _) fun current _ => ?_
  split
  · exact .pure trivial
  refine .bind (modifyStack_all fun s hs => unwindToRoot_all hs) fun _ _ =>
    active_bind_ensures fun m f rest hm hframes => ?_
  -- the root reads the state anew
  refine Ensures.bind (program_all f.program) (fun p _ => getStack_bind_all fun s hs =>
    active_bind_ensures fun n g rest hn hframes => ?_) m hm
  rw [Meets, setActive_apply hframes]
  exact ⟨hn.setActive hframes (restarted_all hP (hn.active hframes) p hs.state), fun _ _ => trivial⟩

omit hP in

/-- Another pc in a frame makes no difference. -/
theorem placed_all (hm : m.All P) (top : Nat) (pc : Frame → Pc) :
    (m.placed top pc).All P := by
  refine ⟨hm.world, ?_⟩
  show (m.stack.modifyFrameAt top fun f => { f with pc := pc f }).All P
  rw [Stack.modifyFrameAt]
  split
  · refine ⟨fun f hf => ?_, hm.stack.state, hm.stack.env, hm.stack.messages, hm.stack.retained⟩
    obtain ⟨i, hi, rfl⟩ := List.getElem_of_mem hf
    dsimp only
    rw [List.getElem_modify]
    have hold := hm.stack.frames _ (List.getElem_mem (by simpa using hi))
    split
    · exact ⟨hold.registers, hold.incoming, hold.outgoing, hold.bindings⟩
    · exact hold
  · exact hm.stack

omit hP in
/-- What a run notes at its end has nothing to do with values. -/
theorem ended_all {r : Except Fault Outcome × Machine} (h : r.2.All P) :
    (ended r).2.All P := by
  have hconclude : ∀ outcome, (conclude outcome r.2.stack).All P := fun _ =>
    ⟨h.stack.frames, h.stack.state, h.stack.env, h.stack.messages, h.stack.retained⟩
  obtain ⟨fault | outcome, m⟩ := r
  · cases fault with
    | raised e =>
      have hrecord : Ensures (All P) (recordError e >>= fun _ => (raise e : Action Outcome))
          fun _ => True := .bind (recordError_all e) fun _ _ => .raise _
      exact (hrecord m h).1
    | crashed | outOfFuel => exact h
  · exact ⟨h.world, hconclude outcome⟩

end

end Machine

end BlockMachine

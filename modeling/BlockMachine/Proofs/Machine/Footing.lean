import BlockMachine.Proofs.Machine.Ensuring
import BlockMachine.Proofs.Machine.MirrorNatives
import BlockMachine.Proofs.Machine.Moments
import BlockMachine.Proofs.State.Tracking

namespace BlockMachine

/-!
# Where frames stand

As long as no error ended the run, every frame stands in a program of its block. Operations and
instructions keep it so: most of them do not move frames, calls push frames that stand at the start of
a program, and changes of the world leave frames standing in an old version, if not in the current one.

* `Machine.Sited` is the invariant, `Machine.footing` what it depends on;
* `Machine.Stays` holds of what moves no frame, `Machine.Shifts` of what may push one;
* `HostOp.shifts` is about all operations that do not run the stack, `Machine.perform_shifts` about all
  instructions but calls of natives.
-/

/-- What a frame runs, and where it is. -/
def Frame.place (f : Frame) : Edition × Nat :=
  (f.edition, f.pc.offset)

/-- Whether a frame stands is a matter of what it runs and where it is. -/
theorem Frame.Stands.of_place {w : World} {f f' : Frame} (h : f.Stands w) (hf : f'.place = f.place) :
    f'.Stands w := by
  obtain ⟨hedition, hoffset⟩ := Prod.mk.inj hf
  exact h.congr (congrArg Edition.block hedition) (congrArg Edition.program hedition)
    (congrArg Edition.version hedition) hoffset

namespace Machine

variable {α β : Type} {m m' m'' : Machine}

/-- Frames stand in programs of their blocks. An instruction that fails may leave the pc of a frame at
    a wrong place, but then the error stays until all frames are gone. -/
structure Sited (m : Machine) : Prop where
  filed : m.world.Filed
  ended : m.stack.error ≠ none → m.stack.phase = .finished
  stands : m.stack.error = none → ∀ f ∈ m.stack.frames, f.Stands m.world

/-- What the standing of frames depends on. -/
structure Footing where
  blocks : Array Block
  programs : ProgramTable
  places : List (Edition × Nat)
  error : Option StackError
  phase : Phase

/-- The footing of a machine. -/
def footing (m : Machine) : Footing :=
  ⟨m.world.blocks, m.world.programs, m.stack.frames.map Frame.place, m.stack.error, m.stack.phase⟩

/-- Frames that are the same up to what they compute with are found by their places. -/
theorem mem_place {frames frames' : List Frame}
    (h : frames'.map Frame.place = frames.map Frame.place) {f' : Frame} (hf' : f' ∈ frames') :
    ∃ f ∈ frames, f'.place = f.place := by
  have hmem : f'.place ∈ frames.map Frame.place := h ▸ List.mem_map_of_mem hf'
  obtain ⟨f, hf, heq⟩ := List.mem_map.1 hmem
  exact ⟨f, hf, heq.symm⟩

/-- Machines on one footing are sited alike. -/
theorem Sited.of_footing (h : m.Sited) (hfooting : m'.footing = m.footing) : m'.Sited := by
  have hblocks : m'.world.blocks = m.world.blocks := congrArg Footing.blocks hfooting
  have hprograms : m'.world.programs = m.world.programs := congrArg Footing.programs hfooting
  have herror : m'.stack.error = m.stack.error := congrArg Footing.error hfooting
  have hphase : m'.stack.phase = m.stack.phase := congrArg Footing.phase hfooting
  refine ⟨(h.filed.kept hblocks hprograms).filed, ?_, fun hnone f' hf' => ?_⟩
  · rw [herror, hphase]
    exact h.ended
  · obtain ⟨f, hf, hplace⟩ := mem_place (congrArg Footing.places hfooting) hf'
    exact ((h.stands (herror ▸ hnone) f hf).mono (.of_eq hblocks hprograms)).of_place hplace

/-- A machine whose run has not ended has no error. -/
theorem Sited.no_error (h : m.Sited) (hphase : m.stack.phase ≠ .finished) : m.stack.error = none :=
  Classical.byContradiction fun herror => hphase (h.ended herror)

/-- The world goes on. -/
theorem Sited.succeed (h : m.Sited) {w : World} (hw : w.Filed) (hsucceeds : m.world.Succeeds w) :
    Sited { m with world := w } :=
  ⟨hw, h.ended, fun herror f hf => (h.stands herror f hf).mono hsucceeds⟩

/-! ### Frames that stay and frames that go -/

/-- No frame is new, and none runs anything else. -/
def Sheds (m m' : Machine) : Prop :=
  m'.stack.frames.map Frame.edition <:+ m.stack.frames.map Frame.edition

/-- A machine sheds nothing from itself. -/
theorem Sheds.refl (m : Machine) : Sheds m m :=
  List.suffix_refl _

/-- What sheds frames twice sheds them. -/
theorem Sheds.trans (h : Sheds m m') (h' : Sheds m' m'') : Sheds m m'' :=
  List.IsSuffix.trans h' h

/-- Frames that run the same as before are not new. -/
theorem Sheds.of_editions
    (h : m'.stack.frames.map Frame.edition = m.stack.frames.map Frame.edition) : Sheds m m' :=
  ⟨[], h⟩

/-- Nothing is shed where the frames are the same. -/
theorem Sheds.of_frames (h : m'.stack.frames = m.stack.frames) : Sheds m m' :=
  .of_editions (congrArg _ h)

/-- Machines on one footing shed nothing from each other. -/
theorem Sheds.of_footing (h : m'.footing = m.footing) : Sheds m m' := by
  have hplaces : m'.stack.frames.map Frame.place = m.stack.frames.map Frame.place :=
    congrArg Footing.places h
  have heditions := congrArg (List.map Prod.fst) hplaces
  rw [List.map_map, List.map_map] at heditions
  exact .of_editions heditions

/-- Frames that are not new carry on with what they ran. -/
theorem Sheds.carries (h : Sheds m m') : Carries m m' :=
  ⟨[], m'.stack.frames, rfl, h, List.forall_mem_nil _⟩

/-- Frames go, and then others come. -/
theorem Sheds.trans_carries (h : Sheds m m') (h' : Carries m' m'') : Carries m m'' := by
  obtain ⟨pushed, kept, hframes, hkept, hpushed⟩ := h'
  exact ⟨pushed, kept, hframes, hkept.trans h, hpushed⟩

/-- A computation pushes no frame and leaves frames where they stand, or takes them away. -/
def Stays (a : Action α) : Prop :=
  ∀ m, m.Sited → (a m).2.Sited ∧ m.Sheds (a m).2

/-- A machine is left with frames that stand, of which some may be new. -/
def Shifted (m m' : Machine) : Prop :=
  m'.Sited ∧ m.Carries m'

/-- A computation may push frames, at the start of their programs. -/
def Shifts (a : Action α) : Prop :=
  ∀ m : Machine, m.Sited → m.Shifted (a m).2

namespace Stays

variable {a : Action α} {f : α → Action β}

/-- A computation that leaves the footing alone moves no frame. -/
theorem of_footing (h : Preserves footing a) : Stays a :=
  fun m hm => ⟨hm.of_footing (h m), .of_footing (h m)⟩

/-- Nothing moves where nothing is done. -/
theorem pure (x : α) : Stays (pure x) :=
  fun m hm => ⟨hm, .refl m⟩

/-- Nothing moves where a computation fails at once. -/
theorem throw (e : Fault) : Stays (throw e : Action α) :=
  fun m hm => ⟨hm, .refl m⟩

/-- What looks at the machine first may go on in any way that moves no frame. -/
theorem get_bind {f : Machine → Action β} (hf : ∀ m, Stays (f m)) : Stays (get >>= f) :=
  fun m hm => hf m m hm

/-- What looks at the stack first may go on in any way that moves no frame. -/
theorem getStack_bind {f : Stack → Action β} (hf : ∀ s, Stays (f s)) : Stays (getStack >>= f) :=
  fun m hm => hf m.stack m hm

/-- Computations that move no frame do so one after the other. -/
theorem bind (ha : Stays a) (hf : ∀ x, Stays (f x)) : Stays (a >>= f) := by
  intro m hm
  obtain ⟨hend, hsheds⟩ := ha m hm
  rw [Failing.bind_apply]
  generalize a m = r at hend hsheds
  obtain ⟨_ | x, n⟩ := r
  · exact ⟨hend, hsheds⟩
  · obtain ⟨hend', hsheds'⟩ := hf x n hend
    exact ⟨hend', hsheds.trans hsheds'⟩

/-- What pushes no frame keeps frames standing. -/
theorem shifts (h : Stays a) : Shifts a :=
  fun m hm => ⟨(h m hm).1, (h m hm).2.carries⟩

/-- Only the last part of a computation may push a frame. -/
theorem bind_at (ha : Stays a) (hm : m.Sited)
    (hf : ∀ x n, a m = (.ok x, n) → n.Sited → n.Shifted (f x n).2) : m.Shifted ((a >>= f) m).2 := by
  obtain ⟨hend, hsheds⟩ := ha m hm
  rw [Failing.bind_apply]
  rcases hr : a m with ⟨_ | x, n⟩ <;> rw [hr] at hend hsheds
  · exact ⟨hend, hsheds.carries⟩
  · obtain ⟨hend', hcarries⟩ := hf x n hr hend
    exact ⟨hend', hsheds.trans_carries hcarries⟩

/-- A frame may be pushed once nothing else is to be done. -/
theorem bind_shifts (ha : Stays a) (hf : ∀ x, Shifts (f x)) : Shifts (a >>= f) :=
  fun _ hm => ha.bind_at hm fun x n _ hn => hf x n hn

/-- A computation on the world that only lets it go on. -/
theorem tryWorld {g : World.Action α}
    (hg : ∀ w : World, w.Filed → (g w).2.Filed ∧ w.Succeeds (g w).2) : Stays (tryWorld g) :=
  fun _ hm => ⟨hm.succeed (hg _ hm.filed).1 (hg _ hm.filed).2, .of_frames rfl⟩

/-- A computation on the world that lets it go on, and whose errors are raised. -/
theorem onWorld {g : World.Action α}
    (hg : ∀ w : World, w.Filed → (g w).2.Filed ∧ w.Succeeds (g w).2) : Stays (onWorld g) := by
  intro m hm
  obtain ⟨hfiled, hsucceeds⟩ := hg _ hm.filed
  rw [onWorld_apply]
  generalize g m.world = r at hfiled hsucceeds
  obtain ⟨_ | _, w⟩ := r <;> exact ⟨hm.succeed hfiled hsucceeds, .of_frames rfl⟩

end Stays

/-- What went well on a world. -/
theorem onWorld_ok {g : World.Action α} {x : α} (h : onWorld g m = (.ok x, m')) :
    g m.world = (.ok x, m'.world) ∧ m'.stack = m.stack := by
  rw [onWorld_apply] at h
  rcases hr : g m.world with ⟨_ | y, w⟩ <;> rw [hr] at h
  · exact nomatch congrArg Prod.fst h
  · obtain ⟨hx, rfl⟩ := Prod.mk.inj h
    obtain rfl := Except.ok.inj hx
    exact ⟨rfl, rfl⟩

/-- Compiling a block files a program, and moves no frame. -/
theorem compile_stays (block : BlockId) : Stays (onWorld (World.compile block)) :=
  .onWorld fun _ hw => ⟨(hw.compile block).1.filed, hw.compile_succeeds block⟩

/-- Looking for a program may compile its block again, and moves no frame. -/
theorem program_stays (index : Nat) : Stays (onWorld (World.program index)) :=
  .onWorld fun _ hw => ⟨(hw.program index).1.filed, hw.program_succeeds index⟩

/-- Compiling a block moves no frame where errors are answers. -/
theorem tryCompile_stays (block : BlockId) : Stays (tryWorld (World.compile block)) :=
  .tryWorld fun _ hw => ⟨(hw.compile block).1.filed, hw.compile_succeeds block⟩

/-- Looking for a program moves no frame where errors are answers. -/
theorem tryProgram_stays (index : Nat) : Stays (tryWorld (World.program index)) :=
  .tryWorld fun _ hw => ⟨(hw.program index).1.filed, hw.program_succeeds index⟩

/-- A new definition of a block leaves the frames of its old ones behind. -/
theorem replaceBlock_stays (block : BlockId) (signature : Signature) (body : List Directive) :
    Stays (tryWorld (World.replaceBlock block signature body)) :=
  .tryWorld fun _ hw =>
    ⟨hw.replaceBlock block signature body, hw.replaceBlock_succeeds block signature body⟩

/-! ### The active frame -/

/-- Machines on one footing may compute with any values in their active frames. -/
theorem closed_footing (o : Footing) : Closed (fun _ => True) fun m => m.footing = o where
  supply hm _ := hm
  cells _ _ _ _ := .inr trivial
  incoming _ _ := trivial
  bindings _ _ _ _ := trivial
  update := by
    intro m f rest registers retain hm hframes _ _
    rw [← hm, footing, footing, hframes]
    rfl

/-- What stays in every footing leaves the footing alone. -/
theorem Ensures.footing {a : Action α} {Q : α → Prop}
    (h : ∀ o, Ensures (fun m => m.footing = o) a Q) : Preserves Machine.footing a :=
  fun m => (h m.footing m rfl).1

/-- The active frame gets new contents. -/
theorem setActive_footing {f f' : Frame} {rest : List Frame} (hframes : m.stack.frames = f :: rest)
    (hplace : f'.place = f.place) : (m.withFrames (f' :: rest)).footing = m.footing := by
  rw [footing, footing, hframes]
  show (⟨_, _, f'.place :: rest.map Frame.place, _, _⟩ : Footing) = _
  rw [hplace]
  rfl

/-- The active frame may change in all that is no matter of its place. -/
theorem modifyActive_preserves {change : Frame → Frame} (h : ∀ f, (change f).place = f.place) :
    Preserves footing (modifyActive change) := by
  intro m
  cases hframes : m.stack.frames with
  | nil => rw [modifyActive, Failing.bind_apply, active_apply_nil hframes]
  | cons f rest =>
    rw [modifyActive_apply change hframes]
    exact setActive_footing hframes (h f)

/-- An output is set in registers, which are no matter of place. -/
theorem setOutput_footing (index : Nat) (v : Value) : Preserves footing (setOutput index v) := by
  refine .get_bind fun m => ?_
  cases m.outputRegister? index with
  | none => rfl
  | some r =>
    exact (active_bind_ensures (S := fun n => n.footing = m.footing) (R := fun _ => True)
      (fun n f rest hn hframes => (closed_footing _).setRegisters hn hframes
        (fun _ _ => .inr trivial) (by
          rw [Array.size_setIfInBounds]
          exact Frame.size_le_grown f.registers (Nat.le_succ _))) m rfl).1

/-- An input is set in registers, which are no matter of place. -/
theorem setInput_footing (index : Nat) (v : Value) : Preserves footing (setInput index v) :=
  Ensures.footing fun _ => active_bind_ensures (R := fun _ => True) fun m f rest hm hframes => by
    split
    · exact (closed_footing _).setRegisters hm hframes (fun _ _ => .inr trivial)
        (Nat.le_of_eq (Array.size_setIfInBounds ..).symm)
    · exact .throw hm _

/-- The number of registers is no matter of place either. -/
theorem resize_footing (count : Nat) : Preserves footing (resize count) :=
  modifyActive_preserves fun _ => rfl

/-- What a frame has saved is no matter of place. -/
theorem saveState_footing (name : String) (v : Value) : Preserves footing (saveState name v) := by
  refine modifyActive_preserves fun f => ?_
  split <;> rfl

/-! ### Calls and returns -/

/-- A frame at the start of its program is pushed. -/
theorem Sited.push (h : m.Sited) {f : Frame} {p : Program} (hruns : m.world.Runs f.block f.program p)
    (hversion : f.version = p.version) (hoffset : f.pc.offset = 0) :
    m.Shifted (m.withFrames (f :: m.stack.frames)) := by
  have hstands : f.Stands m.world := .of_runs hruns hversion (hoffset ▸ .start)
  refine ⟨⟨h.filed, h.ended, fun herror => List.forall_mem_cons.2 ⟨hstands, h.stands herror⟩⟩,
    [f], m.stack.frames, rfl, List.suffix_refl _, ?_⟩
  exact List.forall_mem_singleton.2 ⟨hoffset, p, hruns, hversion⟩

/-- Casting arguments builds values, and leaves frames where they are. -/
theorem castArguments_footing (s : Signature) (i : Nat) (args : List Value) :
    Preserves footing (castArguments s i args) :=
  Ensures.footing fun o => castArguments_ensures Value.hereditary_true (closed_footing o) s i
    fun _ _ => trivial

/-- **Entering a block** pushes a frame that stands at the start of the block's current program. -/
theorem enter_shifts (block : BlockId) (args : List Value) (link : Link) :
    Shifts (enter block args link) := by
  intro m hm
  have hstack : ∀ k : Stack → Action Unit, (getStack >>= k) m = k m.stack m := fun _ => rfl
  rw [enter, hstack]
  dsimp only
  split
  · exact Stays.shifts (.throw _) m hm
  refine (compile_stays block).bind_at hm fun index m₁ hcompile hm₁ => ?_
  refine (program_stays index).bind_at hm₁ fun p m₂ hprogram hm₂ => ?_
  obtain ⟨-, -, hruns⟩ := hm.filed.fetched (onWorld_ok hcompile).1 (onWorld_ok hprogram).1
  split
  · exact Stays.shifts (.throw _) m₂ hm₂
  have hkeep := castArguments_footing p.signature 0 args
  refine (Stays.of_footing hkeep).bind_at hm₂ fun vs m₃ hcast hm₃ => ?_
  -- casting the arguments touches no program
  have hfooting : m₃.footing = m₂.footing := by
    have h := hkeep m₂
    rwa [hcast] at h
  exact hm₃.push (f := ⟨block, index, p.version, _, _, _, _, _, _, _, _, _, _⟩) (p := p)
    (hruns.congr (congrArg Footing.blocks hfooting) (congrArg Footing.programs hfooting)) rfl rfl

/-- What a root that returns changes is not where it stands. -/
theorem leaveRoot_footing {f : Frame} {rest : List Frame} (hframes : m.stack.frames = f :: rest)
    (outputs : List (Output × Value)) : (leaveRoot f outputs m).2.footing = m.footing := by
  have hleft : (leaveRoot f outputs m).2.footing = ⟨m.world.blocks, m.world.programs,
      f.place :: m.stack.frames.tail.map Frame.place, m.stack.error, m.stack.phase⟩ := rfl
  rw [hleft, footing, hframes]
  rfl

/-- The outputs of a root that returned are what its outputs' registers hold then. -/
theorem leaveRoot_outputs {f : Frame} {b : Block} (hb : m.world.blocks[f.block]? = some b)
    (outputs : List (Output × Value)) : (leaveRoot f outputs m).2.outputs =
      b.signature.outputs.map fun o => ((placeOutputs f.registers outputs)[o.register.toNat]?).getD .null := by
  have hframes : (leaveRoot f outputs m).2.stack.frames =
      { f with registers := placeOutputs f.registers outputs, outgoing := [] } :: m.stack.frames.tail := rfl
  have hblocks : (leaveRoot f outputs m).2.world.blocks = m.world.blocks := rfl
  rw [Machine.outputs, hframes]
  dsimp only
  rw [hblocks, hb]

/-- The outputs of a child go to registers of its parent, which stays where it is. -/
theorem deliver_footing (child : Frame) (outputs : List Value) :
    Preserves footing (deliver child outputs) := by
  intro m
  cases hframes : m.stack.frames with
  | nil => rw [deliver, Failing.bind_apply, active_apply_nil hframes]
  | cons parent rest =>
    have hdelivered : (deliver child outputs m).2.footing = ⟨m.world.blocks, m.world.programs,
        parent.place :: m.stack.frames.tail.map Frame.place, m.stack.error, m.stack.phase⟩ := by
      rw [deliver, Failing.bind_apply, active_apply hframes]
      cases child.key <;> rfl
    rw [hdelivered, footing, hframes]
    rfl

/-- Frames are taken away from the top. -/
theorem Sited.sheds (h : m.Sited) {s : Stack} (hframes : s.frames <:+ m.stack.frames)
    (herror : s.error = none ∨ s.error = m.stack.error ∧ s.phase = m.stack.phase)
    (hkept : s.frames = [] ∨ s.error = m.stack.error) :
    Sited { m with stack := s } ∧ m.Sheds { m with stack := s } := by
  refine ⟨⟨h.filed, fun hne => ?_, fun hnone f hf => ?_⟩, hframes.map _⟩
  · obtain herror | ⟨herror, hphase⟩ := herror
    · exact absurd herror hne
    · exact hphase.trans (h.ended (herror ▸ hne))
  · obtain hempty | hsame := hkept
    · rw [hempty] at hf
      exact nomatch hf
    · exact h.stands (hsame ▸ hnone) f (hframes.subset hf)

/-- Taking the top frame away leaves the others where they stand. -/
theorem popFrame_stays : Stays (onStack Stack.popFrame) := by
  intro m hm
  have hpop : m.stack.popFrame.2.frames = m.stack.frames.tail ∧
      m.stack.popFrame.2.error = m.stack.error ∧ m.stack.popFrame.2.phase = m.stack.phase := by
    rw [Stack.popFrame]
    cases hframes : m.stack.frames with
    | nil => exact ⟨hframes, rfl, rfl⟩
    | cons f rest => exact ⟨rfl, rfl, rfl⟩
  obtain ⟨hframes, herror, hphase⟩ := hpop
  exact hm.sheds (hframes ▸ List.tail_suffix _) (.inr ⟨herror, hphase⟩) (.inr herror)

/-- **Returning** takes the frame away, unless it is the root. -/
theorem leave_stays (program : Program) : Stays (leave program) := by
  intro m hm
  cases hframes : m.stack.frames with
  | nil =>
    rw [leave, Failing.bind_apply, active_apply_nil hframes]
    exact ⟨hm, .refl m⟩
  | cons f rest =>
    rw [leave, Failing.bind_apply, active_apply hframes]
    dsimp only
    -- casting the outputs takes buffer numbers only
    have hfooting : Preserves footing (castOutputs program f.registers 0 program.signature.outputs) :=
      castOutputs_preserves (fun _ _ => rfl) _ _ _ _
    have hstack : Preserves (·.stack) (castOutputs program f.registers 0 program.signature.outputs) :=
      castOutputs_preserves (fun _ _ => rfl) _ _ _ _
    replace hfooting := hfooting m
    replace hstack := hstack m
    rw [Failing.bind_apply]
    generalize castOutputs program f.registers 0 program.signature.outputs m = r at hfooting hstack
    obtain ⟨e | outputs, m₁⟩ := r
    · exact ⟨hm.of_footing hfooting, .of_footing hfooting⟩
    have hm₁ : m₁.Sited := hm.of_footing hfooting
    have hframes₁ : m₁.stack.frames = f :: rest := by rw [show m₁.stack = m.stack from hstack, hframes]
    dsimp only
    have hrest : ∀ {a : Action Bool}, (Stays a ∨ (a m₁).2.footing = m₁.footing) →
        (a m₁).2.Sited ∧ m.Sheds (a m₁).2 := by
      rintro a (ha | ha)
      · exact ⟨(ha m₁ hm₁).1, (Sheds.of_footing hfooting).trans (ha m₁ hm₁).2⟩
      · exact ⟨hm₁.of_footing ha, .of_footing (ha.trans hfooting)⟩
    split
    · exact hrest (.inr (leaveRoot_footing hframes₁ _))
    · exact hrest (.inl (.bind popFrame_stays fun _ =>
        .bind (.of_footing (deliver_footing f outputs)) fun _ => .pure _))

/-! ### Errors and natives -/

/-- What is left when an error was noted: the program of the active frame may have been looked at. -/
theorem recordError_machine (e : RuntimeError) (m : Machine) :
    ∃ w note, (recordError e m).2 = { m with
        world := w, stack := { m.stack with error := some note, phase := .finished } } ∧
      (w = m.world ∨ ∃ index, w = (World.program index m.world).2) := by
  obtain ⟨world, ⟨frames⟩, printed⟩ := m
  cases frames with
  | nil => exact ⟨world, _, rfl, .inl rfl⟩
  | cons f rest => exact ⟨_, _, rfl, .inr ⟨f.program, rfl⟩⟩

/-- Noting an error ends the run, and then it does not matter where frames stand. -/
theorem recordError_sited (hm : m.world.Filed) (e : RuntimeError) :
    (recordError e m).2.Sited ∧ m.Sheds (recordError e m).2 := by
  obtain ⟨w, note, hmachine, hw⟩ := recordError_machine e m
  rw [hmachine]
  refine ⟨⟨?_, fun _ => rfl, nofun⟩, .of_frames rfl⟩
  obtain rfl | ⟨index, rfl⟩ := hw
  · exact hm
  · exact (hm.program index).1.filed

/-- A native that raises an error ends the run, and moves no frame. -/
theorem raiseError_stays (message : String) : Stays (raiseError message) := by
  have hdone : Stays (do
      recordError (.hostRaised message)
      return RuntimeError.hostRaised message) :=
    .bind (fun m hm => recordError_sited hm.filed _) fun _ => .pure _
  refine .get_bind fun m => ?_
  dsimp only
  split
  · exact .bind (.of_footing (setOutput_footing 0 _)) fun _ => hdone
  · exact hdone

/-- Looking at an argument moves no frame. -/
theorem argument_stays (index : Nat) : Stays (argument index) := by
  refine .get_bind fun m => ?_
  split
  · exact .pure _
  · exact .throw _

/-- Reading an integer from an argument moves no frame. -/
theorem intArgument_stays (index : Nat) : Stays (intArgument index) := by
  refine .bind (argument_stays index) fun v => ?_
  split
  · exact .pure _
  · exact .throw _

/-- Reading a key from an argument moves no frame. -/
theorem keyArgument_stays (index : Nat) (what : String) : Stays (keyArgument index what) := by
  refine .bind (argument_stays index) fun v => ?_
  split
  · exact .pure _
  · exact .throw _

/-- Drawing a number moves no frame. -/
theorem drawRandom_stays (l : Libraries) : Stays (drawRandom l) := by
  have hdraw : ∀ {γ : Type} (draw : Random → γ × Random), Stays (onStack fun s =>
      ((draw s.random).1, { s with random := (draw s.random).2 })) :=
    fun draw => .of_footing fun _ => rfl
  refine .get_bind fun m => ?_
  split
  · exact .bind (hdraw l.float) fun x => .of_footing (setOutput_footing 0 _)
  · refine .bind (intArgument_stays 0) fun lo => .bind (intArgument_stays 1) fun hi => ?_
    split
    · exact .bind (hdraw (l.int lo hi)) fun n => .of_footing (setOutput_footing 0 _)
    · exact .bind (raiseError_stays _) fun e => .throw _

/-- A message is queued beside the frames. -/
theorem emit_footing (channel : Key) (message : Value) :
    Preserves footing (onStack (·.emit channel message)) := by
  intro m
  show footing { m with stack := (m.stack.emit channel message).2 } = _
  rw [Stack.emit]
  cases Entries.get? channel m.stack.messages <;> rfl

/-- **Default natives move no frame.** -/
theorem invoke_default_stays (host : Embedder) (resume : Action Outcome) {f : Native}
    (hf : f.isDefault = true) : Stays (invoke host resume f) := by
  have houtput : ∀ v, Stays (setOutput 0 v) := fun v => .of_footing (setOutput_footing 0 v)
  cases f with
  | print => exact .of_footing fun _ => rfl
  | toText =>
    exact .bind (argument_stays 0) fun v => .bind (.of_footing fun _ => rfl) fun w => houtput w
  | length =>
    refine .bind (argument_stays 0) fun v => ?_
    split
    · exact houtput _
    · exact .throw _
  | random => exact drawRandom_stays _
  | env => exact .bind (keyArgument_stays 0 _) fun k => .getStack_bind fun s => houtput _
  | error => exact .bind (argument_stays 0) fun v => .bind (raiseError_stays _) fun e => .throw _
  | hash => exact .bind (argument_stays 0) fun v => houtput _
  | emit =>
    exact .bind (keyArgument_stays 0 _) fun k => .bind (argument_stays 1) fun v =>
      .bind (.of_footing (emit_footing k v)) fun _ => .pure _
  | host | installed => exact nomatch hf

/-! ### Hosts -/

/-- A stack that starts over has no frames and no error. -/
theorem startOver_stays {change : Stack → Stack} (hframes : ∀ s, (change s).frames = [])
    (herror : ∀ s, (change s).error = none) : Stays (modifyStack change) := by
  intro m hm
  refine hm.sheds ?_ (.inl (herror m.stack)) (.inl (hframes m.stack))
  rw [hframes]
  exact List.nil_suffix

/-- A push clears a finished stack and enters the block. -/
theorem push_shifts (block : BlockId) (inputs : List Value) : Shifts (push block inputs) := by
  refine Stays.bind_shifts (.of_footing fun _ => rfl) fun s => ?_
  split
  · exact Stays.bind_shifts (startOver_stays (fun _ => rfl) fun _ => rfl) fun _ =>
      enter_shifts block inputs {}
  · exact enter_shifts block inputs {}

/-- Another root stands where its program starts. -/
theorem changeMain_shifts (block : BlockId) (inputs bindings : List Value) :
    Shifts (changeMain block inputs bindings) :=
  Stays.bind_shifts (startOver_stays (fun _ => rfl) fun _ => rfl) fun _ => enter_shifts block inputs _

/-- A migration leaves the frames where they stand, or enters the new block in their place. -/
theorem migrate_shifts (old new : BlockId) : Shifts (migrate old new) := by
  refine Stays.bind_shifts (.of_footing fun _ => rfl) fun s => Stays.bind_shifts
    (.of_footing fun _ => rfl) fun state => Stays.bind_shifts (.of_footing fun _ => rfl) fun _ =>
      Stays.bind_shifts (.of_footing fun _ => rfl) fun s => ?_
  split
  · split
    · exact changeMain_shifts new _ _
    · exact Stays.shifts (.pure _)
  · exact Stays.shifts (.pure _)

/-- Listing the frames may compile their blocks, and moves none of them. -/
theorem frameList_stays : Stays frameList := by
  refine .getStack_bind fun s => ?_
  -- the frames are shown one after the other
  generalize s.frames.reverse.zipIdx = frames
  induction frames with
  | nil => exact .pure _
  | cons f rest ih =>
    rw [List.mapM_cons]
    refine .bind (.bind (tryProgram_stays _) fun r => ?_) fun _ => .bind ih fun _ => .pure _
    split <;> exact .pure _

end Machine

/-- Whether an operation runs the stack. -/
def HostOp.isRun {β : Type} : HostOp β → Bool
  | .run | .call .. => true
  | _ => false

open Machine

/-- **Operations keep frames standing**, those aside that run the stack. -/
theorem HostOp.shifts (resume : Action Outcome) {β : Type} {o : HostOp β} (h : o.isRun = false) :
    Shifts (o.perform resume) := by
  cases o with
  | run | call => exact nomatch h
  | look | cancel | duplicate | setState | setEnv | expect | takeRetained | setRandom | print | number
    | addRecord | addMethod | addModule => exact Stays.shifts (.of_footing fun _ => rfl)
  | push block inputs => exact push_shifts block inputs
  | pop => exact popFrame_stays.shifts
  | resize count => exact Stays.shifts (.of_footing (resize_footing count))
  | reset discardState => exact Stays.shifts (startOver_stays (fun _ => rfl) fun _ => rfl)
  | migrateTo block inputs => exact changeMain_shifts block inputs []
  | migrateToFunc func inputs =>
    rw [HostOp.perform, Machine.migrateToFunc]
    split
    · exact changeMain_shifts _ inputs _
    · exact Stays.shifts (.throw _)
  | migrate old new => exact migrate_shifts old new
  | loadState text =>
    refine Stays.shifts (.of_footing (.get_bind fun m => ?_))
    cases ofJsonText m.world.registry text m.world.supply <;> rfl
  | setInput index v => exact Stays.shifts (.of_footing (setInput_footing index v))
  | setOutput index v => exact Stays.shifts (.of_footing (setOutput_footing index v))
  | raise message => exact (raiseError_stays message).shifts
  | consume channel =>
    refine Stays.shifts (.bind (.of_footing fun m => ?_) fun r => ?_)
    · show footing { m with stack := (m.stack.consume channel).2 } = _
      rw [Stack.consume]
      cases Entries.get? channel m.stack.messages <;> rfl
    · cases r with
      | none => exact .throw _
      | some queue => exact .pure _
  | emit channel message => exact Stays.shifts (.of_footing (emit_footing channel message))
  | frameList => exact frameList_stays.shifts
  | cast type v =>
    exact Stays.shifts (.of_footing (Ensures.footing fun o =>
      tryCast_ensures Value.hereditary_true (closed_footing o) type (.inr trivial)))
  | addBlock signature body =>
    -- no frame runs a new block yet, so all stand on what they stood on
    refine Stays.shifts fun m hm => ⟨hm.succeed ?_ ?_, .of_frames rfl⟩
    · exact (hm.filed.addBlock signature body).filed
    · exact World.addBlock_succeeds signature body m.world
  | replaceBlock block signature body => exact (replaceBlock_stays block signature body).shifts
  | compile block => exact (tryCompile_stays block).shifts
  | program index => exact (tryProgram_stays index).shifts
  | registerNative name f =>
    refine Stays.shifts (.of_footing fun m => ?_)
    show footing { m with world := (World.registerNative name f m.world).2 } = _
    rw [World.registerNative_table]
    rfl
  | patchNative name f =>
    refine Stays.shifts (.of_footing fun m => ?_)
    show footing { m with world := (World.patchNative name f m.world).2 } = _
    rw [World.patchNative_table]
    rfl

end BlockMachine

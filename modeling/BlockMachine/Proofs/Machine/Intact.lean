import BlockMachine.Proofs.Machine.Footing
import BlockMachine.Proofs.State.Standing

namespace BlockMachine

/-!
# Machines that are intact

Whatever a host and its natives do to a stack, and wherever they are left, the programs of the world stay
filed, and what the stack notes about its last run fits together: an error ends the run, and a run that
ended well did not pause. This holds in the middle of runs too, and after runs that were given up.

* `Stack.Concluded` is about the notes, `Machine.Intact` about the machine;
* `Machine.step_careful` is about instructions, `HostOp.upholds`, `Script.upholds` and `Native.upholds` are
  about hosts and natives;
* `Machine.runBy_upholds` is about runs and `Machine.Reached.intact` about all that a stack comes by.
-/

/-- What runs leave on a stack: an error ends it, and if it finished without one it did not pause. -/
structure Stack.Concluded (s : Stack) : Prop where
  failed : s.error ≠ none → s.phase = .finished
  unpaused : s.phase = .finished → s.error = none → s.lastOutcome ≠ some .paused

namespace Stack.Concluded

variable {s : Stack}

/-- A stack that may run again has no error. -/
theorem errorless (h : s.Concluded) (hphase : s.phase ≠ .finished) : s.error = none :=
  Classical.byContradiction fun herror => hphase (h.failed herror)

/-- A stack whose run has not ended yet. -/
theorem of_unfinished (herror : s.error = none) (hphase : s.phase ≠ .finished) : s.Concluded :=
  ⟨fun h => absurd herror h, fun h => absurd h hphase⟩

/-- A stack whose run was ended by an error. -/
theorem of_failed (herror : s.error ≠ none) (hphase : s.phase = .finished) : s.Concluded :=
  ⟨fun _ => hphase, fun _ h => absurd h herror⟩

/-- A run that ends well is noted on a stack without error. -/
theorem conclude (herror : s.error = none) (outcome : Outcome) : (Machine.conclude outcome s).Concluded := by
  cases outcome with
  | paused => exact of_unfinished herror (by rintro ⟨⟩)
  | finished | cancelled => exact ⟨fun h => absurd herror h, fun _ _ => by rintro ⟨⟩⟩

end Stack.Concluded

namespace Machine

variable {α β : Type} {m m' : Machine}

/-- **What holds of every machine**: programs are filed for the blocks that they belong to, and what the
    stack notes about its last run fits together. -/
structure Intact (m : Machine) : Prop where
  filed : m.world.Filed
  concluded : m.stack.Concluded

/-- What that depends on: the blocks and programs of the world, and the notes of the stack. -/
def condition (m : Machine) : Array Block × ProgramTable × Phase × Option StackError × Option Outcome :=
  (m.world.blocks, m.world.programs, m.stack.phase, m.stack.error, m.stack.lastOutcome)

/-- Registers, caches and the role of a frame have no part in it. -/
theorem aloof_condition : Aloof condition where
  supply _ _ := rfl
  caches _ _ := rfl
  role _ _ := rfl

namespace Intact

/-- A world whose programs are filed may take the place of another one. -/
theorem world (h : m.Intact) {w : World} (hw : w.Filed) : Intact { m with world := w } :=
  ⟨hw, h.concluded⟩

/-- A stack whose notes fit together may take the place of another one. -/
theorem stack (h : m.Intact) {s : Stack} (hs : s.Concluded) : Intact { m with stack := s } :=
  ⟨h.filed, hs⟩

/-- A machine is as intact as one that agrees with it on its condition. -/
theorem of_condition (h : m.Intact) (hm : m'.condition = m.condition) : m'.Intact := by
  simp only [condition, Prod.mk.injEq] at hm
  obtain ⟨hblocks, hprograms, hphase, herror, houtcome⟩ := hm
  refine ⟨(h.filed.kept hblocks hprograms).filed, ?_, ?_⟩
  · rw [herror, hphase]
    exact h.concluded.failed
  · rw [herror, hphase, houtcome]
    exact h.concluded.unpaused

/-- Machines that agree on their condition are both intact, or both are not. -/
theorem eq_of_condition (hm : m'.condition = m.condition) : m'.Intact = m.Intact :=
  propext ⟨fun h => h.of_condition hm.symm, fun h => h.of_condition hm⟩

end Intact

/-- A computation leaves intact machines intact, however it ends. -/
abbrev Careful (a : Action α) : Prop :=
  Ensures Intact a fun _ => True

/-! ### What keeps a machine intact -/

/-- What leaves the condition of a machine as it is leaves it intact. -/
theorem careful_of_condition {a : Action α} (h : Preserves condition a) : Careful a :=
  fun m hm => ⟨hm.of_condition (h m), fun _ _ => trivial⟩

/-- What changes the stack has to keep its notes fitting. -/
theorem onStack_careful {g : Stack → α × Stack} (hg : ∀ s, s.Concluded → (g s).2.Concluded) :
    Careful (onStack g) :=
  fun _ hm => ⟨hm.stack (hg _ hm.concluded), fun _ _ => trivial⟩

/-- What changes the stack without an answer has to keep its notes fitting. -/
theorem modifyStack_careful {g : Stack → Stack} (hg : ∀ s, s.Concluded → (g s).Concluded) :
    Careful (modifyStack g) :=
  fun _ hm => ⟨hm.stack (hg _ hm.concluded), fun _ _ => trivial⟩

/-- What changes the world has to keep its programs filed. -/
theorem tryWorld_careful {g : World.Action α} (hg : ∀ w : World, w.Filed → (g w).2.Filed) :
    Careful (tryWorld g) :=
  fun _ hm => ⟨hm.world (hg _ hm.filed), fun _ _ => trivial⟩

/-- What changes the world and raises its errors has to keep its programs filed. -/
theorem onWorld_careful {g : World.Action α} (hg : ∀ w : World, w.Filed → (g w).2.Filed) :
    Careful (onWorld g) := by
  intro m hm
  have hfiled := hg _ hm.filed
  rw [Meets, onWorld_apply]
  generalize g m.world = r at hfiled
  obtain ⟨_ | _, w⟩ := r <;> exact ⟨hm.world hfiled, fun _ _ => trivial⟩

/-- Compiling files the new program. -/
theorem compile_careful (block : BlockId) : Careful (onWorld (World.compile block)) :=
  onWorld_careful fun _ hw => (hw.compile block).1.filed

/-- Looking for a program may compile its block again, which files the new program. -/
theorem program_careful (index : Nat) : Careful (onWorld (World.program index)) :=
  onWorld_careful fun _ hw => (hw.program index).1.filed

/-- Looking for a program keeps programs filed where errors are answers. -/
theorem tryProgram_careful (index : Nat) : Careful (tryWorld (World.program index)) :=
  tryWorld_careful fun _ hw => (hw.program index).1.filed

/-- Compiling keeps programs filed where errors are answers. -/
theorem tryCompile_careful (block : BlockId) : Careful (tryWorld (World.compile block)) :=
  tryWorld_careful fun _ hw => (hw.compile block).1.filed

/-- A new definition of a block takes its old program out. -/
theorem replaceBlock_careful (block : BlockId) (signature : Signature) (body : List Directive) :
    Careful (tryWorld (World.replaceBlock block signature body)) :=
  tryWorld_careful fun _ hw => hw.replaceBlock block signature body

/-- Looking at the active frame leaves the machine as it is. -/
theorem active_careful : Careful active :=
  careful_of_condition (active_machine.part condition)

/-- The contents of frames are no part of the condition. -/
theorem modifyActive_careful (change : Frame → Frame) : Careful (modifyActive change) :=
  .bind active_careful fun _ _ => careful_of_condition fun _ => rfl

/-- The number of frames is no part of the condition. -/
theorem popFrame_careful : Careful (onStack Stack.popFrame) := by
  refine onStack_careful fun s hs => ?_
  rw [Stack.popFrame]
  cases s.frames <;> exact ⟨hs.failed, hs.unpaused⟩

/-- The messages of a channel are no part of the condition. -/
theorem emit_careful (channel : Key) (message : Value) : Careful (onStack (·.emit channel message)) := by
  refine onStack_careful fun s hs => ?_
  rw [Stack.emit]
  cases Entries.get? channel s.messages <;> exact ⟨hs.failed, hs.unpaused⟩

/-- Noting an error ends the run. -/
theorem recordError_intact (hm : m.world.Filed) (e : RuntimeError) : (recordError e m).2.Intact := by
  obtain ⟨w, note, hmachine, hw⟩ := recordError_machine e m
  rw [hmachine]
  refine ⟨?_, .of_failed (Option.some_ne_none _) rfl⟩
  obtain rfl | ⟨index, rfl⟩ := hw
  · exact hm
  · exact (hm.program index).1.filed

/-- A native that raises an error ends the run. -/
theorem raiseError_careful (message : String) : Careful (raiseError message) := by
  have hdone : Careful (do
      recordError (.hostRaised message)
      return RuntimeError.hostRaised message) :=
    .bind (Q := fun _ => True) (fun m hm => ⟨recordError_intact hm.filed _, fun _ _ => trivial⟩)
      fun _ _ => .pure trivial
  refine .get_bind fun m hm => ?_
  dsimp only
  split
  · exact Ensures.bind (careful_of_condition (aloof_condition.setOutput 0 _)) (fun _ _ => hdone) m hm
  · exact hdone m hm

/-- Being intact has nothing to do with registers, caches and roles. -/
theorem aloof_intact : Aloof Intact where
  supply _ _ := Intact.eq_of_condition rfl
  caches _ _ := Intact.eq_of_condition rfl
  role _ _ := Intact.eq_of_condition rfl

/-- **Default natives leave machines intact.** -/
theorem invoke_default_careful (host : Embedder) (resume : Action Outcome) {f : Native}
    (hf : f.isDefault = true) : Careful (invoke host resume f) := by
  have hserving : Serving Strict (Still Intact True) :=
    aloof_intact.serving (fun _ _ => Intact.eq_of_condition rfl) (fun _ _ => Intact.eq_of_condition rfl)
      (fun _ _ => Intact.eq_of_condition rfl) fun message m hm =>
        eq_true (raiseError_careful message m (of_eq_true hm)).1
  intro m hm
  exact ⟨of_eq_true (still_of_mirrors (invoke_default_mirrors hserving host hf) (eq_true hm)),
    fun _ _ => trivial⟩

/-! ### Instructions -/

/-- Intact machines may compute with any values. -/
theorem closed_intact : Closed (fun _ => True) Intact where
  supply hm _ := hm.of_condition rfl
  cells _ _ _ _ := .inr trivial
  incoming _ _ := trivial
  bindings _ _ _ _ := trivial
  update _ hm _ _ _ := hm.of_condition rfl

/-- Entering a block compiles it, casts the arguments and pushes a frame. -/
theorem enter_careful (block : BlockId) (args : List Value) (link : Link) :
    Careful (enter block args link) := by
  refine .getStack_bind fun s => ?_
  dsimp only
  split
  · exact .raise _
  refine .bind (compile_careful block) fun index _ => .bind (program_careful index) fun p _ => ?_
  split
  · exact .raise _
  exact .bind (castArguments_ensures Value.hereditary_true closed_intact _ 0 fun _ _ => trivial) fun _ _ =>
    careful_of_condition fun _ => rfl

/-- Returning casts the outputs and takes the frame away, or hands them over to the host. -/
theorem leave_careful (program : Program) : Careful (leave program) := by
  have hdeliver : ∀ child outputs, Careful (deliver child outputs) := fun child outputs =>
    .bind active_careful fun parent _ => by
      dsimp only
      split <;> exact fun m hm => ⟨hm.of_condition rfl, fun _ _ => trivial⟩
  refine .bind active_careful fun f _ =>
    .bind (careful_of_condition (castOutputs_preserves (fun _ _ => rfl) program f.registers 0 _))
      fun outputs _ => ?_
  split
  · exact fun m hm => ⟨hm.of_condition rfl, fun _ _ => trivial⟩
  · exact .bind popFrame_careful fun _ _ => .bind (hdeliver f outputs) fun _ _ => .pure trivial

/-- After a native only its error is looked at. -/
theorem callNative_careful {host : Embedder} {resume : Action Outcome}
    (hinvoke : ∀ f, Careful (invoke host resume f)) (index : UInt16) :
    Careful (callNative host resume index) := by
  refine fun m hm => ⟨?_, fun _ _ => trivial⟩
  rw [callNative_machine]
  split
  · exact (hinvoke _ m hm).1
  · exact hm

/-- What an instruction does leaves machines intact, given that natives do. -/
theorem perform_careful {host : Embedder} {resume : Action Outcome}
    (hinvoke : ∀ f, Careful (invoke host resume f)) (program : Program) (next : Nat) (i : Instruction) :
    Careful (perform host resume program next i) := by
  have hinside : i.staysInside = true → Careful (perform host resume program next i) :=
    fun hi => careful_of_condition (perform_inside_preserves aloof_condition next hi)
  have hcall : i.isCall = true → Careful (perform host resume program next i) := fun hi m hm =>
    ⟨perform_call_leads Value.hereditary_true closed_intact (fun hm _ => hm.of_condition rfl)
      (fun _ _ _ _ _ _ => trivial) (fun _ hm => hm)
      (fun block args link _ _ => (enter_careful block args link).leads) next hi m hm, fun _ _ => trivial⟩
  cases i with
  | native index => exact callNative_careful hinvoke index
  | saveState name src =>
    exact .bind (entry_ensures _ _ name) fun s _ => .bind (register_ensures closed_intact src) fun v _ =>
      modifyActive_careful _
  | pause | ret => exact .pure trivial
  | call | callKeyed | callFunc | callFuncApply | callMethod => exact hcall rfl
  | _ => exact hinside rfl

/-- **Instructions leave machines intact**, given that natives do. -/
theorem step_careful {host : Embedder} {resume : Action Outcome}
    (hinvoke : ∀ f, Careful (invoke host resume f)) (program : Program) (next : Nat) (i : Instruction) :
    Careful (step host resume program next i) := by
  by_cases hpause : i = .pause
  · subst hpause
    exact .pure trivial
  by_cases hret : i = .ret
  · subst hret
    exact .bind (leave_careful program) fun _ _ => .pure trivial
  · intro m hm
    refine ⟨?_, fun _ _ => trivial⟩
    rw [step_machine hpause hret]
    exact (perform_careful hinvoke program next i m hm).1

/-! ### Hosts -/

/-- A push on a stack that is finished makes it start over. -/
theorem push_careful (block : BlockId) (inputs : List Value) : Careful (push block inputs) := by
  refine .getStack_bind fun _ => ?_
  split
  · exact .bind (modifyStack_careful fun _ _ => .of_unfinished rfl (by rintro ⟨⟩)) fun _ _ =>
      enter_careful block inputs {}
  · exact enter_careful block inputs {}

/-- Another root is entered on a stack that starts over. -/
theorem changeMain_careful (block : BlockId) (inputs bindings : List Value) :
    Careful (changeMain block inputs bindings) :=
  .bind (modifyStack_careful fun _ _ => .of_unfinished rfl (by rintro ⟨⟩)) fun _ _ =>
    enter_careful block inputs _

/-- A migration rebinds values, and may enter another root. -/
theorem migrate_careful (old new : BlockId) : Careful (migrate old new) := by
  intro m hm
  have hrebound : (m.rebound old new).Intact := hm.of_condition rfl
  rw [Meets, migrate_apply]
  cases m.stack.frames.getLast? with
  | none => exact ⟨hrebound, fun _ _ => trivial⟩
  | some root =>
    by_cases hroot : root.block = old
    · simp only [if_pos hroot]
      exact changeMain_careful new _ _ _ hrebound
    · simp only [if_neg hroot]
      exact ⟨hrebound, fun _ _ => trivial⟩

/-- Listing the frames may compile their blocks. -/
theorem frameList_careful : Careful frameList := by
  refine .getStack_bind fun _ => ?_
  -- the frames are shown one after the other
  suffices h : ∀ frames : List (Frame × Nat), Careful (frames.mapM fun x => frameInfo x.2 x.1) from h _
  intro frames
  induction frames with
  | nil => exact .pure trivial
  | cons f rest ih =>
    rw [List.mapM_cons]
    refine .bind (Q := fun _ => True) (.bind (tryProgram_careful _) fun r _ => ?_) fun _ _ =>
      .bind ih fun _ _ => .pure trivial
    split <;> exact .pure trivial

end Machine

open Machine

/-- **Operations leave machines intact**, those aside that run the stack. -/
theorem HostOp.careful (resume : Action Outcome) {β : Type} {o : HostOp β} (h : o.isRun = false) :
    Careful (o.perform resume) := by
  cases o with
  | run | call => cases h
  | look | cancel | duplicate | setState | setEnv | expect | takeRetained | setRandom | print | number
    | addRecord | addMethod | addModule => exact careful_of_condition fun _ => rfl
  | push block inputs => exact push_careful block inputs
  | pop => exact popFrame_careful
  | resize count => exact careful_of_condition (aloof_condition.resize count)
  | reset discardState => exact modifyStack_careful fun _ _ => .of_unfinished rfl (by rintro ⟨⟩)
  | migrateTo block inputs => exact changeMain_careful block inputs []
  | migrateToFunc func inputs =>
    rw [HostOp.perform, Machine.migrateToFunc]
    split
    · exact changeMain_careful _ inputs _
    · exact .mismatch _ _
  | migrate old new => exact migrate_careful old new
  | loadState text =>
    -- a text that is read replaces the state only
    refine careful_of_condition (.get_bind fun m => ?_)
    cases ofJsonText m.world.registry text m.world.supply <;> rfl
  | setInput index v => exact careful_of_condition (aloof_condition.setInput index v)
  | setOutput index v => exact careful_of_condition (aloof_condition.setOutput index v)
  | raise message => exact raiseError_careful message
  | consume channel =>
    refine .bind (onStack_careful fun s hs => ?_) fun r _ => ?_
    · rw [Stack.consume]
      cases Entries.get? channel s.messages <;> exact ⟨hs.failed, hs.unpaused⟩
    · cases r with
      | none => exact .raise _
      | some queue => exact .pure trivial
  | emit channel message => exact emit_careful channel message
  | frameList => exact frameList_careful
  | cast type v => exact careful_of_condition (aloof_condition.tryCast type v)
  | addBlock signature body =>
    intro m hm
    have hadded : Intact { m with world := (m.world.addBlock signature body).2 } :=
      hm.world (hm.filed.addBlock signature body).filed
    exact ⟨hadded, fun _ _ => trivial⟩
  | replaceBlock block signature body => exact replaceBlock_careful block signature body
  | compile block => exact tryCompile_careful block
  | program index => exact tryProgram_careful index
  | registerNative name f =>
    refine careful_of_condition fun m => ?_
    show condition { m with world := (World.registerNative name f m.world).2 } = _
    rw [World.registerNative_table]
    rfl
  | patchNative name f =>
    refine careful_of_condition fun m => ?_
    show condition { m with world := (World.patchNative name f m.world).2 } = _
    rw [World.patchNative_table]
    rfl

namespace Machine

/-- A computation leaves an intact machine intact, and all machines on its course are. -/
def Upholds (a : Action α) (course : Machine → List Mark) : Prop :=
  ∀ m : Machine, m.Intact → (a m).2.Intact ∧ ∀ mark ∈ course m, mark.machine.Intact

/-- A run does so, and leaves no error when it ends well. -/
structure UpholdsRun (resume : Action Outcome) (running : Machine → List Mark) : Prop where
  upholds : Upholds resume running
  errorless : ∀ {m : Machine}, m.Intact → ∀ outcome m', resume m = (.ok outcome, m') →
    m'.stack.error = none

/-- What is asked of the course aside, the end is an intact machine. -/
theorem Upholds.careful {a : Action α} {course : Machine → List Mark} (h : Upholds a course) : Careful a :=
  fun m hm => ⟨(h m hm).1, fun _ _ => trivial⟩

/-- A computation whose course is its end leaves machines intact all along. -/
theorem Careful.upholds {a : Action α} (h : Careful a) (events : Machine → List Event) :
    Upholds a fun m => [⟨events m, (a m).2⟩] :=
  fun m hm => ⟨(h m hm).1, List.forall_mem_singleton.2 (h m hm).1⟩

/-- A call is a push, a run, and the end of the call. -/
theorem call_upholds {resume : Action Outcome} {running : Machine → List Mark}
    (hresume : UpholdsRun resume running) (block : BlockId) (inputs : List Value) :
    Upholds (callWith resume block inputs) (HostOp.course resume running (.call block inputs)) := by
  intro m hm
  have hpush := (push_careful block inputs m hm).1
  rw [HostOp.course, callWith, Failing.bind_apply]
  generalize push block inputs m = start at hpush
  obtain ⟨_ | _, m₁⟩ := start
  · exact ⟨hpush, List.forall_mem_singleton.2 hpush⟩
  · obtain ⟨hrun, hmarks⟩ := hresume.upholds m₁ hpush
    have hnone := hresume.errorless hpush
    dsimp only
    simp only [Failing.bind_apply]
    generalize resume m₁ = r at hrun hnone
    suffices hend : ∀ n : Machine, n.Intact → ∀ events : List Event, n.Intact ∧
        ∀ mark ∈ (⟨pushed m m₁, m₁⟩ : Mark) :: (running m₁ ++ [⟨events, n⟩]), mark.machine.Intact by
      obtain ⟨fault | outcome, m₂⟩ := r
      · exact hend m₂ hrun _
      · cases outcome with
        | finished =>
          have hcleared : Intact { m₂ with stack := { m₂.stack.clearFrames with phase := .ready } } :=
            Intact.stack hrun (.of_unfinished (hnone _ m₂ rfl) (by rintro ⟨⟩))
          exact hend _ hcleared _
        | paused | cancelled => exact hend m₂ hrun _
    exact fun n hn events => ⟨hn, List.forall_mem_cons.2 ⟨hpush, List.forall_mem_append.2
      ⟨hmarks, List.forall_mem_singleton.2 hn⟩⟩⟩

end Machine

open Machine

/-- **Operations leave machines intact**, given that runs do. -/
theorem HostOp.upholds {resume : Action Outcome} {running : Machine → List Mark}
    (hresume : UpholdsRun resume running) {β : Type} (o : HostOp β) :
    Upholds (o.perform resume) (o.course resume running) := by
  cases hrun : o.isRun with
  | false =>
    have hcourse : o.course resume running =
        fun m => [⟨o.events m (o.perform resume m).2, (o.perform resume m).2⟩] := by
      funext m
      cases o with
      | run | call => cases hrun
      | _ => rfl
    rw [hcourse]
    exact (HostOp.careful resume hrun).upholds _
  | true =>
    cases o with
    | run => exact hresume.upholds
    | call block inputs => exact call_upholds hresume block inputs
    | _ => cases hrun

/-- **Scripts leave machines intact**, operation by operation. -/
theorem Script.upholds {resume : Action Outcome} {running : Machine → List Mark}
    (hresume : UpholdsRun resume running) {α : Type} (script : Script α) :
    Upholds (script.perform resume) (script.course resume running) := by
  induction script with
  | done r => cases r <;> exact fun m hm => ⟨hm, List.forall_mem_nil _⟩
  | op o next ih =>
    intro m hm
    obtain ⟨hperform, hmarks⟩ := o.upholds hresume m hm
    rw [Script.perform, Script.course, Failing.bind_apply, attempt, List.forall_mem_append]
    generalize o.perform resume m = r at hperform
    obtain ⟨fault | b, m'⟩ := r
    · cases fault with
      | raised e =>
        obtain ⟨hend, hmarks'⟩ := ih (.error e) m' hperform
        exact ⟨hend, hmarks, hmarks'⟩
      | crashed | outOfFuel => exact ⟨hperform, hmarks, List.forall_mem_nil _⟩
    · obtain ⟨hend, hmarks'⟩ := ih (.ok b) m' hperform
      exact ⟨hend, hmarks, hmarks'⟩

/-- **Natives leave machines intact.** -/
theorem Native.upholds (host : Embedder) {resume : Action Outcome} {running : Machine → List Mark}
    (hresume : UpholdsRun resume running) (f : Native) :
    Upholds (invoke host resume f) (f.course host resume running) := by
  cases f with
  | host g =>
    rw [invoke, invokeHost_eq]
    exact g.script.upholds hresume
  | installed code => exact (host.script code).upholds hresume
  | _ => exact (invoke_default_careful host resume rfl).upholds _

namespace Machine

variable {m m' : Machine}

/-! ### Runs -/

/-- Fetching the program to go on with may compile its block. -/
theorem currentProgram_careful : Careful currentProgram := by
  refine .bind active_careful fun f _ => .bind (program_careful f.program) fun p _ => ?_
  split
  · exact .pure trivial
  · exact .violate _

/-- **The check at the start of a run** compiles blocks, and may start the root over. -/
theorem restartIfStale_careful : Careful restartIfStale := by
  have hcurrent : ∀ frames, Careful (allCurrent frames) := by
    intro frames
    induction frames with
    | nil => exact .pure trivial
    | cons f rest ih =>
      refine .bind (Q := fun _ => True) (.bind (tryProgram_careful _) fun r _ => ?_) fun current _ => ?_
      · split <;> exact .pure trivial
      · split
        · exact ih
        · exact .pure trivial
  refine .getStack_bind fun s => .bind (hcurrent _) fun current _ => ?_
  split
  · exact .pure trivial
  · exact .bind (modifyStack_careful fun s hs => ⟨hs.failed, hs.unpaused⟩) fun _ _ =>
      .bind active_careful fun f _ => .bind (program_careful _) fun p _ =>
        .getStack_bind fun s => modifyActive_careful _

/-- A run that ends well leaves no error. -/
theorem runBy_errorless {host : Embedder} {fuel : Nat} {outcome : Outcome} (hm : m.Intact)
    (h : runBy host fuel m = (.ok outcome, m')) : m'.stack.error = none := by
  rw [runBy] at h
  by_cases hready : m.stack.phase = .ready ∧ m.stack.frames ≠ []
  · have hnone : m.stack.error = none := hm.concluded.errorless (by rw [hready.1]; rintro ⟨⟩)
    rw [runWith_ready hready.1 hready.2] at h
    obtain ⟨n, hbody, rfl⟩ := ended_ok h
    have herror : n.stack.error = none := body_errorless (m := m.started) hnone hbody
    exact herror
  · rw [runWith_reported hready] at h
    obtain ⟨hreported, rfl⟩ := Prod.mk.inj h
    -- what was reported is the note of a finished stack
    refine Classical.byContradiction fun herror => ?_
    obtain ⟨e, he⟩ := Option.ne_none_iff_exists'.1 herror
    rw [reported, hm.concluded.failed herror, he] at hreported
    cases hreported

/-- What a run notes at its end fits together. -/
theorem ended_intact {r : Except Fault Outcome × Machine} (h : r.2.Intact)
    (herrorless : ∀ outcome m', r = (.ok outcome, m') → m'.stack.error = none) : (ended r).2.Intact := by
  obtain ⟨fault | outcome, m⟩ := r
  · cases fault with
    | raised e =>
      have hrecorded := recordError_intact h.filed e
      rw [ended, Failing.bind_apply]
      generalize recordError e m = r at hrecorded
      obtain ⟨_ | _, m'⟩ := r <;> exact hrecorded
    | crashed | outOfFuel => exact h
  · exact h.stack (.conclude (herrorless outcome m rfl) outcome)

/-- **Runs leave machines intact**, given that the loop does. -/
theorem runBy_upholds_of {host : Embedder} {fuel : Nat}
    (hexec : ∀ p, Upholds (execute host fuel p) (executeCourse host fuel p)) :
    UpholdsRun (runBy host fuel) (runByCourse host fuel) := by
  refine ⟨fun m hm => ?_, fun hm _ _ => runBy_errorless hm⟩
  rw [runByCourse, runCourse]
  split
  next hready =>
    obtain ⟨hphase, hframes⟩ := hready
    have hnone : m.stack.error = none := hm.concluded.errorless (by rw [hphase]; rintro ⟨⟩)
    have hstarted : m.started.Intact := hm.stack (.of_unfinished hnone (by rintro ⟨⟩))
    have hchecked := (restartIfStale_careful _ hstarted).1
    have hloaded : Careful (restartIfStale >>= fun _ => currentProgram) :=
      .bind restartIfStale_careful fun _ _ => currentProgram_careful
    have hbody : Careful (body (execute host fuel)) :=
      .bind restartIfStale_careful fun _ _ => .bind currentProgram_careful fun p _ => (hexec p).careful
    have hrun : (runBy host fuel m).2.Intact := by
      rw [runBy, runWith_ready hphase hframes]
      exact ended_intact (hbody _ hstarted).1 fun _ _ => body_errorless hnone
    replace hloaded := (hloaded _ hstarted).1
    generalize (restartIfStale >>= fun _ => currentProgram) m.started = r at hloaded
    refine ⟨hrun, List.forall_mem_append.2 ⟨List.forall_mem_cons.2 ⟨hchecked, ?_⟩,
      List.forall_mem_singleton.2 hrun⟩⟩
    obtain ⟨_ | p, n⟩ := r
    · exact List.forall_mem_nil _
    · exact (hexec p n hloaded).2
  next hidle =>
    rw [runBy, runWith_idle hidle]
    exact ⟨hm, List.forall_mem_nil _⟩

/-- An instruction leaves machines intact, and so do the natives that it calls, all along. -/
theorem step_upholds {host : Embedder} {resume : Action Outcome} {running : Machine → List Mark}
    (hresume : UpholdsRun resume running) (program : Program) (next : Nat) (i : Instruction) :
    Upholds (step host resume program next i) (stepCourse host resume running program next i) := by
  intro m hm
  have hstep := (step_careful (fun f => (f.upholds host hresume).careful) program next i m hm).1
  refine ⟨hstep, ?_⟩
  cases i with
  | native index =>
    rw [stepCourse_native]
    split
    · exact (Native.upholds host hresume _ m hm).2
    · exact List.forall_mem_nil _
  | _ => exact List.forall_mem_singleton.2 hstep

/-- The pc of a frame is no part of the condition. -/
theorem Intact.placed (h : m.Intact) (top : Nat) (pc : Frame → Pc) : (m.placed top pc).Intact := by
  refine h.of_condition ?_
  rw [Machine.placed, Stack.modifyFrameAt]
  split <;> rfl

/-- **The loop leaves machines intact**, for any number of instructions. -/
theorem execute_upholds (host : Embedder) (fuel : Nat) (program : Program) :
    Upholds (execute host fuel program) (executeCourse host fuel program) := by
  induction fuel generalizing program with
  | zero => exact fun m hm => ⟨hm, List.forall_mem_nil _⟩
  | succ fuel ih =>
    intro m hm
    rw [executeCourse]
    cases hcancelled : m.stack.cancelled with
    | true =>
      rw [execute_cancelled host fuel program hcancelled]
      exact ⟨hm, List.forall_mem_nil _⟩
    | false =>
      cases hframes : m.stack.frames with
      | nil =>
        rw [execute_empty host fuel program hcancelled hframes]
        exact ⟨hm, List.forall_mem_nil _⟩
      | cons f rest =>
        rw [execute_succ host fuel program hcancelled hframes]
        dsimp only
        cases program.instructionAt f.pc.offset with
        | error e => exact ⟨hm, List.forall_mem_nil _⟩
        | ok found =>
          obtain ⟨i, next⟩ := found
          have hadvanced : (m.advanced f rest next).Intact := hm.of_condition rfl
          -- natives run the stack with less fuel
          obtain ⟨hstep, hmarks⟩ := step_upholds (runBy_upholds_of ih) program next i _ hadvanced
          rw [runBy, runByCourse] at hmarks
          rw [runBy] at hstep
          dsimp only
          rw [List.forall_mem_append]
          generalize step host (runWith (execute host fuel)) program next i (m.advanced f rest next) = r
            at hstep
          obtain ⟨fault | flow, m₂⟩ := r
          · exact ⟨hstep.placed _ _, hmarks, List.forall_mem_nil _⟩
          cases flow with
          | next =>
            obtain ⟨hend, hmarks'⟩ := ih program m₂ hstep
            exact ⟨hend, hmarks, hmarks'⟩
          | reload =>
            have hprogram := (currentProgram_careful m₂ hstep).1
            simp only [continued, Failing.bind_apply]
            generalize currentProgram m₂ = r at hprogram
            obtain ⟨_ | program', m₃⟩ := r
            · exact ⟨hprogram, hmarks, List.forall_mem_nil _⟩
            · obtain ⟨hend, hmarks'⟩ := ih program' m₃ hprogram
              exact ⟨hend, hmarks, hmarks'⟩
          | pause => exact ⟨hstep.placed _ _, hmarks, List.forall_mem_nil _⟩
          | finish => exact ⟨hstep, hmarks, List.forall_mem_nil _⟩

/-- **Runs leave machines intact**, whatever natives do and however long they take. -/
theorem runBy_upholds (host : Embedder) (fuel : Nat) :
    UpholdsRun (runBy host fuel) (runByCourse host fuel) :=
  runBy_upholds_of (execute_upholds host fuel)

/-! ### Histories -/

/-- **All machines that a stack comes by are intact**, over worlds in which programs are filed: in the middle
    of runs, and also after runs that crashed or ran out of fuel. -/
theorem Reached.intact {log : List Event} (h : Reached World.Filed log m) : m.Intact := by
  induction h with
  | new hworld config printed => exact ⟨hworld, .of_unfinished rfl (by rintro ⟨⟩)⟩
  | elsewhere _ hworld ih => exact ih.world hworld
  | during _ host fuel session past future mark hcourse ih =>
    have hmarks := (session.upholds (runBy_upholds host fuel) _ ih).2
    rw [hcourse] at hmarks
    exact hmarks mark (List.mem_append_right _ List.mem_cons_self)
  | after _ host fuel session ih => exact (session.upholds (runBy_upholds host fuel) _ ih).1

end Machine

end BlockMachine

import BlockMachine.Proofs.Machine.Deeds
import BlockMachine.Proofs.Machine.Reframing
import BlockMachine.Proofs.Program.Recompiling

namespace BlockMachine

/-!
# Phases of a session

Between its operations a host finds the stack ready or finished, never running, and an error is noted on a
finished stack only. What natives do inside of runs does not matter for this.

* `Machine.AtRest` is what holds of a machine while its host has it, `Machine.Settled` says that a run would
  only report;
* `Machine.runBy_rests` is about runs, `HostOp.rests` and `HostOp.settled` are about single operations;
* `Machine.runBy_cancelled`: a stack that was asked to stop executes nothing;
* `Machine.session_phases` puts these together for whole sessions.
-/

open Machine

/-- Whether an operation can open a stack that is done for another run, or end its run anew. -/
def HostOp.reopens {β : Type} : HostOp β → Bool
  | .push .. | .call .. | .reset _ | .raise _ | .migrateTo .. | .migrateToFunc .. | .migrate .. => true
  | _ => false

/-- What the host itself does in a session: its operations, with the machines that they are performed on. -/
def Script.acts (resume : Action Outcome) {α : Type} : Script α → Machine → List Deed
  | .done _, _ => []
  | .op o next, m =>
    ⟨false, m, _, o⟩ ::
      match o.perform resume m with
      | (.ok b, m') => (next (.ok b)).acts resume m'
      | (.error (.raised e), m') => (next (.error e)).acts resume m'
      | (.error _, _) => []

namespace Machine

variable {α β : Type} {m m' : Machine} {r : Except Fault Outcome}

/-- A computation comes back to its caller, with a value or with an error. -/
def CameBack (r : Except Fault α) : Prop :=
  r ≠ .error .crashed ∧ r ≠ .error .outOfFuel

/-! ### Machines at rest -/

/-- **What holds of a machine at rest**: the stack is not running, and it is finished if there was an
    error. -/
structure AtRest (m : Machine) : Prop where
  idle : m.stack.phase = .ready ∨ m.stack.phase = .finished
  failed : m.stack.error ≠ none → m.stack.phase = .finished

namespace AtRest

/-- Being at rest is a matter of the phase and of the noted error alone. -/
theorem congr (h : m.AtRest) (hphase : m'.stack.phase = m.stack.phase)
    (herror : m'.stack.error = m.stack.error) : m'.AtRest :=
  ⟨by rw [hphase]; exact h.idle, by rw [hphase, herror]; exact h.failed⟩

/-- A computation that leaves both as they are leaves the machine at rest. -/
theorem preserves (h : m.AtRest) {a : Action α} (ha : Preserves standing a) : (a m).2.AtRest :=
  h.congr (congrArg (·.2.1) (ha m)) (congrArg (·.2.2) (ha m))

/-- A computation that can end the run with an error leaves the machine at rest. -/
theorem settles (h : m.AtRest) {a : Action α} (ha : Settles a) : (a m).2.AtRest := by
  rcases ha m with hm | ⟨hm, -⟩
  · exact h.congr (congrArg (·.1.phase) hm) (congrArg Prod.snd hm)
  · have hphase : (a m).2.stack.phase = .finished := congrArg Outline.phase hm
    exact ⟨.inr hphase, fun _ => hphase⟩

/-- A stack that starts over rests. -/
theorem of_ready (hphase : m.stack.phase = .ready) (herror : m.stack.error = none) : m.AtRest :=
  ⟨.inl hphase, fun h => absurd herror h⟩

/-- A stack that is ready has no error. -/
theorem errorless (h : m.AtRest) (hphase : m.stack.phase = .ready) : m.stack.error = none := by
  refine Decidable.byContradiction fun herror => ?_
  exact nomatch hphase.symm.trans (h.failed herror)

end AtRest

/-! ### Settled stacks -/

/-- A run would report a result, and execute nothing. -/
def Settled (r : Except Fault Outcome) (m : Machine) : Prop :=
  ¬(m.stack.phase = .ready ∧ m.stack.frames ≠ []) ∧ m.reported = r

/-- **A settled stack stays as it is**, however often it is run. -/
theorem Settled.run (h : m.Settled r) (exec : Program → Action Outcome) : runWith exec m = (r, m) := by
  rw [runWith_reported h.1, h.2]

/-- What a run reports depends on. -/
def verdict (m : Machine) : Phase × Option StackError × Option Outcome × Bool :=
  (m.stack.phase, m.stack.error, m.stack.lastOutcome, m.stack.frames.isEmpty)

/-- Registers, caches and the role of a frame have no part in what a run reports. -/
theorem aloof_verdict : Aloof verdict where
  supply _ _ := rfl
  caches _ _ := rfl
  role := by
    intro m f f' rest hframes _
    rw [verdict, verdict, hframes]
    rfl

/-- Machines that a run would report the same of are settled alike. -/
theorem Settled.congr (h : m.Settled r) (hverdict : m'.verdict = m.verdict) : m'.Settled r := by
  obtain ⟨hphase, hverdict⟩ := Prod.mk.inj hverdict
  obtain ⟨herror, hverdict⟩ := Prod.mk.inj hverdict
  obtain ⟨houtcome, hempty⟩ := Prod.mk.inj hverdict
  have hframes : m'.stack.frames ≠ [] ↔ m.stack.frames ≠ [] := by
    rw [← List.isEmpty_eq_false_iff, ← List.isEmpty_eq_false_iff, hempty]
  refine ⟨?_, ?_⟩
  · rw [hphase, hframes]
    exact h.1
  · rw [← h.2, reported, reported, hphase, herror, houtcome]

/-- A computation that leaves that as it is leaves a settled stack settled. -/
theorem Settled.preserves (h : m.Settled r) {a : Action α} (ha : Preserves verdict a) : (a m).2.Settled r :=
  h.congr (ha m)

/-! ### Runs -/

/-- What is known of a stack that was run from rest. -/
structure Ran (r : Except Fault Outcome) (m : Machine) : Prop where
  rest : m.AtRest
  errorless : ∀ outcome, r = .ok outcome → m.stack.error = none
  settled : r ≠ .ok .paused → m.Settled r

/-- An error that a run noted is reported from then on. -/
theorem recordError_ran (e : RuntimeError) (m : Machine) :
    ∃ m', (recordError e >>= fun _ => raise e) m = ((.error (.raised e) : Except Fault Outcome), m') ∧
      Ran (.error (.raised e)) m' := by
  have hnoted : ∀ (m' : Machine) (note : StackError), note.error = e → m'.stack.error = some note →
      m'.stack.phase = .finished → Ran (.error (.raised e)) m' := by
    intro m' note hnote herror hphase
    refine ⟨⟨.inr hphase, fun _ => hphase⟩, nofun, fun _ => ⟨?_, ?_⟩⟩
    · rw [hphase]
      exact fun h => nomatch h.1
    · rw [reported, hphase, herror]
      exact congrArg _ (congrArg _ hnote)
  obtain ⟨world, ⟨frames⟩, printed⟩ := m
  cases frames with
  | nil => exact ⟨_, rfl, hnoted _ _ rfl rfl rfl⟩
  | cons f rest => exact ⟨_, rfl, hnoted _ _ rfl rfl rfl⟩

/-- **A run from rest comes back to rest.** Unless it paused, the stack is settled on how it ended. -/
theorem runBy_ran (host : Embedder) (fuel : Nat) (hm : m.AtRest) (hback : CameBack (runBy host fuel m).1) :
    Ran (runBy host fuel m).1 (runBy host fuel m).2 := by
  rw [runBy] at hback ⊢
  by_cases hready : m.stack.phase = .ready ∧ m.stack.frames ≠ []
  · rw [runWith_ready hready.1 hready.2] at hback ⊢
    have herrorless : ∀ outcome m', body (execute host fuel) m.started = (.ok outcome, m') →
        m'.stack.error = none := fun _ _ => body_errorless (hm.errorless hready.1)
    generalize body (execute host fuel) m.started = r at hback herrorless ⊢
    obtain ⟨fault | outcome, m₁⟩ := r
    · cases fault with
      | raised e =>
        obtain ⟨m₂, hended, hran⟩ := recordError_ran e m₁
        rw [ended, hended]
        exact hran
      | crashed => exact absurd rfl hback.1
      | outOfFuel => exact absurd rfl hback.2
    · have herror : m₁.stack.error = none := herrorless outcome m₁ rfl
      rw [ended]
      cases outcome with
      | paused => exact ⟨.of_ready rfl herror, fun _ _ => herror, fun h => absurd rfl h⟩
      | finished | cancelled =>
        refine ⟨⟨.inr rfl, fun _ => rfl⟩, fun _ _ => herror, fun _ => ⟨by rintro ⟨⟨⟩, -⟩, ?_⟩⟩
        simp only [reported, conclude, herror]
        rfl
  · rw [runWith_reported hready]
    refine ⟨hm, fun outcome hr => ?_, fun _ => ⟨hready, rfl⟩⟩
    -- only a finished stack without error reports an outcome
    refine Decidable.byContradiction fun herror => ?_
    obtain ⟨e, he⟩ := Option.ne_none_iff_exists'.1 herror
    rw [reported, hm.failed herror, he] at hr
    cases hr

/-! ### Calls and pushes -/

/-- A push on a stack at rest leaves it ready or as it was. -/
theorem push_rests (hm : m.AtRest) (block : BlockId) (inputs : List Value) :
    (push block inputs m).2.AtRest := by
  rw [push_apply]
  refine AtRest.preserves ?_ (enter_standing block inputs {})
  split
  · exact .of_ready rfl rfl
  · exact hm

/-- A stack that gets another root is ready, whatever it was before. -/
theorem changeMain_rests (block : BlockId) (inputs bindings : List Value) (m : Machine) :
    (changeMain block inputs bindings m).2.AtRest := by
  have hcleared : AtRest { m with stack := { m.stack.startOver with retained := [] } } :=
    .of_ready rfl rfl
  exact hcleared.preserves (a := enter block inputs { bindings := bindings }) (enter_standing _ _ _)

/-- A migration starts the root over, which makes the stack ready, or leaves the phase as it was. -/
theorem migrate_rests (hm : m.AtRest) (old new : BlockId) : (migrate old new m).2.AtRest := by
  rw [migrate_apply]
  cases m.stack.frames.getLast? with
  | none => exact hm.congr rfl rfl
  | some root =>
    by_cases hroot : root.block = old
    · simp only [if_pos hroot]
      exact changeMain_rests new _ _ _
    · simp only [if_neg hroot]
      exact hm.congr rfl rfl

/-- Runs from rest come back to rest. -/
def ComesToRest (resume : Action Outcome) : Prop :=
  ∀ m : Machine, m.AtRest → CameBack (resume m).1 → Ran (resume m).1 (resume m).2

/-- A call that comes back from a stack at rest leaves it at rest, given that runs do. -/
theorem call_rests {resume : Action Outcome} (hresume : ComesToRest resume) (hm : m.AtRest) (block : BlockId)
    (inputs : List Value) (hback : CameBack (callWith resume block inputs m).1) :
    (callWith resume block inputs m).2.AtRest := by
  have hpushed := push_rests hm block inputs
  rw [callWith, Failing.bind_apply] at hback ⊢
  generalize push block inputs m = start at hpushed hback ⊢
  obtain ⟨e | _, m₁⟩ := start
  · exact hpushed
  have hran := hresume m₁ hpushed
  dsimp only at hback ⊢
  rw [Failing.bind_apply] at hback ⊢
  generalize resume m₁ = r at hran hback ⊢
  obtain ⟨fault | outcome, m₂⟩ := r
  · exact (hran ⟨fun h => hback.1 (by rw [Except.error.inj h]),
      fun h => hback.2 (by rw [Except.error.inj h])⟩).rest
  have hran := hran ⟨by simp, by simp⟩
  cases outcome with
  | finished => exact .of_ready rfl (hran.errorless .finished rfl)
  | paused | cancelled => exact hran.rest

/-- Taking a frame away is no matter of phase or error. -/
theorem popFrame_standing : Preserves standing (onStack Stack.popFrame) := by
  intro m
  show standing { m with stack := m.stack.popFrame.2 } = m.standing
  rw [Stack.popFrame]
  cases m.stack.frames <;> rfl

end Machine

/-- **Every operation of a host leaves a stack at rest**, if it comes back. -/
theorem HostOp.rests {resume : Action Outcome} (hresume : ComesToRest resume) {β : Type} (o : HostOp β)
    {m : Machine} (hm : m.AtRest) (hback : CameBack (o.perform resume m).1) :
    (o.perform resume m).2.AtRest := by
  cases o with
  | run => exact (hresume m hm hback).rest
  | call block inputs => exact call_rests hresume hm block inputs hback
  | push block inputs => exact push_rests hm block inputs
  | pop => exact hm.preserves popFrame_standing
  | setState tree => exact hm.congr rfl rfl
  | loadState text =>
    simp only [perform, Machine.loadState, Failing.bind_apply, Failing.get_apply]
    rcases ofJsonText m.world.registry text m.world.supply with _ | ⟨_, _⟩
    · exact hm
    · exact hm.congr rfl rfl
  | registerNative name f => exact hm.congr rfl rfl
  | patchNative name f => exact hm.congr rfl rfl
  | reset discardState => exact .of_ready rfl rfl
  | migrateTo block inputs => exact changeMain_rests block inputs [] m
  | migrateToFunc func inputs =>
    rw [perform, Machine.migrateToFunc]
    cases func.func? with
    | none => exact hm
    | some closure => exact changeMain_rests closure.1 inputs closure.2 m
  | migrate old new => exact migrate_rests hm old new
  | look | resize | cancel | duplicate | setInput | setOutput | raise | setEnv | expect | consume
    | emit | takeRetained | frameList | setRandom | print | number | cast | addBlock | replaceBlock
    | compile | program | addRecord | addMethod | addModule =>
    exact hm.settles (quiet_settles resume rfl)

namespace Machine

variable {α β : Type} {m m' : Machine} {r : Except Fault Outcome}

/-! ### Operations on settled stacks -/

/-- What leaves phase, error, last outcome and frames leaves what a run reports. -/
theorem onStack_verdict {g : Stack → α × Stack} (hg : ∀ s, (g s).2.phase = s.phase ∧
      (g s).2.error = s.error ∧ (g s).2.lastOutcome = s.lastOutcome ∧ (g s).2.frames = s.frames) :
    Preserves verdict (onStack g) := by
  intro m
  obtain ⟨hphase, herror, houtcome, hframes⟩ := hg m.stack
  show verdict { m with stack := (g m.stack).2 } = m.verdict
  rw [verdict, hphase, herror, houtcome, hframes]
  rfl

/-- Listing the frames may compile blocks, and leaves the stack as it is. -/
theorem frameList_verdict : Preserves verdict frameList := by
  refine .getStack_bind fun m => ?_
  -- the frames are shown one after the other
  generalize m.stack.frames.reverse.zipIdx = frames
  suffices h : Preserves verdict (frames.mapM fun x => frameInfo x.2 x.1) from h m
  induction frames with
  | nil => exact .pure _
  | cons f rest ih =>
    rw [List.mapM_cons]
    refine .bind (.bind (.tryWorld fun _ => rfl) fun r => ?_) fun _ => .bind ih fun _ => .pure _
    split <;> exact .pure _

/-- A frame less does not make a settled stack run. -/
theorem Settled.popFrame (h : m.Settled r) : Settled r { m with stack := m.stack.popFrame.2 } := by
  rw [Stack.popFrame]
  cases hframes : m.stack.frames with
  | nil => exact h
  | cons f rest =>
    refine ⟨fun hready => h.1 ⟨hready.1, ?_⟩, h.2⟩
    rw [hframes]
    exact List.cons_ne_nil f rest

end Machine

/-- **A settled stack stays settled** until it is opened again. -/
theorem HostOp.settled {exec : Program → Action Outcome} {β : Type} {o : HostOp β} (ho : o.reopens = false)
    {m : Machine} {r : Except Fault Outcome} (hm : m.Settled r) :
    (o.perform (runWith exec) m).2.Settled r := by
  cases o with
  | push | call | reset | raise | migrateTo | migrateToFunc | migrate => exact nomatch ho
  | run =>
    rw [perform, hm.run exec]
    exact hm
  | pop => exact hm.popFrame
  | look | cancel | duplicate | setState | setEnv | expect | takeRetained | setRandom | print | number
    | addBlock | addRecord | addMethod | addModule | registerNative | patchNative | replaceBlock | compile
    | program => exact hm.congr rfl
  | loadState text =>
    simp only [perform, Machine.loadState, Failing.bind_apply, Failing.get_apply]
    rcases ofJsonText m.world.registry text m.world.supply with _ | ⟨_, _⟩
    · exact hm
    · exact hm.congr rfl
  | resize count => exact hm.preserves (aloof_verdict.resize count)
  | setInput index v => exact hm.preserves (aloof_verdict.setInput index v)
  | setOutput index v => exact hm.preserves (aloof_verdict.setOutput index v)
  | consume channel =>
    refine hm.preserves (.bind (onStack_verdict fun s => ?_) fun r => ?_)
    · rw [Stack.consume]
      cases Entries.get? channel s.messages <;> exact ⟨rfl, rfl, rfl, rfl⟩
    · cases r with
      | none => exact .throw _
      | some queue => exact .pure _
  | emit channel message =>
    refine hm.preserves (onStack_verdict fun s => ?_)
    rw [Stack.emit]
    cases Entries.get? channel s.messages <;> exact ⟨rfl, rfl, rfl, rfl⟩
  | frameList => exact hm.preserves frameList_verdict
  | cast type v => exact hm.preserves (aloof_verdict.tryCast type v)

namespace Machine

variable {α : Type} {m : Machine} {r : Except Fault Outcome}

/-! ### Stacks that were asked to stop -/

/-- A frame whose program can be compiled is found current or not. -/
theorem isCurrent_compiles {f : Frame} (h : m.world.Compiles f.program) :
    ∃ p w, isCurrent f m = (.ok (decide (p.version = f.version)), { m with world := w }) ∧
      m.world.Fills w ∧ w.slotProgram? f.program = some p := by
  obtain ⟨p, w, hprogram, hslot⟩ := h.program
  have hfills := World.program_fills f.program m.world
  rw [hprogram] at hfills
  refine ⟨p, w, ?_, hfills, hslot⟩
  simp only [isCurrent, tryWorld, Failing.bind_apply, Failing.get_apply, Failing.set_apply, hprogram,
    Failing.pure_apply]

/-- All frames are found current or not. If they are current, then the last of them was looked at last. -/
theorem allCurrent_compiles {frames : List Frame} (h : ∀ f ∈ frames, m.world.Compiles f.program) :
    ∃ current w, allCurrent frames m = (.ok current, { m with world := w }) ∧ m.world.Fills w ∧
      (current = true → ∀ f, frames.getLast? = some f →
        ∃ p, w.slotProgram? f.program = some p ∧ p.version = f.version) := by
  induction frames generalizing m with
  | nil => exact ⟨true, m.world, rfl, .refl _, by simp⟩
  | cons f rest ih =>
    obtain ⟨p, w, hcurrent, hfills, hslot⟩ := isCurrent_compiles (h f List.mem_cons_self)
    rw [allCurrent, Failing.bind_apply, hcurrent]
    by_cases hversion : p.version = f.version
    · obtain ⟨current, w', hrest, hfills', hlast⟩ := ih (m := { m with world := w })
        fun g hg => (h g (List.mem_cons_of_mem f hg)).fills hfills
      refine ⟨current, w', ?_, hfills.trans hfills', fun htrue g hg => ?_⟩
      · simpa only [hversion, decide_true, if_true] using hrest
      · cases rest with
        | nil =>
          obtain rfl : f = g := Option.some.inj hg
          obtain rfl : w = w' := congrArg (·.2.world) hrest
          exact ⟨p, hslot, hversion⟩
        | cons f' rest => exact hlast htrue g hg
    · refine ⟨false, w, ?_, hfills, by simp⟩
      simp only [hversion, decide_false, Bool.false_eq_true, if_false]
      rfl

/-- **A run finds the program of its active frame** if the programs of all frames can be compiled: either
    all are current, or the root starts over with a program that is. -/
theorem restartIfStale_compiles (hframes : m.stack.frames ≠ [])
    (h : ∀ f ∈ m.stack.frames, m.world.Compiles f.program) :
    ∃ p m', restartIfStale m = (.ok (), m') ∧ currentProgram m' = (.ok p, m') ∧
      m'.stack.cancelled = m.stack.cancelled := by
  have hreverse : ∀ f ∈ m.stack.frames.reverse, m.world.Compiles f.program :=
    fun f hf => h f (List.mem_reverse.1 hf)
  obtain ⟨current, w, hcurrent, hfills, hlast⟩ := allCurrent_compiles hreverse
  rw [restartIfStale_apply, hcurrent]
  cases current with
  | true =>
    obtain ⟨f, rest, hactive⟩ := List.exists_cons_of_ne_nil hframes
    obtain ⟨p, hslot, hversion⟩ := hlast rfl f (by rw [hactive, List.getLast?_reverse]; rfl)
    have hexecuting : ({ m with world := w } : Machine).Executing p := ⟨f, rest, hactive, hslot, hversion⟩
    exact ⟨p, { m with world := w }, rfl, hexecuting.currentProgram, rfl⟩
  | false =>
    obtain ⟨root, hroot⟩ := Option.ne_none_iff_exists'.1 (mt List.getLast?_eq_none_iff.1 hframes)
    obtain ⟨p, w', hprogram, hslot⟩ := ((h root (List.mem_of_getLast? hroot)).fills hfills).program
    dsimp only
    rw [restartRoot_apply (m := { m with world := w }) (unwound_frames hroot)]
    dsimp only
    rw [hprogram]
    exact ⟨p, _, rfl, Executing.currentProgram ⟨_, _, rfl, hslot, rfl⟩, rfl⟩

/-- **A stack that was asked to stop executes nothing**: its run is cancelled, and no error is noted. -/
theorem runBy_cancelled (hm : m.AtRest) (hphase : m.stack.phase = .ready) (hframes : m.stack.frames ≠ [])
    (hcancelled : m.stack.cancelled = true)
    (hprograms : ∀ f ∈ m.stack.frames, ∃ p, (World.program f.program m.world).1 = .ok p)
    (host : Embedder) {fuel : Nat} (hfuel : 0 < fuel) :
    (runBy host fuel m).1 = .ok .cancelled ∧ (runBy host fuel m).2.stack.error = none ∧
      ∀ x ∈ runByMoments host fuel m, ∀ held, x.cause ≠ .fetch held := by
  have hcompiles : ∀ f ∈ m.stack.frames, m.world.Compiles f.program := by
    intro f hf
    obtain ⟨p, hp⟩ := hprograms f hf
    exact World.compiles_of_ok hp
  obtain ⟨p, m', hchecked, hloaded, hsame⟩ := restartIfStale_compiles (m := m.started) hframes hcompiles
  obtain ⟨fuel, rfl⟩ := Nat.exists_eq_succ_of_ne_zero (Nat.ne_of_gt hfuel)
  have hstop : m'.stack.cancelled = true := hsame.trans hcancelled
  have hbody : body (execute host (fuel + 1)) m.started = (.ok .cancelled, m') := by
    rw [body, Failing.bind_apply, hchecked]
    dsimp only
    rw [Failing.bind_apply, hloaded]
    exact execute_cancelled host fuel p hstop
  have hrun : runBy host (fuel + 1) m = ended (.ok .cancelled, m') := by
    rw [runBy, runWith_ready hphase hframes, hbody]
  have hmoments : executeMoments host (fuel + 1) p m' = [] := by
    rw [executeMoments, hstop]
  refine ⟨by rw [hrun]; rfl, ?_, fun x hx => ?_⟩
  · rw [hrun]
    show m'.stack.error = none
    exact body_errorless (m := m.started) (hm.errorless hphase) hbody
  · rw [runByMoments, runMoments_ready ⟨hphase, hframes⟩, bodyMoments, hchecked] at hx
    dsimp only at hx
    rw [hloaded] at hx
    dsimp only at hx
    rw [hmoments] at hx
    simp only [List.mem_cons, List.mem_append, List.not_mem_nil, or_false] at hx
    rcases hx with rfl | (rfl | rfl) | rfl <;> simp

end Machine

/-! ### Sessions -/

variable {α : Type} {resume : Action Outcome}

/-- **A host that finds the stack at rest finds it so all the time**, and leaves it at rest. -/
theorem Script.acts_rest (hresume : ComesToRest resume) (session : Script α) {m : Machine} (hm : m.AtRest) :
    (∀ d ∈ session.acts resume m, d.machine.AtRest) ∧
    (CameBack (session.perform resume m).1 → (session.perform resume m).2.AtRest) := by
  induction session generalizing m with
  | done r => exact ⟨List.forall_mem_nil _, fun _ => by cases r <;> exact hm⟩
  | op o next ih =>
    have hrest := o.rests hresume hm
    rw [Script.acts, Script.perform, Failing.bind_apply, attempt, List.forall_mem_cons, and_assoc]
    refine ⟨hm, ?_⟩
    generalize o.perform resume m = r at hrest
    obtain ⟨fault | b, m'⟩ := r
    · cases fault with
      | raised e => exact ih (.error e) (hrest ⟨by simp, by simp⟩)
      | crashed => exact ⟨List.forall_mem_nil _, fun h => absurd rfl h.1⟩
      | outOfFuel => exact ⟨List.forall_mem_nil _, fun h => absurd rfl h.2⟩
    · exact ih (.ok b) (hrest ⟨by simp, by simp⟩)

/-- A host that goes on after an operation does so because the operation came back. -/
theorem Script.acts_cons_eq {β : Type} {o : HostOp β} {next : Except RuntimeError β → Script α} {m : Machine}
    {d : Deed} {rest : List Deed} (h : (Script.op o next).acts resume m = d :: rest) (hrest : rest ≠ []) :
    d = ⟨false, m, β, o⟩ ∧ CameBack (o.perform resume m).1 ∧
      ∃ answer, rest = (next answer).acts resume (o.perform resume m).2 := by
  rw [Script.acts] at h
  obtain ⟨rfl, rfl⟩ := List.cons.inj h
  refine ⟨rfl, ?_⟩
  generalize o.perform resume m = r at hrest
  obtain ⟨fault | b, m'⟩ := r
  · cases fault with
    | raised e => exact ⟨⟨nofun, nofun⟩, .error e, rfl⟩
    | crashed | outOfFuel => exact absurd rfl hrest
  · exact ⟨⟨nofun, nofun⟩, .ok b, rfl⟩

/-- Where a host runs a settled stack that it did not open again, it is still settled. -/
theorem Script.acts_settled {exec : Program → Action Outcome} (session : Script α) {m m' : Machine}
    {r : Except Fault Outcome} (hm : m.Settled r) {between future : List Deed}
    (hacts : session.acts (runWith exec) m = between ++ ⟨false, m', _, .run⟩ :: future)
    (hbetween : ∀ d ∈ between, d.op.reopens = false) : m'.Settled r := by
  induction session generalizing m between with
  | done _ => exact absurd hacts.symm (List.append_ne_nil_of_right_ne_nil _ (List.cons_ne_nil _ _))
  | op o next ih =>
    cases between with
    | nil =>
      rw [Script.acts] at hacts
      obtain rfl : m = m' := congrArg Deed.machine (List.cons.inj hacts).1
      exact hm
    | cons d between =>
      obtain ⟨rfl, -, answer, hlater⟩ := Script.acts_cons_eq hacts
        (List.append_ne_nil_of_right_ne_nil _ (List.cons_ne_nil _ _))
      obtain ⟨ho, hrest⟩ := List.forall_mem_cons.1 hbetween
      exact ih answer (HostOp.settled ho hm) hlater.symm hrest

/-- What a host does from one of its operations on is what a script does. -/
theorem Script.acts_from (session : Script α) {m m' : Machine} {β : Type} {o : HostOp β}
    {past future : List Deed} (hacts : session.acts resume m = past ++ ⟨false, m', β, o⟩ :: future) :
    ∃ next : Except RuntimeError β → Script α,
      (Script.op o next).acts resume m' = ⟨false, m', β, o⟩ :: future := by
  induction session generalizing m past with
  | done _ => exact absurd hacts.symm (List.append_ne_nil_of_right_ne_nil _ (List.cons_ne_nil _ _))
  | op o' next ih =>
    cases past with
    | nil =>
      have hfirst := hacts
      rw [Script.acts] at hfirst
      cases (List.cons.inj hfirst).1
      exact ⟨next, hacts⟩
    | cons d past =>
      obtain ⟨-, -, answer, hlater⟩ := Script.acts_cons_eq hacts
        (List.append_ne_nil_of_right_ne_nil _ (List.cons_ne_nil _ _))
      exact ih answer hlater.symm

namespace Machine

/-- **Phases of a session.** A host may do with a new stack what it likes, over any world, and so may natives
    inside of runs. Whenever the host has the stack, it is ready or finished, and an error is noted only if
    it is finished. Once a run came back without pausing, every further run gives the same result and changes
    nothing, until the stack is opened again. A run of a stack that is ready, that was asked to stop, and
    whose programs can be compiled takes no instruction, is cancelled, and notes no error. -/
theorem session_phases {start : Machine} {config : StackConfig} (hstart : start.stack = .new config)
    (host : Embedder) (fuel : Nat) (session : Script α) :
    (∀ d ∈ session.acts (runBy host fuel) start, d.machine.AtRest) ∧
    (CameBack (session.perform (runBy host fuel) start).1 →
      (session.perform (runBy host fuel) start).2.AtRest) ∧
    (∀ (past between future : List Deed) (m m' : Machine),
      session.acts (runBy host fuel) start =
        past ++ ⟨false, m, _, .run⟩ :: (between ++ ⟨false, m', _, .run⟩ :: future) →
      (∀ d ∈ between, d.op.reopens = false) → (runBy host fuel m).1 ≠ .ok .paused →
      runBy host fuel m' = ((runBy host fuel m).1, m')) ∧
    (∀ m : Machine, m.AtRest → m.stack.phase = .ready → m.stack.frames ≠ [] → m.stack.cancelled = true →
      (∀ f ∈ m.stack.frames, ∃ p, (World.program f.program m.world).1 = .ok p) → 0 < fuel →
      (runBy host fuel m).1 = .ok .cancelled ∧ (runBy host fuel m).2.stack.error = none ∧
      ∀ x ∈ runByMoments host fuel m, ∀ held, x.cause ≠ .fetch held) := by
  have hfresh : start.AtRest :=
    .of_ready (congrArg Stack.phase hstart) (congrArg Stack.error hstart)
  have hresume : ComesToRest (runBy host fuel) := fun m hm hback => runBy_ran host fuel hm hback
  obtain ⟨hacts, hends⟩ := session.acts_rest hresume hfresh
  refine ⟨hacts, hends, fun past between future m m' hsplit hbetween hpaused => ?_,
    fun m hm hphase hframes hcancelled hprograms hfuel =>
      runBy_cancelled hm hphase hframes hcancelled hprograms host hfuel⟩
  have hm : m.AtRest := hacts _ (by rw [hsplit]; exact List.mem_append_right _ List.mem_cons_self)
  obtain ⟨next, hfrom⟩ := session.acts_from hsplit
  -- the host went on, so the run came back
  obtain ⟨-, hback, answer, hlater⟩ := Script.acts_cons_eq hfrom
    (List.append_ne_nil_of_right_ne_nil _ (List.cons_ne_nil _ _))
  have hsettled := (hresume m hm hback).settled hpaused
  exact ((next answer).acts_settled hsettled hlater.symm hbetween).run _

end Machine

/-! ### A block that waits -/

namespace Waiting

def body : List Directive :=
  [.code (.emit .pause), .code (.emit .ret)]

def machine : Machine :=
  ⟨(World.addBlock {} { name := "wait" } body).2, .new {}, ""⟩

/-- Runs the block to its pause and asks it to stop. After the next run the frame is taken away, and the
    stack is run once more. -/
def session : Script Unit :=
  .op (.push 0 []) fun _ => .op .run fun _ => .op .cancel fun _ => .op .run fun _ =>
    .op (.setState (.int 1)) fun _ => .op .pop fun _ => .op .run fun _ => .done (.ok ())

def acts : List Deed :=
  session.acts (runBy .idle 5) machine

def act (n : Nat) : Deed :=
  acts[n]?.getD ⟨false, machine, _, .look⟩

def isRun (d : Deed) : Bool :=
  match d with
  | ⟨false, _, _, .run⟩ => true
  | _ => false

/-- An act of the host counted as a run is one. -/
theorem eq_run {d : Deed} (h : isRun d = true) : d = ⟨false, d.machine, _, .run⟩ := by
  unfold isRun at h
  split at h
  · rfl
  · exact nomatch h

/-- What came back well came back with a value. -/
theorem exists_of_isOk {ε β : Type} {r : Except ε β} (h : r.isOk = true) : ∃ b, r = .ok b := by
  cases r with
  | error e => exact nomatch h
  | ok b => exact ⟨b, rfl⟩

/-- From an act on, the session is that act and what is left after it. -/
theorem drop_acts {n : Nat} (h : n < 7) : acts.drop n = act n :: acts.drop (n + 1) := by
  have hlength : acts.length = 7 := by decide +kernel
  have hn : n < acts.length := by rwa [hlength]
  rw [List.drop_eq_getElem_cons hn, act, List.getElem?_eq_getElem hn]
  rfl

/-- The second run finds the stack ready and is cancelled, and the third reports the same. -/
theorem session_phases_waiting :
    machine.stack = .new {} ∧
    acts = acts.take 3 ++ ⟨false, (act 3).machine, _, .run⟩ ::
      ((acts.drop 4).take 2 ++ ⟨false, (act 6).machine, _, .run⟩ :: acts.drop 7) ∧
    (∀ d ∈ (acts.drop 4).take 2, d.op.reopens = false) ∧
    (act 3).machine.stack.phase = .ready ∧ (act 3).machine.stack.frames ≠ [] ∧
    (act 3).machine.stack.cancelled = true ∧
    (∀ f ∈ (act 3).machine.stack.frames, ∃ p, (World.program f.program (act 3).machine.world).1 = .ok p) ∧
    (runBy .idle 5 (act 3).machine).1 = .ok .cancelled ∧
    (runBy .idle 5 (act 3).machine).2.stack.error = none ∧
    runBy .idle 5 (act 6).machine = (.ok .cancelled, (act 6).machine) ∧
    (session.perform (runBy .idle 5) machine).2.AtRest := by
  have hsplit : acts = acts.take 3 ++ ⟨false, (act 3).machine, _, .run⟩ ::
      ((acts.drop 4).take 2 ++ ⟨false, (act 6).machine, _, .run⟩ :: acts.drop 7) := by
    rw [← eq_run (d := act 3) (by decide +kernel), ← eq_run (d := act 6) (by decide +kernel),
      ← drop_acts (by decide), show acts.drop 6 = (acts.drop 4).drop 2 by rw [List.drop_drop],
      List.take_append_drop, ← drop_acts (by decide), List.take_append_drop]
  have hbetween : ∀ d ∈ (acts.drop 4).take 2, d.op.reopens = false := by decide +kernel
  have hphase : (act 3).machine.stack.phase = .ready := by decide +kernel
  have hframes : (act 3).machine.stack.frames ≠ [] := by
    refine List.ne_nil_of_length_pos ?_
    decide +kernel
  have hcancelled : (act 3).machine.stack.cancelled = true := by decide +kernel
  have hprograms : ∀ f ∈ (act 3).machine.stack.frames,
      ∃ p, (World.program f.program (act 3).machine.world).1 = .ok p := by
    have hok : ∀ f ∈ (act 3).machine.stack.frames,
        (World.program f.program (act 3).machine.world).1.isOk = true := by decide +kernel
    intro f hf
    exact exists_of_isOk (hok f hf)
  have hfresh : machine.stack = .new {} := rfl
  obtain ⟨hrest, hends, hagain, hstops⟩ := session_phases hfresh .idle 5 session
  have hact : (act 3).machine.AtRest :=
    hrest ⟨false, (act 3).machine, _, .run⟩
      (hsplit ▸ List.mem_append_right _ List.mem_cons_self : _ ∈ acts)
  have hdone : (session.perform (runBy .idle 5) machine).1.isOk = true := by decide +kernel
  obtain ⟨_, hdone⟩ := exists_of_isOk hdone
  obtain ⟨hrun, herror, -⟩ := hstops (act 3).machine hact hphase hframes hcancelled hprograms (by decide)
  have hlast := hagain _ _ _ _ _ hsplit hbetween (by rw [hrun]; nofun)
  rw [hrun] at hlast
  exact ⟨hfresh, hsplit, hbetween, hphase, hframes, hcancelled, hprograms, hrun, herror, hlast,
    hends (by rw [hdone]; exact ⟨nofun, nofun⟩)⟩

end Waiting

end BlockMachine

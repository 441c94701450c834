import BlockMachine.Proofs.Machine.Footing
import BlockMachine.Proofs.Machine.Patience
import BlockMachine.Proofs.State.Standing

namespace BlockMachine

/-!
# Blocks that are replaced while they run

The loop holds a program across instructions and fetches it anew only after instructions that can leave
the frame, while hosts and natives may give any block a new definition at any time. Still every
instruction is taken from the current program of the active frame, in the version that its offset
belongs to, and frames change their version only when a run starts the root over.

* `Machine.step_shifted` is about instructions, `Machine.restartIfStale_restarts` about the check at the
  start of a run;
* `Machine.Traces` relates a computation to its moments, `Script.traces`, `Machine.runWith_traces` and
  `Machine.execute_traces` are about hosts, runs and the loop;
* `Machine.session_hotReload` is about all sessions.
-/

namespace Machine

variable {α β : Type} {m m' : Machine} {p : Program}

/-! ### The program that the loop holds -/

/-- Machines on one footing run the same program. -/
theorem Executing.of_footing (h : m.Executing p) (hfooting : m'.footing = m.footing) :
    m'.Executing p := by
  obtain ⟨f, rest, hframes, hslot, hversion⟩ := h
  have hplaces : m'.stack.frames.map Frame.place = m.stack.frames.map Frame.place :=
    congrArg Footing.places hfooting
  have hprograms : m'.world.programs = m.world.programs := congrArg Footing.programs hfooting
  rw [hframes, List.map_cons] at hplaces
  obtain ⟨f', rest', hframes', hf', -⟩ := List.map_eq_cons_iff.1 hplaces
  obtain ⟨hedition, -⟩ := Prod.mk.inj hf'
  refine ⟨f', rest', hframes', ?_, hversion.trans (congrArg Edition.version hedition).symm⟩
  rw [World.slotProgram?, hprograms, show f'.program = f.program from congrArg Edition.program hedition]
  exact hslot

/-- The loop may take an instruction from the program that the active frame executes. -/
theorem Executing.fetches (h : m.Executing p) (hm : m.Sited) (herror : m.stack.error = none) :
    m.Fetches p := by
  obtain ⟨f, rest, hframes, hslot, hversion⟩ := h
  have hstands : f.Stands m.world := hm.stands herror f (hframes ▸ List.mem_cons_self)
  exact ⟨f, rest, hframes, World.program_of_slot hslot, hm.filed.runs hstands.1 hslot, hversion,
    hstands.reaches hm.filed hslot hversion⟩

/-- A program that was loaded is executed. -/
theorem currentProgram_executing (hm : m.Sited) :
    ∀ p m', currentProgram m = (.ok p, m') → m'.Executing p := by
  intro p m' h
  cases hframes : m.stack.frames with
  | nil =>
    rw [currentProgram, Failing.bind_apply, active_apply_nil hframes] at h
    cases congrArg Prod.fst h
  | cons f rest =>
    have hfound := (hm.filed.program f.program).2
    rw [currentProgram, Failing.bind_apply, active_apply hframes] at h
    dsimp only at h
    rw [Failing.bind_apply, onWorld_apply] at h
    generalize World.program f.program m.world = r at h hfound
    obtain ⟨_ | q, w⟩ := r
    · cases congrArg Prod.fst h
    · dsimp only at h
      split at h
      next hversion =>
        obtain ⟨hq, rfl⟩ := Prod.mk.inj h
        obtain rfl := Except.ok.inj hq
        exact ⟨f, rest, hframes, hfound q rfl, hversion⟩
      next => cases congrArg Prod.fst h

/-- Fetching the program to go on with moves no frame. -/
theorem currentProgram_stays : Stays currentProgram := by
  refine .bind (.of_footing (active_machine.part footing)) fun f => .bind (program_stays f.program)
    fun p => ?_
  split
  · exact .pure _
  · exact .throw _

/-! ### Instructions -/

section

variable {host : Embedder} {resume : Action Outcome} {program : Program} {next : Nat}
  {i : Instruction}

/-- Instructions inside a frame leave all frames where they are, jumps aside. -/
theorem perform_inside_footing (hi : i.leavesFrame = false) (hjump : i.isJump = false) :
    Preserves footing (perform host resume program next i) := by
  by_cases hinside : i.staysInside = true
  · exact Ensures.footing fun o => perform_inside_ensures Value.hereditary_true (closed_footing o)
      (fun _ _ => trivial) next hinside hjump fun _ _ _ _ _ _ _ _ _ => trivial
  · cases i with
    | saveState name src =>
      refine Ensures.footing (Q := fun _ => True) fun o => .bind (entry_ensures _ _ name) fun s _ =>
        .bind (register_ensures (closed_footing o) src) fun v _ m hm =>
          ⟨(saveState_footing s v m).trans hm, fun _ _ => trivial⟩
    | _ => exact absurd (by simp [Instruction.staysInside, hi]) hinside

/-- A call pushes a frame if it does not fail. -/
theorem perform_call_shifted (hm : m.Sited) (hi : i.isCall = true) :
    m.Shifted (perform host resume program next i m).2 := by
  have hback : ∀ n : Machine, n.footing = m.footing → m.Shifted n :=
    fun n hn => ⟨hm.of_footing hn, (Sheds.of_footing hn).carries⟩
  refine perform_call_leads Value.hereditary_true (closed_footing m.footing) (fun hn _ => hn)
    (fun _ _ _ _ _ _ => trivial) hback (fun block args link _ _ n hn => ?_) next hi m rfl
  obtain ⟨hend, hcarries⟩ := enter_shifts block args link n (hback n hn).1
  exact ⟨hend, (Sheds.of_footing hn).trans_carries hcarries⟩

/-- A jump takes the active frame to an offset of the program that it executes. -/
theorem perform_jump_shifted (hm : m.Sited) (herror : m.stack.error = none) (hp : m.Executing program)
    {pc : Nat} {cond : Condition} {offset : Int16} (hreach : program.Reaches pc)
    (hfetch : program.instructionAt pc = .ok (.jump cond offset, next)) :
    m.Shifted (perform host resume program next (.jump cond offset) m).2 ∧
      (perform host resume program next (.jump cond offset) m).2.Executing program := by
  have htaken : Preserves footing (isTaken cond) :=
    Ensures.footing fun o => isTaken_ensures (closed_footing o) cond
  have hsame : ∀ n : Machine, n.footing = m.footing → m.Shifted n ∧ n.Executing program :=
    fun n hn => ⟨⟨hm.of_footing hn, (Sheds.of_footing hn).carries⟩, hp.of_footing hn⟩
  replace htaken := htaken m
  rw [perform, Failing.bind_apply]
  generalize isTaken cond m = r at htaken
  obtain ⟨_ | taken, n⟩ := r
  · exact hsame n htaken
  obtain ⟨⟨hn, hcarries⟩, f, rest, hframes, hslot, hversion⟩ := hsame n htaken
  cases taken with
  | false => exact hsame n htaken
  | true =>
    show m.Shifted (jump next offset n).2 ∧ (jump next offset n).2.Executing program
    rw [jump]
    split
    · exact hsame n htaken
    rw [modifyActive_apply _ hframes]
    have hnone : n.stack.error = none := (congrArg Footing.error htaken).trans herror
    have hf : f.Stands n.world := hn.stands hnone f (hframes ▸ List.mem_cons_self)
    have hf' : Frame.Stands n.world { f with pc := { f.pc with offset := (next + offset.toInt).toNat } } :=
      .of_runs (hn.filed.runs hf.1 hslot) hversion.symm (.jump hreach hfetch)
    refine ⟨⟨⟨hn.filed, hn.ended, fun _ => List.forall_mem_cons.2 ⟨hf', fun g hg => ?_⟩⟩, ?_⟩,
      _, rest, rfl, hslot, hversion⟩
    · exact hn.stands hnone g (hframes ▸ List.mem_cons_of_mem f hg)
    · refine ((Sheds.of_footing htaken).trans (.of_editions ?_)).carries
      rw [hframes]
      rfl

/-- **Instructions keep frames standing**, calls of natives aside, and when the loop goes on with the
    program it holds, the active frame still executes it. -/
theorem step_shifted (hm : m.Sited) (herror : m.stack.error = none) (hp : m.Executing program) {pc : Nat}
    (hreach : program.Reaches pc) (hfetch : program.instructionAt pc = .ok (i, next))
    (hnative : ∀ index, i ≠ .native index) :
    m.Shifted (step host resume program next i m).2 ∧
      ((step host resume program next i m).1 = .ok .next →
        (step host resume program next i m).2.Executing program) := by
  by_cases hpause : i = .pause
  · subst hpause
    refine ⟨Stays.shifts (.pure _) m hm, fun hnext => ?_⟩
    cases hnext
  by_cases hret : i = .ret
  · subst hret
    have hleave : Stays (step host resume program next .ret) :=
      .bind (leave_stays program) fun _ => .pure _
    refine ⟨hleave.shifts m hm, fun hnext => ?_⟩
    cases stepped (Prod.ext hnext rfl : step host resume program next .ret m = (.ok .next, _))
  rw [step_machine hpause hret]
  cases hleaves : i.leavesFrame with
  | true =>
    have hcall : i.isCall = true := by
      cases i with
      | call | callKeyed | callFunc | callFuncApply | callMethod => rfl
      | native index => exact absurd rfl (hnative index)
      | pause => exact absurd rfl hpause
      | ret => exact absurd rfl hret
      | _ => cases hleaves
    refine ⟨perform_call_shifted hm hcall, fun hnext => ?_⟩
    -- a call never goes on with the same program
    rw [step.eq_3 _ _ _ _ _ hpause hret, Failing.bind_apply, hleaves] at hnext
    generalize perform host resume program next i m = r at hnext
    obtain ⟨_ | _, n⟩ := r <;> cases hnext
  | false =>
    cases hjump : i.isJump with
    | true =>
      cases i with
      | jump cond offset =>
        obtain ⟨hshifted, hexecuting⟩ := perform_jump_shifted hm herror hp hreach hfetch
        exact ⟨hshifted, fun _ => hexecuting⟩
      | _ => cases hjump
    | false =>
      have hkeep : Preserves footing (perform host resume program next i) :=
        perform_inside_footing hleaves hjump
      exact ⟨⟨hm.of_footing (hkeep m), (Sheds.of_footing (hkeep m)).carries⟩,
        fun _ => hp.of_footing (hkeep m)⟩

end

/-! ### Moments -/

/-- A result other than a crash. -/
def Regular (r : Except Fault α) : Prop :=
  ∀ fault, r = .error fault → ∃ e, fault = .raised e

/-- Moments lead from a machine to the end of a computation, in order, and unless the computation crashed
    frames stand at its end. -/
structure Traced (xs : List Moment) (m : Machine) (r : Except Fault α × Machine) : Prop where
  orderly : Moment.Orderly m xs
  last : Moment.last m xs = r.2
  sited : Regular r.1 → r.2.Sited

/-- A computation that starts with standing frames has moments. -/
def Traces (a : Action α) (moments : Machine → List Moment) : Prop :=
  ∀ m : Machine, m.Sited → Traced (moments m) m (a m)

/-- A run has moments, and leaves no error when it ends well. -/
structure TracesRun (resume : Action Outcome) (running : Machine → List Moment) : Prop where
  traces : Traces resume running
  no_error : ∀ {m : Machine}, m.Sited → ∀ outcome m', resume m = (.ok outcome, m') →
    m'.stack.error = none

/-- What comes back with a value is regular. -/
theorem Regular.ok (x : α) : Regular (.ok x) :=
  nofun

/-- What comes back with an error is regular. -/
theorem Regular.raised (e : RuntimeError) : Regular (.error (.raised e) : Except Fault α) := by
  intro fault h
  exact ⟨e, (Except.error.inj h).symm⟩

/-- Whether a fault is regular has nothing to do with what was expected. -/
theorem Regular.error {fault : Fault} (h : Regular (.error fault : Except Fault α)) :
    Regular (.error fault : Except Fault β) := by
  intro fault' h'
  exact h fault' (congrArg Except.error (Except.error.inj h'))

/-- What may push a frame takes one moment. -/
theorem Shifts.traces {a : Action α} (h : Shifts a) : Traces a fun m => [⟨.other, (a m).2⟩] :=
  fun m hm => ⟨⟨(h m hm).2, trivial⟩, rfl, fun _ => (h m hm).1⟩

/-- A call is a push, a run, and the end of the call. -/
theorem call_traces {resume : Action Outcome} {running : Machine → List Moment}
    (hresume : TracesRun resume running) (block : BlockId) (inputs : List Value) :
    Traces (callWith resume block inputs) (HostOp.moments resume running (.call block inputs)) := by
  intro m hm
  have hpush := push_shifts block inputs m hm
  rw [HostOp.moments]
  rcases hstart : push block inputs m with ⟨e | _, m₁⟩ <;> rw [hstart] at hpush
  · have hcall : callWith resume block inputs m = (.error e, m₁) := by
      rw [callWith, Failing.bind_apply, hstart]
    rw [hcall]
    exact ⟨⟨hpush.2, trivial⟩, rfl, fun _ => hpush.1⟩
  obtain ⟨horderly, hlast, hsited⟩ := hresume.traces m₁ hpush.1
  have hnone := hresume.no_error hpush.1
  -- the end of the call clears the frames, or leaves the machine as the run left it
  have hend : (resume m₁).2.Sheds (callWith resume block inputs m).2 ∧
      (Regular (callWith resume block inputs m).1 → (callWith resume block inputs m).2.Sited) := by
    rw [callWith, Failing.bind_apply, hstart]
    dsimp only
    rw [Failing.bind_apply]
    generalize resume m₁ = r at hsited hnone
    obtain ⟨e | outcome, m₂⟩ := r
    · exact ⟨.refl m₂, fun hregular => hsited hregular.error⟩
    have hm₂ : m₂.Sited := hsited (.ok outcome)
    cases outcome with
    | finished =>
      have hcleared := hm₂.sheds (s := { m₂.stack.clearFrames with phase := .ready })
        List.nil_suffix (.inl (hnone _ m₂ rfl)) (.inl rfl)
      exact ⟨hcleared.2, fun _ => hcleared.1⟩
    | paused | cancelled => exact ⟨.refl m₂, fun _ => hm₂⟩
  refine ⟨⟨hpush.2, Moment.orderly_append.2 ⟨horderly, ?_, trivial⟩⟩, ?_, hend.2⟩
  · rw [hlast]
    exact hend.1.carries
  · simp only [Moment.last_cons, Moment.last_append, Moment.last_nil]

end Machine

open Machine

/-- **Operations trace**, given that runs do. -/
theorem HostOp.traces {resume : Action Outcome} {running : Machine → List Moment}
    (hresume : TracesRun resume running) {β : Type} (o : HostOp β) :
    Traces (o.perform resume) (o.moments resume running) := by
  cases hrun : o.isRun with
  | false =>
    have hmoments : o.moments resume running = fun m => [⟨.other, (o.perform resume m).2⟩] := by
      funext m
      cases o <;> first | rfl | exact nomatch hrun
    rw [hmoments]
    exact (HostOp.shifts resume hrun).traces
  | true =>
    cases o with
    | run => exact hresume.traces
    | call block inputs => exact call_traces hresume block inputs
    | _ => exact nomatch hrun

/-- **Scripts have moments**: those of their operations, one after the other. -/
theorem Script.traces {resume : Action Outcome} {running : Machine → List Moment}
    (hresume : TracesRun resume running) {α : Type} (script : Script α) :
    Traces (script.perform resume) (script.moments resume running) := by
  induction script with
  | done r =>
    intro m hm
    cases r <;> exact ⟨trivial, rfl, fun _ => hm⟩
  | op o next ih =>
    intro m hm
    obtain ⟨horderly, hlast, hsited⟩ := o.traces hresume m hm
    have hgo : ∀ (r : Except RuntimeError _) (m' : Machine), Moment.last m (o.moments resume running m) = m' →
        m'.Sited → Traced (o.moments resume running m ++ (next r).moments resume running m') m
          ((next r).perform resume m') := by
      intro r m' hm' hsited'
      obtain ⟨horderly', hlast', hend⟩ := ih r m' hsited'
      refine ⟨Moment.orderly_append.2 ⟨horderly, hm'.symm ▸ horderly'⟩, ?_, hend⟩
      rw [Moment.last_append, hm', hlast']
    rw [Script.moments, Script.perform, Failing.bind_apply, attempt]
    rcases hr : o.perform resume m with ⟨fault | b, m'⟩ <;> rw [hr] at hlast hsited
    · cases fault with
      | raised e => exact hgo (.error e) m' hlast (hsited (.raised e))
      | crashed | outOfFuel =>
        refine ⟨?_, ?_, fun hregular => ?_⟩
        · rw [List.append_nil]
          exact horderly
        · rw [List.append_nil]
          exact hlast
        · obtain ⟨_, hne⟩ := hregular _ rfl
          cases hne
    · exact hgo (.ok b) m' hlast (hsited (.ok b))

/-- **Natives trace**, given that runs do. -/
theorem Native.traces (host : Embedder) {resume : Action Outcome} {running : Machine → List Moment}
    (hresume : TracesRun resume running) (f : Native) :
    Traces (invoke host resume f) (f.moments host resume running) := by
  cases f with
  | host g =>
    rw [invoke, invokeHost_eq]
    exact g.script.traces hresume
  | installed code => exact (host.script code).traces hresume
  | _ => exact (invoke_default_stays host resume rfl).shifts.traces

namespace Machine

variable {m m' : Machine} {p : Program}

/-- What the loop finds after a native: how it failed, or the error that it noted. -/
theorem step_native_apply (host : Embedder) (resume : Action Outcome) (program : Program) (next : Nat)
    (index : UInt16) (m : Machine) : step host resume program next (.native index) m =
      match m.world.natives.get? index with
      | none => (.error (.raised (.violation (.poolRange .native index))), m)
      | some (_, f) =>
        match invoke host resume f m with
        | (.error fault, m') => (.error fault, m')
        | (.ok _, m') =>
          match m'.stack.error with
          | some e => (.error (.raised e.error), m')
          | none => (.ok .reload, m') := by
  rw [step.eq_3 _ _ _ _ (.native index) (by simp) (by simp), Failing.bind_apply, perform, callNative,
    Failing.bind_apply, Failing.get_apply]
  dsimp only
  cases m.world.natives.get? index with
  | none => rfl
  | some entry =>
    dsimp only
    rw [Failing.bind_apply]
    rcases invoke host resume entry.2 m with ⟨_ | _, m'⟩
    · rfl
    · simp only [getStack, Failing.bind_apply, Failing.get_apply, Failing.pure_apply]
      cases m'.stack.error <;> rfl

/-- How the loop finds a machine after an instruction of a program. -/
structure Continues (program : Program) (r : Except Fault Flow × Machine) : Prop where
  no_error : ∀ flow, r.1 = .ok flow → r.2.stack.error = none
  executing : r.1 = .ok .next → r.2.Executing program

/-- **Instructions have moments**, given that runs do. -/
theorem step_traced {host : Embedder} {resume : Action Outcome} {running : Machine → List Moment}
    (hresume : TracesRun resume running) {program : Program} {next pc : Nat} {i : Instruction}
    (hm : m.Sited) (herror : m.stack.error = none) (hp : m.Executing program)
    (hreach : program.Reaches pc) (hfetch : program.instructionAt pc = .ok (i, next)) :
    Traced (stepMoments host resume running program next i m) m (step host resume program next i m) ∧
      Continues program (step host resume program next i m) := by
  by_cases hi : ∃ index, i = .native index
  · obtain ⟨index, rfl⟩ := hi
    rw [stepMoments, step_native_apply]
    cases m.world.natives.get? index with
    | none => exact ⟨⟨trivial, rfl, fun _ => hm⟩, nofun, nofun⟩
    | some entry =>
      obtain ⟨horderly, hlast, hsited⟩ := entry.2.traces host hresume m hm
      dsimp only
      generalize invoke host resume entry.2 m = r at hlast hsited
      obtain ⟨fault | _, m'⟩ := r
      · exact ⟨⟨horderly, hlast, fun hregular => hsited hregular.error⟩, nofun, nofun⟩
      · dsimp only
        cases hnone : m'.stack.error with
        | some e => exact ⟨⟨horderly, hlast, fun _ => hsited (.ok _)⟩, nofun, nofun⟩
        | none => exact ⟨⟨horderly, hlast, fun _ => hsited (.ok _)⟩, fun _ _ => hnone, nofun⟩
  · have hnative : ∀ index, i ≠ .native index := fun index h => hi ⟨index, h⟩
    have hshifted : m.Shifted (step host resume program next i m).2 ∧ _ :=
      step_shifted hm herror hp hreach hfetch hnative
    have hstanding : Preserves standing (step host resume program next i) := step_standing hnative
    have hmoments : stepMoments host resume running program next i m =
        [⟨.other, (step host resume program next i m).2⟩] := by
      cases i <;> first | rfl | exact absurd rfl (hnative _)
    rw [hmoments]
    exact ⟨⟨⟨hshifted.1.2, trivial⟩, rfl, fun _ => hshifted.1.1⟩,
      fun _ _ => (congrArg (fun s => s.2.2) (hstanding m)).trans herror, hshifted.2⟩

/-! ### The start of a run -/

/-- Finding out whether frames are up to date moves none. -/
theorem allCurrent_stays (frames : List Frame) : Stays (allCurrent frames) := by
  have hcurrent : ∀ f, Stays (isCurrent f) := by
    intro f
    refine .bind (tryProgram_stays f.program) fun r => ?_
    split
    · exact .pure _
    · exact .pure _
  induction frames with
  | nil => exact .pure _
  | cons f rest ih =>
    refine .bind (hcurrent f) fun current => ?_
    split
    · exact ih
    · exact .pure _

/-- **The check at the start of a run** leaves the frames alone, or starts the root over. -/
theorem restartIfStale_restarts (hm : m.Sited) (herror : m.stack.error = none) :
    (restartIfStale m).2.Sited ∧ m.Restarts (restartIfStale m).2 := by
  have hstack := allCurrent_stack m.stack.frames.reverse m
  have hsited := (allCurrent_stays m.stack.frames.reverse m hm).1
  rw [restartIfStale_apply]
  rcases hr : allCurrent m.stack.frames.reverse m with ⟨e | current, m₁⟩ <;> rw [hr] at hstack hsited
  · exact ⟨hsited, .inl (congrArg Stack.frames hstack)⟩
  replace hstack : m₁.stack = m.stack := hstack
  cases current with
  | true => exact ⟨hsited, .inl (congrArg Stack.frames hstack)⟩
  | false =>
    cases hframes : m.stack.frames with
    | nil =>
      rw [hframes] at hr
      exact nomatch hr
    | cons f rest =>
      obtain ⟨root, hroot⟩ := drop_length_pred f rest
      have hframes₁ : (unwindToRoot m₁.stack).frames = [root] := by
        rw [hstack]
        show m.stack.frames.drop (m.stack.depth - 1) = [root]
        rw [Stack.depth, hframes, hroot]
      have hlast : m.stack.frames.getLast? = some root := by
        have hdropped := congrArg List.getLast? hroot
        rw [List.getLast?_drop, if_neg (by simp)] at hdropped
        rw [hframes]
        exact hdropped
      dsimp only
      rw [restartRoot_apply hframes₁]
      have hnone : m₁.stack.error = none := hstack ▸ herror
      have hstands : root.Stands m₁.world := by
        refine hsited.stands hnone root ?_
        rw [hstack]
        exact List.mem_of_getLast? hlast
      obtain ⟨⟨hfiled, -⟩, hfound⟩ := hsited.filed.program root.program
      have hsucceeds := hsited.filed.program_succeeds root.program
      generalize World.program root.program m₁.world = r at hfiled hfound hsucceeds
      have hkept := hstands.mono hsucceeds
      obtain ⟨e | p, w⟩ := r
      · refine ⟨⟨hfiled, hsited.ended, fun _ g hg => ?_⟩, .inr ⟨root, root, hlast, hframes₁, .inl rfl⟩⟩
        rw [show _ = [root] from hframes₁, List.mem_singleton] at hg
        exact hg ▸ hkept
      · have hruns : w.Runs root.block root.program p := hfiled.runs hkept.1 (hfound p rfl)
        refine ⟨⟨hfiled, hsited.ended, fun _ g hg => ?_⟩, .inr ⟨root, _, hlast, rfl,
          .inr ⟨rfl, rfl, rfl, p, hruns, rfl⟩⟩⟩
        rw [List.mem_singleton.1 hg]
        exact .of_runs hruns rfl .start

/-! ### Runs -/

/-- What the loop leaves: standing frames and no error, or an error to be noted. -/
def Concluded : Except Fault Outcome × Machine → Prop
  | (.ok _, m) => m.Sited ∧ m.stack.error = none
  | (.error (.raised _), m) => m.world.Filed
  | (.error _, _) => True

/-- Moments lead from a machine to where an execution was left. -/
structure Executed (xs : List Moment) (m : Machine) (r : Except Fault Outcome × Machine) : Prop where
  orderly : Moment.Orderly m xs
  last : Moment.last m xs = r.2
  concluded : Concluded r

/-- Further moments before an execution. -/
theorem Executed.cons {x : Moment} {xs : List Moment} {r : Except Fault Outcome × Machine}
    (hx : x.cause.Allows m x.machine) (h : Executed xs x.machine r) : Executed (x :: xs) m r :=
  ⟨⟨hx, h.orderly⟩, h.last, h.concluded⟩

/-- An execution goes on after some moments. -/
theorem Executed.append {xs ys : List Moment} {r : Except Fault Outcome × Machine}
    (hxs : Moment.Orderly m xs) (h : Executed ys (Moment.last m xs) r) : Executed (xs ++ ys) m r := by
  refine ⟨Moment.orderly_append.2 ⟨hxs, h.orderly⟩, ?_, h.concluded⟩
  rw [Moment.last_append]
  exact h.last

/-- An execution that fails where frames stand. -/
theorem Executed.fails (hm : m.Sited) (fault : Fault) : Executed [] m (.error fault, m) := by
  refine ⟨trivial, rfl, ?_⟩
  cases fault with
  | raised e => exact hm.filed
  | crashed | outOfFuel => trivial

/-- Noting how a run ended moves no frame. -/
theorem ended_sited {r : Except Fault Outcome × Machine} (h : Concluded r) :
    r.2.Sheds (ended r).2 ∧ (Regular (ended r).1 → (ended r).2.Sited) ∧
      ∀ outcome m', ended r = (.ok outcome, m') → m'.stack.error = none := by
  obtain ⟨fault | outcome, m⟩ := r
  · cases fault with
    | raised e =>
      obtain ⟨hok, -⟩ := recordError_fails e m
      obtain ⟨hsited, hsheds⟩ := recordError_sited h e
      rw [ended, Failing.bind_apply]
      generalize recordError e m = r at hok hsited hsheds
      obtain ⟨_ | _, m'⟩ := r
      · cases hok
      · refine ⟨hsheds, fun _ => hsited, fun _ _ h => ?_⟩
        cases congrArg Prod.fst h
    | crashed | outOfFuel =>
      refine ⟨.refl m, fun hregular => ?_, fun _ _ h => ?_⟩
      · obtain ⟨_, hne⟩ := hregular _ rfl
        cases hne
      · cases congrArg Prod.fst h
  · obtain ⟨hm, herror⟩ := h
    refine ⟨.of_frames rfl, fun _ => ⟨hm.filed, fun hne => absurd herror hne, hm.stands⟩,
      fun _ _ h => ?_⟩
    obtain rfl := congrArg Prod.snd h
    exact herror

/-- **Runs have moments**, given that the loop does. -/
theorem runWith_traces {exec : Program → Action Outcome} {executing : Program → Machine → List Moment}
    (hexec : ∀ p (m : Machine), m.Sited → m.stack.error = none → m.Executing p →
      Executed (executing p m) m (exec p m)) :
    TracesRun (runWith exec) (runMoments exec executing) := by
  have hrun : ∀ m : Machine, m.Sited → Traced (runMoments exec executing m) m (runWith exec m) ∧
      ∀ outcome m', runWith exec m = (.ok outcome, m') → m'.stack.error = none := by
    intro m hm
    by_cases hready : m.stack.phase = .ready ∧ m.stack.frames ≠ []
    · -- the run starts, looks for old programs, loads the program and executes it
      have hnone : m.stack.error = none := hm.no_error (by rw [hready.1]; simp)
      have hstarted : m.started.Sited := ⟨hm.filed, fun hne => absurd hnone hne, hm.stands⟩
      obtain ⟨hchecked, hrestarts⟩ := restartIfStale_restarts hstarted hnone
      have hnone₁ : (restartIfStale m.started).2.stack.error = none :=
        (congrArg (fun s => s.2.2) (restartIfStale_standing m.started)).trans hnone
      obtain ⟨hloaded, hsheds⟩ := currentProgram_stays _ hchecked
      have hnone₂ := (congrArg (fun s => s.2.2)
        (currentProgram_standing (restartIfStale m.started).2)).trans hnone₁
      have hexecuting := currentProgram_executing hchecked
      have hbody : Executed (bodyMoments executing m.started) m.started (body exec m.started) := by
        refine .cons hrestarts ?_
        rw [body, Failing.bind_apply]
        generalize restartIfStale m.started = r at hchecked hloaded hsheds hnone₂ hexecuting ⊢
        obtain ⟨fault | _, m₁⟩ := r
        · exact .fails hchecked fault
        · refine .cons hsheds.carries ?_
          dsimp only
          rw [Failing.bind_apply]
          generalize currentProgram m₁ = r at hloaded hnone₂ hexecuting ⊢
          obtain ⟨fault | p, m₂⟩ := r
          · exact .fails hloaded fault
          · exact hexec p m₂ hloaded hnone₂ (hexecuting p m₂ rfl)
      obtain ⟨horderly, hlast, hconcluded⟩ := hbody
      obtain ⟨hended, hsited, hok⟩ := ended_sited hconcluded
      rw [runMoments_ready hready, runWith_ready hready.1 hready.2]
      refine ⟨⟨⟨(Sheds.of_frames rfl).carries, ?_⟩, ?_, hsited⟩, hok⟩
      · have hclosing : Moment.Orderly (body exec m.started).2
            [⟨.other, (ended (body exec m.started)).2⟩] := ⟨hended.carries, trivial⟩
        exact Moment.orderly_append.2 ⟨horderly, hlast.symm ▸ hclosing⟩
      · exact Moment.last_append _ (_ :: _ :: _) _
    · rw [runWith_reported hready, runMoments_idle hready]
      refine ⟨⟨trivial, rfl, fun _ => hm⟩, fun outcome m' h => ?_⟩
      obtain ⟨hreported, rfl⟩ := Prod.mk.inj h
      cases herror : m.stack.error with
      | none => rfl
      | some e =>
        -- a run that an error ended reports it again
        rw [reported, hm.ended (by rw [herror]; simp), herror] at hreported
        cases hreported
  exact ⟨fun m hm => (hrun m hm).1, fun hm => (hrun _ hm).2⟩

/-- What is seen of frames other than their pcs is not changed by placing one. -/
theorem placed_map {γ : Type} (view : Frame → γ) (m : Machine) (top : Nat) (pc : Frame → Pc)
    (hview : ∀ f, view { f with pc := pc f } = view f) :
    (m.placed top pc).stack.frames.map view = m.stack.frames.map view := by
  rw [placed, Stack.modifyFrameAt]
  split
  · refine List.ext_getElem? fun i => ?_
    rw [List.getElem?_map, List.getElem?_map, List.getElem?_modify]
    cases m.stack.frames[i]? with
    | none => rfl
    | some f =>
      simp only [Option.map_some]
      split
      · exact congrArg some (hview f)
      · rfl
  · rfl

/-- Another pc in a frame does not change what it runs. -/
theorem placed_sheds (m : Machine) (top : Nat) (pc : Frame → Pc) : m.Sheds (m.placed top pc) :=
  .of_editions (placed_map Frame.edition m top pc fun _ => rfl)

/-- The pc of a frame has nothing to do with error and phase. -/
theorem placed_stack (m : Machine) (top : Nat) (pc : Frame → Pc) :
    (m.placed top pc).stack.error = m.stack.error ∧ (m.placed top pc).stack.phase = m.stack.phase :=
  have h := placed_standing m top pc
  ⟨congrArg (fun s => s.2.2) h, congrArg (fun s => s.2.1) h⟩

/-- A note on the graph node does not change where a frame stands. -/
theorem placed_footing (m : Machine) (top : Nat) (node : Option UInt32) :
    (m.placed top fun f => { f.pc with node := node }).footing = m.footing := by
  obtain ⟨herror, hphase⟩ := placed_stack m top fun f => { f.pc with node := node }
  have hplaces := placed_map Frame.place m top (fun f => { f.pc with node := node }) fun _ => rfl
  rw [footing, herror, hphase, hplaces]
  rfl

/-- A frame that goes on behind an instruction stands there. -/
theorem Sited.advanced (hm : m.Sited) (herror : m.stack.error = none) {program : Program}
    (hp : m.Executing program) {f : Frame} {rest : List Frame} (hframes : m.stack.frames = f :: rest)
    {i : Instruction} {next : Nat} (hfetch : program.instructionAt f.pc.offset = .ok (i, next)) :
    (m.advanced f rest next).Sited ∧ (m.advanced f rest next).Executing program := by
  obtain ⟨f', rest', hframes', hslot, hversion⟩ := hp
  obtain ⟨rfl, rfl⟩ := List.cons.inj (hframes.symm.trans hframes')
  have hf : f.Stands m.world := hm.stands herror f (hframes ▸ List.mem_cons_self)
  have hf' : Frame.Stands m.world { f with pc := { f.pc with offset := next } } :=
    .of_runs (hm.filed.runs hf.1 hslot) hversion.symm
      (.next (hf.reaches hm.filed hslot hversion) hfetch)
  refine ⟨⟨hm.filed, hm.ended, fun _ => List.forall_mem_cons.2 ⟨hf', fun g hg => ?_⟩⟩,
    _, rest, rfl, hslot, hversion⟩
  exact hm.stands herror g (hframes ▸ List.mem_cons_of_mem f hg)

/-- **The loop has moments**, and takes every instruction from the current program of the active
    frame. -/
theorem execute_traces (host : Embedder) (fuel : Nat) (program : Program) {m : Machine} (hm : m.Sited)
    (herror : m.stack.error = none) (hp : m.Executing program) :
    Executed (executeMoments host fuel program m) m (execute host fuel program m) := by
  induction fuel generalizing program m with
  | zero => exact .fails hm _
  | succ fuel ih =>
    have hresume : TracesRun (runWith (execute host fuel))
        (runMoments (execute host fuel) (executeMoments host fuel)) :=
      runWith_traces fun p m hm herror hp => ih p hm herror hp
    have hfetches := hp.fetches hm herror
    obtain ⟨f, rest, hframes, -, -, -, hreach⟩ := id hfetches
    rw [executeMoments]
    cases hstop : m.stack.cancelled with
    | true =>
      rw [execute_cancelled host fuel program hstop]
      exact ⟨trivial, rfl, hm, herror⟩
    | false =>
      rw [execute_succ host fuel program hstop hframes, hframes]
      dsimp only
      cases hfetch : program.instructionAt f.pc.offset with
      | error e => exact .cons ⟨hfetches, rfl⟩ (.fails hm _)
      | ok found =>
        obtain ⟨i, next⟩ := found
        obtain ⟨hm₁, hp₁⟩ := hm.advanced herror hp hframes hfetch
        obtain ⟨⟨horderly, hlast, hsited⟩, hnone, hnext⟩ :=
          step_traced (i := i) hresume hm₁ herror hp₁ hreach hfetch
        dsimp only
        refine .cons ⟨hfetches, ?_⟩ (.append horderly ?_)
        · rw [hframes]
          rfl
        rw [hlast]
        generalize step host (runWith (execute host fuel)) program next i (m.advanced f rest next)
          = r at hsited hnone hnext ⊢
        obtain ⟨fault | flow, m₂⟩ := r
        · -- the failing instruction is noted in the frame, which need not stand there
          have hplaced : m₂.Sheds (m₂.placed rest.length fun _ => ⟨f.pc.offset, program.nodeAt f.pc.offset⟩) :=
            placed_sheds m₂ _ _
          refine .cons hplaced.carries ⟨trivial, rfl, ?_⟩
          cases fault with
          | raised e => exact (hsited (.raised e)).filed
          | crashed | outOfFuel => trivial
        have hm₂ : m₂.Sited := hsited (.ok flow)
        have hnone₂ : m₂.stack.error = none := hnone flow rfl
        cases flow with
        | next => exact ih program hm₂ hnone₂ (hnext rfl)
        | reload =>
          obtain ⟨hm₃, hsheds⟩ := currentProgram_stays m₂ hm₂
          have hnone₃ := (congrArg (fun s => s.2.2) (currentProgram_standing m₂)).trans hnone₂
          have hexecuting := currentProgram_executing hm₂
          refine .cons hsheds.carries ?_
          rw [continued, Failing.bind_apply]
          generalize currentProgram m₂ = r at hm₃ hnone₃ hexecuting ⊢
          obtain ⟨fault | p, m₃⟩ := r
          · exact .fails hm₃ fault
          · exact ih p hm₃ hnone₃ (hexecuting p m₃ rfl)
        | pause =>
          have hplaced := placed_footing m₂ rest.length (program.nodeAt next)
          exact .cons (Sheds.of_footing hplaced).carries
            ⟨trivial, rfl, hm₂.of_footing hplaced, (placed_stack m₂ _ _).1.trans hnone₂⟩
        | finish => exact .cons (Sheds.refl m₂).carries ⟨trivial, rfl, hm₂, hnone₂⟩

/-! ### Sessions -/

/-- A new machine has no frames and no programs. -/
theorem sited_new (natives : NativeTable) (config : StackConfig) (printed : String) :
    Sited ⟨{ natives := natives }, .new config, printed⟩ := by
  have hkept : World.Kept {} { natives := natives } := World.filed_new.kept rfl rfl
  exact ⟨hkept.filed, fun hne => absurd rfl hne, fun _ _ hf => nomatch hf⟩

/-- **Hot reload is safe.** A host may do with a new machine what it likes, and so may natives, and both
    may replace blocks at any time. Whenever the loop takes an instruction, the program that it holds is
    the world's current program for the active frame's index, in the version of that frame, and its
    control flow leads to the frame's offset. Frames run what they were pushed for, in one version,
    until they go; only the check at the start of a run gives the root another version, and starts it
    over at offset zero. -/
theorem session_hotReload (natives : NativeTable) (config : StackConfig) (printed : String)
    (host : Embedder) (fuel : Nat) {α : Type} (session : Script α) :
    let start : Machine := ⟨{ natives := natives }, .new config, printed⟩
    let moments := session.moments (runBy host fuel) (runByMoments host fuel) start
    Moment.last start moments = (session.perform (runBy host fuel) start).2 ∧
      ∀ past moment future, moments = past ++ moment :: future →
        moment.cause.Allows (Moment.last start past) moment.machine := by
  have hresume : TracesRun (runBy host fuel) (runByMoments host fuel) :=
    runWith_traces fun p m hm herror hp => execute_traces host fuel p hm herror hp
  obtain ⟨horderly, hlast, -⟩ := session.traces hresume _ (sited_new natives config printed)
  refine ⟨hlast, fun past moment future heq => ?_⟩
  rw [heq] at horderly
  exact horderly.allows

end Machine

end BlockMachine

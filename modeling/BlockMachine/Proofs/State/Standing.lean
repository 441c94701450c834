import BlockMachine.Proofs.State.Tracking

namespace BlockMachine

/-!
# How a run stands

A run stands well while its stack is running and no error was noted. Only natives change how a run
stands, and the loop goes on after one only if it left no error.

* `Machine.step_standing`: instructions other than natives do not change how a run stands;
* `Machine.Engaged` holds of a stack that is running or that an error ended, `Native.engaged` says that
  natives leave a stack so unless they start it over;
* `Machine.execute_healthy` and `Machine.execute_errorless` are about the loop, `Machine.ended_fst` and
  `Machine.ended_ok` about what a run notes at its end.
-/

namespace Machine

variable {α β : Type} {m m' : Machine}

/-- How a run stands, with the natives that can change it. -/
def standing (m : Machine) : NativeTable × Phase × Option StackError :=
  (m.world.natives, m.stack.phase, m.stack.error)

/-- What leaves outline and error alone does not change how a run stands. -/
theorem standing_of_status {a : Action α} (h : Preserves status a) : Preserves standing a :=
  h.part fun s => (s.1.natives, s.1.phase, s.2)

/-- What frames compute with does not matter to it. -/
theorem aloof_standing : Aloof standing :=
  aloof_status.part fun s => (s.1.natives, s.1.phase, s.2)

/-- A computation on the world that changes only programs does not change it. -/
theorem world_standing {g : World.Action α} (h : ∀ w : World, w.OnlyPrograms (g w).2) :
    Preserves standing (onWorld g) :=
  .onWorld fun m => congrArg (·, m.stack.phase, m.stack.error) (h m.world).natives

/-! ### Instructions -/

/-- Looking at the stack does not change how a run stands. -/
theorem getStack_standing : Preserves standing getStack :=
  fun _ => rfl

/-- Entering a block does not change how a run stands. -/
theorem enter_standing (block : BlockId) (args : List Value) (link : Link) :
    Preserves standing (enter block args link) := by
  refine getStack_standing.bind fun s => ?_
  dsimp only
  split
  · exact fun _ => rfl
  refine .bind (world_standing (World.compile_only block)) fun index =>
    .bind (world_standing (World.program_only index)) fun program => ?_
  split
  · exact fun _ => rfl
  · exact .bind (castArguments_preserves aloof_standing _ 0 args) fun _ _ => rfl

/-- A change of the active frame does not change how a run stands. -/
theorem modifyActive_standing (change : Frame → Frame) : Preserves standing (modifyActive change) :=
  .bind (active_machine.part standing) fun _ _ => rfl

/-- A return does not change how a run stands. -/
theorem leave_standing (program : Program) : Preserves standing (leave program) := by
  have hallocate : ∀ {α : Type} (g : Fresh α), Preserves standing (allocate g) := fun _ _ => rfl
  refine .bind (active_machine.part standing) fun f =>
    .bind (castOutputs_preserves (fun _ _ => rfl) _ _ _ _) fun outputs => ?_
  split
  · exact .bind (.bind (hallocate _) fun _ _ => rfl) fun _ => .pure _
  · refine .bind (fun m => ?_) fun _ => .bind (.bind (active_machine.part standing) fun parent => ?_)
      fun _ => .pure _
    · show standing { m with stack := m.stack.popFrame.2 } = m.standing
      rw [Stack.popFrame]
      cases m.stack.frames <;> rfl
    · dsimp only
      split
      · exact .bind (hallocate _) fun _ _ => rfl
      · exact fun _ => rfl

/-- **Only natives change how a run stands.** -/
theorem step_standing {host : Embedder} {resume : Action Outcome} {program : Program} {next : Nat}
    {i : Instruction} (hi : ∀ index, i ≠ .native index) :
    Preserves standing (step host resume program next i) := by
  intro m
  have hinside : i.staysInside = true →
      standing (perform host resume program next i m).2 = m.standing :=
    fun hi => perform_inside_preserves aloof_standing next hi m
  have hcall : i.isCall = true → standing (perform host resume program next i m).2 = m.standing :=
    fun hi => perform_call_preserves aloof_standing enter_standing next hi m
  cases i with
  | pause => rfl
  | ret => exact Preserves.bind (leave_standing program) (fun _ => .pure _) m
  | native index => exact absurd rfl (hi index)
  | saveState name src =>
    rw [step_machine (by simp) (by simp)]
    refine Preserves.bind ?_ (fun s => .bind ((register_machine src).part standing) fun v =>
      modifyActive_standing _) m
    rw [entry]
    split
    · exact .pure _
    · exact .throw _
  | call | callKeyed | callFunc | callFuncApply | callMethod =>
    rw [step_machine (by simp) (by simp)]
    exact hcall rfl
  | _ =>
    rw [step_machine (by simp) (by simp)]
    exact hinside rfl

/-! ### The start of a run -/

/-- Finding out whether frames are up to date does not change how a run stands. -/
theorem allCurrent_standing (frames : List Frame) : Preserves standing (allCurrent frames) := by
  induction frames with
  | nil => exact .pure _
  | cons f rest ih =>
    refine .bind (.bind (standing_of_status (tryProgram_status _)) fun r => ?_) fun current => ?_
    · split <;> exact .pure _
    · split
      · exact ih
      · exact .pure _

/-- The check for new versions does not change how a run stands. -/
theorem restartIfStale_standing : Preserves standing restartIfStale := by
  refine getStack_standing.bind fun s => .bind (allCurrent_standing _) fun current => ?_
  split
  · exact .pure _
  · refine .bind (fun _ => rfl) fun _ => .bind (active_machine.part standing) fun f => ?_
    exact .bind (world_standing (World.program_only _)) fun p => getStack_standing.bind fun s =>
      modifyActive_standing _

/-- Fetching the program to go on with does not change how a run stands. -/
theorem currentProgram_standing : Preserves standing currentProgram := by
  refine .bind (active_machine.part standing) fun f =>
    .bind (world_standing (World.program_only _)) fun p => ?_
  split
  · exact .pure _
  · exact .throw _

/-- The pc of a frame has nothing to do with how a run stands. -/
theorem placed_standing (m : Machine) (top : Nat) (pc : Frame → Pc) :
    (m.placed top pc).standing = m.standing := by
  rw [placed, Stack.modifyFrameAt]
  split <;> rfl

/-! ### Natives -/

/-- The stack is running, or an error ended the run. -/
def Engaged (m : Machine) : Prop :=
  m.stack.phase = .running ∨ m.stack.phase = .finished ∧ m.stack.error ≠ none

/-- Being engaged is a matter of phase and error alone. -/
theorem Engaged.congr (h : m.Engaged) (hphase : m'.stack.phase = m.stack.phase)
    (herror : m'.stack.error = m.stack.error) : m'.Engaged := by
  rw [Engaged, hphase, herror]
  exact h

/-- What does not change how a run stands leaves it engaged. -/
theorem Engaged.preserves (h : m.Engaged) {a : Action α} (ha : Preserves standing a) :
    (a m).2.Engaged :=
  h.congr (congrArg (·.2.1) (ha m)) (congrArg (·.2.2) (ha m))

/-- What may end a run with an error leaves it engaged. -/
theorem Engaged.settles (h : m.Engaged) {a : Action α} (ha : Settles a) : (a m).2.Engaged := by
  rcases ha m with hm | ⟨hm, herror⟩
  · exact h.congr (congrArg (·.1.phase) hm) (congrArg Prod.snd hm)
  · exact .inr ⟨congrArg Outline.phase hm, herror⟩

/-- Running such a stack is refused. -/
def Refuses (resume : Action Outcome) : Prop :=
  ∀ m : Machine, m.Engaged → ∃ e, resume m = (.error e, m)

/-- A run inside of a run is refused, and one after an error gives the error again. -/
theorem runWith_refuses (exec : Program → Action Outcome) : Refuses (runWith exec) := by
  intro m h
  have hready : ¬(m.stack.phase = .ready ∧ m.stack.frames ≠ []) := by
    rintro ⟨hphase, -⟩
    rcases h with h | ⟨h, -⟩ <;> exact nomatch hphase.symm.trans h
  rw [runWith_reported hready, reported]
  rcases h with h | ⟨h, herror⟩
  · rw [h]
    exact ⟨_, rfl⟩
  · obtain ⟨e, he⟩ := Option.ne_none_iff_exists'.1 herror
    rw [h, he]
    exact ⟨_, rfl⟩

/-- A computation leaves the stack running, or ends the run with an error, unless it starts the stack
    over. -/
def StaysEngaged (a : Action α) (course : Machine → List Mark) : Prop :=
  ∀ m, m.Engaged → .cleared ∉ Mark.log (course m) → (a m).2.Engaged

/-- What settles leaves a run engaged, whatever its course is. -/
theorem Settles.staysEngaged {a : Action α} (ha : Settles a) (course : Machine → List Mark) :
    StaysEngaged a course :=
  fun _ h _ => h.settles ha

/-- A push leaves a run engaged, unless it clears a finished stack. -/
theorem push_engaged (h : m.Engaged) (block : BlockId) (inputs : List Value)
    (hcleared : .cleared ∉ pushed m (push block inputs m).2) : (push block inputs m).2.Engaged := by
  rw [pushed] at hcleared
  split at hcleared
  · exact absurd List.mem_cons_self hcleared
  next hphase =>
    rw [push_apply, if_neg hphase]
    exact h.preserves (enter_standing block inputs {})

/-- A call leaves a run engaged, since its own run is refused. -/
theorem call_engaged {resume : Action Outcome} (hresume : Refuses resume)
    {running : Machine → List Mark} (block : BlockId) (inputs : List Value) :
    StaysEngaged (callWith resume block inputs)
      (HostOp.course resume running (.call block inputs)) := by
  intro m h hcleared
  rw [HostOp.course, Mark.log_cons] at hcleared
  have hpushed := push_engaged h block inputs fun hmem => hcleared (List.mem_append_left _ hmem)
  rw [callWith, Failing.bind_apply]
  generalize push block inputs m = start at hpushed
  obtain ⟨e | _, m₁⟩ := start
  · exact hpushed
  · obtain ⟨e, he⟩ := hresume m₁ hpushed
    dsimp only
    rw [Failing.bind_apply, he]
    exact hpushed

end Machine

open Machine

/-- **A host leaves a run engaged**, unless it starts the stack over. -/
theorem HostOp.staysEngaged {resume : Action Outcome} (hresume : Refuses resume)
    {running : Machine → List Mark} {β : Type} (o : HostOp β) :
    StaysEngaged (o.perform resume) (o.course resume running) := by
  cases o with
  -- an engaged stack refuses to run: nothing happens
  | run =>
    intro m h _
    obtain ⟨e, he⟩ := hresume m h
    rw [perform, he]
    exact h
  | call block inputs => exact call_engaged hresume block inputs
  | push block inputs =>
    intro m h hcleared
    exact push_engaged h block inputs fun hmem => hcleared (List.mem_append_left _ hmem)
  | pop =>
    refine fun m h _ => h.preserves fun m => ?_
    show standing { m with stack := m.stack.popFrame.2 } = m.standing
    rw [Stack.popFrame]
    cases m.stack.frames <;> rfl
  | setState tree => exact fun m h _ => h.congr rfl rfl
  | loadState text =>
    intro m h _
    simp only [perform, Machine.loadState, Failing.bind_apply, Failing.get_apply]
    rcases ofJsonText m.world.registry text m.world.supply with _ | ⟨_, _⟩
    · exact h
    · exact h.congr rfl rfl
  | registerNative name f => exact fun m h _ => h.congr rfl rfl
  | patchNative name f => exact fun m h _ => h.congr rfl rfl
  -- these start the stack over and note that they do; the assumption excludes them
  | reset discardState =>
    intro m h hcleared
    cases discardState <;> exact absurd List.mem_cons_self hcleared
  | migrateTo block inputs => exact fun m h hcleared => absurd List.mem_cons_self hcleared
  | migrateToFunc func inputs =>
    intro m h hcleared
    rw [perform, Machine.migrateToFunc]
    cases hfunc : func.func? with
    | none => exact h
    | some closure =>
      change ¬.cleared ∈ (if func.func?.isSome then startedOver _ _ else []) ++ [] at hcleared
      rw [hfunc] at hcleared
      exact absurd List.mem_cons_self hcleared
  -- a migration starts over only where the root runs the old block
  | migrate old new =>
    intro m h hcleared
    have hcleared : .cleared ∉ HostOp.events m _ (.migrate old new) :=
      fun hmem => hcleared (List.mem_append_left _ hmem)
    rw [HostOp.events] at hcleared
    rw [perform, migrate_apply]
    cases hlast : m.stack.frames.getLast? with
    | none => exact h.congr rfl rfl
    | some root =>
      rw [hlast] at hcleared
      dsimp only at hcleared ⊢
      split at hcleared
      · exact absurd (List.mem_cons_of_mem _ List.mem_cons_self) hcleared
      next hroot =>
        rw [if_neg hroot]
        exact h.congr rfl rfl
  | look | resize | cancel | duplicate | setInput | setOutput | raise | setEnv | expect | consume
    | emit | takeRetained | frameList | setRandom | print | number | cast | addBlock | replaceBlock
    | compile | program | addRecord | addMethod | addModule =>
    exact (quiet_settles resume rfl).staysEngaged _

/-- **Scripts leave a run engaged**, unless they start the stack over. -/
theorem Script.staysEngaged {resume : Action Outcome} (hresume : Refuses resume)
    {running : Machine → List Mark} {α : Type} (script : Script α) :
    StaysEngaged (script.perform resume) (script.course resume running) := by
  induction script with
  | done r => cases r <;> exact fun m h _ => h
  | op o next ih =>
    intro m h hcleared
    rw [Script.course, Mark.log_append] at hcleared
    obtain ⟨hcleared₁, hcleared₂⟩ := not_or.1 (List.mem_append.not.1 hcleared)
    have hfirst := o.staysEngaged hresume m h hcleared₁
    rw [Script.perform, Failing.bind_apply, attempt]
    generalize o.perform resume m = r at hfirst hcleared₂
    obtain ⟨e | b, m'⟩ := r
    · cases e with
      | raised e => exact ih (.error e) m' hfirst hcleared₂
      | crashed => exact hfirst
      | outOfFuel => exact hfirst
    · exact ih (.ok b) m' hfirst hcleared₂

/-- **Natives leave a run engaged**, unless they start the stack over. -/
theorem Native.staysEngaged (host : Embedder) {resume : Action Outcome} (hresume : Refuses resume)
    {running : Machine → List Mark} (f : Native) :
    StaysEngaged (invoke host resume f) (f.course host resume running) := by
  cases f with
  | host g =>
    rw [show invoke host resume (.host g) = invokeHost resume g from rfl, invokeHost_eq]
    exact g.script.staysEngaged hresume
  | installed code => exact (host.script code).staysEngaged hresume
  | _ => exact (invoke_default_settles host resume (by nofun) (by nofun)).staysEngaged _

namespace Machine

variable {m m' : Machine}

/-! ### The loop -/

/-- The stack is running and there was no error. -/
def Healthy (m : Machine) : Prop :=
  m.stack.phase = .running ∧ m.stack.error = none

/-- A run stands well as long as it stands the same. -/
theorem Healthy.congr (h : m.Healthy) (hm : m'.standing = m.standing) : m'.Healthy :=
  ⟨(congrArg (·.2.1) hm).trans h.1, (congrArg (·.2.2) hm).trans h.2⟩

/-- A native that is called with success leaves no error. -/
theorem callNative_ok {host : Embedder} {resume : Action Outcome} {index : UInt16}
    (h : callNative host resume index m = (.ok (), m')) : m'.stack.error = none := by
  rw [callNative, Failing.bind_apply, Failing.get_apply] at h
  dsimp only at h
  cases hentry : m.world.natives.get? index with
  | none =>
    rw [hentry] at h
    cases congrArg Prod.fst h
  | some entry =>
    rw [hentry] at h
    dsimp only at h
    rw [Failing.bind_apply] at h
    generalize invoke host resume entry.2 m = r at h
    obtain ⟨e | _, n⟩ := r
    · cases congrArg Prod.fst h
    · simp only [getStack, Failing.bind_apply, Failing.get_apply, Failing.pure_apply] at h
      cases herror : n.stack.error with
      | none =>
        rw [herror] at h
        obtain rfl := congrArg Prod.snd h
        exact herror
      | some e =>
        rw [herror] at h
        cases congrArg Prod.fst h

/-- **The run goes on well** after an instruction that went well, unless it started the stack over. -/
theorem step_healthy {host : Embedder} {resume : Action Outcome} (hresume : Refuses resume)
    {running : Machine → List Mark} {program : Program} {next : Nat} {i : Instruction} {flow : Flow}
    (hm : m.Healthy) (hcleared : .cleared ∉ Mark.log (stepCourse host resume running program next i m))
    (h : step host resume program next i m = (.ok flow, m')) : m'.Healthy := by
  by_cases hi : ∃ index, i = .native index
  · obtain ⟨index, rfl⟩ := hi
    cases stepped h with
    | perform _ _ hcall =>
      have herror := callNative_ok hcall
      have hmachine : m' = _ := (congrArg Prod.snd hcall).symm.trans
        (callNative_machine host resume index m)
      rw [stepCourse_native] at hcleared
      rcases hentry : m.world.natives.get? index with _ | entry
      · rw [hentry] at hmachine
        exact hmachine ▸ hm
      · rw [hentry] at hmachine hcleared
        have hengaged := entry.2.staysEngaged host hresume m (.inl hm.1) hcleared
        rw [← show m' = (invoke host resume entry.2 m).2 from hmachine] at hengaged
        rcases hengaged with hphase | ⟨-, hne⟩
        · exact ⟨hphase, herror⟩
        · exact absurd herror hne
  · have hstanding : (step host resume program next i m).2.standing = m.standing :=
      step_standing (fun index h => hi ⟨index, h⟩) m
    rw [h] at hstanding
    exact hm.congr hstanding

/-- **A run stands well** where it ends well, unless a native started the stack over. -/
theorem execute_healthy {host : Embedder} {fuel : Nat} {program : Program} {outcome : Outcome}
    (hm : m.Healthy) (hcleared : .cleared ∉ Mark.log (executeCourse host fuel program m))
    (h : execute host fuel program m = (.ok outcome, m')) : m'.Healthy := by
  induction fuel generalizing program m with
  | zero => cases congrArg Prod.fst h
  | succ fuel ih =>
    rw [executeCourse] at hcleared
    cases hstop : m.stack.cancelled with
    | true =>
      rw [execute_cancelled host fuel program hstop] at h
      obtain rfl : m = m' := congrArg Prod.snd h
      exact hm
    | false =>
      cases hframes : m.stack.frames with
      | nil =>
        rw [execute_empty host fuel program hstop hframes] at h
        cases congrArg Prod.fst h
      | cons f rest =>
        rw [execute_succ host fuel program hstop hframes] at h
        rw [hstop, hframes] at hcleared
        dsimp only at hcleared
        cases hfetch : program.instructionAt f.pc.offset with
        | error e =>
          rw [hfetch] at h
          cases congrArg Prod.fst h
        | ok found =>
          obtain ⟨i, next⟩ := found
          rw [hfetch] at h hcleared
          dsimp only at h hcleared
          rw [Mark.log_append] at hcleared
          -- no clearing in the whole course means none in the step and none in what follows it
          obtain ⟨hcleared₁, hcleared₂⟩ := not_or.1 (List.mem_append.not.1 hcleared)
          have hadvanced : (m.advanced f rest next).Healthy := hm.congr rfl
          have hstep : ∀ flow m₂, step host (runWith (execute host fuel)) program next i
              (m.advanced f rest next) = (.ok flow, m₂) → m₂.Healthy :=
            fun _ _ => step_healthy (runWith_refuses (execute host fuel)) hadvanced hcleared₁
          generalize step host (runWith (execute host fuel)) program next i (m.advanced f rest next)
            = r at h hstep hcleared₂
          obtain ⟨fault | flow, m₂⟩ := r
          · cases congrArg Prod.fst h
          have hm₂ := hstep flow m₂ rfl
          cases flow with
          | next => exact ih hm₂ hcleared₂ h
          -- the lookup of the next program changes neither phase nor error
          | reload =>
            have hprogram := currentProgram_standing m₂
            dsimp only [continued] at h hcleared₂
            rw [Failing.bind_apply] at h
            generalize currentProgram m₂ = r at h hcleared₂ hprogram
            obtain ⟨e | program', m₃⟩ := r
            · cases congrArg Prod.fst h
            · exact ih (hm₂.congr hprogram) hcleared₂ h
          | pause =>
            have hplaced : m' = _ := (congrArg Prod.snd h).symm
            rw [hplaced]
            exact hm₂.congr (placed_standing m₂ _ _)
          | finish =>
            obtain rfl : m₂ = m' := congrArg Prod.snd h
            exact hm₂

/-- An instruction that goes well leaves no error. -/
theorem step_errorless {host : Embedder} {resume : Action Outcome} {program : Program} {next : Nat}
    {i : Instruction} {flow : Flow} (hm : m.stack.error = none)
    (h : step host resume program next i m = (.ok flow, m')) : m'.stack.error = none := by
  by_cases hi : ∃ index, i = .native index
  · obtain ⟨index, rfl⟩ := hi
    cases stepped h with
    | perform _ _ hcall => exact callNative_ok hcall
  · have hstanding : (step host resume program next i m).2.standing = m.standing :=
      step_standing (fun index h => hi ⟨index, h⟩) m
    rw [h] at hstanding
    exact (congrArg (·.2.2) hstanding).trans hm

/-- **The loop ends well only without error**: natives that left one end it badly, and nothing else notes
    errors. -/
theorem execute_errorless {host : Embedder} {fuel : Nat} {program : Program} {outcome : Outcome}
    (hm : m.stack.error = none) (h : execute host fuel program m = (.ok outcome, m')) :
    m'.stack.error = none := by
  have hstopped := execute_stopped (P := fun _ m => m.stack.error = none) (fun _ hm _ => hm)
    (fun hm hstep => step_errorless hm hstep) (fun {_ _ _ _ _ m₁ _ _} hm hstep hload => by
      have hprogram := currentProgram_standing m₁
      rw [hload] at hprogram
      exact (congrArg (·.2.2) hprogram).trans (step_errorless hm hstep)) hm h
  cases outcome with
  | cancelled =>
    obtain ⟨-, herror⟩ := hstopped
    exact herror
  | paused =>
    obtain ⟨-, m₁, top, node, herror, rfl⟩ := hstopped
    exact (congrArg (·.2.2) (placed_standing m₁ _ _)).trans herror
  | finished =>
    obtain ⟨program, m₁, herror, hleave⟩ := hstopped
    have hstanding := leave_standing program m₁
    rw [hleave] at hstanding
    exact (congrArg (·.2.2) hstanding).trans herror

/-- What a run executes goes well only without error. -/
theorem body_errorless {host : Embedder} {fuel : Nat} {outcome : Outcome} (hm : m.stack.error = none)
    (h : body (execute host fuel) m = (.ok outcome, m')) : m'.stack.error = none := by
  obtain ⟨_, m₁, hchecked, h⟩ := bind_ok h
  obtain ⟨program, m₂, hloaded, h⟩ := bind_ok h
  have hm₁ : m₁.standing = m.standing := by simpa only [hchecked] using restartIfStale_standing m
  have hm₂ : m₂.standing = m₁.standing := by simpa only [hloaded] using currentProgram_standing m₁
  exact execute_errorless ((congrArg (·.2.2) (hm₂.trans hm₁)).trans hm) h

/-! ### How runs end -/

/-- Noting how a run ended does not change how it ended. -/
theorem ended_fst (r : Except Fault Outcome × Machine) : (ended r).1 = r.1 := by
  obtain ⟨fault | outcome, n⟩ := r
  · cases fault with
    | raised e =>
      have hrecorded := (recordError_fails e n).1
      rw [ended, Failing.bind_apply]
      generalize recordError e n = r at hrecorded
      obtain ⟨e' | _, n'⟩ := r
      · cases hrecorded
      · rfl
    | crashed => rfl
    | outOfFuel => rfl
  · rfl

/-- A run that ends well is concluded where its execution ended. -/
theorem ended_ok {r : Except Fault Outcome × Machine} {outcome : Outcome}
    (h : ended r = (.ok outcome, m')) :
    ∃ n, r = (.ok outcome, n) ∧ m' = { n with stack := conclude outcome n.stack } := by
  have hfst : r.1 = .ok outcome := (ended_fst r).symm.trans (congrArg Prod.fst h)
  obtain ⟨_ | outcome', n⟩ := r
  · cases hfst
  · obtain rfl := Except.ok.inj hfst
    exact ⟨n, rfl, (congrArg Prod.snd h).symm⟩

end Machine

end BlockMachine

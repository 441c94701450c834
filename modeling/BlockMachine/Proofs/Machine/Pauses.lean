import BlockMachine.Proofs.Machine.Intact
import BlockMachine.Proofs.Machine.Lockstep
import BlockMachine.Proofs.State.Commit

namespace BlockMachine

/-!
# Going on after a pause

A run that pauses is gone on with by another run. Whoever runs the stack again and again gets to where
one execution gets in which pauses do nothing, unless a native starts the stack over in between.

* `Machine.RunsFrom` says where a run starts to execute;
* `Machine.Pauses` is about runs one after the other that pause;
* `Machine.Reached.pauses_transparent` is the law.
-/

namespace Machine

open Ledger

variable {ρ : Matching} {m m₁ m₂ n : Machine} {host : Embedder}

/-! ### The start of a run -/

/-- Whether a frame is up to date is found out by fetching its program. -/
theorem isCurrent_apply (f : Frame) (m : Machine) : ∃ current, isCurrent f m =
    (.ok current, { m with world := (World.program f.program m.world).2 }) ∧
      (current = true → ∃ p, (World.program f.program m.world).1 = .ok p ∧ p.version = f.version) := by
  simp only [isCurrent, tryWorld, Failing.bind_apply, Failing.get_apply]
  rcases World.program f.program m.world with ⟨e | p, w⟩
  · exact ⟨false, rfl, by simp⟩
  · exact ⟨decide (p.version = f.version), rfl, fun h => ⟨p, rfl, of_decide_eq_true h⟩⟩

/-- Finding out which frames are up to date loses no program, and the ones that are run what is
    filed. -/
theorem allCurrent_held (hfiled : m.world.Filed) (frames : List Frame) : ∃ current w,
    allCurrent frames m = (.ok current, { m with world := w }) ∧ m.world.Kept w ∧
      w.natives = m.world.natives ∧ (current = true → ∀ f ∈ frames, f.Held w) := by
  induction frames generalizing m with
  | nil => exact ⟨true, m.world, rfl, .refl hfiled, rfl, by simp⟩
  | cons f rest ih =>
    obtain ⟨current, hcurrent, hversion⟩ := isCurrent_apply f m
    obtain ⟨hkept, hslot⟩ := hfiled.program f.program
    have hnatives := (World.program_only f.program m.world).natives
    rw [allCurrent, Failing.bind_apply, hcurrent]
    cases current with
    | false => exact ⟨false, _, rfl, hkept, hnatives, by simp⟩
    | true =>
      obtain ⟨rest', w, hrest, hkept', hnatives', hheld⟩ :=
        ih (m := { m with world := (World.program f.program m.world).2 }) hkept.filed
      refine ⟨rest', w, hrest, hkept.trans hkept', hnatives'.trans hnatives, fun h => ?_⟩
      obtain ⟨p, hp, hpv⟩ := hversion rfl
      exact List.forall_mem_cons.2 ⟨⟨p, hkept'.retains _ p (hslot p hp), hpv⟩, hheld h⟩

/-- **A run starts with frames that are up to date**, or the root starts over with the program that is
    filed for its block. -/
theorem restartIfStale_held (hfiled : m.world.Filed) :
    (∃ n, restartIfStale m = (.ok (), n) ∧ n.world.Filed ∧ n.world.natives = m.world.natives ∧
      ∀ f ∈ n.stack.frames, f.Held n.world) ∨ ∃ e n, restartIfStale m = (.error (.raised e), n) := by
  obtain ⟨current, w, hcurrent, hkept, hsame, hheld⟩ :=
    allCurrent_held hfiled m.stack.frames.reverse
  rw [restartIfStale_apply, hcurrent]
  cases current with
  | true => exact .inl ⟨_, rfl, hkept.filed, hsame, fun f hf => hheld rfl f (List.mem_reverse.2 hf)⟩
  | false =>
    cases hframes : m.stack.frames with
    | nil =>
      -- no frame is out of date when there is none
      rw [hframes] at hcurrent
      exact nomatch congrArg Prod.fst hcurrent
    | cons f rest =>
      obtain ⟨root, hroot⟩ := drop_length_pred f rest
      have hunwound : (unwindToRoot m.stack).frames = [root] := by
        show m.stack.frames.drop (m.stack.depth - 1) = [root]
        rw [Stack.depth, hframes, hroot]
      dsimp only
      rw [restartRoot_apply (m := { m with world := w }) hunwound]
      obtain ⟨hkept', hslot⟩ := hkept.filed.program root.program
      have hnatives' := (World.program_only root.program w).natives
      generalize World.program root.program w = r at hkept' hslot hnatives'
      obtain ⟨e | p, w'⟩ := r
      · exact .inr ⟨_, _, rfl⟩
      · refine .inl ⟨_, rfl, hkept'.filed, hnatives'.trans hsame, ?_⟩
        exact List.forall_mem_singleton.2 ⟨p, hslot p rfl, rfl⟩

/-- **A run starts anchored** if its natives leave blocks alone. -/
theorem restartIfStale_anchored (hfiled : m.world.Filed)
    (hnatives : m.world.natives.Only Native.keepsBlocks) :
    (∃ n, restartIfStale m = (.ok (), n) ∧ n.Anchored) ∨
      ∃ e n, restartIfStale m = (.error (.raised e), n) := by
  refine (restartIfStale_held hfiled).imp_left ?_
  rintro ⟨n, hrestart, hn, hsame, hheld⟩
  exact ⟨n, hrestart, hn, hsame ▸ hnatives, hheld⟩

/-- A run executes a program from a machine in good order. -/
structure RunsFrom (m : Machine) (p : Program) (n : Machine) : Prop where
  ready : m.stack.phase = .ready
  frames : m.stack.frames ≠ []
  start : (restartIfStale >>= fun _ => currentProgram) m.started = (.ok p, n)
  anchored : n.Anchored
  executing : n.Executing p
  healthy : n.Healthy

/-- What a run executes begins with the check for new versions and the program of the active frame. -/
theorem body_apply (exec : Program → Action Outcome) (m : Machine) : body exec m =
    match (restartIfStale >>= fun _ => currentProgram) m with
    | (.ok p, n) => exec p n
    | (.error e, n) => (.error e, n) := by
  simp only [body, Failing.bind_apply]
  rcases restartIfStale m with ⟨_ | _, n⟩
  · rfl
  · dsimp only
    rcases currentProgram n with ⟨_ | _, n'⟩ <;> rfl

/-- Such a run executes from there, and notes how that ended. -/
theorem RunsFrom.runWith {p : Program} (h : RunsFrom m p n) (exec : Program → Action Outcome) :
    runWith exec m = ended (exec p n) := by
  rw [runWith_ready h.ready h.frames, body_apply, h.start]

/-- What happens in the execution happens in the run. -/
theorem RunsFrom.log {p : Program} (h : RunsFrom m p n) {host : Embedder} {fuel : Nat} {e : Event}
    (he : e ∈ Mark.log (executeCourse host fuel p n)) : e ∈ Mark.log (runByCourse host fuel m) := by
  rw [runByCourse, runCourse, if_pos ⟨h.ready, h.frames⟩, h.start, List.cons_append, Mark.log_cons,
    Mark.log_append]
  exact List.mem_append_right _ (List.mem_append_left _ he)

/-- **A run executes from a machine in good order, or ends in the same way** whatever it executes
    by. -/
theorem runsFrom_cases (hfiled : m.world.Filed) (hconcluded : m.stack.Concluded)
    (hblocks : m.world.natives.Only Native.keepsBlocks) :
    (∃ p n, RunsFrom m p n) ∨
      ∃ r : Except Fault Outcome × Machine, r.1 ≠ .ok .paused ∧ ∀ exec, runWith exec m = r := by
  -- a stack that is not ready, or has no frames, reports how its last run ended
  by_cases hready : m.stack.phase = .ready ∧ m.stack.frames ≠ []
  · obtain ⟨hphase, hframes⟩ := hready
    -- what fails before the loop fails whatever the loop would do, and does not pause
    have hfails : ∀ e n, (∀ exec, body exec m.started = (.error (.raised e), n)) →
        ∃ r : Except Fault Outcome × Machine, r.1 ≠ .ok .paused ∧ ∀ exec, runWith exec m = r := by
      intro e n hbody
      refine ⟨ended (.error (.raised e), n), ?_, fun exec => ?_⟩
      · rw [ended_fst]
        simp
      · rw [runWith_ready hphase hframes, hbody]
    have hhealthy : m.started.Healthy := by
      refine ⟨rfl, Classical.byContradiction fun herror => ?_⟩
      cases hphase.symm.trans (hconcluded.failed herror)
    have hrestarted := restartIfStale_standing m.started
    -- the check for restarts may fail, or leave no frames, or leave one to go on with
    rcases restartIfStale_anchored (m := m.started) hfiled hblocks with
      ⟨n, hn, hanchored⟩ | ⟨e, n, hn⟩
    · rw [hn] at hrestarted
      have hstart : (restartIfStale >>= fun _ => currentProgram) m.started = currentProgram n := by
        rw [Failing.bind_apply, hn]
      by_cases hnil : n.stack.frames = []
      · refine .inr (hfails (.violation .noActiveFrame) n fun exec => ?_)
        rw [body_apply, hstart, currentProgram, Failing.bind_apply, active_apply_nil hnil]
      · obtain ⟨p, hp⟩ := hanchored.exists_executing hnil
        exact .inl ⟨p, n, hphase, hframes, hstart.trans hp.currentProgram, hanchored, hp,
          hhealthy.congr hrestarted⟩
    · refine .inr (hfails e n fun exec => ?_)
      rw [body_apply, Failing.bind_apply, hn]
  · refine .inr ⟨(m.reported, m), ?_, fun exec => runWith_reported hready⟩
    -- a finished stack without error has not paused: no concluded stack says that it did
    rw [reported]
    cases hphase : m.stack.phase with
    | ready => simp
    | running => simp
    | finished =>
      cases herror : m.stack.error with
      | some e => simp
      | none =>
        have hlast := hconcluded.unpaused hphase herror
        intro h
        cases hnote : m.stack.lastOutcome with
        | none =>
          rw [hnote] at h
          cases h
        | some outcome =>
          rw [hnote] at h hlast
          exact hlast (congrArg some (Except.ok.inj h))

/-! ### How runs end -/

/-- Twins hold the same values in the same buffers. -/
theorem Twinned.same (h : Twinned ρ m₁ m₂) : ρ = .same := by
  obtain ⟨-, -, -⟩ := h
  rfl

/-- Two executions that end in the same way but for notes end their runs so. -/
theorem Twinned.ended (h : Twinned .same m₁ m₂) (x : Except Fault Outcome) :
    Twinned .same (ended (x, m₁)).2 (ended (x, m₂)).2 := by
  have hexecuted : Mirrored Strict Twinned Twinned .same Equally (x, m₁) (x, m₂) := by
    cases x with
    | ok outcome => exact .ok le_rfl h rfl
    | error fault => exact .error le_rfl h
  have hended := ended_twins (fun _ h => h) hexecuted
  generalize Machine.ended (x, m₁) = r₁ at hended
  generalize Machine.ended (x, m₂) = r₂ at hended
  cases hended with
  | ok _ hn _ => exact hn.same ▸ hn
  | error _ hn => exact hn.same ▸ hn
  | pass h => exact h.elim

/-- Two machines that differ in notes only are the same but for notes. -/
theorem Twinned.blurred (h : Twinned ρ m₁ m₂) : m₁.blurred = m₂.blurred := by
  obtain ⟨-, hblurred, -⟩ := h
  simp only [Machine.blurred, noted, hblurred]

/-- A machine that paused in the middle of a run and is run again differs in notes only. -/
theorem Twinned.resumed (h : Twinned .same m₁ m₂) (hm : m₁.Healthy) :
    Twinned .same m₁.resumed m₂ := by
  obtain ⟨hanchored, hblurred, -⟩ := h
  rename_i frames outcome
  have hsame : m₁.noted frames outcome = m₁.resumed.noted frames outcome := by
    have hphase := hm.1
    simp only [noted, Machine.resumed, Machine.started, conclude]
    rw [hphase]
  rw [hsame]
  exact .mk (hanchored.stack hanchored.held) hblurred (by rintro ⟨⟩)

/-- The machine that a pause leaves is run again from where it stopped. -/
theorem runsFrom_resumed {p : Program} (hanchored : n.Anchored) (hp : n.Executing p)
    (hhealthy : n.Healthy) :
    RunsFrom { n with stack := conclude .paused n.stack } p n.resumed where
  ready := rfl
  frames := by
    obtain ⟨f, rest, hframes, -⟩ := hp
    show n.stack.frames ≠ []
    rw [hframes]
    exact nofun
  start := by
    have hresumed : n.resumed.Anchored := hanchored.stack hanchored.held
    have hexecuting : n.resumed.Executing p := hp
    rw [Failing.bind_apply, show started _ = n.resumed from rfl, hresumed.restartIfStale]
    exact hexecuting.currentProgram
  anchored := hanchored.stack hanchored.held
  executing := hp
  healthy := ⟨rfl, hhealthy.2⟩

/-! ### Runs one after the other -/

/-- Runs of a stack one after the other that all pause. Each is marked with what happened in it. -/
inductive Pauses (host : Embedder) : Machine → List Mark → Machine → Prop where
  | nil {m : Machine} : Pauses host m [] m
  | again {m n k : Machine} {marks : List Mark} (fuel : Nat)
    (run : runBy host fuel m = (.ok .paused, n)) (rest : Pauses host n marks k) :
    Pauses host m (⟨Mark.log (runByCourse host fuel m), n⟩ :: marks) k

/-- The active frame runs one program. -/
theorem Executing.unique {p p' : Program} (h : n.Executing p) (h' : n.Executing p') : p = p' := by
  obtain ⟨f, rest, hframes, hslot, -⟩ := h
  obtain ⟨f', rest', hframes', hslot', -⟩ := h'
  obtain ⟨rfl, rfl⟩ := List.cons.inj (hframes.symm.trans hframes')
  exact Option.some.inj (hslot.symm.trans hslot')

/-- **A run that pauses is gone on with** by the next one where an execution past the pause goes on. -/
theorem RunsFrom.paused (hhost : host.Patient) {p : Program} (hm : RunsFrom m p n) {fuel : Nat}
    (hrun : runBy host fuel m = (.ok .paused, m₂))
    (hcleared : .cleared ∉ Mark.log (runByCourse host fuel m)) :
    m₂.stack.error = none ∧ ∃ p' n', RunsFrom m₂ p' n' ∧ ∀ spare k, Twinned .same n k →
      ∃ left k', spare ≤ left ∧ left < fuel + spare ∧ Twinned .same n' k' ∧
        executePast host (fuel + spare) p k = executePast host left p' k' := by
  rw [runBy, hm.runWith] at hrun
  obtain ⟨n₁, hexecuted, rfl⟩ := ended_ok hrun
  have hhealthy := execute_healthy hm.healthy (fun he => hcleared (hm.log he)) hexecuted
  -- both executions stop or go on at the same place, whatever is to spare
  have hpaused : ∀ spare k, Twinned .same n k → ∃ p' left k', spare ≤ left ∧ left < fuel + spare ∧
      n₁.Executing p' ∧ Twinned .same n₁ k' ∧
      executePast host (fuel + spare) p k = executePast host left p' k' := by
    intro spare k hk
    have hlock := execute_lockstep hhost spare fuel p hk hm.executing
    rw [hexecuted] at hlock
    generalize executePast host (fuel + spare) p k = r at hlock
    cases hlock with
    | same hne _ => exact absurd rfl hne
    | paused hle hlt executing twins => exact ⟨_, _, _, hle, hlt, executing, twins, rfl⟩
  obtain ⟨p', _, _, _, _, hp', htwins, _⟩ := hpaused 0 n hm.anchored.twinned
  refine ⟨hhealthy.2, p', n₁.resumed, runsFrom_resumed htwins.anchored hp' hhealthy,
    fun spare k hk => ?_⟩
  obtain ⟨p'', left, k', hle, hlt, hp'', htwins', hpast⟩ := hpaused spare k hk
  obtain rfl := hp'.unique hp''
  exact ⟨left, k', hle, hlt, htwins'.resumed hhealthy, hpast⟩

/-- A run that does not pause ends as an execution past pauses, whatever is to spare. -/
theorem RunsFrom.ends (hhost : host.Patient) {p : Program} (hm : RunsFrom m p n) {fuel : Nat}
    (hends : (runBy host fuel m).1 ≠ .error .outOfFuel)
    (hstops : (runBy host fuel m).1 ≠ .ok .paused) (spare : Nat) {k : Machine}
    (hk : Twinned .same n k) :
    (executePast host (fuel + spare) p k).1 = (runBy host fuel m).1 ∧
      Twinned .same (runBy host fuel m).2 (ended (executePast host (fuel + spare) p k)).2 := by
  rw [runBy, hm.runWith, ended_fst] at hends hstops ⊢
  have hlock := execute_lockstep hhost spare fuel p hk hm.executing
  generalize execute host fuel p n = r₁ at hlock hends hstops
  generalize executePast host (fuel + spare) p k = r₂ at hlock
  cases hlock with
  | short => exact absurd rfl hends
  | same _ htwins => exact ⟨rfl, htwins.ended _⟩
  | paused => exact absurd rfl hstops

/-- Runs one after the other end as one run past pauses, given enough fuel. -/
theorem Pauses.past (hhost : host.Patient) {marks : List Mark} (h : Pauses host m marks m₂)
    (hcleared : .cleared ∉ Mark.log marks) {p : Program} (hm : RunsFrom m p n) {fuel : Nat}
    (hends : (runBy host fuel m₂).1 ≠ .error .outOfFuel)
    (hstops : (runBy host fuel m₂).1 ≠ .ok .paused) :
    ∃ enough, ∀ fuel' k, enough ≤ fuel' → Twinned .same n k →
      (executePast host fuel' p k).1 = (runBy host fuel m₂).1 ∧
        Twinned .same (runBy host fuel m₂).2 (ended (executePast host fuel' p k)).2 := by
  induction h generalizing p n with
  | nil =>
    refine ⟨fuel, fun fuel' k hle hk => ?_⟩
    obtain ⟨spare, rfl⟩ := Nat.exists_eq_add_of_le hle
    exact hm.ends hhost hends hstops spare hk
  | again fuel₁ run rest ih =>
    rw [Mark.log_cons] at hcleared
    obtain ⟨hcleared₁, hcleared₂⟩ := not_or.1 (List.mem_append.not.1 hcleared)
    obtain ⟨-, p', n', hnext, hgoes⟩ := hm.paused hhost run hcleared₁
    obtain ⟨enough, hpast⟩ := ih hcleared₂ hnext hends hstops
    refine ⟨fuel₁ + enough, fun fuel' k hle hk => ?_⟩
    obtain ⟨more, rfl⟩ := Nat.exists_eq_add_of_le hle
    obtain ⟨left, k', hleft, -, hk', hsame⟩ := hgoes (enough + more) k hk
    rw [Nat.add_assoc, hsame]
    exact hpast left k' (by omega) hk'

/-- Where an execution past pauses ends, runs one after the other end, unless one of them starts the
    stack over. -/
theorem RunsFrom.exists_pauses (hhost : host.Patient) (fuel : Nat) {p : Program}
    (hm : RunsFrom m p n) {k : Machine} (hk : Twinned .same n k)
    (hends : (executePast host fuel p k).1 ≠ .error .outOfFuel) :
    ∃ marks m', Pauses host m marks m' ∧ (.cleared ∈ Mark.log marks ∨ ∃ fuel',
      (runBy host fuel' m').1 = (executePast host fuel p k).1 ∧
      (executePast host fuel p k).1 ≠ .ok .paused ∧
      Twinned .same (runBy host fuel' m').2 (ended (executePast host fuel p k)).2) := by
  induction fuel using Nat.strongRecOn generalizing m n p k with
  | ind fuel ih =>
    by_cases hpaused : (runBy host fuel m).1 = .ok .paused
    · have hrun : runBy host fuel m = (.ok .paused, (runBy host fuel m).2) := Prod.ext hpaused rfl
      by_cases hcleared : .cleared ∈ Mark.log (runByCourse host fuel m)
      · exact ⟨_, _, .again fuel hrun .nil, .inl (List.mem_append_left _ hcleared)⟩
      · obtain ⟨-, p', n', hnext, hgoes⟩ := hm.paused hhost hrun hcleared
        obtain ⟨left, k', -, hlt, hk', hsame⟩ := hgoes 0 k hk
        rw [Nat.add_zero] at hlt hsame
        rw [hsame] at hends ⊢
        obtain ⟨marks, m', hpauses, hdone⟩ := ih left hlt hnext hk' hends
        refine ⟨_, m', .again fuel hrun hpauses, hdone.imp_left fun h => ?_⟩
        exact List.mem_append_right _ h
    · have hfuel : (runBy host fuel m).1 ≠ .error .outOfFuel := by
        -- without fuel to spare, both executions run out of it together
        intro hshort
        rw [runBy, hm.runWith, ended_fst] at hshort
        have hlock := execute_lockstep hhost 0 fuel p hk hm.executing
        rw [Nat.add_zero] at hlock
        generalize execute host fuel p n = r₁ at hlock hshort
        generalize executePast host fuel p k = r₂ at hlock hends
        cases hlock with
        | short h => exact absurd h (Nat.lt_irrefl 0)
        | same _ _ => exact hends hshort
        | paused => cases hshort
      obtain ⟨hsame, htwins⟩ := hm.ends hhost hfuel hpaused 0 hk
      rw [Nat.add_zero] at hsame htwins
      exact ⟨[], m, .nil, .inr ⟨fuel, hsame.symm, hsame ▸ hpaused, htwins⟩⟩

/-! ### The law -/

/-- A run is a session of its own. -/
theorem Reached.run {worlds : World → Prop} {log : List Event} (h : Reached worlds log m)
    (host : Embedder) (fuel : Nat) :
    Reached worlds (log ++ Mark.log (runByCourse host fuel m)) (runBy host fuel m).2 := by
  have hafter := h.after host fuel (Script.only .run)
  have hmachine : ((Script.only .run).perform (runBy host fuel) m).2 = (runBy host fuel m).2 := by
    rw [perform_only, Failing.bind_apply]
    rw [HostOp.perform]
    rcases runBy host fuel m with ⟨_ | _, n⟩ <;> rfl
  have hcourse : (Script.only .run).course (runBy host fuel) (runByCourse host fuel) m =
      runByCourse host fuel m := by
    rw [Script.only, Script.course]
    refine (congrArg _ ?_).trans (List.append_nil _)
    rcases HostOp.perform (runBy host fuel) .run m with ⟨fault | _, n⟩
    · cases fault <;> rfl
    · rfl
  rw [hmachine, hcourse] at hafter
  exact hafter

/-- Pauses leave a stack ready, without an error and with the tree that it had. -/
theorem Pauses.undisturbed (hhost : host.Patient) (htame : host.Tame) {marks : List Mark}
    (h : Pauses host m marks m₂) (hcleared : .cleared ∉ Mark.log marks) {log : List Event}
    (hreached : Reached World.Filed log m) (hnatives : m.world.natives.Tame) {p : Program}
    (hm : RunsFrom m p n) : ∀ mark ∈ marks, mark.machine.stack.phase = .ready ∧
      mark.machine.stack.error = none ∧ mark.machine.stack.state = m.stack.state := by
  induction h generalizing log p n with
  | nil => exact fun _ h => nomatch h
  | @again m m₁ _ marks fuel run rest ih =>
    rw [Mark.log_cons] at hcleared
    obtain ⟨hcleared₁, hcleared₂⟩ := not_or.1 (List.mem_append.not.1 hcleared)
    obtain ⟨herror, p', n', hnext, -⟩ := hm.paused hhost run hcleared₁
    have hreached₁ := hreached.run host fuel
    have htame₁ := runBy_tame htame hreached.describes hnatives fuel
    have hstate := hreached.keepsState htame hnatives (by rw [run]; exact nofun) hcleared₁
    rw [run] at hreached₁ htame₁ hstate
    refine List.forall_mem_cons.2 ⟨⟨hnext.ready, herror, hstate⟩, fun mark hmark => ?_⟩
    obtain ⟨hphase, herror', hstate'⟩ := ih hcleared₂ hreached₁ htame₁ hnext mark hmark
    exact ⟨hphase, herror', hstate'.trans hstate⟩

/-- **Pauses are transparent.** With natives that neither replace blocks nor set the state nor look at
    notes, runs one after the other, until one does not pause, end as one run in which pauses do
    nothing, and leave the same machine but for notes; one way ends if the other does. In between the
    stack is ready, has no error, and its tree is the one that it had. All of this holds unless a
    native starts the stack over in a run that pauses. -/
theorem Reached.pauses_transparent {log : List Event} (h : Reached World.Filed log m)
    (hhost : host.Patient) (htame : host.Tame) (hblocks : m.world.natives.Only Native.keepsBlocks)
    (hnatives : m.world.natives.Tame) :
    (∀ marks n, Pauses host m marks n → .cleared ∉ Mark.log marks →
      (∀ mark ∈ marks, mark.machine.stack.phase = .ready ∧ mark.machine.stack.error = none ∧
        mark.machine.stack.state = m.stack.state) ∧
      ∀ fuel, (runBy host fuel n).1 ≠ .error .outOfFuel → (runBy host fuel n).1 ≠ .ok .paused →
        ∃ enough, ∀ fuel', enough ≤ fuel' → (runPast host fuel' m).1 = (runBy host fuel n).1 ∧
          (runPast host fuel' m).2.blurred = (runBy host fuel n).2.blurred) ∧
    ∀ fuel, (runPast host fuel m).1 ≠ .error .outOfFuel → ∃ marks n, Pauses host m marks n ∧
      (.cleared ∈ Mark.log marks ∨ ∃ fuel', (runBy host fuel' n).1 = (runPast host fuel m).1 ∧
        (runBy host fuel' n).1 ≠ .ok .paused ∧
        (runBy host fuel' n).2.blurred = (runPast host fuel m).2.blurred) := by
  obtain ⟨hfiled, hconcluded⟩ := h.intact
  rcases runsFrom_cases hfiled hconcluded hblocks with ⟨p, n, hfrom⟩ | ⟨r, hr, hruns⟩
  · have hpast : ∀ fuel, runPast host fuel m = ended (executePast host fuel p n) :=
      fun fuel => hfrom.runWith _
    refine ⟨fun marks m₂ hpauses hcleared => ⟨hpauses.undisturbed hhost htame hcleared h hnatives hfrom,
      fun fuel hends hstops => ?_⟩, fun fuel hends => ?_⟩
    · obtain ⟨enough, hsame⟩ := hpauses.past hhost hcleared hfrom hends hstops
      refine ⟨enough, fun fuel' hle => ?_⟩
      obtain ⟨hresult, htwins⟩ := hsame fuel' n hle hfrom.anchored.twinned
      rw [hpast, ended_fst]
      exact ⟨hresult, htwins.blurred.symm⟩
    · rw [hpast, ended_fst] at hends
      obtain ⟨marks, m', hpauses, hdone⟩ :=
        hfrom.exists_pauses hhost fuel hfrom.anchored.twinned hends
      refine ⟨marks, m', hpauses, hdone.imp_right fun ⟨fuel', hresult, hstops, htwins⟩ => ?_⟩
      rw [hpast, ended_fst]
      exact ⟨fuel', hresult, hresult ▸ hstops, htwins.blurred⟩
  · -- nothing is executed, so nothing pauses
    have hnone : ∀ marks n, Pauses host m marks n → marks = [] ∧ n = m := by
      intro marks n hpauses
      cases hpauses with
      | nil => exact ⟨rfl, rfl⟩
      | again fuel run => exact absurd ((congrArg Prod.fst (hruns _)).symm.trans
          (congrArg Prod.fst run)) hr
    refine ⟨fun marks n hpauses _ => ?_, fun fuel _ => ⟨[], m, .nil, .inr ⟨0, ?_⟩⟩⟩
    · obtain ⟨rfl, rfl⟩ := hnone marks n hpauses
      refine ⟨fun _ h => (nomatch h), fun fuel _ _ => ⟨0, fun fuel' _ => ?_⟩⟩
      rw [runPast, runBy, hruns, hruns]
      exact ⟨rfl, rfl⟩
    · rw [runPast, runBy, hruns, hruns]
      exact ⟨rfl, hr, rfl⟩

end Machine

/-! ### A pause inside a child -/

namespace Descent

open Machine

def signature : Signature where
  name := "descend"
  inputs := [⟨"n", .basic .int, false⟩]
  locals := 5

/-- Calls itself with one less, under its input as a key, until it gets zero. Then it saves that and
    pauses. -/
def body : List Directive :=
  [.load 1 (.int 0), .code (.emit (.binary .lessThan 2 1 0)), .code (.jump (.ifFalse 2) "ground"),
    .load 1 (.int 1), .code (.emit (.binary .subInt 3 0 1)), .callKeyed 0 3 1 4 0,
    .code (.emit .ret), .code (.bind "ground"), .saveState "n" 0, .code (.emit .pause),
    .code (.emit .ret)]

def machine : Machine :=
  ⟨(World.addBlock {} signature body).2, .new {}, ""⟩

def session : Script Unit :=
  .op (.push 0 [.int 1]) fun r => .done r

/-- The block is entered, and not yet run. -/
def pushed : Machine :=
  (session.perform (runBy .idle 20) machine).2

/-- The child paused. -/
def paused : Machine :=
  (runBy .idle 20 pushed).2

/-- A session comes by the machine with the block pushed. -/
theorem reached_pushed : ∃ log, Reached World.Filed log pushed :=
  ⟨_, (Reached.new (World.filed_new.addBlock signature body).filed {} "").after .idle 20 session⟩

/-- Entering a block registers no natives. -/
theorem pushed_natives : pushed.world.natives = ({} : World).natives := by
  have hpush : pushed = (enter 0 [.int 1] {} machine).2 := perform_push _ 0 [.int 1] rfl
  rw [hpush]
  exact congrArg (·.1) (enter_standing 0 [.int 1] {} machine)

/-- The first run pauses in the child, on top of its caller, and the next one finishes. Where the pause does
    nothing one run does the same, and whatever one run does, some runs one after the other do. -/
theorem pauses_transparent_descent : (∃ log, Reached World.Filed log pushed) ∧ Embedder.idle.Patient ∧
    Embedder.idle.Tame ∧ pushed.world.natives.Only Native.keepsBlocks ∧ pushed.world.natives.Tame ∧
    (∃ marks, Pauses .idle pushed marks paused ∧ .cleared ∉ Mark.log marks) ∧
    paused.stack.depth = 2 ∧ paused.stack.phase = .ready ∧ paused.stack.error = none ∧
    paused.stack.state = pushed.stack.state ∧ (runBy .idle 20 paused).1 = .ok .finished ∧
    (∃ enough, ∀ fuel, enough ≤ fuel → (runPast .idle fuel pushed).1 = .ok .finished ∧
      (runPast .idle fuel pushed).2.blurred = (runBy .idle 20 paused).2.blurred) ∧
    ∀ fuel, (runPast .idle fuel pushed).1 ≠ .error .outOfFuel → ∃ marks n, Pauses .idle pushed marks n ∧
      (.cleared ∈ Mark.log marks ∨ ∃ fuel', (runBy .idle fuel' n).1 = (runPast .idle fuel pushed).1 ∧
        (runBy .idle fuel' n).1 ≠ .ok .paused ∧
        (runBy .idle fuel' n).2.blurred = (runPast .idle fuel pushed).2.blurred) := by
  obtain ⟨log, hreached⟩ := reached_pushed
  have hblocks : pushed.world.natives.Only Native.keepsBlocks := by
    rw [pushed_natives]
    exact NativeTable.keepsBlocks_new
  have htame : pushed.world.natives.Tame := by
    rw [pushed_natives]
    exact NativeTable.tame_new
  obtain ⟨hpausing, hpast⟩ := hreached.pauses_transparent (Embedder.patient_idle .simple)
    (Embedder.tame_idle .simple) hblocks htame
  have hfirst : (runBy .idle 20 pushed).1 = .ok .paused := by decide +kernel
  have hsecond : (runBy .idle 20 paused).1 = .ok .finished := by decide +kernel
  have hdepth : paused.stack.depth = 2 := by decide +kernel
  have hroot : Event.spareRoot 1 (Mark.log (runByCourse .idle 20 pushed)) = true := by decide +kernel
  have hpauses : Pauses .idle pushed [⟨Mark.log (runByCourse .idle 20 pushed), paused⟩] paused :=
    .again 20 (Prod.ext hfirst rfl) .nil
  have hcleared : .cleared ∉ Mark.log [⟨Mark.log (runByCourse .idle 20 pushed), paused⟩] := by
    rw [Mark.log_cons, Mark.log_nil, List.append_nil]
    exact Event.cleared_notMem hroot
  obtain ⟨hmarks, hends⟩ := hpausing _ _ hpauses hcleared
  obtain ⟨hphase, herror, hstate⟩ := hmarks _ List.mem_cons_self
  have hone := hends 20 (by rw [hsecond]; nofun) (by rw [hsecond]; nofun)
  rw [hsecond] at hone
  exact ⟨⟨log, hreached⟩, Embedder.patient_idle .simple, Embedder.tame_idle .simple, hblocks, htame,
    ⟨_, hpauses, hcleared⟩, hdepth, hphase, herror, hstate, hsecond, hone, hpast⟩

end Descent

/-! ### A native that starts the stack over -/

namespace Handover

open Machine

/-- A block that pauses and then lets a native run the stack. -/
def next : Block :=
  ⟨0, 0, { name := "next" },
    [.code (.emit .pause), .native "run", .code (.emit .ret), .code (.emit .ret)]⟩

/-- A block that lets a native move the stack to the other block. -/
def main : Block :=
  ⟨1, 0, { name := "main", locals := 1 },
    [.code (.emit (.loadInt 0 0)), .native "migrate", .code (.emit .ret)]⟩

def nextProgram : Program :=
  Reopening.program next #[] [.pause, .native 1, .ret, .ret]

def mainProgram : Program :=
  Reopening.program main #[] [.loadInt 0 0, .native 0, .ret]

def world : World where
  blocks := #[next, main]
  programs :=
    { indices := ((∅ : Std.HashMap BlockId Nat).insert 0 0).insert 1 1
      slots := #[⟨0, some nextProgram⟩, ⟨1, some mainProgram⟩] }
  natives :=
    { entries := #[("migrate", .host .migrate), ("run", .host .run)]
      indices := ((∅ : Std.HashMap String UInt16).insert "migrate" 0).insert "run" 1 }

def mainFrame : Frame :=
  { block := 1, program := 1, version := 0, registers := #[.null] }

def nextFrame : Frame :=
  { block := 0, program := 0, version := 0, registers := #[] }

/-- The machine with one frame. -/
def machine (f : Frame) : Machine :=
  ⟨world, { Stack.new {} with frames := [f] }, ""⟩

/-- The machine after the pause. -/
def paused : Machine :=
  ⟨world, { Stack.new {} with
    frames := [{ nextFrame with pc := ⟨1, none⟩ }], lastOutcome := some .paused }, ""⟩

/-- The main block is entered. -/
theorem enter_main : enter 1 [] {} ⟨world, .new {}, ""⟩ = (.ok (), machine mainFrame) := by
  have hindex : world.programs.indices[(1 : BlockId)]? = some 1 := by
    rw [world, Std.HashMap.getElem?_insert_self]
  exact enter_filed (m := ⟨world, .new {}, ""⟩) (by decide) rfl hindex rfl rfl rfl {}

/-- The block that the main one migrates to is entered. -/
theorem enter_next : enter 0 [] {} ⟨world, .new {}, ""⟩ = (.ok (), machine nextFrame) := by
  have hindex : world.programs.indices[(0 : BlockId)]? = some 0 := by
    rw [world, Std.HashMap.getElem?_insert, if_neg (by decide), Std.HashMap.getElem?_insert_self]
  exact enter_filed (m := ⟨world, .new {}, ""⟩) (by decide) rfl hindex rfl rfl rfl {}

/-- The machine of the main block before the native is called, with its pc at an offset. -/
def before (offset : Nat) : Machine :=
  (machine mainFrame).started.withFrames
    [{ mainFrame with registers := #[.int 0], pc := ⟨offset, none⟩ }]

/-- The native drops the frame of the main block and enters the other one; the stack is ready, and
    the loop goes on with the new frame. -/
theorem step_migrate (host : Embedder) (resume : Action Outcome) :
    step host resume mainProgram 6 (.native 0) (before 6) = (.ok .reload, machine nextFrame) := by
  rw [step.eq_3 _ _ _ _ _ (by simp) (by simp), Failing.bind_apply, perform, callNative,
    Failing.bind_apply, Failing.get_apply]
  dsimp only
  rw [show NativeTable.get? _ 0 = some ("migrate", .host .migrate) from rfl]
  dsimp only
  rw [Failing.bind_apply, invoke, invokeHost, Failing.bind_apply,
    show blockInput (before 6) = (.ok 0, before 6) from rfl]
  dsimp only
  rw [migrateTo, changeMain, Failing.bind_apply,
    show modifyStack _ (before 6) = (.ok (), (⟨world, .new {}, ""⟩ : Machine)) from rfl]
  dsimp only
  rw [enter_next]
  rfl

/-- Its native migrates, and the loop goes on with the other block. -/
theorem execute_main (fuel : Nat) : execute .idle (fuel + 2) mainProgram (machine mainFrame).started =
    (currentProgram >>= execute .idle fuel) (machine nextFrame) := by
  have hframes : (machine mainFrame).started.stack.frames = mainFrame :: [] := rfl
  rw [execute_succ .idle (fuel + 1) mainProgram rfl hframes]
  show execute .idle (fuel + 1) mainProgram (before 3) = _
  rw [execute_succ .idle fuel mainProgram rfl rfl]
  show continued .idle fuel mainProgram 0 3 6 (step .idle _ mainProgram 6 (.native 0) (before 6)) = _
  rw [step_migrate]
  rfl

/-- The native migrates, and the loop in which pauses do nothing goes on with the other block. -/
theorem executePast_main (fuel : Nat) :
    executePast .idle (fuel + 2) mainProgram (machine mainFrame).started =
      (currentProgram >>= executePast .idle fuel) (machine nextFrame) := by
  have hframes : (machine mainFrame).started.stack.frames = mainFrame :: [] := rfl
  rw [executePast_succ .idle (fuel + 1) mainProgram rfl hframes]
  show executePast .idle (fuel + 1) mainProgram (before 3) = _
  rw [executePast_succ .idle fuel mainProgram rfl rfl]
  show continuedPast .idle fuel mainProgram 0 3 (step .idle _ mainProgram 6 (.native 0) (before 6)) = _
  rw [step_migrate]
  rfl

/-- A run of the machine executes the main block from its start. -/
theorem runWith_main (exec : Program → Action Outcome) : runWith exec (machine mainFrame) =
    ended (exec mainProgram (machine mainFrame).started) := by
  rw [runWith_ready rfl (List.cons_ne_nil _ _)]
  rfl

/-- The programs of the world are filed for their blocks. -/
theorem filed : world.Filed where
  indexed := by
    intro id i
    rw [world, Std.HashMap.getElem?_insert, Std.HashMap.getElem?_insert]
    constructor
    · intro h
      split at h
      next hid =>
        obtain rfl := Option.some.inj h
        exact ⟨_, rfl, eq_of_beq hid⟩
      next =>
        split at h
        next hid =>
          obtain rfl := Option.some.inj h
          exact ⟨_, rfl, eq_of_beq hid⟩
        next => exact nomatch Std.HashMap.getElem?_empty.symm.trans h
    · rintro ⟨slot, hslot, rfl⟩
      match i with
      | 0 | 1 =>
        obtain rfl := Option.some.inj hslot
        rfl
      | i + 2 => exact nomatch hslot
  current := by
    intro i slot p hslot hp
    match i with
    | 0 | 1 =>
      obtain rfl := Option.some.inj hslot
      obtain rfl := Option.some.inj hp
      exact ⟨_, rfl, rfl⟩
    | i + 2 => exact nomatch hslot

/-- A session comes by the machine with the main block pushed. -/
theorem reached_main : ∃ log, Reached World.Filed log (machine mainFrame) := by
  have hreached := Reached.after (.new filed {} "") .idle 0 (.op (.push 1 []) fun r => .done r)
  rw [perform_push _ _ _ rfl, enter_main] at hreached
  exact ⟨_, hreached⟩

/-- The stack pauses once. When it is run again, the native finds it running and fails; in one run in
    which pauses do nothing, the native finds it ready, and the run finishes. -/
theorem pauses_matter : (∃ log, Reached World.Filed log (machine mainFrame)) ∧
    Embedder.idle.Patient ∧ Embedder.idle.Tame ∧
    world.natives.Only Native.keepsBlocks ∧ world.natives.Tame ∧
    (∃ marks, Pauses .idle (machine mainFrame) marks paused) ∧
    (∀ fuel, (runBy .idle (fuel + 2) paused).1 = .error (.raised (.violation .alreadyRunning))) ∧
    ∀ fuel, (runPast .idle (fuel + 5) (machine mainFrame)).1 = .ok .finished := by
  have hnatives : ∀ entry ∈ world.natives.entries, entry.2.keepsBlocks = true := by decide
  have hnatives' : ∀ entry ∈ world.natives.entries, entry.2.isTame = true := by decide
  have hrun : runBy .idle 3 (machine mainFrame) = (.ok .paused, paused) := by
    rw [runBy, runWith_main, execute_main]
    rfl
  have hpast : ∀ fuel, (runPast .idle (fuel + 5) (machine mainFrame)).1 = .ok .finished := by
    intro fuel
    rw [runPast, runWith_main, executePast_main]
    rfl
  exact ⟨reached_main, Embedder.patient_idle .simple, Embedder.tame_idle .simple, hnatives, hnatives',
    ⟨_, .again 3 hrun .nil⟩, fun _ => rfl, hpast⟩

end Handover

end BlockMachine

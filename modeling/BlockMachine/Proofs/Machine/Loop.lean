import BlockMachine.Machine.Run
import BlockMachine.Proofs.Machine.Frames

namespace BlockMachine

/-!
# Runs, spelled out

What a run and its loop do to a machine, as equations between machines.

* `Machine.runWith_ready` and `Machine.runWith_reported` are the two kinds of runs, those that execute
  and those that only report;
* `Machine.push_apply` and `Machine.migrate_apply` are pushes and migrations;
* `Machine.execute_succ` is one round of the loop, `Machine.stepped` what a step in it did;
* `Machine.execute_stopped` carries an invariant to where the loop ends well.
-/

namespace Machine

variable {exec : Program → Action Outcome} {m : Machine}

/-! ### Runs -/

/-- A machine in the middle of a run. -/
def started (m : Machine) : Machine :=
  { m with stack := { m.stack with phase := .running } }

/-- What a run executes: the active frame's program, of a root that may have to start over. -/
def body (exec : Program → Action Outcome) : Action Outcome := do
  restartIfStale
  exec (← currentProgram)

/-- What a run leaves, given what its execution left. -/
def ended : Except Fault Outcome × Machine → Except Fault Outcome × Machine
  | (.ok outcome, m) => (.ok outcome, { m with stack := conclude outcome m.stack })
  | (.error (.raised e), m) => (recordError e >>= fun _ => raise e) m
  | (.error fault, m) => (.error fault, m)

/-- A stack that is ready is executed. -/
theorem runWith_ready (hphase : m.stack.phase = .ready) (hframes : m.stack.frames ≠ []) :
    runWith exec m = ended (body exec m.started) := by
  have hempty : m.stack.frames.isEmpty = false := by
    cases hm : m.stack.frames with
    | nil => exact absurd hm hframes
    | cons => rfl
  have hstart : ∀ f : Unit → Action Outcome,
      ((modifyStack fun s => { s with phase := .running }) >>= f) m = f () m.started :=
    fun _ => rfl
  rw [runWith, getStack, Failing.bind_apply]
  simp only [Failing.bind_apply, Failing.get_apply, Failing.pure_apply, hphase, hempty]
  show ((modifyStack fun s => { s with phase := .running }) >>= _) m = _
  rw [hstart, Failing.bind_apply, attempt, ← body]
  rcases body exec m.started with ⟨fault | outcome, m'⟩
  · cases fault <;> rfl
  · rfl

/-- What a run that does not execute anything reports. -/
def reported (m : Machine) : Except Fault Outcome :=
  match m.stack.phase with
  | .finished =>
    match m.stack.error with
    | some e => .error (.raised e.error)
    | none => .ok (m.stack.lastOutcome.getD .finished)
  | .running => .error (.raised (.violation .alreadyRunning))
  | .ready => .error (.raised (.violation .noFrame))

/-- Any other stack only reports. -/
theorem runWith_reported (h : ¬(m.stack.phase = .ready ∧ m.stack.frames ≠ [])) :
    runWith exec m = (m.reported, m) := by
  rw [runWith, getStack, Failing.bind_apply, reported]
  simp only [Failing.bind_apply, Failing.get_apply, Failing.pure_apply]
  cases hphase : m.stack.phase with
  | finished => cases m.stack.error <;> rfl
  | running => rfl
  | ready =>
    have hempty : m.stack.frames.isEmpty = true :=
      List.isEmpty_iff.2 (Decidable.byContradiction fun hframes => h ⟨hphase, hframes⟩)
    simp only [hempty]
    rfl

/-- Any other stack is left as it is. -/
theorem runWith_idle (h : ¬(m.stack.phase = .ready ∧ m.stack.frames ≠ [])) :
    (runWith exec m).2 = m :=
  congrArg Prod.snd (runWith_reported h)

/-! ### Pushes and migrations -/

/-- A push enters the block, after a finished stack started over. -/
theorem push_apply (block : BlockId) (inputs : List Value) (m : Machine) :
    push block inputs m = enter block inputs {}
      (if m.stack.phase = .finished then { m with stack := m.stack.startOver } else m) := by
  rw [push, getStack, Failing.bind_apply]
  simp only [Failing.bind_apply, Failing.get_apply, Failing.pure_apply]
  split <;> rfl

theorem push_of_ready {block : BlockId} {inputs : List Value} (hphase : m.stack.phase = .ready) :
    push block inputs m = enter block inputs {} m := by
  rw [push_apply, if_neg (by rw [hphase]; nofun)]

/-- The machine with closures over a block rebound to another in the state tree. -/
def rebound (m : Machine) (old new : BlockId) : Machine :=
  let r := m.stack.state.rebind old new m.world.supply
  { m.withSupply r.2 with stack := { m.stack with state := r.1 } }

/-- A migration rebinds the state tree, and changes the main block if it is the old one. -/
theorem migrate_apply (old new : BlockId) (m : Machine) : migrate old new m =
    (match m.stack.frames.getLast? with
      | some root =>
        if root.block = old then
          changeMain new (root.registers.toList.take root.inputCount) root.bindings
        else pure ()
      | none => pure () : Action Unit) (m.rebound old new) :=
  rfl

/-! ### The loop -/

/-- The machine whose innermost frame has gone on to an offset. -/
def advanced (m : Machine) (f : Frame) (rest : List Frame) (next : Nat) : Machine :=
  m.withFrames ({ f with pc := { f.pc with offset := next } } :: rest)

/-- The machine with another pc in the frame at a position. -/
def placed (m : Machine) (top : Nat) (pc : Frame → Pc) : Machine :=
  { m with stack := m.stack.modifyFrameAt top fun f => { f with pc := pc f } }

/-- How the loop goes on after an instruction of the frame at position `top`. -/
def continued (host : Embedder) (fuel : Nat) (program : Program) (top pc next : Nat) :
    Except Fault Flow × Machine → Except Fault Outcome × Machine
  | (.ok .next, m) => execute host fuel program m
  | (.ok .reload, m) => (currentProgram >>= execute host fuel) m
  | (.ok .pause, m) => (.ok .paused, m.placed top fun f => { f.pc with node := program.nodeAt next })
  | (.ok .finish, m) => (.ok .finished, m)
  | (.error fault, m) => (.error fault, m.placed top fun _ => ⟨pc, program.nodeAt pc⟩)

/-- One round of the loop. -/
theorem execute_succ (host : Embedder) (fuel : Nat) (program : Program) {f : Frame}
    {rest : List Frame} (hcancelled : m.stack.cancelled = false) (hframes : m.stack.frames = f :: rest) :
    execute host (fuel + 1) program m =
      match program.instructionAt f.pc.offset with
      | .ok (i, next) =>
        continued host fuel program rest.length f.pc.offset next
          (step host (runWith (execute host fuel)) program next i (m.advanced f rest next))
      | .error e => (.error (.raised (.compile (.malformed e))), m) := by
  have hdepth : m.stack.depth - 1 = rest.length := by rw [Stack.depth, hframes]; rfl
  have hadvance : ∀ next, setActive { f with pc := ⟨next, f.pc.node⟩ } m =
      (.ok (), m.advanced f rest next) := fun _ => setActive_apply hframes _
  rw [execute, getStack, Failing.bind_apply]
  simp only [Failing.bind_apply, Failing.get_apply, Failing.pure_apply, hcancelled, hframes, fetch]
  cases program.instructionAt f.pc.offset with
  | error e => rfl
  | ok found =>
    obtain ⟨i, next⟩ := found
    rw [if_neg Bool.false_ne_true, Failing.bind_apply]
    dsimp only [Failing.pure_apply]
    rw [Failing.bind_apply, hadvance]
    dsimp only
    rw [Failing.bind_apply, attempt, hdepth]
    rcases step host (runWith (execute host fuel)) program next i (m.advanced f rest next) with
      ⟨fault | flow, m'⟩
    · rfl
    · cases flow <;> rfl

/-- A stack that was asked to stop stops. -/
theorem execute_cancelled (host : Embedder) (fuel : Nat) (program : Program)
    (h : m.stack.cancelled = true) : execute host (fuel + 1) program m = (.ok .cancelled, m) := by
  rw [execute, getStack, Failing.bind_apply]
  simp only [Failing.bind_apply, Failing.get_apply, Failing.pure_apply, h]
  rfl

/-- Without frames there is nothing to execute. -/
theorem execute_empty (host : Embedder) (fuel : Nat) (program : Program)
    (hcancelled : m.stack.cancelled = false) (hframes : m.stack.frames = []) :
    execute host (fuel + 1) program m = (.error (.raised (.violation .framesEmptied)), m) := by
  rw [execute, getStack, Failing.bind_apply]
  simp only [Failing.bind_apply, Failing.get_apply, Failing.pure_apply, hcancelled, hframes]
  rfl

/-! ### Steps -/

/-- A computation that succeeds does so part by part. -/
theorem bind_ok {α β : Type} {m' : Machine} {a : Action α} {f : α → Action β} {y : β}
    (h : (a >>= f) m = (.ok y, m')) :
    ∃ x n, a m = (.ok x, n) ∧ f x n = (.ok y, m') := by
  rw [Failing.bind_apply] at h
  rcases hr : a m with ⟨e | x, n⟩ <;> rw [hr] at h
  · exact nomatch congrArg Prod.fst h
  · exact ⟨x, n, rfl, h⟩

/-- What a step that went well did. -/
inductive Stepped (host : Embedder) (resume : Action Outcome) (program : Program) (next : Nat)
    (m m' : Machine) : Instruction → Flow → Prop where
  | pause (h : m' = m) : Stepped host resume program next m m' .pause .pause
  | finish (h : leave program m = (.ok true, m')) :
    Stepped host resume program next m m' .ret .finish
  | back (h : leave program m = (.ok false, m')) :
    Stepped host resume program next m m' .ret .reload
  | perform {i : Instruction} (hpause : i ≠ .pause) (hret : i ≠ .ret)
    (h : perform host resume program next i m = (.ok (), m')) :
    Stepped host resume program next m m' i (if i.leavesFrame then .reload else .next)

theorem stepped {host : Embedder} {resume : Action Outcome} {program : Program} {next : Nat}
    {i : Instruction} {flow : Flow} {m' : Machine}
    (h : step host resume program next i m = (.ok flow, m')) :
    Stepped host resume program next m m' i flow := by
  by_cases hpause : i = .pause
  · subst hpause
    obtain ⟨hflow, hm⟩ := Prod.mk.inj h
    obtain rfl := Except.ok.inj hflow
    exact .pause hm.symm
  by_cases hret : i = .ret
  · subst hret
    rw [step, Failing.bind_apply] at h
    rcases hr : leave program m with ⟨_ | last, n⟩ <;> rw [hr] at h <;>
      obtain ⟨hflow, rfl⟩ := Prod.mk.inj h
    · exact nomatch hflow
    · obtain rfl := Except.ok.inj hflow
      cases last with
      | true => exact .finish hr
      | false => exact .back hr
  rw [step.eq_3 _ _ _ _ _ hpause hret, Failing.bind_apply] at h
  rcases hr : perform host resume program next i m with ⟨_ | _, n⟩ <;> rw [hr] at h <;>
    obtain ⟨hflow, rfl⟩ := Prod.mk.inj h
  · exact nomatch hflow
  · obtain rfl := Except.ok.inj hflow
    exact .perform hpause hret hr

/-- A step that pauses does nothing else. -/
theorem Stepped.paused {host : Embedder} {resume : Action Outcome} {program : Program} {next : Nat}
    {i : Instruction} {m' : Machine} (h : Stepped host resume program next m m' i .pause) :
    m' = m := by
  generalize hflow : Flow.pause = flow at h
  cases h with
  | pause h => exact h
  | finish => exact nomatch hflow
  | back => exact nomatch hflow
  | @perform i => cases hi : i.leavesFrame <;> rw [hi] at hflow <;> exact nomatch hflow

/-- Only a return of the root finishes. -/
theorem Stepped.finished {host : Embedder} {resume : Action Outcome} {program : Program} {next : Nat}
    {i : Instruction} {m' : Machine} (h : Stepped host resume program next m m' i .finish) :
    leave program m = (.ok true, m') := by
  generalize hflow : Flow.finish = flow at h
  cases h with
  | pause => exact nomatch hflow
  | finish h => exact h
  | back => exact nomatch hflow
  | @perform i => cases hi : i.leavesFrame <;> rw [hi] at hflow <;> exact nomatch hflow

/-! ### Loops that end well -/

/-- What an invariant of the loop, of the program it holds and its machine, says where the loop ended. -/
def Stopped (P : Program → Machine → Prop) (m : Machine) : Outcome → Prop
  | .cancelled => ∃ program, P program m
  | .paused => ∃ program m₁ top node, P program m₁ ∧ m = m₁.placed top fun f => { f.pc with node := node }
  | .finished => ∃ program m₁, P program m₁ ∧ leave program m₁ = (.ok true, m)

/-- **An invariant of the loop holds where the loop ends well**, if instructions that go well keep it. -/
theorem execute_stopped {host : Embedder} {P : Program → Machine → Prop}
    (hadvanced : ∀ {program m f rest} (next : Nat), P program m → m.stack.frames = f :: rest →
      P program (m.advanced f rest next))
    (hnext : ∀ {resume program next i m m'}, P program m →
      step host resume program next i m = (.ok .next, m') → P program m')
    (hreload : ∀ {resume program next i m m₁ program' m'}, P program m →
      step host resume program next i m = (.ok .reload, m₁) → currentProgram m₁ = (.ok program', m') →
      P program' m')
    {fuel : Nat} {program : Program} {outcome : Outcome} {m' : Machine} (hm : P program m)
    (h : execute host fuel program m = (.ok outcome, m')) : Stopped P m' outcome := by
  induction fuel generalizing program m with
  | zero => exact nomatch congrArg Prod.fst h
  | succ fuel ih =>
    cases hstop : m.stack.cancelled with
    | true =>
      rw [execute_cancelled host fuel program hstop] at h
      obtain ⟨houtcome, rfl⟩ := Prod.mk.inj h
      obtain rfl := Except.ok.inj houtcome
      exact ⟨program, hm⟩
    | false =>
      cases hframes : m.stack.frames with
      | nil =>
        rw [execute_empty host fuel program hstop hframes] at h
        exact nomatch congrArg Prod.fst h
      | cons f rest =>
        rw [execute_succ host fuel program hstop hframes] at h
        cases hfetch : program.instructionAt f.pc.offset with
        | error e =>
          rw [hfetch] at h
          exact nomatch congrArg Prod.fst h
        | ok found =>
          obtain ⟨i, next⟩ := found
          rw [hfetch] at h
          dsimp only at h
          -- of the four ways a step ends well, two go on by induction and two end the loop
          have hm₁ := hadvanced next hm hframes
          rcases hstep : step host (runWith (execute host fuel)) program next i (m.advanced f rest next)
            with ⟨fault | flow, m₂⟩ <;> rw [hstep] at h
          · exact nomatch congrArg Prod.fst h
          cases flow with
          | next => exact ih (hnext hm₁ hstep) h
          | reload =>
            rw [continued, Failing.bind_apply] at h
            rcases hload : currentProgram m₂ with ⟨e | program', m₃⟩ <;> rw [hload] at h
            · exact nomatch congrArg Prod.fst h
            · exact ih (hreload hm₁ hstep hload) h
          | pause =>
            obtain ⟨houtcome, rfl⟩ := Prod.mk.inj h
            obtain rfl := Except.ok.inj houtcome
            obtain rfl := (stepped hstep).paused
            exact ⟨program, _, _, _, hm₁, rfl⟩
          | finish =>
            obtain ⟨houtcome, rfl⟩ := Prod.mk.inj h
            obtain rfl := Except.ok.inj houtcome
            exact ⟨program, _, hm₁, (stepped hstep).finished⟩

end Machine

end BlockMachine

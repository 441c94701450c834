import BlockMachine.Proofs.Machine.Patience

namespace BlockMachine

/-!
# Executions past their pauses

An execution that does not stop at pauses goes in step with one that does, up to the first pause.

* `Machine.executePast` is such an execution, `Machine.runPast` a run that executes this way;
* `Machine.runWith_twins` and `Machine.execute_twins` say that runs do not see notes, nor how much fuel
  there is if it is enough;
* `Machine.execute_lockstep` compares the two executions.
-/

namespace Machine

variable {lax : Fault → Prop} {ρ : Matching} {m m₁ m₂ n : Machine} {host : Embedder}

/-! ### Executions past their pauses -/

/-- Executes a program as `Machine.execute` does, but a pause does nothing. Runs that natives start on
    their own stop at their pauses. -/
def executePast (host : Embedder) : Nat → Program → Action Outcome
  | 0, _ => throw .outOfFuel
  | fuel + 1, program => do
    let s ← getStack
    if s.cancelled then return .cancelled
    match s.frames with
    | [] => violate .framesEmptied
    | f :: _ =>
      let top := s.depth - 1
      let pc := f.pc.offset
      let (i, next) ← fetch program pc
      setActive { f with pc := { f.pc with offset := next } }
      match ← attempt (step host (runWith (execute host fuel)) program next i) with
      | .ok .next | .ok .pause => executePast host fuel program
      | .ok .reload => executePast host fuel (← currentProgram)
      | .ok .finish => return .finished
      | .error fault =>
        modifyStack (·.modifyFrameAt top fun f => { f with pc := ⟨pc, program.nodeAt pc⟩ })
        throw fault

/-- Runs a stack past its pauses. -/
def runPast (host : Embedder) (fuel : Nat) : Action Outcome :=
  runWith (executePast host fuel)

/-- How the loop goes on past a pause. -/
def continuedPast (host : Embedder) (fuel : Nat) (program : Program) (top pc : Nat) :
    Except Fault Flow × Machine → Except Fault Outcome × Machine
  | (.ok .next, m) | (.ok .pause, m) => executePast host fuel program m
  | (.ok .reload, m) => (currentProgram >>= executePast host fuel) m
  | (.ok .finish, m) => (.ok .finished, m)
  | (.error fault, m) => (.error fault, m.placed top fun _ => ⟨pc, program.nodeAt pc⟩)

section

variable (host) (fuel : Nat) (program : Program)

/-- One round past a pause. -/
theorem executePast_succ {f : Frame} {rest : List Frame} (hcancelled : m.stack.cancelled = false)
    (hframes : m.stack.frames = f :: rest) :
    executePast host (fuel + 1) program m =
      match program.instructionAt f.pc.offset with
      | .ok (i, next) =>
        continuedPast host fuel program rest.length f.pc.offset
          (step host (runWith (execute host fuel)) program next i (m.advanced f rest next))
      | .error e => (.error (.raised (.compile (.malformed e))), m) := by
  have hdepth : m.stack.depth - 1 = rest.length := by rw [Stack.depth, hframes]; rfl
  have hadvance : ∀ next, setActive { f with pc := ⟨next, f.pc.node⟩ } m =
      (.ok (), m.advanced f rest next) := fun _ => setActive_apply hframes _
  rw [executePast, getStack, Failing.bind_apply]
  simp only [Failing.bind_apply, Failing.get_apply, Failing.pure_apply, hcancelled, hframes, fetch]
  cases program.instructionAt f.pc.offset with
  | error e => rfl
  | ok found =>
    obtain ⟨i, next⟩ := found
    rw [if_neg Bool.false_ne_true, Failing.bind_apply]
    dsimp only [Failing.pure_apply]
    rw [Failing.bind_apply, hadvance]
    dsimp only
    rw [Failing.bind_apply, attempt, hdepth]
    rcases step host (runWith (execute host fuel)) program next i (m.advanced f rest next) with
      ⟨fault | flow, m'⟩
    · rfl
    · cases flow <;> rfl

/-- An execution that was asked to stop does nothing. -/
theorem executePast_cancelled (h : m.stack.cancelled = true) :
    executePast host (fuel + 1) program m = (.ok .cancelled, m) := by
  rw [executePast, getStack, Failing.bind_apply]
  simp only [Failing.bind_apply, Failing.get_apply, Failing.pure_apply, h]
  rfl

end

/-! ### Runs that do not see notes -/

/-- Running out of fuel is let pass where the other side has some to spare. -/
def Spare (spare : Nat) : Fault → Prop :=
  fun e => e = .outOfFuel ∧ 0 < spare

/-- Errors of the program are not let pass. -/
theorem not_spare_raised (spare : Nat) (e : RuntimeError) : ¬Spare spare (.raised e) :=
  fun h => nomatch h.1

/-- Machines that differ in notes only are anchored together. -/
theorem Twinned.anchored_right (h : Twinned ρ m₁ m₂) : m₂.Anchored := by
  obtain ⟨hanchored, hblurred, -⟩ := h
  refine ⟨hanchored.filed, hanchored.natives, fun f hf => ?_⟩
  obtain ⟨g, hg, hgf⟩ := List.mem_map.1 (hblurred ▸ List.mem_map_of_mem hf)
  obtain ⟨node, rfl⟩ := Frame.exists_noting hgf
  exact hanchored.held g hg

/-- Twins run the same program. -/
theorem Twinned.executing (h : Twinned ρ m₁ m₂) {p : Program} (hp : m₁.Executing p) :
    m₂.Executing p := by
  obtain ⟨f, rest, hframes, hslot, hversion⟩ := hp
  rcases h.frames_cases with ⟨h₁, -⟩ | ⟨f₁, rest₁, f₂, rest₂, h₁, h₂, hf, -⟩
  · rw [hframes] at h₁
    exact nomatch h₁
  · obtain ⟨rfl, rfl⟩ := List.cons.inj (hframes.symm.trans h₁)
    obtain ⟨node, rfl⟩ := Frame.exists_noting hf
    refine ⟨_, rest₂, h₂, ?_, hversion⟩
    rw [h.world]
    exact hslot

/-- Twins both have frames, or none has. -/
theorem Twinned.frames_ne_nil (h : Twinned ρ m₁ m₂) :
    m₁.stack.frames ≠ [] ↔ m₂.stack.frames ≠ [] := by
  rcases h.frames_cases with ⟨h₁, h₂⟩ | ⟨f₁, rest₁, f₂, rest₂, h₁, h₂, -, -⟩
  · rw [h₁, h₂]
  · simp [h₁, h₂]

/-- What an anchored machine executes when it is run. -/
theorem body_of_executing {exec : Program → Action Outcome} {p : Program} (hanchored : m.Anchored)
    (hp : m.Executing p) : body exec m = exec p m := by
  rw [body, Failing.bind_apply, hanchored.restartIfStale]
  dsimp only
  rw [Failing.bind_apply, hp.currentProgram]

/-- What twins note at the end of a run are notes. -/
theorem ended_twins {r₁ r₂ : Except Fault Outcome × Machine} (hlax : ∀ e, ¬lax (.raised e))
    (h : Mirrored lax Twinned Twinned ρ Equally r₁ r₂) :
    Mirrored lax Twinned Twinned ρ Equally (ended r₁) (ended r₂) := by
  cases h with
  | @ok ρ' x y n₁ n₂ hle hn hxy =>
    obtain rfl := hxy
    obtain ⟨hanchored, hblurred, -⟩ := hn
    exact .ok hle (.mk (m := { n₁ with stack := conclude x n₁.stack })
      (hanchored.stack hanchored.held) hblurred fun _ _ => rfl) rfl
  | @error ρ' e n₁ n₂ hle hn =>
    cases e with
    | raised e =>
      exact (Mirrors.bind (recordError_twins e) (fun _ _ _ _ _ => .raise e) n₁ n₂ hn).weaken hle
    | crashed => exact .error hle hn
    | outOfFuel => exact .error hle hn
  | @pass e n₁ r h =>
    cases e with
    | raised e => exact absurd h (hlax e)
    | crashed => exact .pass h
    | outOfFuel => exact .pass h

/-- Twins start their runs as twins. -/
theorem Twinned.started (h : Twinned ρ m₁ m₂) : Twinned ρ m₁.started m₂.started := by
  obtain ⟨hanchored, hblurred, -⟩ := h
  exact .mk (m := m₁.started) (hanchored.stack hanchored.held) hblurred nofun

/-- Twins that cannot run report the same. -/
theorem Twinned.reported (h : Twinned ρ m₁ m₂) : m₁.reported = m₂.reported := by
  obtain ⟨-, -, hended⟩ := h
  simp only [Machine.reported, noted]
  cases hphase : m₁.stack.phase with
  | finished =>
    cases herror : m₁.stack.error with
    | some e => rfl
    | none => simp only [hended hphase herror]
  | running => rfl
  | ready => rfl

/-- **Runs do not see notes**, as far as executions do not. -/
theorem runWith_twins {exec₁ exec₂ : Program → Action Outcome} (hlax : ∀ e, ¬lax (.raised e))
    (hexec : ∀ ρ p, Mirrors lax Twinned ρ (exec₁ p) (exec₂ p) Equally) :
    Mirrors lax Twinned ρ (runWith exec₁) (runWith exec₂) Equally := by
  intro m₁ m₂ hm
  by_cases hready : m₁.stack.phase = .ready ∧ m₁.stack.frames ≠ []
  · obtain ⟨hphase, hframes⟩ := hready
    rw [runWith_ready hphase hframes,
      runWith_ready (hm.phase.trans hphase) (hm.frames_ne_nil.1 hframes)]
    have hstarted := hm.started
    obtain ⟨p, hp⟩ := hstarted.anchored.exists_executing hframes
    rw [body_of_executing hstarted.anchored hp,
      body_of_executing hstarted.anchored_right (hstarted.executing hp)]
    exact ended_twins hlax (hexec ρ p _ _ hstarted)
  · have hready₂ : ¬(m₂.stack.phase = .ready ∧ m₂.stack.frames ≠ []) := by
      rwa [hm.phase, ← hm.frames_ne_nil]
    rw [runWith_reported hready, runWith_reported hready₂, ← hm.reported]
    cases m₁.reported with
    | ok outcome => exact .ok le_rfl hm rfl
    | error e => exact .error le_rfl hm

/-- Twins fetch the same program to go on with. -/
theorem currentProgram_twins :
    Mirrors lax Twinned ρ currentProgram currentProgram Equally := by
  refine active_bind_twins fun n₁ n₂ f rest₁ node rest₂ hn _ _ => ?_
  refine program_bind_twins (fun ρ' p k₁ k₂ hk _ => ?_) n₁ n₂ hn
  have hversion : (f.noting node).version = f.version := rfl
  rw [hversion]
  split
  · exact .ok le_rfl hk rfl
  · exact .error le_rfl hk

/-- The active frame goes on to the same offset. -/
theorem Twinned.advanced (h : Twinned ρ m₁ m₂) {f : Frame} {node : Option UInt32}
    {rest₁ rest₂ : List Frame} (h₁ : m₁.stack.frames = f :: rest₁)
    (h₂ : m₂.stack.frames = f.noting node :: rest₂) (next : Nat) :
    Twinned ρ (m₁.advanced f rest₁ next) (m₂.advanced (f.noting node) rest₂ next) :=
  h.setFrame h₁ h₂ rfl rfl rfl

/-- The frames of two machines that differ in notes only, taken apart. -/
theorem Twinned.exists_noting (h : Twinned ρ m₁ m₂) {f : Frame} {rest : List Frame}
    (hframes : m₁.stack.frames = f :: rest) : ∃ node rest₂,
      m₂.stack.frames = f.noting node :: rest₂ ∧ rest₂.length = rest.length := by
  rcases h.frames_cases with ⟨h₁, -⟩ | ⟨f₁, rest₁, f₂, rest₂, h₁, h₂, hf, hrest⟩
  · rw [hframes] at h₁
    exact nomatch h₁
  · obtain ⟨rfl, rfl⟩ := List.cons.inj (hframes.symm.trans h₁)
    obtain ⟨node, rfl⟩ := Frame.exists_noting hf
    have hlength := congrArg List.length hrest
    rw [List.length_map, List.length_map] at hlength
    exact ⟨node, rest₂, h₂, hlength.symm⟩

/-- **Executions do not see notes**, nor how much fuel there is if it is enough. -/
theorem execute_twins (hhost : host.Patient) (spare fuel : Nat) (program : Program) :
    Mirrors (Spare spare) Twinned ρ (execute host fuel program) (execute host (fuel + spare) program)
      Equally := by
  induction fuel generalizing ρ program with
  -- without fuel the first execution stops; the second may have more, and then it is let pass
  | zero =>
    intro m₁ m₂ hm
    rcases Nat.eq_zero_or_pos spare with rfl | hspare
    · exact .error le_rfl hm
    · exact .pass ⟨rfl, hspare⟩
  | succ fuel ih =>
    intro m₁ m₂ hm
    have hfuel : fuel + 1 + spare = fuel + spare + 1 := by omega
    have hcancelled : m₂.stack.cancelled = m₁.stack.cancelled := by
      obtain ⟨-, -, -⟩ := hm
      rfl
    rw [hfuel]
    -- both sides see the same cancellation, the same frames up to notes and the same instruction
    cases hstop : m₁.stack.cancelled with
    | true =>
      rw [execute_cancelled host fuel program hstop,
        execute_cancelled host _ program (hcancelled.trans hstop)]
      exact .ok le_rfl hm rfl
    | false =>
      cases hframes : m₁.stack.frames with
      | nil =>
        have hframes₂ : m₂.stack.frames = [] := by
          rcases hm.frames_cases with ⟨-, h₂⟩ | ⟨_, _, _, _, h₁, -⟩
          · exact h₂
          · rw [hframes] at h₁
            exact nomatch h₁
        rw [execute_empty host fuel program hstop hframes,
          execute_empty host _ program (hcancelled.trans hstop) hframes₂]
        exact .error le_rfl hm
      | cons f rest =>
        obtain ⟨node, rest₂, hframes₂, hlength⟩ := hm.exists_noting hframes
        have hoffset : (f.noting node).pc.offset = f.pc.offset := rfl
        rw [execute_succ host fuel program hstop hframes,
          execute_succ host _ program (hcancelled.trans hstop) hframes₂, hoffset, hlength]
        cases program.instructionAt f.pc.offset with
        | error e => exact .error le_rfl hm
        | ok found =>
          obtain ⟨i, next⟩ := found
          -- the runs inside natives have less fuel than this one: they are the induction's
          have hstep := step_twins (not_spare_raised spare) hhost
            (fun ρ => runWith_twins (ρ := ρ) (not_spare_raised spare) fun ρ p => ih (ρ := ρ) p)
            program next i _ _ (hm.advanced hframes hframes₂ next)
          dsimp only
          generalize step host (runWith (execute host fuel)) program next i
            (m₁.advanced f rest next) = r₁ at hstep
          generalize step host (runWith (execute host (fuel + spare))) program next i
            (m₂.advanced (f.noting node) rest₂ next) = r₂ at hstep
          -- what the two steps end with decides whether the executions go on
          cases hstep with
          | @ok ρ' flow flow' n₁ n₂ hle hn hflow =>
            obtain rfl := hflow
            cases flow with
            | next => exact (ih program n₁ n₂ hn).weaken hle
            | reload =>
              exact (Mirrors.bind currentProgram_twins (fun ρ'' _ p p' hp => by
                obtain rfl := hp
                exact ih p) n₁ n₂ hn).weaken hle
            | pause => exact .ok hle (hn.placed _ fun _ _ => rfl) rfl
            | finish => exact .ok hle hn rfl
          | error hle hn => exact .error hle (hn.placed _ fun _ _ => rfl)
          | pass h => exact .pass h

/-! ### Up to the first pause -/

/-- A machine that paused and is run again. -/
def resumed (m : Machine) : Machine :=
  started { m with stack := conclude .paused m.stack }

/-- How an execution compares to one past its pauses that has more fuel to spare. -/
inductive Lockstep (host : Embedder) (spare fuel : Nat) :
    Except Fault Outcome × Machine → Except Fault Outcome × Machine → Prop where
  /-- The first ran out of fuel. -/
  | short {n₁ : Machine} {r : Except Fault Outcome × Machine} (h : 0 < spare) :
    Lockstep host spare fuel (.error .outOfFuel, n₁) r
  /-- Both ended in the same way. -/
  | same {x : Except Fault Outcome} {n₁ n₂ : Machine} (hpaused : x ≠ .ok .paused)
    (twins : Twinned .same n₁ n₂) : Lockstep host spare fuel (x, n₁) (x, n₂)
  /-- The first paused where the second goes on. -/
  | paused {n₁ n₂ : Machine} {p : Program} {left : Nat} (hle : spare ≤ left)
    (hlt : left < fuel + spare) (executing : n₁.Executing p) (twins : Twinned .same n₁ n₂) :
    Lockstep host spare fuel (.ok .paused, n₁) (executePast host left p n₂)

variable {spare fuel : Nat} {r₁ r₂ : Except Fault Outcome × Machine}

/-- A larger bound on the fuel leaves them in step. -/
theorem Lockstep.succ (h : Lockstep host spare fuel r₁ r₂) :
    Lockstep host spare (fuel + 1) r₁ r₂ := by
  cases h with
  | short h => exact .short h
  | same hpaused twins => exact .same hpaused twins
  | paused hle hlt executing twins => exact .paused hle (by omega) executing twins

/-- The pc of a frame does not matter to the program that it runs. -/
theorem executing_placed {p : Program} (h : m.Executing p) (top : Nat) (pc : Frame → Pc) :
    (m.placed top pc).Executing p := by
  obtain ⟨f, rest, hframes, hslot, hversion⟩ := h
  have hcons : ∃ g rest', (m.placed top pc).stack.frames = g :: rest' ∧ g.program = f.program ∧
      g.version = f.version := by
    show ∃ g rest', (m.stack.modifyFrameAt top fun f => { f with pc := pc f }).frames = g :: rest' ∧ _
    rw [Stack.modifyFrameAt]
    split
    · dsimp only
      rw [hframes]
      cases m.stack.depth - 1 - top with
      | zero => exact ⟨_, _, rfl, rfl, rfl⟩
      | succ i => exact ⟨_, _, rfl, rfl, rfl⟩
    · exact ⟨f, rest, hframes, rfl, rfl⟩
  obtain ⟨g, rest', hframes', hprogram, hversion'⟩ := hcons
  refine ⟨g, rest', hframes', ?_, ?_⟩
  · rw [hprogram]
    exact hslot
  · rw [hversion']
    exact hversion

/-- A frame that is placed where it is stays there. -/
theorem placed_id (m : Machine) (top : Nat) : m.placed top (fun f => f.pc) = m := by
  have hsame : (fun f : Frame => { f with pc := f.pc }) = id := rfl
  rw [placed, Stack.modifyFrameAt, hsame]
  split
  · rw [List.modify_id]
  · rfl

/-- At a pause one of the machines notes where it stopped. -/
theorem Twinned.stopped (h : Twinned ρ m₁ m₂) (top : Nat) (node : Frame → Option UInt32) :
    Twinned ρ (m₁.placed top fun f => ⟨f.pc.offset, node f⟩) m₂ := by
  rw [← placed_id m₂ top]
  exact h.placed top fun _ _ => rfl

/-- **In step up to the first pause.** -/
theorem execute_lockstep (hhost : host.Patient) (spare fuel : Nat) (program : Program)
    (hm : Twinned .same m₁ m₂) (hp : m₁.Executing program) :
    Lockstep host spare fuel (execute host fuel program m₁)
      (executePast host (fuel + spare) program m₂) := by
  induction fuel generalizing program m₁ m₂ with
  -- out of fuel before any pause: with the same fuel both stop here, with more the second is ahead
  | zero =>
    rcases Nat.eq_zero_or_pos spare with rfl | hspare
    · exact .same (by simp) hm
    · exact .short hspare
  | succ fuel ih =>
    have hfuel : fuel + 1 + spare = fuel + spare + 1 := by omega
    have hcancelled : m₂.stack.cancelled = m₁.stack.cancelled := by
      obtain ⟨-, -, -⟩ := hm
      rfl
    obtain ⟨f, rest, hframes, -⟩ := id hp
    obtain ⟨node, rest₂, hframes₂, hlength⟩ := hm.exists_noting hframes
    have hoffset : (f.noting node).pc.offset = f.pc.offset := rfl
    rw [hfuel]
    -- a twin agrees on all that the loop reads: the cancellation, the offset and the depth
    cases hstop : m₁.stack.cancelled with
    | true =>
      rw [execute_cancelled host fuel program hstop,
        executePast_cancelled host _ program (hcancelled.trans hstop)]
      exact .same (by simp) hm
    | false =>
      rw [execute_succ host fuel program hstop hframes,
        executePast_succ host _ program (hcancelled.trans hstop) hframes₂, hoffset, hlength]
      cases program.instructionAt f.pc.offset with
      | error e => exact .same (by simp) hm
      | ok found =>
        obtain ⟨i, next⟩ := found
        have hadvanced := hm.advanced hframes hframes₂ next
        have hexecuting : (m₁.advanced f rest next).Executing program := by
          obtain ⟨f', rest', hframes', hslot, hversion⟩ := hp
          obtain ⟨rfl, rfl⟩ := List.cons.inj (hframes.symm.trans hframes')
          exact ⟨_, rest, rfl, hslot, hversion⟩
        -- runs inside natives stop at pauses on both sides, so they are related as they were
        have hstep := step_twins (not_spare_raised spare) hhost
          (fun ρ => runWith_twins (ρ := ρ) (not_spare_raised spare) fun ρ p =>
            execute_twins hhost spare fuel p) program next i _ _ hadvanced
        dsimp only
        generalize hr₁ : step host (runWith (execute host fuel)) program next i
          (m₁.advanced f rest next) = r₁ at hstep
        generalize step host (runWith (execute host (fuel + spare))) program next i
          (m₂.advanced (f.noting node) rest₂ next) = r₂ at hstep
        cases hstep with
        | @ok ρ' flow flow' n₁ n₂ hle hn hflow =>
          obtain rfl := hflow
          -- executions are compared at equal numbers, which the step has to keep
          have hsame : ρ' = .same := by
            obtain ⟨-, -, -⟩ := hn
            rfl
          subst hsame
          cases flow with
          | next =>
            exact (ih program hn ((stepped hr₁).executing hadvanced.anchored hexecuting)).succ
          | reload =>
            show Lockstep host spare (fuel + 1) ((currentProgram >>= execute host fuel) n₁)
              ((currentProgram >>= executePast host (fuel + spare)) n₂)
            rw [Failing.bind_apply, Failing.bind_apply]
            -- a native may have cleared the frames; then both reloads fail alike
            by_cases hnil : n₁.stack.frames = []
            · have hnil₂ : n₂.stack.frames = [] := by
                by_contra hne
                exact hn.frames_ne_nil.2 hne hnil
              have hnone : ∀ n : Machine, n.stack.frames = [] → currentProgram n =
                  (.error (.raised (.violation .noActiveFrame)), n) := by
                intro n hn
                rw [currentProgram, Failing.bind_apply, active_apply_nil hn]
              rw [hnone n₁ hnil, hnone n₂ hnil₂]
              exact .same (by simp) hn
            · obtain ⟨p, hp⟩ := hn.anchored.exists_executing hnil
              rw [hp.currentProgram, (hn.executing hp).currentProgram]
              exact (ih p hn hp).succ
          -- here the sides part: the first stops, the second stands where a resumed one would
          | pause =>
            obtain rfl := (stepped hr₁).paused
            exact .paused (Nat.le_add_left spare fuel) (by omega)
              (executing_placed hexecuting _ _) (hn.stopped _ _)
          | finish => exact .same (by simp) hn
        | @error ρ' e n₁ n₂ hle hn =>
          have hsame : ρ' = .same := by
            obtain ⟨-, -, -⟩ := hn
            rfl
          subst hsame
          exact .same (by simp) (hn.placed _ fun _ _ => rfl)
        | @pass e n₁ r h =>
          obtain ⟨rfl, hspare⟩ := h
          exact .short hspare

end Machine

end BlockMachine

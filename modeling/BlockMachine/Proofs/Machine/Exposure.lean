import BlockMachine.Proofs.Machine.Containment

namespace BlockMachine

/-!
# Runs that keep moved values in registers

With the default natives, a run that starts with all marks of moved values in registers keeps them there
until it takes an instruction that exposes one.

* `Machine.Exposes` says that the loop is about to take such an instruction, `Moment.Sealed` that it does
  not at any of some moments;
* `Machine.execute_sheltered` is about the loop;
* `Machine.run_contained` is about all runs, and about the outputs of those that finish.
-/

open Value

namespace Machine

/-- The loop is about to take an instruction from a program that lets a mark out of its register. -/
def Exposes (m : Machine) (held : Program) : Prop :=
  ∃ f rest i next, m.stack.frames = f :: rest ∧ held.instructionAt f.pc.offset = .ok (i, next) ∧
    i.Exposes m.world.natives f

/-- What the loop takes next is found in the code. -/
theorem not_exposes {m : Machine} {held : Program} {f : Frame} {rest : List Frame} {i : Instruction}
    {next : Nat} (hframes : m.stack.frames = f :: rest)
    (hfetch : held.instructionAt f.pc.offset = .ok (i, next))
    (hi : ¬i.Exposes m.world.natives f) : ¬m.Exposes held := by
  rintro ⟨f', rest', i', next', hframes', hfetch', hi'⟩
  obtain ⟨rfl, rfl⟩ := List.cons.inj (hframes.symm.trans hframes')
  obtain ⟨rfl, rfl⟩ := Prod.mk.inj (Except.ok.inj (hfetch.symm.trans hfetch'))
  exact hi hi'

end Machine

/-- What happens next lets a mark out of its register. -/
def Cause.Exposes (m : Machine) : Cause → Prop
  | .fetch held => m.Exposes held
  | _ => False

namespace Moment

/-- No moment lets a mark out of its register. -/
def Sealed (m : Machine) : List Moment → Prop
  | [] => True
  | x :: rest => ¬x.cause.Exposes m ∧ Sealed x.machine rest

/-- All marks are in registers, until one is let out. -/
def Guarded (m : Machine) : List Moment → Prop
  | [] => True
  | x :: rest => ¬x.cause.Exposes m → x.machine.Contained ∧ Guarded x.machine rest

variable {m : Machine} {xs ys : List Moment}

/-- Moments are sealed if both parts of them are. -/
theorem sealed_append : Sealed m (xs ++ ys) ↔ Sealed m xs ∧ Sealed (last m xs) ys := by
  induction xs generalizing m with
  | nil => simp [Sealed]
  | cons x xs ih => rw [List.cons_append, Sealed, Sealed, ih, last_cons, and_assoc]

/-- The second part is only asked for where the first one is sealed. -/
theorem Guarded.append (hxs : Guarded m xs) (hys : Sealed m xs → Guarded (last m xs) ys) :
    Guarded m (xs ++ ys) := by
  induction xs generalizing m with
  | nil => exact hys trivial
  | cons x xs ih =>
    intro hx
    obtain ⟨hcontained, hrest⟩ := hxs hx
    exact ⟨hcontained, ih hrest fun hsealed => hys ⟨hx, hsealed⟩⟩

/-- One moment among others. -/
theorem Guarded.contained {past future : List Moment} {x : Moment}
    (h : Guarded m (past ++ x :: future)) (hsealed : Sealed m (past ++ [x])) :
    x.machine.Contained := by
  induction past generalizing m with
  | nil => exact (h hsealed.1).1
  | cons y past ih => exact ih (h hsealed.1).2 hsealed.2

end Moment

namespace Machine

variable {m : Machine} {host : Embedder} {resume : Action Outcome} {program : Program} {next : Nat}

/-! ### The start and the end of a run -/

/-- Fetching the program to go on with moves no mark. -/
theorem currentProgram_contained : Ensures Contained currentProgram fun _ => True :=
  contained_eq ▸ currentProgram_all.mono fun _ _ => trivial

/-- The check at the start of a run lets no mark out: the root gets its inputs from registers into
    registers. -/
theorem restartIfStale_contained : Ensures Contained restartIfStale fun _ => True :=
  contained_eq ▸ restartIfStale_all hereditary_unmoved

/-- Another pc in a frame makes no difference. -/
theorem placed_contained (hm : m.Contained) (top : Nat) (pc : Frame → Pc) :
    (m.placed top pc).Contained :=
  contained_iff.2 (placed_all (contained_iff.1 hm) top pc)

/-- What a run notes at its end lets no mark out. -/
theorem ended_contained {r : Except Fault Outcome × Machine} (h : r.2.Contained) :
    (ended r).2.Contained :=
  contained_iff.2 (ended_all (contained_iff.1 h))

/-! ### The loop -/

/-- The moments of an execution are guarded. If they let no mark out, then the marks are in registers at
    the end, and there is none among the outputs of a root that finished. -/
structure Sheltered (xs : List Moment) (m : Machine) (r : Except Fault Outcome × Machine) : Prop where
  guarded : Moment.Guarded m xs
  contained : Moment.Sealed m xs → r.2.Contained
  outputs : Moment.Sealed m xs → r.1 = .ok .finished → ∀ v ∈ r.2.outputs, v.Unmoved

/-- An execution that does not finish. -/
theorem Sheltered.unfinished {r : Except Fault Outcome × Machine} (hr : r.2.Contained)
    (h : r.1 ≠ .ok .finished) : Sheltered [] m r :=
  ⟨trivial, fun _ => hr, fun _ hr => absurd hr h⟩

/-- What comes after a moment is only asked for if nothing was exposed there. -/
theorem Sheltered.cons {x : Moment} {xs : List Moment} {r : Except Fault Outcome × Machine}
    (h : ¬x.cause.Exposes m → x.machine.Contained ∧ Sheltered xs x.machine r) :
    Sheltered (x :: xs) m r :=
  ⟨fun hx => ⟨(h hx).1, (h hx).2.guarded⟩, fun hsealed => (h hsealed.1).2.contained hsealed.2,
    fun hsealed => (h hsealed.1).2.outputs hsealed.2⟩

/-- What comes after several moments is only asked for if nothing was exposed at any of them. -/
theorem Sheltered.append {xs ys : List Moment} {r : Except Fault Outcome × Machine}
    (hxs : Moment.Guarded m xs) (h : Moment.Sealed m xs → Sheltered ys (Moment.last m xs) r) :
    Sheltered (xs ++ ys) m r := by
  refine ⟨hxs.append fun hsealed => (h hsealed).guarded, fun hsealed => ?_, fun hsealed => ?_⟩
  · obtain ⟨hxs', hys⟩ := Moment.sealed_append.1 hsealed
    exact (h hxs').contained hys
  · obtain ⟨hxs', hys⟩ := Moment.sealed_append.1 hsealed
    exact (h hxs').outputs hys

/-- A moment that is no fetch, of a machine with all marks in registers. -/
theorem Sheltered.other {x : Machine} {xs : List Moment} {r : Except Fault Outcome × Machine}
    (hx : x.Contained) (h : Sheltered xs x r) : Sheltered (⟨.other, x⟩ :: xs) m r :=
  .cons fun _ => ⟨hx, h⟩

/-- The end of a run is noted in the stack. -/
theorem Sheltered.ended {xs : List Moment} {r : Except Fault Outcome × Machine} (h : Sheltered xs m r) :
    Sheltered (xs ++ [⟨.other, (ended r).2⟩]) m (ended r) := by
  have hsealed : ∀ {ys}, Moment.Sealed m (xs ++ ys) → Moment.Sealed m xs :=
    fun hys => (Moment.sealed_append.1 hys).1
  refine ⟨h.guarded.append fun hxs _ => ⟨ended_contained (h.contained hxs), trivial⟩,
    fun hys => ended_contained (h.contained (hsealed hys)), fun hys hfinished => ?_⟩
  have houtputs := h.outputs (hsealed hys)
  obtain ⟨fault | outcome, m'⟩ := r
  · cases fault with
    | raised e =>
      have hraise : Ensures (fun _ => True) (recordError e >>= fun _ => (raise e : Action Outcome))
          fun _ => False :=
        .bind (Q := fun _ => True) (fun _ _ => ⟨trivial, fun _ _ => trivial⟩) fun _ _ => .raise _
      exact ((hraise m' trivial).2 _ hfinished).elim
    | crashed | outOfFuel => exact nomatch hfinished
  · exact houtputs hfinished

/-- The moments of an instruction that exposes no mark. -/
theorem stepMoments_guarded {running : Machine → List Moment} {i : Instruction} (hm : m.Contained)
    (hconstants : ∀ c ∈ program.constants, c.Unmoved)
    (hsafe : ∀ f rest, m.stack.frames = f :: rest → ¬i.Exposes m.world.natives f) :
    Moment.Guarded m (stepMoments host resume running program next i m) := by
  by_cases hi : ∃ index, i = .native index
  · obtain ⟨index, rfl⟩ := hi
    rw [stepMoments]
    cases hf : m.world.natives.get? index with
    | none => trivial
    | some entry =>
      have hdefault := hm.native hf
      have hinvoke := invoke_contained hm host resume hdefault (unexposed_message hf hsafe)
      have hmoments : entry.2.moments host resume running m =
          [⟨.other, (invoke host resume entry.2 m).2⟩] := by
        cases hentry : entry.2 <;> rw [hentry] at hdefault <;> first | rfl | cases hdefault
      dsimp only
      rw [hmoments]
      exact fun _ => ⟨hinvoke, trivial⟩
  · have hmoments : stepMoments host resume running program next i m =
        [⟨.other, (step host resume program next i m).2⟩] := by
      cases i <;> first | rfl | exact absurd ⟨_, rfl⟩ hi
    rw [hmoments]
    exact fun _ => ⟨step_contained hm hconstants hsafe, trivial⟩

/-- Where a frame is makes no difference to what its instruction exposes. -/
theorem exposes_pc {natives : NativeTable} {f : Frame} {i : Instruction} (pc : Pc) :
    i.Exposes natives { f with pc := pc } ↔ i.Exposes natives f := by
  cases i <;> rfl

/-- **The loop keeps marks in registers** until it exposes one. -/
theorem execute_sheltered (host : Embedder) (fuel : Nat) (program : Program) {m : Machine}
    (hm : m.Sited) (herror : m.stack.error = none) (hp : m.Executing program) (hc : m.Contained) :
    Sheltered (executeMoments host fuel program m) m (execute host fuel program m) := by
  induction fuel generalizing program m with
  | zero => exact .unfinished hc (by rintro ⟨⟩)
  | succ fuel ih =>
    -- a native may run the machine again, whose moments come between those of this loop
    have hresume : TracesRun (runWith (execute host fuel))
        (runMoments (execute host fuel) (executeMoments host fuel)) :=
      runWith_traces fun p m hm herror hp => execute_traces host fuel p hm herror hp
    obtain ⟨f, rest, hframes, -, -, -, hreach⟩ := hp.fetches hm herror
    -- constants are copied into registers as they are, so they must hold no marks either
    have hconstants : ∀ c ∈ program.constants, c.Unmoved := by
      obtain ⟨_, _, _, hslot, _⟩ := id hp
      exact hc.world.filed_constants hslot
    rw [executeMoments]
    cases hstop : m.stack.cancelled with
    | true =>
      rw [execute_cancelled host fuel program hstop]
      exact .unfinished hc (by simp)
    | false =>
      rw [execute_succ host fuel program hstop hframes, hframes]
      dsimp only
      cases hfetch : program.instructionAt f.pc.offset with
      | error e => exact .cons fun _ => ⟨hc, .unfinished hc (by simp)⟩
      | ok found =>
        obtain ⟨i, next⟩ := found
        obtain ⟨hm₁, hp₁⟩ := hm.advanced herror hp hframes hfetch
        obtain ⟨⟨-, hlast, hsited⟩, hnone, hnext⟩ :=
          step_traced (i := i) hresume hm₁ herror hp₁ hreach hfetch
        have hf := hc.active hframes
        have hc₁ : (m.advanced f rest next).Contained :=
          hc.setActive hframes ⟨hf.registers, hf.incoming, hf.outgoing, hf.bindings⟩
        dsimp only
        -- from here on the fetched instruction is known not to expose a mark
        refine .cons fun hexposes => ⟨hc₁, ?_⟩
        have hsafe : ∀ g rest', (m.advanced f rest next).stack.frames = g :: rest' →
            ¬i.Exposes (m.advanced f rest next).world.natives g := by
          rintro g rest' hg hi
          obtain ⟨rfl, rfl⟩ := List.cons.inj hg
          exact hexposes ⟨f, _, i, next, hframes, hfetch, (exposes_pc _).1 hi⟩
        refine .append (stepMoments_guarded hc₁ hconstants hsafe) fun _ => ?_
        have hc₂ : (step host (runWith (execute host fuel)) program next i
            (m.advanced f rest next)).2.Contained := step_contained hc₁ hconstants hsafe
        -- a step that finishes was the return of the root, whose outputs the host reads
        have hfinish : ∀ m', step host (runWith (execute host fuel)) program next i
            (m.advanced f rest next) = (.ok .finish, m') →
            leave program (m.advanced f rest next) = (.ok true, m') :=
          fun m' h => (stepped h).finished
        rw [hlast]
        generalize step host (runWith (execute host fuel)) program next i (m.advanced f rest next)
          = r at hsited hnone hnext hc₂ hfinish ⊢
        -- a step that fails leaves marks in registers only, its frame put back at the instruction
        obtain ⟨fault | flow, m₂⟩ := r
        · have hplaced := placed_contained hc₂ rest.length fun _ =>
            ⟨f.pc.offset, program.nodeAt f.pc.offset⟩
          exact .other hplaced (.unfinished hplaced (by rintro ⟨⟩))
        have hm₂ : m₂.Sited := hsited (.ok flow)
        have hnone₂ : m₂.stack.error = none := hnone flow rfl
        cases flow with
        | next => exact ih program hm₂ hnone₂ (hnext rfl) hc₂
        | reload =>
          obtain ⟨hm₃, -⟩ := currentProgram_stays m₂ hm₂
          have hnone₃ := (congrArg (fun s => s.2.2) (currentProgram_standing m₂)).trans hnone₂
          have hexecuting := currentProgram_executing hm₂
          obtain ⟨hc₃, -⟩ := currentProgram_contained m₂ hc₂
          refine .other hc₃ ?_
          rw [continued, Failing.bind_apply]
          generalize currentProgram m₂ = r at hm₃ hnone₃ hexecuting hc₃ ⊢
          obtain ⟨fault | p, m₃⟩ := r
          · exact .unfinished hc₃ (by simp)
          · exact ih p hm₃ hnone₃ (hexecuting p m₃ rfl) hc₃
        | pause =>
          have hplaced := placed_contained hc₂ rest.length fun f =>
            { f.pc with node := program.nodeAt next }
          exact .other hplaced (.unfinished hplaced (by rintro ⟨⟩))
        | finish =>
          exact .other hc₂ ⟨trivial, fun _ => hc₂,
            fun _ _ => leave_outputs hc₁ hm₁ herror hp₁ (hfinish m₂ rfl)⟩

/-! ### Runs -/

/-- A run that executes is sheltered. -/
theorem runBy_sheltered (host : Embedder) (fuel : Nat) (hm : m.Sited) (hc : m.Contained)
    (hready : m.stack.phase = .ready ∧ m.stack.frames ≠ []) :
    Sheltered (runByMoments host fuel m) m (runBy host fuel m) := by
  have hnone : m.stack.error = none := hm.no_error (by rw [hready.1]; simp)
  have hstarted : m.started.Sited := ⟨hm.filed, fun hne => absurd hnone hne, hm.stands⟩
  have hc₀ : m.started.Contained := ⟨hc.world, ⟨hc.stack.frames, hc.stack.state, hc.stack.env,
    hc.stack.messages, hc.stack.retained⟩⟩
  -- A run that starts passes three stations: the check for restarts, the lookup of the program
  -- and the loop. Each keeps the machine sited, without error and its marks in registers.
  obtain ⟨hchecked, -⟩ := restartIfStale_restarts hstarted hnone
  have hnone₁ : (restartIfStale m.started).2.stack.error = none :=
    (congrArg (fun s => s.2.2) (restartIfStale_standing m.started)).trans hnone
  obtain ⟨hc₁, -⟩ := restartIfStale_contained m.started hc₀
  obtain ⟨hloaded, -⟩ := currentProgram_stays _ hchecked
  have hnone₂ := (congrArg (fun s => s.2.2)
    (currentProgram_standing (restartIfStale m.started).2)).trans hnone₁
  have hexecuting := currentProgram_executing hchecked
  obtain ⟨hc₂, -⟩ := currentProgram_contained _ hc₁
  -- the three stations joined, before the run notes how it ended
  have hbody : Sheltered (bodyMoments (executeMoments host fuel) m.started) m.started
      (body (execute host fuel) m.started) := by
    refine .cons fun _ => ⟨hc₁, ?_⟩
    rw [body, Failing.bind_apply]
    generalize restartIfStale m.started = r at hchecked hloaded hnone₂ hexecuting hc₁ hc₂ ⊢
    obtain ⟨fault | _, m₁⟩ := r
    · exact .unfinished hc₁ (by simp)
    · refine .other hc₂ ?_
      dsimp only
      rw [Failing.bind_apply]
      generalize currentProgram m₁ = r at hloaded hnone₂ hexecuting hc₂ ⊢
      obtain ⟨fault | p, m₂⟩ := r
      · exact .unfinished hc₂ (by simp)
      · exact execute_sheltered host fuel p hloaded hnone₂ (hexecuting p m₂ rfl) hc₂
  have hrun : runBy host fuel m = ended (body (execute host fuel) m.started) :=
    runWith_ready hready.1 hready.2
  rw [hrun, runByMoments, runMoments_ready hready, ← hrun]
  refine .other hc₀ ?_
  have hended := hbody.ended
  rw [← hrun] at hended
  exact hended

/-- What a return from the active frame hands out, if the frame runs a program. -/
def returns (m : Machine) (program : Program) : List Value :=
  match m.stack.frames with
  | [] => []
  | f :: _ =>
    match (castOutputs program f.registers 0 program.signature.outputs m).1 with
    | .ok vs => vs
    | .error _ => []

/-- What a contained machine returns was not moved away, since casts refuse that. -/
theorem Contained.returns (hm : m.Contained) (program : Program) :
    ∀ v ∈ m.returns program, v.Unmoved := by
  rw [Machine.returns]
  split
  · exact List.forall_mem_nil _
  next f rest hframes =>
    have hcast := (castOutputs_ensures hereditary_unmoved closed_contained program
      (hm.active hframes).registers 0 program.signature.outputs m hm).2
    split
    next vs hvs => exact hcast vs hvs
    next => exact List.forall_mem_nil _

/-- **Moved values stay in registers** until an instruction exposes one. A run with the default natives
    may start with any values in its frames, state tree, environment and channels, of which none holds
    a mark but for registers. At each of its moments up to the first fetch of an instruction that collects
    marks or emits one, marks are in registers only, and what a return would hand to a caller holds none.
    If there is no such fetch, the same holds when the run ends, and a root that finished has no mark among
    its outputs. -/
theorem run_contained (host : Embedder) (fuel : Nat) {m : Machine} (hm : m.Contained) (hsited : m.Sited) :
    (∀ past moment future, runByMoments host fuel m = past ++ moment :: future →
      Moment.Sealed m (past ++ [moment]) → moment.machine.Contained ∧
        ∀ program, ∀ v ∈ moment.machine.returns program, v.Unmoved) ∧
    (Moment.Sealed m (runByMoments host fuel m) → (runBy host fuel m).2.Contained ∧
      (m.stack.phase = .ready → (runBy host fuel m).1 = .ok .finished →
        ∀ v ∈ (runBy host fuel m).2.outputs, v.Unmoved)) := by
  by_cases hready : m.stack.phase = .ready ∧ m.stack.frames ≠ []
  · obtain ⟨hguarded, hcontained, houtputs⟩ := runBy_sheltered host fuel hsited hm hready
    refine ⟨fun past moment future hmoments hsealed => ?_,
      fun hsealed => ⟨hcontained hsealed, fun _ => houtputs hsealed⟩⟩
    rw [hmoments] at hguarded
    have hmoment := hguarded.contained hsealed
    exact ⟨hmoment, fun program => hmoment.returns program⟩
  · -- any other stack only reports how it ended
    have hrun : runBy host fuel m = (m.reported, m) := runWith_reported hready
    rw [hrun, runByMoments, runMoments_idle hready]
    refine ⟨fun past moment future hmoments => ?_, fun _ => ⟨hm, fun hphase hfinished => ?_⟩⟩
    · exact absurd hmoments.symm (by simp)
    · rw [reported, hphase] at hfinished
      cases hfinished

end Machine

/-! ### A block that moves its input -/

namespace Passing

open Machine

def signature : Signature where
  name := "pass"
  inputs := [⟨"a", .basic .any, false⟩]
  outputs := [⟨⟨"x", .basic .any, false⟩, 1⟩]

/-- A block that moves its input to the register of its output. -/
def block : Block :=
  ⟨0, 0, signature, [.code (.emit (.move 1 0)), .code (.emit .ret)]⟩

/-- What the body of the block is lowered to. -/
def draft (supply : BufferId) : Draft :=
  { assembler := (Assembler.emit {} (.move 1 0)).emit .ret, supply := supply }

def program : Program :=
  World.finish block 0 (draft 0)

def world : World where
  blocks := #[block]
  programs := { indices := (∅ : Std.HashMap BlockId Nat).insert 0 0, slots := #[⟨0, some program⟩] }
  natives := {}

/-- The machine that the block was pushed on with an input. -/
def machine : Machine :=
  ⟨world, { Stack.new {} with frames :=
    [{ block := 0, program := 0, version := 0, registers := #[.int 5, .null], inputCount := 1 }] }, ""⟩

/-- The body of the block is lowered to its draft. -/
theorem lower_block (ctx : LoweringContext) (supply : BufferId) :
    lower ctx block.body supply = .ok (draft supply) := rfl

/-- The program of the world was lowered from its block. -/
theorem derived : world.Derived where
  indexed := by
    intro id i
    rw [world, Std.HashMap.getElem?_insert]
    constructor
    · intro h
      split at h
      next hid =>
        obtain rfl := Option.some.inj h
        exact ⟨_, rfl, eq_of_beq hid⟩
      next => exact nomatch Std.HashMap.getElem?_empty.symm.trans h
    · rintro ⟨slot, hslot, rfl⟩
      match i with
      | 0 =>
        obtain rfl := Option.some.inj hslot
        rfl
      | i + 1 => exact nomatch hslot
  lowered := by
    intro i slot p hslot hp
    match i with
    | 0 =>
      obtain rfl := Option.some.inj hslot
      obtain rfl := Option.some.inj hp
      exact ⟨block, ⟨"", ⟨{}, []⟩, {}⟩, 0, draft 0, rfl, rfl, rfl⟩
    | i + 1 => exact nomatch hslot

/-- The machine begins with all marks in registers. -/
theorem contained : machine.Contained := by
  have hatom : ∀ {v : Value}, v.isMoved = false → v.parts = [] → v.Unmoved :=
    fun hv hparts => .of_atom hparts hv
  refine ⟨⟨derived, fun b hb ctx supply d hd => ?_, nofun, fun entry hentry => ?_⟩,
    ⟨List.forall_mem_singleton.2 ⟨fun v hv => ?_, hatom rfl rfl, nofun, nofun⟩, hatom rfl rfl, nofun,
      nofun, nofun⟩⟩
  · obtain rfl : b = block := by simpa [machine, world] using hb
    obtain rfl := Except.ok.inj ((lower_block ctx supply).symm.trans hd)
    nofun
  · exact absurd hentry (Array.not_mem_empty entry)
  · obtain rfl | rfl : v = .int 5 ∨ v = .null := by simpa using hv
    · exact .inr (hatom rfl rfl)
    · exact .inr (hatom rfl rfl)

/-- Its frame stands at the start of that program. -/
theorem sited : machine.Sited := by
  refine ⟨derived.filed, fun h => absurd rfl h, fun _ => List.forall_mem_singleton.2 ?_⟩
  exact ⟨Std.HashMap.getElem?_insert_self, block, rfl, Nat.le_refl _, fun _ => ⟨program, rfl, .start⟩⟩

/-- The input is moved, a mark stays behind, and the output is what was moved. -/
theorem run_contained_pass : machine.Contained ∧ machine.Sited ∧
    Moment.Sealed machine (runByMoments .idle 3 machine) ∧
    (runBy .idle 3 machine).1 = .ok .finished ∧
    (runBy .idle 3 machine).2.input? 0 = some .moved ∧
    (runBy .idle 3 machine).2.outputs = [.int 5] ∧
    ∀ v ∈ (runBy .idle 3 machine).2.outputs, v.Unmoved := by
  have hsealed : Moment.Sealed machine (runByMoments .idle 3 machine) :=
    ⟨id, id, id, not_exposes rfl rfl id, id, not_exposes rfl rfl id, id, id, id, trivial⟩
  exact ⟨contained, sited, hsealed, rfl, rfl, rfl,
    ((run_contained .idle 3 contained sited).2 hsealed).2 rfl rfl⟩

end Passing

end BlockMachine

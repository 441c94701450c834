import BlockMachine.Proofs.Machine.Loop
import BlockMachine.Proofs.Machine.Scripts
import BlockMachine.Proofs.Program.Succession

namespace BlockMachine

/-!
# Moments of a session

A session takes a machine through many moments: every fetch of an instruction, every instruction, every
operation of the host or of a native, and every step in between that starts, checks, loads or ends
something. Runs that natives start inside a run are part of it.

* `Moment` is a machine with the cause that led to it;
* `HostOp.moments` and `Script.moments` follow a host, `Machine.stepMoments`, `Machine.executeMoments`
  and `Machine.runMoments` follow instructions, the loop and a run;
* `Cause.Allows` says what a moment may change of frames and programs, `Moment.Orderly` that a session
  has only such moments.
-/

/-- What happens from one moment to the next. -/
inductive Cause where
  /-- The loop takes the next instruction from the program that it holds. -/
  | fetch (held : Program)
  /-- A run looks for frames of old programs, and starts the root over if there are any. -/
  | check
  | other

/-- A machine that a session comes by. -/
structure Moment where
  cause : Cause
  machine : Machine

namespace Moment

/-- The machine after some moments. -/
def last (m : Machine) : List Moment → Machine
  | [] => m
  | x :: rest => last x.machine rest

@[simp]
theorem last_nil (m : Machine) : last m [] = m := rfl

@[simp]
theorem last_cons (m : Machine) (x : Moment) (rest : List Moment) :
    last m (x :: rest) = last x.machine rest := rfl

@[simp]
theorem last_append (m : Machine) (xs ys : List Moment) :
    last m (xs ++ ys) = last (last m xs) ys := by
  induction xs generalizing m with
  | nil => rfl
  | cons x xs ih => exact ih x.machine

end Moment

/-! ### Hosts -/

open Machine

/-- The moments of an operation, where runs have the moments `running`. -/
def HostOp.moments (resume : Action Outcome) (running : Machine → List Moment) {β : Type} :
    HostOp β → Machine → List Moment
  | .run, m => running m
  | .call block inputs, m =>
    let start := Machine.push block inputs m
    ⟨.other, start.2⟩ ::
      match start.1 with
      | .ok _ => running start.2 ++ [⟨.other, (callWith resume block inputs m).2⟩]
      | .error _ => []
  | o, m => [⟨.other, (o.perform resume m).2⟩]

/-- The moments of a script. -/
def Script.moments (resume : Action Outcome) (running : Machine → List Moment) {α : Type} :
    Script α → Machine → List Moment
  | .done _, _ => []
  | .op o next, m =>
    o.moments resume running m ++
      match o.perform resume m with
      | (.ok b, m') => (next (.ok b)).moments resume running m'
      | (.error (.raised e), m') => (next (.error e)).moments resume running m'
      | (.error _, _) => []

/-- The moments of a native. -/
def Native.moments (host : Embedder) (resume : Action Outcome) (running : Machine → List Moment) :
    Native → Machine → List Moment
  | .host f, m => f.script.moments resume running m
  | .installed code, m => (host.script code).moments resume running m
  | f, m => [⟨.other, (invoke host resume f m).2⟩]

namespace Machine

/-! ### Runs -/

/-- The moments of an instruction. -/
def stepMoments (host : Embedder) (resume : Action Outcome) (running : Machine → List Moment)
    (program : Program) (next : Nat) (i : Instruction) (m : Machine) : List Moment :=
  match i with
  | .native index =>
    match m.world.natives.get? index with
    | some (_, f) => f.moments host resume running m
    | none => []
  | i => [⟨.other, (step host resume program next i m).2⟩]

/-- The moments of a run whose program has the moments `executing`. -/
def runMoments (exec : Program → Action Outcome) (executing : Program → Machine → List Moment)
    (m : Machine) : List Moment :=
  if m.stack.phase = .ready ∧ m.stack.frames ≠ [] then
    let checked := restartIfStale m.started
    let loaded := currentProgram checked.2
    ⟨.other, m.started⟩ :: ⟨.check, checked.2⟩ ::
      ((match checked.1 with
        | .ok _ =>
          ⟨.other, loaded.2⟩ ::
            match loaded.1 with
            | .ok program => executing program loaded.2
            | .error _ => []
        | .error _ => []) ++
      [⟨.other, (runWith exec m).2⟩])
  else []

/-- The moments from the look for old programs to the end of the loop. -/
def bodyMoments (executing : Program → Machine → List Moment) (m : Machine) : List Moment :=
  let checked := restartIfStale m
  let loaded := currentProgram checked.2
  ⟨.check, checked.2⟩ ::
    match checked.1 with
    | .ok _ =>
      ⟨.other, loaded.2⟩ ::
        match loaded.1 with
        | .ok program => executing program loaded.2
        | .error _ => []
    | .error _ => []

section

variable {exec : Program → Action Outcome} {executing : Program → Machine → List Moment} {m : Machine}

theorem runMoments_ready (h : m.stack.phase = .ready ∧ m.stack.frames ≠ []) :
    runMoments exec executing m =
      ⟨.other, m.started⟩ :: (bodyMoments executing m.started ++ [⟨.other, (runWith exec m).2⟩]) :=
  if_pos h

theorem runMoments_idle (h : ¬(m.stack.phase = .ready ∧ m.stack.frames ≠ [])) :
    runMoments exec executing m = [] :=
  if_neg h

end

/-- The moments of the loop. -/
def executeMoments (host : Embedder) : Nat → Program → Machine → List Moment
  | 0, _, _ => []
  | fuel + 1, program, m =>
    match m.stack.cancelled, m.stack.frames with
    | false, f :: rest =>
      match program.instructionAt f.pc.offset with
      | .error _ => [⟨.fetch program, m⟩]
      | .ok (i, next) =>
        let m₁ := m.advanced f rest next
        let resume := runWith (execute host fuel)
        let running := runMoments (execute host fuel) (executeMoments host fuel)
        let done := step host resume program next i m₁
        let loaded := currentProgram done.2
        ⟨.fetch program, m₁⟩ :: (stepMoments host resume running program next i m₁ ++
          match done.1 with
          | .ok .next => executeMoments host fuel program done.2
          | .ok .reload =>
            ⟨.other, loaded.2⟩ ::
              match loaded.1 with
              | .ok program => executeMoments host fuel program loaded.2
              | .error _ => []
          | _ => [⟨.other, (continued host fuel program rest.length f.pc.offset next done).2⟩])
    | _, _ => []

/-- The moments of a run under an embedder. -/
def runByMoments (host : Embedder) (fuel : Nat) : Machine → List Moment :=
  runMoments (execute host fuel) (executeMoments host fuel)

/-! ### Frames and versions -/

end Machine

/-- The block that a frame runs, and in which version. -/
structure Edition where
  block : BlockId
  program : Nat
  version : Nat

/-- What a frame runs. -/
def Frame.edition (f : Frame) : Edition :=
  ⟨f.block, f.program, f.version⟩

namespace Machine

/-- A program that the loop may take the next instruction from: the world's current program for the
    active frame's index, in that frame's version, whose control flow leads to the frame's offset. -/
def Fetches (m : Machine) (p : Program) : Prop :=
  ∃ f rest, m.stack.frames = f :: rest ∧ World.program f.program m.world = (.ok p, m.world) ∧
    m.world.Runs f.block f.program p ∧ p.version = f.version ∧ p.Reaches f.pc.offset

/-- Frames go and new ones come, at the start of the current programs of their blocks. Those that stay
    run what they ran before. -/
def Carries (m m' : Machine) : Prop :=
  ∃ pushed kept, m'.stack.frames = pushed ++ kept ∧
    kept.map Frame.edition <:+ m.stack.frames.map Frame.edition ∧
    ∀ f ∈ pushed, f.pc.offset = 0 ∧ ∃ p, m'.world.Runs f.block f.program p ∧ f.version = p.version

/-- The frames stay, or only the root does, which may start over at the start of the current program of
    its block. -/
def Restarts (m m' : Machine) : Prop :=
  m'.stack.frames = m.stack.frames ∨
    ∃ root root', m.stack.frames.getLast? = some root ∧ m'.stack.frames = [root'] ∧
      (root' = root ∨ root'.block = root.block ∧ root'.program = root.program ∧
        root'.pc.offset = 0 ∧ ∃ p, m'.world.Runs root'.block root'.program p ∧
          root'.version = p.version)

end Machine

/-- What a moment may change. -/
def Cause.Allows : Cause → Machine → Machine → Prop
  | .fetch held, m, m' => m.Fetches held ∧ m'.stack.frames.map Frame.edition =
    m.stack.frames.map Frame.edition
  | .check, m, m' => m.Restarts m'
  | .other, m, m' => m.Carries m'

/-- All moments change only what they may. -/
def Moment.Orderly (m : Machine) : List Moment → Prop
  | [] => True
  | x :: rest => x.cause.Allows m x.machine ∧ Orderly x.machine rest

namespace Moment

variable {m : Machine} {xs ys : List Moment}

theorem orderly_append : Orderly m (xs ++ ys) ↔ Orderly m xs ∧ Orderly (last m xs) ys := by
  induction xs generalizing m with
  | nil => simp [Orderly]
  | cons x xs ih => rw [List.cons_append, Orderly, Orderly, ih, last_cons, and_assoc]

/-- One moment among others. -/
theorem Orderly.allows {past future : List Moment} {x : Moment}
    (h : Orderly m (past ++ x :: future)) : x.cause.Allows (last m past) x.machine :=
  (orderly_append.1 h).2.1

end Moment

end BlockMachine

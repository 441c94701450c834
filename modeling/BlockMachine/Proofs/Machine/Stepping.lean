import BlockMachine.Proofs.Machine.Calls
import BlockMachine.Proofs.Machine.Pauses

namespace BlockMachine

/-!
# Runs instruction by instruction

What a run comes to is known once it is known what each of its instructions does.

* `Machine.execute_next`, `Machine.execute_reload`, `Machine.execute_finish` and `Machine.execute_raised` go one
  instruction further;
* `Machine.run_of_held` gets from a run to what it executes;
* `Machine.call_finished`, `Machine.call_failed` and `Machine.call_ok` get from a call to its run.
-/

namespace Machine

/-! ### Single instructions -/

section

variable {m m' : Machine} {host : Embedder} {fuel next : Nat} {program p : Program} {f : Frame}
  {rest : List Frame} {i : Instruction}

/-- An instruction after which the same program goes on. -/
theorem execute_next (hcancelled : m.stack.cancelled = false) (hframes : m.stack.frames = f :: rest)
    (hi : program.instructionAt f.pc.offset = .ok (i, next))
    (hstep : step host (runWith (execute host fuel)) program next i (m.advanced f rest next) =
      (.ok .next, m')) :
    execute host (fuel + 1) program m = execute host fuel program m' := by
  rw [execute_succ host fuel program hcancelled hframes, hi]
  dsimp only
  rw [hstep]
  rfl

/-- An instruction after which the program of another frame goes on. -/
theorem execute_reload (hcancelled : m.stack.cancelled = false) (hframes : m.stack.frames = f :: rest)
    (hi : program.instructionAt f.pc.offset = .ok (i, next))
    (hstep : step host (runWith (execute host fuel)) program next i (m.advanced f rest next) =
      (.ok .reload, m')) (hp : m'.Executing p) :
    execute host (fuel + 1) program m = execute host fuel p m' := by
  rw [execute_succ host fuel program hcancelled hframes, hi]
  dsimp only
  rw [hstep, continued, Failing.bind_apply, hp.currentProgram]

/-- A return of the root. -/
theorem execute_finish (hcancelled : m.stack.cancelled = false) (hframes : m.stack.frames = f :: rest)
    (hi : program.instructionAt f.pc.offset = .ok (.ret, next))
    (hleave : leave program (m.advanced f rest next) = (.ok true, m')) :
    execute host (fuel + 1) program m = (.ok .finished, m') := by
  rw [execute_succ host fuel program hcancelled hframes, hi]
  dsimp only
  rw [step, Failing.bind_apply, hleave]
  rfl

/-- An instruction that fails ends the run, and the pc of its frame is left at it. -/
theorem execute_raised {e : RuntimeError} (hcancelled : m.stack.cancelled = false)
    (hframes : m.stack.frames = f :: rest) (hi : program.instructionAt f.pc.offset = .ok (i, next))
    (hstep : step host (runWith (execute host fuel)) program next i (m.advanced f rest next) =
      (.error (.raised e), m')) :
    execute host (fuel + 1) program m = (.error (.raised e),
      m'.placed rest.length fun _ => ⟨f.pc.offset, program.nodeAt f.pc.offset⟩) := by
  rw [execute_succ host fuel program hcancelled hframes, hi]
  dsimp only
  rw [hstep]
  rfl

end

/-! ### Runs and calls -/

section

variable {m m₁ m₂ : Machine} {p : Program} {fuel : Nat} {block : BlockId} {inputs : List Value}
  {libraries : Libraries}

variable (libraries) in
/-- A stack whose frames are up to date executes the program of its active frame. -/
theorem run_of_held (fuel : Nat) (hphase : m.stack.phase = .ready)
    (hheld : ∀ f ∈ m.stack.frames, f.Held m.world) (hp : m.Executing p) :
    run fuel libraries m = ended (execute (.idle libraries) fuel p m.started) := by
  have hframes : m.stack.frames ≠ [] := by
    obtain ⟨f, rest, hf, -, -⟩ := hp
    rw [hf]
    exact List.cons_ne_nil f rest
  have hstarted : m.started.Executing p := hp
  rw [run, runBy, runWith_ready hphase hframes, body, Failing.bind_apply,
    restartIfStale_of_held (m := m.started) hheld]
  dsimp only
  rw [Failing.bind_apply, hstarted.currentProgram]

/-- What is called and finishes gives its outputs, and its frame is gone. -/
theorem call_finished (hpush : push block inputs m = (.ok (), m₁))
    (hrun : run fuel libraries m₁ = (.ok .finished, m₂)) : call fuel block inputs libraries m =
      (.ok m₂.outputs, { m₂ with stack := { m₂.stack.clearFrames with phase := .ready } }) := by
  rw [call, callWith, Failing.bind_apply, hpush]
  dsimp only
  rw [Failing.bind_apply, hrun]
  rfl

/-- What is called and fails leaves the machine of its run. -/
theorem call_failed {fault : Fault} (hpush : push block inputs m = (.ok (), m₁))
    (hrun : run fuel libraries m₁ = (.error fault, m₂)) :
    call fuel block inputs libraries m = (.error fault, m₂) := by
  rw [call, callWith, Failing.bind_apply, hpush]
  dsimp only
  rw [Failing.bind_apply, hrun]

/-- A call that gives outputs pushed its block and ran it to its end. -/
theorem call_ok {outputs : List Value} (h : call fuel block inputs libraries m = (.ok outputs, m₂)) :
    ∃ n k, push block inputs m = (.ok (), n) ∧ run fuel libraries n = (.ok .finished, k) ∧ outputs = k.outputs ∧
      m₂ = { k with stack := { k.stack.clearFrames with phase := .ready } } := by
  rw [call, callWith] at h
  obtain ⟨⟨⟩, n, hpush, h⟩ := bind_ok h
  obtain ⟨outcome, k, hrun, h⟩ := bind_ok h
  cases outcome with
  | finished =>
    exact ⟨n, k, hpush, hrun, (Except.ok.inj (congrArg Prod.fst h)).symm, (congrArg Prod.snd h).symm⟩
  | _ => cases congrArg Prod.fst h

end

end Machine

end BlockMachine

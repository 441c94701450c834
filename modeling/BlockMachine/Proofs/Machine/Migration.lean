import BlockMachine.Proofs.Machine.Calls
import BlockMachine.Proofs.Machine.Loop

namespace BlockMachine

/-!
# Migrations that fail

A migration empties the stack first and enters the new main block then. When the block cannot be
entered, the stack stays empty: what ran before is not brought back.

* `Stack.emptied` is a stack with nothing on it, which keeps what outlives its frames;
* **`Machine.migration_fails`**: what a failed migration leaves, for all three ways to migrate;
* `Interim.migration_drops_frames`: a paused program is lost in a migration that fails.
-/

/-- The stack with nothing on it and nothing noted of earlier runs. The state tree, the environment,
    the channels, the caches, the random numbers and the settings stay. -/
def Stack.emptied (s : Stack) : Stack :=
  { s with
    frames := []
    retained := []
    error := none
    phase := .ready
    lastOutcome := none
    cancelled := false }

namespace Machine

variable {m m' : Machine} {e : Fault}

/-- Where the new main block cannot be entered, the stack is empty. -/
theorem changeMain_fails {block : BlockId} {inputs bindings : List Value}
    (h : changeMain block inputs bindings m = (.error e, m')) : m'.stack = m.stack.emptied := by
  have hpushes := enter_pushes block inputs { bindings := bindings }
    { m with stack := { m.stack.startOver with retained := [] } }
  have henter : enter block inputs { bindings := bindings }
      { m with stack := { m.stack.startOver with retained := [] } } = (.error e, m') := h
  rw [henter] at hpushes
  cases hpushes with
  | refused hstack => exact hstack

/-- A migration from one block to another fails only in changing the main block. -/
theorem migrate_fails {old new : BlockId} (h : migrate old new m = (.error e, m')) :
    (∃ root, m.stack.frames.getLast? = some root ∧ root.block = old) ∧
      m'.stack = (m.rebound old new).stack.emptied := by
  rw [migrate_apply] at h
  cases hroot : m.stack.frames.getLast? with
  | none =>
    rw [hroot] at h
    exact nomatch (Prod.mk.inj h).1
  | some root =>
    rw [hroot] at h
    dsimp only at h
    split at h
    · next hblock => exact ⟨⟨root, rfl, hblock⟩, changeMain_fails h⟩
    · exact nomatch (Prod.mk.inj h).1

/-- **Failed migrations.** A migration to a value that is no closure fails and changes nothing. Every
    other failed migration leaves the stack empty, with the state tree, the environment, the
    channels, the caches, the random numbers and the settings as they were; where code moves from
    one block to another, the root ran the one, and the closures in the state tree are already
    bound to the other. -/
theorem migration_fails (m : Machine) :
    (∀ block inputs e m', migrateTo block inputs m = (.error e, m') →
      m'.stack = m.stack.emptied) ∧
    (∀ func inputs e m', migrateToFunc func inputs m = (.error e, m') →
      if func.func?.isSome then m'.stack = m.stack.emptied else m' = m) ∧
    ∀ old new e m', migrate old new m = (.error e, m') →
      (∃ root, m.stack.frames.getLast? = some root ∧ root.block = old) ∧
      m'.stack = { m.stack.emptied with
        state := (m.stack.state.rebind old new m.world.supply).1 } := by
  refine ⟨fun block inputs e m' h => changeMain_fails h, fun func inputs e m' h => ?_,
    fun old new e m' h => migrate_fails h⟩
  rw [migrateToFunc] at h
  cases hfunc : func.func? with
  | none =>
    rw [hfunc] at h
    exact (Prod.mk.inj h).2.symm
  | some closure =>
    rw [hfunc] at h
    exact changeMain_fails h

end Machine

/-! ### A migration in the middle of a run -/

namespace Interim

open Machine

/-- A block that waits. -/
def world : World :=
  (World.addBlock {} { name := "wait" } [.code (.emit .pause), .code (.emit .ret)]).2

/-- The block has paused, and the state tree holds a closure over it. -/
def paused : Machine :=
  (do push 0 []; setState (.func 0 0 []); let _ ← runBy .idle 5 : Action Unit)
    ⟨world, .new {}, ""⟩ |>.2

/-- What an operation answers. -/
def fault? {α : Type} (a : Action α) : Option Fault :=
  match (a paused).1 with
  | .ok _ => none
  | .error e => some e

theorem eq_of_fault? {α : Type} {a : Action α} {e : Fault} (h : fault? a = some e) :
    a paused = (.error e, (a paused).2) := by
  unfold fault? at h
  split at h
  · exact nomatch h
  · next e' he =>
    obtain rfl := Option.some.inj h
    exact Prod.ext he rfl

/-- The block is refused an argument, an integer is refused as no closure, and there is no block of
    number nine. -/
theorem migration_fails_interim :
    (migrateTo 0 [.int 3] paused).1 = .error (.raised (.arityMismatch "wait" 0 1)) ∧
    (migrateTo 0 [.int 3] paused).2.stack = paused.stack.emptied ∧
    (migrateToFunc (.int 3) [] paused).1 = .error (.raised (.typeMismatch "func" "int")) ∧
    (migrateToFunc (.int 3) [] paused).2 = paused ∧
    (migrate 0 9 paused).1 = .error (.raised (.compile (.unknownBlock 9))) ∧
    (migrate 0 9 paused).2.stack = { paused.stack.emptied with
      state := (paused.stack.state.rebind 0 9 paused.world.supply).1 } := by
  have hto := eq_of_fault? (a := migrateTo 0 [.int 3])
    (by decide +kernel : _ = some (.raised (.arityMismatch "wait" 0 1)))
  have hfunc := eq_of_fault? (a := migrateToFunc (.int 3) [])
    (by decide +kernel : _ = some (.raised (.typeMismatch "func" "int")))
  have hmove := eq_of_fault? (a := migrate 0 9)
    (by decide +kernel : _ = some (.raised (.compile (.unknownBlock 9))))
  obtain ⟨hfails, hfails', hfails''⟩ := migration_fails paused
  exact ⟨congrArg Prod.fst hto, hfails _ _ _ _ hto, congrArg Prod.fst hfunc, hfails' _ _ _ _ hfunc,
    congrArg Prod.fst hmove, (hfails'' _ _ _ _ hmove).2⟩

/-- A failed migration drops the frame that waits, so it is not all or nothing. -/
theorem migration_drops_frames :
    ¬ ∀ block inputs e m', migrateTo block inputs paused = (.error e, m') →
      m'.stack = paused.stack := by
  intro hall
  have hto := eq_of_fault? (a := migrateTo 9 [])
    (by decide +kernel : _ = some (.raised (.compile (.unknownBlock 9))))
  have hbefore : paused.stack.frames.length = 1 := by decide +kernel
  have hafter : (migrateTo 9 [] paused).2.stack.frames.length = 0 := by decide +kernel
  rw [hall _ _ _ _ hto, hbefore] at hafter
  exact nomatch hafter

end Interim

end BlockMachine

import BlockMachine.Proofs.Machine.Invariant

namespace BlockMachine

/-!
# Computations that do not depend on caches

A computation agrees from a machine when it does the same without caches: it gives the same
result or error, and leaves the same machine but for caches.

* `Machine.Agrees` is the judgement, with what holds of the result and of the machine it leaves;
* `Machine.Keeps` is the judgement for computations that stay within a set of machines;
* the rules that follow are one for each building block of a computation.
-/

namespace Machine

variable {α β : Type}

/-- From `m` on, a computation does the same without caches. When it gives a result, `Q` holds of
    it and of the machine it leaves; when it raises an error, `E` holds of the machine. -/
inductive Agrees (a : Action α) (m : Machine) (Q : α → Machine → Prop) (E : Machine → Prop) :
    Prop where
  | ok {x : α} {m' : Machine} (run : a m = (.ok x, m'))
    (uncached : a m.uncached = (.ok x, m'.uncached)) (holds : Q x m')
  | raised {e : RuntimeError} {m' : Machine} (run : a m = (.error (.raised e), m'))
    (uncached : a m.uncached = (.error (.raised e), m'.uncached)) (holds : E m')
  | fatal {fault : Fault} {m' : Machine} (run : a m = (.error fault, m'))
    (uncached : a m.uncached = (.error fault, m'.uncached)) (hfault : ∀ e, fault ≠ .raised e)

/-- How a computation ended, as `Machine.attempt` reports it. -/
def Ended (Q : α → Machine → Prop) (E : Machine → Prop) : Except Fault α → Machine → Prop
  | .ok x, m => Q x m
  | .error (.raised _), m => E m
  | .error _, _ => True

namespace Agrees

variable {a : Action α} {f : α → Action β} {m : Machine} {Q Q' : α → Machine → Prop}
  {R : β → Machine → Prop} {E E' : Machine → Prop}

/-- What is known of result and machine may be passed on as less. -/
theorem mono (h : Agrees a m Q E) (hQ : ∀ x m', Q x m' → Q' x m') (hE : ∀ m', E m' → E' m') :
    Agrees a m Q' E' := by
  cases h with
  | ok run uncached holds => exact .ok run uncached (hQ _ _ holds)
  | raised run uncached holds => exact .raised run uncached (hE _ holds)
  | fatal run uncached hfault => exact .fatal run uncached hfault

/-- What is known of the machine that an error leaves may be passed on as less. -/
theorem relax (h : Agrees a m Q E) (hE : ∀ m', E m' → E' m') : Agrees a m Q E' :=
  h.mono (fun _ _ hx => hx) hE

/-- Computations that do the same from the two machines agree together. -/
theorem congr {a' : Action α} {m' : Machine} (h : Agrees a m Q E) (hrun : a' m' = a m)
    (huncached : a' m'.uncached = a m.uncached) : Agrees a' m' Q E := by
  cases h with
  | ok run uncached holds => exact .ok (hrun.trans run) (huncached.trans uncached) holds
  | raised run uncached holds => exact .raised (hrun.trans run) (huncached.trans uncached) holds
  | fatal run uncached hfault => exact .fatal (hrun.trans run) (huncached.trans uncached) hfault

/-- A value is given back, with caches and without. -/
theorem pure {x : α} (h : Q x m) : Agrees (pure x) m Q E :=
  .ok rfl rfl h

/-- The same error is raised, with caches and without. -/
theorem raise {e : RuntimeError} (h : E m) : Agrees (raise e) m Q E :=
  .raised rfl rfl h

/-- Of the machine nothing is asked after a crash, or when the fuel runs out. -/
theorem throw_fatal {fault : Fault} (h : ∀ e, fault ≠ .raised e) : Agrees (throw fault) m Q E :=
  .fatal rfl rfl h

/-- Computations that agree do so one after the other. -/
theorem bind (ha : Agrees a m Q E) (hf : ∀ x m', Q x m' → Agrees (f x) m' R E) :
    Agrees (a >>= f) m R E := by
  cases ha with
  | ok run uncached holds =>
    refine (hf _ _ holds).congr ?_ ?_
    · rw [Failing.bind_apply, run]
    · rw [Failing.bind_apply, uncached]
  | @raised e m' run uncached holds =>
    -- what follows is skipped on both sides
    have hrun : (a >>= f) m = (.error (.raised e), m') := by rw [Failing.bind_apply, run]
    have huncached : (a >>= f) m.uncached = (.error (.raised e), m'.uncached) := by
      rw [Failing.bind_apply, uncached]
    exact .raised hrun huncached holds
  | @fatal fault m' run uncached hfault =>
    have hrun : (a >>= f) m = (.error fault, m') := by rw [Failing.bind_apply, run]
    have huncached : (a >>= f) m.uncached = (.error fault, m'.uncached) := by
      rw [Failing.bind_apply, uncached]
    exact .fatal hrun huncached hfault

/-- Nothing follows an error. -/
theorem raise_bind {e : RuntimeError} (h : E m) : Agrees (Machine.raise e >>= f) m R E :=
  .raised rfl rfl h

/-- What is read of a machine must not be its caches. -/
theorem get_bind {f : Machine → Action β} (hf : f m.uncached = f m) (h : Agrees (f m) m R E) :
    Agrees (get >>= f) m R E :=
  h.congr rfl (congrArg (· m.uncached) hf)

/-- What is read of a stack must not be its caches. -/
theorem getStack_bind {f : Stack → Action β} (hf : f m.stack.uncached = f m.stack)
    (h : Agrees (f m.stack) m R E) : Agrees (getStack >>= f) m R E :=
  h.congr rfl (congrArg (· m.uncached) hf)

/-- A change of the machine has to be the same without caches. -/
theorem modify {g : Machine → Machine} {P : Unit → Machine → Prop}
    (hg : g m.uncached = (g m).uncached) (h : P () (g m)) : Agrees (modify g) m P E :=
  .ok rfl (congrArg (Prod.mk _) hg) h

/-- A change of the stack has to be the same without caches. -/
theorem modifyStack {g : Stack → Stack} {P : Unit → Machine → Prop}
    (hg : g m.stack.uncached = (g m.stack).uncached) (h : P () { m with stack := g m.stack }) :
    Agrees (modifyStack g) m P E :=
  modify (by rw [Machine.uncached, hg]; rfl) h

/-- A change of the stack and its answer have to be the same without caches. -/
theorem onStack {g : Stack → α × Stack}
    (hg : g m.stack.uncached = ((g m.stack).1, (g m.stack).2.uncached))
    (h : Q (g m.stack).1 { m with stack := (g m.stack).2 }) : Agrees (onStack g) m Q E := by
  refine .ok rfl ?_ h
  change (Except.ok (g m.stack.uncached).1, { m.uncached with stack := (g m.stack.uncached).2 }) = _
  rw [hg]
  rfl

/-- The world is the same without caches. -/
theorem tryWorld {g : World.Action α} {P : Except CompileError α → Machine → Prop}
    (h : P (g m.world).1 { m with world := (g m.world).2 }) : Agrees (tryWorld g) m P E :=
  .ok rfl rfl h

/-- Errors of the world are raised, with caches and without. -/
theorem onWorld {g : World.Action α}
    (hok : ∀ x, (g m.world).1 = .ok x → Q x { m with world := (g m.world).2 })
    (herror : E { m with world := (g m.world).2 }) : Agrees (onWorld g) m Q E := by
  -- both sides run the same computation on the same world, so the match goes the same way twice
  have hrun : ∀ n : Machine, n.world = m.world → Machine.onWorld g n =
      (Except.mapError (.raised ∘ .compile) (g m.world).1,
        { n with world := (g m.world).2 }) := by
    intro n hn
    simp only [Machine.onWorld, Failing.bind_apply, Failing.get_apply, hn]
    rcases g m.world with ⟨_ | _, _⟩ <;> rfl
  cases hg : (g m.world).1 with
  | ok x =>
    rw [hg] at hrun
    exact .ok (hrun m rfl) (hrun m.uncached rfl) (hok x hg)
  | error e =>
    rw [hg] at hrun
    exact .raised (hrun m rfl) (hrun m.uncached rfl) herror

/-- The world changes the same way. -/
theorem changeWorld {g : World → α × World}
    (h : Q (g m.world).1 { m with world := (g m.world).2 }) : Agrees (changeWorld g) m Q E :=
  .ok rfl rfl h

/-- The same buffer numbers are taken, with caches and without. -/
theorem allocate {g : Fresh α} (h : Q (g m.world.supply).1
      { m with world := { m.world with supply := (g m.world.supply).2 } }) :
    Agrees (allocate g) m Q E :=
  .ok rfl rfl h

/-- The same casts succeed, with caches and without, and give the same values. -/
theorem tryCast {ty : Ty} {v : Value} {P : Except CastError Value → Machine → Prop}
    (hok : ∀ w supply, ty.cast v m.world.supply = .ok (w, supply) →
      P (.ok w) { m with world := { m.world with supply := supply } })
    (herror : ∀ e, P (.error e) m) : Agrees (tryCast ty v) m P E := by
  cases hcast : ty.cast v m.world.supply with
  | ok r =>
    have hrun : ∀ m' : Machine, m'.world = m.world → Machine.tryCast ty v m' =
        (.ok (.ok r.1), { m' with world := { m'.world with supply := r.2 } }) := by
      intro m' hworld
      simp only [Machine.tryCast, Failing.bind_apply, Failing.get_apply, hworld, hcast]
      rfl
    exact .ok (hrun m rfl) (hrun m.uncached rfl) (hok r.1 r.2 hcast)
  | error e =>
    have hrun : ∀ m' : Machine, m'.world = m.world → Machine.tryCast ty v m' =
        (.ok (.error e), m') := by
      intro m' hworld
      simp only [Machine.tryCast, Failing.bind_apply, Failing.get_apply, hworld, hcast]
      rfl
    exact .ok (hrun m rfl) (hrun m.uncached rfl) (herror e)

/-- A reported failure is a result. -/
theorem attempt (h : Agrees a m Q E) : Agrees (attempt a) m (Ended Q E) E' := by
  have hattempt : ∀ {m m' : Machine} {r : Except Fault α}, a m = (r, m') →
      Machine.attempt a m = (.ok r, m') := by
    intro m m' r hrun
    rw [Machine.attempt, hrun]
  cases h with
  | ok run uncached holds => exact .ok (hattempt run) (hattempt uncached) holds
  | raised run uncached holds => exact .ok (hattempt run) (hattempt uncached) holds
  | @fatal fault m' run uncached hfault =>
    have hended : Ended Q E (.error fault) m' := by
      cases fault with
      | raised e => exact absurd rfl (hfault e)
      | crashed => trivial
      | outOfFuel => trivial
    exact .ok (hattempt run) (hattempt uncached) hended

end Agrees

/-! ### Sets of machines -/

/-- From every machine of a set, a computation does the same without caches, and stays in the set.
    Its results satisfy `Q`. -/
def Keeps (S : Machine → Prop) (a : Action α) (Q : α → Prop) : Prop :=
  ∀ m, S m → Agrees a m (fun x m' => S m' ∧ Q x) S

namespace Keeps

variable {S : Machine → Prop} {a : Action α} {f : α → Action β} {Q Q' : α → Prop} {R : β → Prop}

/-- Less may be asked of the results. -/
theorem mono (h : Keeps S a Q) (hQ : ∀ x, Q x → Q' x) : Keeps S a Q' :=
  fun m hm => (h m hm).mono (fun x _ hx => ⟨hx.1, hQ x hx.2⟩) fun _ h => h

/-- A value that satisfies `Q` is given back. -/
theorem pure {x : α} (h : Q x) : Keeps S (pure x) Q :=
  fun _ hm => .pure ⟨hm, h⟩

/-- An error leaves the machine in its set. -/
theorem raise (e : RuntimeError) : Keeps S (raise e) Q :=
  fun _ hm => .raise hm

/-- A rule that the program broke leaves the machine in its set. -/
theorem violate (v : Violation) : Keeps S (violate v) Q :=
  raise _

/-- A value of another type than expected leaves the machine in its set. -/
theorem mismatch (expected : String) (v : Value) : Keeps S (mismatch expected v) Q :=
  raise _

/-- Computations that keep a set do so one after the other. -/
theorem bind (ha : Keeps S a Q) (hf : ∀ x, Q x → Keeps S (f x) R) : Keeps S (a >>= f) R :=
  fun m hm => (ha m hm).bind fun x m' hx => hf x hx.2 m' hx.1

/-- Nothing follows an error. -/
theorem raise_bind (e : RuntimeError) : Keeps S (Machine.raise e >>= f) R :=
  fun _ hm => .raise_bind hm

/-- What is read of a machine must not be its caches, and may be that it is in the set. -/
theorem get_bind {f : Machine → Action β} (hf : ∀ m, f m.uncached = f m)
    (h : ∀ m, S m → Keeps S (f m) R) : Keeps S (get >>= f) R :=
  fun m hm => .get_bind (hf m) (h m hm m hm)

/-- What is read of a stack must not be its caches, and may be that its machine is in the set. -/
theorem getStack_bind {f : Stack → Action β} (hf : ∀ s, f s.uncached = f s)
    (h : ∀ m, S m → Keeps S (f m.stack) R) : Keeps S (getStack >>= f) R :=
  fun m hm => .getStack_bind (hf m.stack) (h m hm m hm)

/-- A change of the stack has to be the same without caches, and to stay in the set. -/
theorem modifyStack {g : Stack → Stack} (hg : ∀ s, g s.uncached = (g s).uncached)
    (h : ∀ m, S m → S { m with stack := g m.stack }) :
    Keeps S (modifyStack g) fun _ => True :=
  fun m hm => .modifyStack (hg m.stack) ⟨h m hm, trivial⟩

end Keeps

end Machine

end BlockMachine

namespace BlockMachine

/-!
# Computations that keep their state when they fail

Computations on worlds and machines are state transformers that give a result or an error, and
the state they reached in both cases. The lemmas here say what the steps of such a computation
do when it is run from a state. `state_bind_ok` and `state_bind_apply` are about computations that lose their
state when they fail.
-/

namespace Failing

variable {ε σ α β : Type}

theorem bind_apply (x : ExceptT ε (StateM σ) α) (f : α → ExceptT ε (StateM σ) β) (s : σ) :
    (x >>= f) s = match x s with
      | (.ok a, s') => f a s'
      | (.error e, s') => (.error e, s') := by
  change (StateT.bind x (ExceptT.bindCont f)) s = _
  rw [StateT.bind]
  rcases x s with ⟨_ | _, s'⟩ <;> rfl

theorem pure_apply (a : α) (s : σ) : (pure a : ExceptT ε (StateM σ) α) s = (.ok a, s) := rfl

theorem get_apply (s : σ) : (get : ExceptT ε (StateM σ) σ) s = (.ok s, s) := rfl

theorem set_apply (s' s : σ) : (set s' : ExceptT ε (StateM σ) PUnit) s = (.ok ⟨⟩, s') := rfl

theorem except_apply (r : Except ε α) (s : σ) :
    (liftM r : ExceptT ε (StateM σ) α) s = (r, s) := by
  cases r <;> rfl

theorem lift_apply (x : StateM σ α) (s : σ) :
    (liftM x : ExceptT ε (StateM σ) α) s = (.ok (x s).1, (x s).2) := rfl

end Failing

/-! ### Computations that lose their state -/

/-- A computation that went well went well in its first part. -/
theorem state_bind_ok {σ ε α β : Type} {x : StateT σ (Except ε) α} {f : α → StateT σ (Except ε) β} {s s' : σ}
    {b : β} (h : (x >>= f) s = .ok (b, s')) : ∃ a s₁, x s = .ok (a, s₁) ∧ f a s₁ = .ok (b, s') := by
  change (x s).bind (fun r => f r.1 r.2) = _ at h
  cases hx : x s with
  | error e =>
    rw [hx] at h
    cases h
  | ok r =>
    rw [hx] at h
    exact ⟨r.1, r.2, rfl, h⟩

/-- A computation goes on from what its first part came to. -/
theorem state_bind_apply {σ ε α β : Type} {x : StateT σ (Except ε) α} {f : α → StateT σ (Except ε) β} {s s₁ : σ}
    {a : α} (h : x s = .ok (a, s₁)) : (x >>= f) s = f a s₁ := by
  change (x s).bind (fun r => f r.1 r.2) = _
  rw [h]
  rfl

end BlockMachine

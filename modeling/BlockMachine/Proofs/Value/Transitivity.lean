import BlockMachine.Proofs.Value.Equality

namespace BlockMachine

/-!
# Transitivity of equality

Two integers are equal when they are the same, an integer and a float when the integer rounds to
the float. A float between two integers that round to it is equal to both of them, and this is the
only way in which equality fails to be transitive.

* `Value.Inside p v` says that `p` is `v` or somewhere inside it;
* **`Value.equals_trans_or`**: two values that equal a third equal each other, or hold two integers
  that are one float, one of them of more than fifty-three digits;
* `Halfway.equals_not_trans`: such integers.
-/

/-! ### Chains of pairs -/

section Chains

variable {α : Type}

theorem forall₂_trans_mem {R : α → α → Prop} {xs ys zs : List α}
    (hR : ∀ x ∈ xs, ∀ y ∈ ys, ∀ z ∈ zs, R x y → R y z → R x z)
    (h : List.Forall₂ R xs ys) (h' : List.Forall₂ R ys zs) : List.Forall₂ R xs zs := by
  induction h generalizing zs with
  | nil =>
    cases h'
    exact .nil
  | cons hxy _ ih =>
    cases h' with
    | cons hyz hrest' =>
      refine .cons (hR _ (.head _) _ (.head _) _ (.head _) hxy hyz) (ih ?_ hrest')
      exact fun x hx y hy z hz => hR x (.tail _ hx) y (.tail _ hy) z (.tail _ hz)

/-- Entries that pair off with entries that pair off. -/
theorem Entries.Paired.trans {R : α → α → Prop} {xs ys zs : List (Key × α)}
    (h : Paired R xs ys) (h' : Paired R ys zs)
    (hR : ∀ x ∈ xs, ∀ y ∈ ys, ∀ z ∈ zs, R x.2 y.2 → R y.2 z.2 → R x.2 z.2) : Paired R xs zs := by
  obtain ⟨ys', hpairs, hperm⟩ := h
  obtain ⟨zs', hpairs', hperm'⟩ := h'
  -- the second pairing is taken in the order of the first
  obtain ⟨zs'', hpairs'', hperm''⟩ := List.perm_comp_forall₂ hperm hpairs'
  refine ⟨zs'', forall₂_trans_mem ?_ hpairs hpairs'', hperm''.trans hperm'⟩
  intro x hx y hy z hz hxy hyz
  have hz' := (hperm''.trans hperm').mem_iff.1 hz
  exact ⟨hxy.1.trans hyz.1, hR x hx y (hperm.mem_iff.1 hy) z hz' hxy.2 hyz.2⟩

end Chains

namespace Value

/-- A value is another one, or somewhere inside it. -/
inductive Inside (p : Value) : Value → Prop where
  | here : Inside p p
  | part {v q : Value} (hq : q ∈ v.parts) (h : Inside p q) : Inside p v

section Trans

variable {n : BufferId} {val : BufferId → Value} {a b c : Value}

/-- Numbers that are equal as floats are equal, integers only to themselves. -/
theorem equals_of_floats {x y : Float} (ha : a.InHeap n val) (hb : b.InHeap n val)
    (hx : a.float? = some x) (hy : b.float? = some y) (h : (x == y) = true)
    (hints : ∀ i j, a = int i → b = int j → i = j) : a.equals b = true := by
  by_cases hmixed : a.int? = none ∨ b.int? = none
  · exact Matches.equals ha hb (.number hx hy hmixed h)
  · cases a <;> cases b <;> simp [int?] at hmixed
    rw [hints _ _ rfl rfl]
    simp [equals]

/-- Two values that match a third are equal when their parts are, and integers that are one float
    are one integer. -/
theorem Matches.trans (ha : a.InHeap n val) (hc : c.InHeap n val) (h : Matches a b) (h' : Matches b c)
    (hints : ∀ i j, a = int i → c = int j → (floatOfInt i == floatOfInt j) = true → i = j)
    (hparts : ∀ p ∈ a.parts, ∀ q ∈ b.parts, ∀ r ∈ c.parts,
      p.equals q = true → q.equals r = true → p.equals r = true) : a.equals c = true := by
  cases h with
  | number hx hy _ h =>
    cases h' with
    | number hy' hz _ h' =>
      obtain rfl := Option.some.inj (hy.symm.trans hy')
      have heq := BEq.trans h h'
      refine equals_of_floats ha hc hx hz heq ?_
      rintro i j rfl rfl
      obtain rfl := Option.some.inj hx
      obtain rfl := Option.some.inj hz
      exact hints i j rfl rfl heq
    | _ => exact nomatch hy
  | str i j s =>
    cases h' with
    | str _ k => exact Matches.equals ha hc (.str i k s)
    | number hb => exact nomatch hb
  | list i j items =>
    cases h' with
    | list _ k items' => exact Matches.equals ha hc (.list i k (forall₂_trans_mem hparts items items'))
    | number hb => exact nomatch hb
  | map i j entries =>
    cases h' with
    | map _ k entries' =>
      refine Matches.equals ha hc (.map i k (entries.trans entries' ?_))
      exact fun x hx y hy z hz => hparts _ (List.mem_map_of_mem hx) _ (List.mem_map_of_mem hy) _
        (List.mem_map_of_mem hz)
    | number hb => exact nomatch hb
  | record i j hid fields =>
    cases h' with
    | record _ k hid' fields' =>
      exact Matches.equals ha hc
        (.record i k (hid.trans hid') (forall₂_trans_mem hparts fields fields'))
    | number hb => exact nomatch hb
  | func i j block bindings =>
    cases h' with
    | func _ k _ bindings' =>
      exact Matches.equals ha hc (.func i k block (forall₂_trans_mem hparts bindings bindings'))
    | number hb => exact nomatch hb
  | module hid =>
    cases h' with
    | module hid' => exact Matches.equals ha hc (.module (hid.trans hid'))
    | number hb => exact nomatch hb

theorem equals_trans (ha : a.InHeap n val) (hb : b.InHeap n val) (hc : c.InHeap n val)
    (hab : a.equals b = true) (hbc : b.equals c = true)
    (hints : ∀ i j, Inside (int i) a → Inside (int j) c →
      (floatOfInt i == floatOfInt j) = true → i = j) : a.equals c = true := by
  induction a using induction_parts generalizing b c with
  | h a ih =>
    rcases matches_of_equals ha hb hab with rfl | hab'
    · exact hbc
    rcases matches_of_equals hb hc hbc with rfl | hbc'
    · exact hab
    refine Matches.trans ha hc hab' hbc' ?_ fun p hp q hq r hr hpq hqr => ?_
    · rintro i j rfl rfl
      exact hints i j .here .here
    · exact ih p hp (ha.part p hp) (hb.part q hq) (hc.part r hr) hpq hqr fun i j hi hj =>
        hints i j (.part hp hi) (.part hr hj)

/-- **Transitivity of equality.** Of three values of one heap, if the first equals the second and the
    second the third, then the first equals the third, or holds an integer that rounds to the same
    float as another integer in the third; of two such integers one has more than fifty-three
    digits. -/
theorem equals_trans_or (ha : a.InHeap n val) (hb : b.InHeap n val) (hc : c.InHeap n val)
    (hab : a.equals b = true) (hbc : b.equals c = true) :
    a.equals c = true ∨
      ∃ i j, Inside (int i) a ∧ Inside (int j) c ∧ i ≠ j ∧
        (floatOfInt i == floatOfInt j) = true ∧
        (2 ^ 53 < i.toInt.natAbs ∨ 2 ^ 53 < j.toInt.natAbs) := by
  by_contra hnot
  obtain ⟨hne, hnone⟩ := not_or.1 hnot
  refine hne (equals_trans ha hb hc hab hbc fun i j hi hj hfloat => ?_)
  by_contra hij
  refine hij (Binary64.floatOfInt_inj ?_ ?_ hfloat) <;> by_contra hbig
  · exact hnone ⟨i, j, hi, hj, hij, hfloat, .inl (Nat.lt_of_not_le hbig)⟩
  · exact hnone ⟨i, j, hi, hj, hij, hfloat, .inr (Nat.lt_of_not_le hbig)⟩

end Trans

end Value

namespace Halfway

/-- Three lists with a number each, of which the middle one is the float of both others. -/
def heap : BufferId → Value
  | 0 => .list 0 [.int 9007199254740993]
  | 1 => .list 1 [.float 9007199254740992.0]
  | _ => .list 2 [.int 9007199254740992]

theorem inHeap (i : Fin 3) : (heap i).InHeap 3 heap := by
  match i with
  | 0 | 1 | 2 =>
    refine .of_parts ?_ trivial fun p hp => ?_
    · rintro _ ⟨⟩
      exact ⟨by decide, rfl⟩
    · obtain rfl := List.mem_singleton.1 hp
      exact .of_atom rfl

theorem equals_trans_or_halfway :
    ((heap 0).equals (heap 1) = true ∧ (heap 1).equals (heap 2) = true) ∧
      ((heap 0).equals (heap 2) = true ∨
        ∃ i j, Value.Inside (.int i) (heap 0) ∧ Value.Inside (.int j) (heap 2) ∧ i ≠ j ∧
          (Value.floatOfInt i == Value.floatOfInt j) = true ∧
          (2 ^ 53 < i.toInt.natAbs ∨ 2 ^ 53 < j.toInt.natAbs)) :=
  ⟨by decide +kernel, Value.equals_trans_or (inHeap 0) (inHeap 1) (inHeap 2)
    (by decide +kernel) (by decide +kernel)⟩

/-- The first and the last are different integers, so equality is not transitive. -/
theorem equals_not_trans :
    (heap 0).equals (heap 1) = true ∧ (heap 1).equals (heap 2) = true ∧
      (heap 0).equals (heap 2) = false := by
  decide +kernel

end Halfway

end BlockMachine

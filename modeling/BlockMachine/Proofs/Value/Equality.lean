import BlockMachine.Value.Equality
import BlockMachine.Value.Fingerprint
import BlockMachine.Proofs.Value.Floats
import BlockMachine.Proofs.Value.Parts
import BlockMachine.Proofs.Value.Typing
import Mathlib.Data.List.Forall2
import Mathlib.Data.List.Nodup
import Mathlib.Data.List.Perm.Basic

namespace BlockMachine

/-!
# Equality and hashing

Equality goes through values from the outside in, and so does hashing. Values are taken from one
heap, where a buffer number stands for one node, and a map has every key once.

* `Value.InHeap` says that a value belongs to a heap, `Value.InHeap.eq_of_id` that the short cut of
  equality for one and the same buffer is right;
* `Value.equalItems_symm` and `Value.includedIn_symm` turn a comparison round, with the order in
  which maps ask their entries;
* `Value.Matches` tells what two equal values are, constructor by constructor, and
  `Entries.Paired` pairs off the entries of two maps in any order;
* **`Value.equals_symm_hash`**: equality is symmetric, and equal values are hashed alike.
-/

/-! ### Entries in any order -/

namespace Entries

variable {α : Type} {R : α → α → Prop} {xs ys zs : List (Key × α)}

/-- An entry that is found is there. -/
theorem mem_of_get? {k : Key} {a : α} (h : get? k xs = some a) : (k, a) ∈ xs := by
  induction xs with
  | nil => exact nomatch h
  | cons e rest ih =>
    obtain ⟨k', a'⟩ := e
    rw [get?] at h
    split at h
    · next hk =>
      obtain rfl := Option.some.inj h
      rw [hk]
      exact List.mem_cons_self
    · exact List.mem_cons_of_mem _ (ih h)

/-- An entry that is there is found, if no key stands there twice. -/
theorem get?_of_mem (hkeys : (xs.map (·.1)).Nodup) {k : Key} {a : α} (h : (k, a) ∈ xs) :
    get? k xs = some a := by
  induction xs with
  | nil => exact nomatch h
  | cons e rest ih =>
    obtain ⟨k', a'⟩ := e
    obtain ⟨hfresh, hkeys⟩ := List.nodup_cons.1 hkeys
    rw [get?]
    rcases List.mem_cons.1 h with heq | hmem
    · obtain ⟨rfl, rfl⟩ := Prod.mk.inj heq
      exact if_pos rfl
    · have hne : k' ≠ k := by
        rintro rfl
        exact hfresh (List.mem_map.2 ⟨_, hmem, rfl⟩)
      rw [if_neg hne, ih hkeys hmem]

/-- A key is found if it is one of the keys. -/
theorem isSome_get?_iff {k : Key} : (get? k xs).isSome = true ↔ k ∈ xs.map (·.1) := by
  induction xs with
  | nil => simp [get?]
  | cons x rest ih =>
    obtain ⟨k', a⟩ := x
    rw [get?, List.map_cons, List.mem_cons, ← ih]
    by_cases hk : k' = k
    · simp [hk]
    · simp [hk, Ne.symm hk]

/-- The entries of two maps pair off, in any order: the keys are the same, and the values are
    related. -/
def Paired (R : α → α → Prop) (xs ys : List (Key × α)) : Prop :=
  ∃ ys', List.Forall₂ (fun x y => x.1 = y.1 ∧ R x.2 y.2) xs ys' ∧ ys'.Perm ys

/-- Entries pair off when each of the first has a related one among the second, and there are as
    many of both: distinct keys have distinct partners. -/
theorem paired_of_forall (hkeys : (xs.map (·.1)).Nodup) (hlength : xs.length = ys.length)
    (h : ∀ x ∈ xs, ∃ b, (x.1, b) ∈ ys ∧ R x.2 b) : Paired R xs ys := by
  induction xs generalizing ys with
  | nil => exact ⟨[], .nil, by rw [List.length_eq_zero_iff.1 hlength.symm]⟩
  | cons x rest ih =>
    obtain ⟨hfresh, hkeys⟩ := List.nodup_cons.1 hkeys
    obtain ⟨b, hb, hR⟩ := h x List.mem_cons_self
    obtain ⟨front, back, rfl⟩ := List.append_of_mem hb
    have hothers : ∀ x' ∈ rest, ∃ b', (x'.1, b') ∈ front ++ back ∧ R x'.2 b' := by
      intro x' hx'
      obtain ⟨b', hb', hR'⟩ := h x' (List.mem_cons_of_mem _ hx')
      refine ⟨b', ?_, hR'⟩
      have hne : (x'.1, b') ≠ (x.1, b) := fun heq =>
        hfresh (List.mem_map.2 ⟨x', hx', (Prod.mk.inj heq).1⟩)
      simpa [hne] using hb'
    have hlength' : rest.length = (front ++ back).length := by
      simp only [List.length_append, List.length_cons] at hlength ⊢
      omega
    obtain ⟨ys', hpairs, hperm⟩ := ih hkeys hlength' hothers
    exact ⟨(x.1, b) :: ys', .cons ⟨rfl, hR⟩ hpairs, (hperm.cons _).trans List.perm_middle.symm⟩

namespace Paired

/-- Entries that pair off are as many on both sides. -/
theorem length_eq (h : Paired R xs ys) : xs.length = ys.length := by
  obtain ⟨ys', hpairs, hperm⟩ := h
  rw [hpairs.length_eq, hperm.length_eq]

/-- Every pair has its two entries among those of the maps. -/
theorem mono {S : α → α → Prop} (h : Paired R xs ys)
    (hRS : ∀ x ∈ xs, ∀ y ∈ ys, R x.2 y.2 → S x.2 y.2) : Paired S xs ys := by
  obtain ⟨ys', hpairs, hperm⟩ := h
  refine ⟨ys', List.forall₂_iff_zip.2 ⟨hpairs.length_eq, fun hmem => ?_⟩, hperm⟩
  obtain ⟨hkey, hR⟩ := (List.forall₂_iff_zip.1 hpairs).2 hmem
  obtain ⟨hx, hy⟩ := List.of_mem_zip hmem
  exact ⟨hkey, hRS _ hx _ (hperm.mem_iff.1 hy) hR⟩

/-- Entries pair off the other way round. -/
theorem symm (h : Paired R xs ys) : Paired (fun b a => R a b) ys xs := by
  obtain ⟨ys', hpairs, hperm⟩ := h
  refine List.perm_comp_forall₂ hperm.symm (List.Forall₂.flip (hpairs.imp ?_))
  exact fun x y hxy => ⟨hxy.1.symm, hxy.2⟩

/-- Every entry of the first map has one under the same key in the second. -/
theorem forall_left (h : Paired R xs ys) : ∀ x ∈ xs, ∃ b, (x.1, b) ∈ ys ∧ R x.2 b := by
  obtain ⟨ys', hpairs, hperm⟩ := h
  have hmem : ∀ x ∈ xs, ∃ b, (x.1, b) ∈ ys' ∧ R x.2 b := by
    clear hperm
    induction hpairs with
    | nil => exact nofun
    | @cons x y rest rest' hxy _ ih =>
      intro x' hx'
      rcases List.mem_cons.1 hx' with rfl | hx'
      · exact ⟨y.2, by rw [hxy.1]; exact List.mem_cons_self, hxy.2⟩
      · obtain ⟨b, hb, hR⟩ := ih x' hx'
        exact ⟨b, List.mem_cons_of_mem _ hb, hR⟩
  intro x hx
  obtain ⟨b, hb, hR⟩ := hmem x hx
  exact ⟨b, hperm.mem_iff.1 hb, hR⟩

end Paired

end Entries

namespace Value

/-! ### Values of one heap -/

/-- Every key of a map stands there once. -/
def KeysOnce : Value → Prop
  | map _ entries => (entries.map (·.1)).Nodup
  | _ => True

/-- A value of the heap in which `val` gives what each buffer number below `n` stands for. -/
structure InHeap (n : BufferId) (val : BufferId → Value) (v : Value) : Prop where
  named : v.Named n val
  keysOnce : v.All KeysOnce

section Heap

variable {n : BufferId} {val : BufferId → Value} {a b : Value}

namespace InHeap

/-- The parts of a value of a heap are of the heap. -/
theorem part (h : a.InHeap n val) : ∀ p ∈ a.parts, p.InHeap n val :=
  fun p hp => ⟨h.named.inside p hp, h.keysOnce.inside p hp⟩

/-- A value without a buffer is of every heap. -/
theorem of_atom (h : a.id? = none) : a.InHeap n val := by
  refine ⟨.of_atom h, All.of_atom ?_ ?_⟩ <;> cases a <;> first | rfl | trivial

/-- A value is of the heap when its own node and its parts are. -/
theorem of_parts (hnode : ∀ i, a.id? = some i → i < n ∧ val i = a) (hkeys : a.KeysOnce)
    (hparts : ∀ p ∈ a.parts, p.InHeap n val) : a.InHeap n val :=
  ⟨⟨hnode, fun p hp => (hparts p hp).named⟩, ⟨hkeys, fun p hp => (hparts p hp).keysOnce⟩⟩

/-- Further numbers may be given to further values. -/
theorem mono {n' : BufferId} {val' : BufferId → Value} (h : a.InHeap n val) (hn : n ≤ n')
    (hval : ∀ j < n, val' j = val j) : a.InHeap n' val' :=
  ⟨h.named.mono hn hval, h.keysOnce⟩

/-- Two values with one buffer number are one value. -/
theorem eq_of_id (ha : a.InHeap n val) (hb : b.InHeap n val) {i : BufferId} (hi : a.id? = some i)
    (hi' : b.id? = some i) : a = b :=
  (ha.named.here i hi).2.symm.trans (hb.named.here i hi').2

end InHeap

/-! ### What equality compares -/

/-- Lists are equal if they are so item by item. -/
theorem equalItems_iff {xs ys : List Value} :
    equalItems xs ys = true ↔ List.Forall₂ (fun x y => x.equals y = true) xs ys := by
  induction xs generalizing ys with
  | nil => cases ys <;> simp [equalItems]
  | cons x xs ih => cases ys <;> simp [equalItems, ih]

/-- Only null equals null. -/
theorem equals_null (v : Value) : v.equals null = v.isNull := by
  cases v <;> simp only [equals, isNull]

/-- One more entry has to be found in the other map, where it is compared from the other side. -/
theorem includedIn_cons (ys : List (Key × Value)) (k : Key) (x : Value) (xs : List (Key × Value)) :
    includedIn ys ((k, x) :: xs) = ((Entries.get? k ys).any (·.equals x) && includedIn ys xs) := by
  rw [includedIn]
  cases Entries.get? k ys <;> rfl

/-- A map is included in another if each of its entries is found there, with an equal value. -/
theorem includedIn_iff {xs ys : List (Key × Value)} :
    includedIn ys xs = true ↔
      ∀ x ∈ xs, ∃ b, Entries.get? x.1 ys = some b ∧ b.equals x.2 = true := by
  induction xs with
  | nil => simp [includedIn]
  | cons x xs ih =>
    obtain ⟨k, v⟩ := x
    rw [includedIn_cons, Bool.and_eq_true, ih, List.forall_mem_cons]
    cases Entries.get? k ys <;> simp

/-! ### Symmetry -/

/-- Comparing lists turns round if comparing their items does. -/
theorem equalItems_symm {xs ys : List Value}
    (hparts : ∀ x ∈ xs, ∀ y ∈ ys, x.equals y = true → y.equals x = true)
    (h : equalItems xs ys = true) : equalItems ys xs = true :=
  equalItems_iff.2 (forall₂_mono_mem (equalItems_iff.1 h) hparts).flip

/-- Each of two maps with as many entries has what the other has: the keys of one are distinct, so that
    its entries have distinct partners. -/
theorem includedIn_symm {xs ys : List (Key × Value)} (hxs : (xs.map (·.1)).Nodup)
    (hlength : xs.length = ys.length)
    (hparts : ∀ x ∈ xs, ∀ y ∈ ys, y.2.equals x.2 = true → x.2.equals y.2 = true)
    (h : includedIn ys xs = true) : includedIn xs ys = true := by
  have hpaired : Entries.Paired (fun x y : Value => y.equals x = true) xs ys :=
    Entries.paired_of_forall hxs hlength fun x hx =>
      have ⟨b, hb, heq⟩ := includedIn_iff.1 h x hx
      ⟨b, Entries.mem_of_get? hb, heq⟩
  have hturned : Entries.Paired (fun x y : Value => x.equals y = true) xs ys := hpaired.mono hparts
  refine includedIn_iff.2 fun y hy => ?_
  obtain ⟨a, ha, heq⟩ := hturned.symm.forall_left y hy
  exact ⟨a, Entries.get?_of_mem hxs ha, heq⟩

/-- Equality turns round when it does for the parts of the two values. -/
theorem equals_flip (ha : a.KeysOnce)
    (hparts : ∀ p ∈ a.parts, ∀ q ∈ b.parts, p.equals q = true ↔ q.equals p = true)
    (h : a.equals b = true) : b.equals a = true := by
  have hflip : ∀ {i j : BufferId} {p q : Bool}, (p = true → q = true) → (i == j || p) = true →
      (j == i || q) = true := by
    intro i j p q hpq hor
    rcases Bool.or_eq_true_iff.1 hor with hij | hp
    · rw [BEq.symm hij, Bool.true_or]
    · rw [hpq hp, Bool.or_true]
  have hitems : ∀ {xs ys : List Value}, (∀ x ∈ xs, x ∈ a.parts) → (∀ y ∈ ys, y ∈ b.parts) →
      equalItems xs ys = true → equalItems ys xs = true :=
    fun hxs hys => equalItems_symm fun x hx y hy => (hparts x (hxs x hx) y (hys y hy)).1
  rw [equals.eq_def] at h
  split at h
  · exact h
  · rw [equals]; exact BEq.symm h
  · rw [equals]; exact BEq.symm h
  · rw [equals]; exact h
  · rw [equals]; exact h
  · rw [equals]; exact BEq.symm h
  · rw [equals]; exact hflip BEq.symm h
  · rw [equals]; exact hflip (hitems (fun _ h => h) fun _ h => h) h
  · rw [equals]
    refine hflip (fun hboth => ?_) h
    obtain ⟨hlength, hincl⟩ := Bool.and_eq_true_iff.1 hboth
    refine Bool.and_eq_true_iff.2 ⟨BEq.symm hlength, includedIn_symm ha (beq_iff_eq.1 hlength) ?_ hincl⟩
    exact fun x hx y hy => (hparts _ (List.mem_map_of_mem hx) _ (List.mem_map_of_mem hy)).2
  · rw [equals]
    refine hflip (fun hboth => ?_) h
    obtain ⟨hid, hfields⟩ := Bool.and_eq_true_iff.1 hboth
    exact Bool.and_eq_true_iff.2 ⟨BEq.symm hid, hitems (fun _ h => h) (fun _ h => h) hfields⟩
  · rw [equals]
    refine hflip (fun hboth => ?_) h
    obtain ⟨hblock, hbindings⟩ := Bool.and_eq_true_iff.1 hboth
    exact Bool.and_eq_true_iff.2 ⟨BEq.symm hblock, hitems (fun _ h => h) (fun _ h => h) hbindings⟩
  · rw [equals]; exact BEq.symm h
  · rw [equals]; exact BEq.symm h
  · rw [equals]; exact BEq.symm h
  · cases h

/-- **Equality is symmetric.** -/
theorem equals_symm_iff (ha : a.InHeap n val) (hb : b.InHeap n val) :
    a.equals b = true ↔ b.equals a = true := by
  induction a using induction_parts generalizing b with
  | h a ih =>
    have hparts : ∀ p ∈ a.parts, ∀ q ∈ b.parts, p.equals q = true ↔ q.equals p = true :=
      fun p hp q hq => ih p hp (ha.part p hp) (hb.part q hq)
    exact ⟨equals_flip ha.keysOnce.here hparts,
      equals_flip hb.keysOnce.here fun q hq p hp => (hparts p hp q hq).symm⟩

/-- Equal values are equal the other way round. -/
theorem equals_symm (ha : a.InHeap n val) (hb : b.InHeap n val) (h : a.equals b = true) :
    b.equals a = true :=
  (equals_symm_iff ha hb).1 h

/-! ### Values that match -/

/-- Two values, not always one and the same, that equality finds equal by what they contain. -/
inductive Matches : Value → Value → Prop where
  | number {a b : Value} {x y : Float} (ha : a.float? = some x) (hb : b.float? = some y)
    (hmixed : a.int? = none ∨ b.int? = none) (h : (x == y) = true) : Matches a b
  | str (i j : BufferId) (s : String) : Matches (str i s) (str j s)
  | list (i j : BufferId) {xs ys : List Value}
    (items : List.Forall₂ (fun x y => x.equals y = true) xs ys) : Matches (list i xs) (list j ys)
  | map (i j : BufferId) {xs ys : List (Key × Value)}
    (entries : Entries.Paired (fun x y => x.equals y = true) xs ys) :
    Matches (map i xs) (map j ys)
  | record (i j : BufferId) {r s : RecordType} {xs ys : List Value} (hid : r.id = s.id)
    (fields : List.Forall₂ (fun x y => x.equals y = true) xs ys) :
    Matches (record i r xs) (record j s ys)
  | func (i j : BufferId) (block : BlockId) {xs ys : List Value}
    (bindings : List.Forall₂ (fun x y => x.equals y = true) xs ys) :
    Matches (func i block xs) (func j block ys)
  | module {m m' : ModuleType} (hid : m.id = m'.id) : Matches (module m) (module m')

/-- Equal values are one value, or match in their contents: the short cut for one buffer is taken
    only where the two are one. -/
theorem matches_of_equals (ha : a.InHeap n val) (hb : b.InHeap n val) (h : a.equals b = true) :
    a = b ∨ Matches a b := by
  have hshort {i j : BufferId} {p : Bool} (hi : a.id? = some i) (hj : b.id? = some j)
      (h : (i == j || p) = true) : a = b ∨ p = true := by
    rcases Bool.or_eq_true_iff.1 h with hij | hp
    · rw [beq_iff_eq.1 hij] at hi
      exact .inl (ha.eq_of_id hb hi hj)
    · exact .inr hp
  rw [equals.eq_def] at h
  split at h
  · exact .inl rfl
  · exact .inl (congrArg int (beq_iff_eq.1 h))
  · exact .inr (.number rfl rfl (.inl rfl) h)
  · exact .inr (.number rfl rfl (.inr rfl) h)
  · exact .inr (.number rfl rfl (.inl rfl) (BEq.symm h))
  · exact .inl (congrArg bool (beq_iff_eq.1 h))
  · refine (hshort rfl rfl h).imp_right fun h => ?_
    obtain rfl := beq_iff_eq.1 h
    exact .str _ _ _
  · exact (hshort rfl rfl h).imp_right fun h => .list _ _ (equalItems_iff.1 h)
  · refine (hshort rfl rfl h).imp_right fun h => ?_
    obtain ⟨hlength, hincl⟩ := Bool.and_eq_true_iff.1 h
    refine .map _ _ (Entries.paired_of_forall ha.keysOnce.here (beq_iff_eq.1 hlength) ?_)
    intro x hx
    obtain ⟨y, hy, heq⟩ := includedIn_iff.1 hincl x hx
    have hmem := Entries.mem_of_get? hy
    exact ⟨y, hmem, equals_symm (hb.part y (List.mem_map_of_mem hmem))
      (ha.part x.2 (List.mem_map_of_mem hx)) heq⟩
  · refine (hshort rfl rfl h).imp_right fun h => ?_
    obtain ⟨hid, hfields⟩ := Bool.and_eq_true_iff.1 h
    exact .record _ _ (beq_iff_eq.1 hid) (equalItems_iff.1 hfields)
  · refine (hshort rfl rfl h).imp_right fun h => ?_
    obtain ⟨hblock, hbindings⟩ := Bool.and_eq_true_iff.1 h
    obtain rfl := beq_iff_eq.1 hblock
    exact .func _ _ _ (equalItems_iff.1 hbindings)
  · exact .inr (.module (beq_iff_eq.1 h))
  · exact .inl (congrArg host (beq_iff_eq.1 h))
  · exact .inl (congrArg error (beq_iff_eq.1 h))
  · cases h

/-- Values that match in their contents are equal. -/
theorem Matches.equals (ha : a.InHeap n val) (hb : b.InHeap n val) (h : Matches a b) :
    a.equals b = true := by
  cases h with
  | @number _ _ x y hx hy hmixed h =>
    cases a <;> cases b <;> simp [float?, int?] at hx hy hmixed <;> subst hx hy <;> rw [Value.equals]
    · exact h
    · exact BEq.symm h
    · exact h
  | @map i j xs ys entries =>
    have hincl : includedIn ys xs = true := by
      refine includedIn_iff.2 fun x hx => ?_
      obtain ⟨y, hmem, heq⟩ := entries.forall_left x hx
      exact ⟨y, Entries.get?_of_mem hb.keysOnce.here hmem,
        equals_symm (ha.part x.2 (List.mem_map_of_mem hx)) (hb.part y (List.mem_map_of_mem hmem)) heq⟩
    simp [Value.equals, entries.length_eq, hincl]
  | list i j items => simp [Value.equals, equalItems_iff.2 items]
  | record i j hid fields => simp [Value.equals, hid, equalItems_iff.2 fields]
  | func i j block bindings => simp [Value.equals, equalItems_iff.2 bindings]
  | module hid => simp [Value.equals, hid]
  | str => simp [Value.equals]

end Heap

/-! ### Hashing -/

section Hash

variable {hash : List HashWord → UInt64}

/-- Equal floats are hashed alike: zeros by their rule, others by their bits. -/
theorem numberWords_eq {x y : Float} (h : (x == y) = true) : numberWords x = numberWords y := by
  rcases Binary64.zeros_or_toBits_eq h with ⟨hx, hy⟩ | hbits
  · rw [numberWords, numberWords, if_pos hx, if_pos hy]
  · have hzero : (x == 0.0) = (y == 0.0) := by
      rw [Bool.eq_iff_iff]
      exact ⟨BEq.trans (BEq.symm h), BEq.trans h⟩
    rw [numberWords, numberWords, hbits, hzero]

/-- A value that is a number is hashed by that number, integers included. -/
theorem fingerprintBy_of_float? {v : Value} {x : Float} (h : v.float? = some x) :
    v.fingerprintBy hash = numberWords x := by
  cases v <;> simp [float?] at h <;> simp [fingerprintBy, h]

/-- Lists are hashed alike if their items are. -/
theorem itemWordsBy_eq {xs ys : List Value}
    (h : List.Forall₂ (fun x y => x.fingerprintBy hash = y.fingerprintBy hash) xs ys) :
    itemWordsBy hash xs = itemWordsBy hash ys := by
  induction h with
  | nil => rfl
  | cons hhead _ ih => rw [itemWordsBy, itemWordsBy, hhead, ih]

/-- The order of the entries does not matter to their sum. -/
theorem entrySumBy_perm {xs ys : List (Key × Value)} (h : xs.Perm ys) :
    entrySumBy hash xs = entrySumBy hash ys := by
  induction h with
  | nil => rfl
  | cons x _ ih => rw [entrySumBy, entrySumBy, ih]
  | swap x y rest => simp only [entrySumBy, ← UInt64.add_assoc, UInt64.add_comm]
  | trans _ _ ih ih' => exact ih.trans ih'

/-- Maps whose entries pair off have one sum, if paired values are hashed alike. -/
theorem entrySumBy_eq {xs ys : List (Key × Value)}
    (h : Entries.Paired (fun x y => x.fingerprintBy hash = y.fingerprintBy hash) xs ys) :
    entrySumBy hash xs = entrySumBy hash ys := by
  obtain ⟨ys', hpairs, hperm⟩ := h
  rw [← entrySumBy_perm hperm]
  clear hperm
  induction hpairs with
  | nil => rfl
  | cons hhead _ ih => rw [entrySumBy, entrySumBy, hhead.1, hhead.2, ih]

end Hash

/-! ### Equal values are hashed alike -/

section Alike

variable {n : BufferId} {val : BufferId → Value} {a b : Value}

/-- Values that match are hashed alike when their equal parts are. -/
theorem Matches.fingerprintBy_eq {hash : List HashWord → UInt64} (h : Matches a b)
    (hparts : ∀ p ∈ a.parts, ∀ q ∈ b.parts, p.equals q = true →
      p.fingerprintBy hash = q.fingerprintBy hash) :
    a.fingerprintBy hash = b.fingerprintBy hash := by
  cases h with
  | number ha hb _ h =>
    rw [fingerprintBy_of_float? ha, fingerprintBy_of_float? hb, numberWords_eq h]
  | str => simp only [fingerprintBy]
  | list i j items =>
    rw [fingerprintBy, fingerprintBy, items.length_eq,
      itemWordsBy_eq (forall₂_mono_mem items hparts)]
  | map i j entries =>
    have halike :
        Entries.Paired (fun x y : Value => x.fingerprintBy hash = y.fingerprintBy hash) _ _ :=
      entries.mono fun x hx y hy => hparts _ (List.mem_map_of_mem hx) _ (List.mem_map_of_mem hy)
    rw [fingerprintBy, fingerprintBy, entries.length_eq, entrySumBy_eq halike]
  | record i j hid fields =>
    rw [fingerprintBy, fingerprintBy, hid, fields.length_eq,
      itemWordsBy_eq (forall₂_mono_mem fields hparts)]
  | func i j block bindings =>
    rw [fingerprintBy, fingerprintBy, bindings.length_eq,
      itemWordsBy_eq (forall₂_mono_mem bindings hparts)]
  | module hid => rw [fingerprintBy, fingerprintBy, hid]

/-- Equal values are hashed alike, whatever the hash of an entry. -/
theorem fingerprintBy_eq_of_equals (hash : List HashWord → UInt64) (ha : a.InHeap n val)
    (hb : b.InHeap n val) (h : a.equals b = true) :
    a.fingerprintBy hash = b.fingerprintBy hash := by
  induction a using induction_parts generalizing b with
  | h a ih =>
    rcases matches_of_equals ha hb h with rfl | hmatch
    · rfl
    · exact hmatch.fingerprintBy_eq fun p hp q hq => ih p hp (ha.part p hp) (hb.part q hq)

/-- Maps with the same keys and equal values under each key are equal. -/
theorem equals_of_entries {i j : BufferId} {xs ys : List (Key × Value)}
    (hxs : (map i xs).InHeap n val) (hys : (map j ys).InHeap n val)
    (h : ∀ k, Option.Rel (fun x y => x.equals y = true) (Entries.get? k xs)
      (Entries.get? k ys)) : (map i xs).equals (map j ys) = true := by
  have hkeys : (xs.map (·.1)).Perm (ys.map (·.1)) :=
    (List.perm_ext_iff_of_nodup hxs.keysOnce.here hys.keysOnce.here).2 fun k => by
      rw [← Entries.isSome_get?_iff, ← Entries.isSome_get?_iff]
      have hrel := h k
      revert hrel
      cases Entries.get? k xs <;> cases Entries.get? k ys <;> simp
  have hlength : xs.length = ys.length := by
    simpa using hkeys.length_eq
  refine Matches.equals hxs hys
    (.map i j (Entries.paired_of_forall hxs.keysOnce.here hlength fun x hx => ?_))
  have hrel := h x.1
  rw [Entries.get?_of_mem hxs.keysOnce.here hx] at hrel
  generalize hget : Entries.get? x.1 ys = found at hrel
  cases hrel with
  | some heq => exact ⟨_, Entries.mem_of_get? hget, heq⟩

/-- **Equality and hashing.** Of two values of a heap, in which a buffer number stands for one node
    and a map has every key once: if the first equals the second, the second equals the first, and
    both feed the same words to a hasher, whatever the hash of the entries of a map. And maps are
    equal, and hashed alike, as soon as they have the same keys and equal values under each, in any
    order. -/
theorem equals_symm_hash :
    (∀ a b : Value, a.InHeap n val → b.InHeap n val → a.equals b = true →
      b.equals a = true ∧ a.fingerprint = b.fingerprint ∧
        ∀ hash, a.fingerprintBy hash = b.fingerprintBy hash) ∧
    ∀ i j xs ys, (map i xs).InHeap n val → (map j ys).InHeap n val →
      (∀ k, Option.Rel (fun x y => x.equals y = true) (Entries.get? k xs) (Entries.get? k ys)) →
      (map i xs).equals (map j ys) = true ∧ (map i xs).fingerprint = (map j ys).fingerprint ∧
        ∀ hash, (map i xs).fingerprintBy hash = (map j ys).fingerprintBy hash := by
  have halike (a b : Value) (ha : a.InHeap n val) (hb : b.InHeap n val) (h : a.equals b = true) :
      a.fingerprint = b.fingerprint ∧ ∀ hash, a.fingerprintBy hash = b.fingerprintBy hash := by
    have hby := fun hash => fingerprintBy_eq_of_equals hash ha hb h
    exact ⟨hby HashWord.simpleHash, hby⟩
  refine ⟨fun a b ha hb h => ⟨equals_symm ha hb h, halike a b ha hb h⟩, ?_⟩
  intro i j xs ys hxs hys h
  have heq := equals_of_entries hxs hys h
  exact ⟨heq, halike _ _ hxs hys heq⟩

end Alike

end Value

namespace Shelf

/-- A list that equals itself only as one and the same buffer. -/
def shared : Value := .list 0 [.float (0.0 / 0.0), .int 3]

/-- Two maps over that list, in two orders. -/
def entries : List (Key × Value) := [(.name "x", .int 1), (.index 2, shared)]

/-- The same entries the other way round, with a float for the integer. -/
def entries' : List (Key × Value) := [(.index 2, shared), (.name "x", .float 1.0)]

/-- A list with the first map and the one zero. -/
def left : Value := .list 3 [.map 1 entries, .float (-0.0)]

/-- A list with the second map and the other zero. -/
def right : Value := .list 4 [.map 2 entries', .int 0]

/-- What every buffer number stands for. -/
def heap : BufferId → Value
  | 0 => shared
  | 1 => .map 1 entries
  | 2 => .map 2 entries'
  | 3 => left
  | _ => right

/-- The shared list is of the heap. -/
theorem shared_inHeap : shared.InHeap 5 heap := by
  refine .of_parts ?_ trivial ?_
  · rintro _ ⟨⟩
    exact ⟨by decide, rfl⟩
  · simp only [shared, Value.parts, List.forall_mem_cons]
    exact ⟨.of_atom rfl, .of_atom rfl, by simp⟩

/-- Both maps are of the heap. -/
theorem maps_inHeap :
    (Value.map 1 entries).InHeap 5 heap ∧ (Value.map 2 entries').InHeap 5 heap := by
  constructor <;> refine .of_parts ?_ (by decide : List.Nodup _) ?_
  all_goals try
    rintro _ ⟨⟩
    exact ⟨by decide, rfl⟩
  · simp only [entries, Value.parts, List.map_cons, List.map_nil, List.forall_mem_cons]
    exact ⟨.of_atom rfl, shared_inHeap, by simp⟩
  · simp only [entries', Value.parts, List.map_cons, List.map_nil, List.forall_mem_cons]
    exact ⟨shared_inHeap, .of_atom rfl, by simp⟩

/-- Both lists are of the heap. -/
theorem lists_inHeap : left.InHeap 5 heap ∧ right.InHeap 5 heap := by
  constructor <;> refine .of_parts ?_ trivial ?_
  all_goals try
    rintro _ ⟨⟩
    exact ⟨by decide, rfl⟩
  · simp only [left, Value.parts, List.forall_mem_cons]
    exact ⟨maps_inHeap.1, .of_atom rfl, by simp⟩
  · simp only [right, Value.parts, List.forall_mem_cons]
    exact ⟨maps_inHeap.2, .of_atom rfl, by simp⟩

/-- The two lists are equal from both sides and are hashed alike, although their maps have other orders and
    their zeros other signs. -/
theorem equals_symm_hash_shelf :
    (left.InHeap 5 heap ∧ right.InHeap 5 heap ∧ left.equals right = true) ∧
      (right.equals left = true ∧ left.fingerprint = right.fingerprint) ∧
      (∀ k, Option.Rel (fun x y => x.equals y = true) (Entries.get? k entries)
        (Entries.get? k entries')) ∧
      (Value.map 1 entries).equals (.map 2 entries') = true := by
  have heq : left.equals right = true := by
    decide +kernel
  have hentries : ∀ k, Option.Rel (fun x y => Value.equals x y = true) (Entries.get? k entries)
      (Entries.get? k entries') := by
    intro k
    by_cases hx : .name "x" = k
    · subst hx
      exact .some (by decide +kernel : Value.equals (.int 1) (.float 1.0) = true)
    by_cases h2 : .index 2 = k
    · subst h2
      exact .some (by decide +kernel : shared.equals shared = true)
    · simp [entries, entries', Entries.get?, hx, h2]
  have hall := @Value.equals_symm_hash 5 heap
  obtain ⟨hsymm, hprint, -⟩ := hall.1 left right lists_inHeap.1 lists_inHeap.2 heq
  obtain ⟨hmaps, -⟩ := hall.2 1 2 entries entries' maps_inHeap.1 maps_inHeap.2 hentries
  exact ⟨⟨lists_inHeap.1, lists_inHeap.2, heq⟩, ⟨hsymm, hprint⟩, hentries, hmaps⟩

end Shelf

end BlockMachine

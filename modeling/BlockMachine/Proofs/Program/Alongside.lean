import BlockMachine.Proofs.Dispatch.Caching
import BlockMachine.Proofs.Machine.Mirror
import BlockMachine.Proofs.Program.Recompiling

namespace BlockMachine

/-!
# Worlds side by side

Two worlds with the same definitions file the programs of their blocks at different indices, with
constants that take different buffer numbers, and one of them may have compiled blocks that the other
did not need yet. Whatever the first compiles, the second has compiled before or compiles as well.

* `World.Files` says that the program of a block is filed at an index;
* `World.HasCompiled` is what compiling a block changes when it was not compiled before, and
  `World.KeepsPlaces` what compiling does to the indices of all blocks;
* `World.Beside` relates the two worlds, `World.Beside.compile` says that compiling keeps them related;
* `Caches.Beside` relates what call sites remember.
-/

/-- Drafts that are alike become alike programs. -/
theorem Draft.Like.finish {T : Matching → BufferId → BufferId → Prop} {ρ : Matching} {d₁ d₂ : Draft}
    (h : d₁.Like T ρ d₂) (b : Block) (i j : Nat) :
    (World.finish b i d₁).Like ρ (World.finish b j d₂) where
  version := rfl
  signature := rfl
  code := congrArg (·.code) h.assembler
  constants := fun k => by
    have hk := Items.like_iff_getElem?.1 h.constants k
    rwa [Array.getElem?_toList, Array.getElem?_toList] at hk
  blocks := h.blocks
  types := h.types
  names := h.names
  registers := rfl
  sourceMap := by rw [World.finish, World.finish, h.sourceMap]

namespace World

variable {w w' w₁ w₂ : World} {id : BlockId} {i j : Nat} {p q : Program} {b : Block} {d : Draft}

/-! ### Where programs are filed -/

/-- The program of a block is filed at an index. -/
def Files (w : World) (id : BlockId) (i : Nat) (p : Program) : Prop :=
  w.programs.indices[id]? = some i ∧ w.slotProgram? i = some p

theorem Files.unique (h : w.Files id i p) (h' : w.Files id j q) : i = j ∧ p = q := by
  obtain ⟨hi, hp⟩ := h
  obtain ⟨hj, hq⟩ := h'
  obtain rfl := Option.some.inj (hi.symm.trans hj)
  exact ⟨rfl, Option.some.inj (hp.symm.trans hq)⟩

/-- What is filed for a block was lowered from its definition. -/
theorem Derived.files (h : w.Derived) (hp : w.Files id i p) : ∃ b ctx supply d,
    w.blocks[id]? = some b ∧ lower ctx b.body supply = .ok d ∧ p = finish b i d := by
  obtain ⟨slot, hslot, rfl⟩ := (h.indexed id i).1 hp.1
  exact h.lowered i slot p hslot ((slotProgram?_of_slot hslot).symm.trans hp.2)

/-- A program knows its index and the signature of its block. -/
theorem Derived.files_block (h : w.Derived) (hp : w.Files id i p) :
    p.index = i ∧ ∃ b, w.blocks[id]? = some b ∧ p.signature = b.signature := by
  obtain ⟨b, -, -, d, hb, -, rfl⟩ := h.files hp
  exact ⟨rfl, b, hb, rfl⟩

/-- A block whose program is filed is not compiled again. -/
theorem Derived.compile_files (h : w.Derived) (hp : w.Files id i p) :
    World.compile id w = (.ok i, w) := by
  obtain ⟨b, -, -, d, hb, -, rfl⟩ := h.files hp
  exact compile_filed hb hp.1 hp.2 rfl

/-- Blocks keep their indices, and new indices are unused ones. -/
structure KeepsPlaces (w w' : World) : Prop where
  size : w.programs.slots.size ≤ w'.programs.slots.size
  kept : ∀ (id : BlockId) (i : Nat), w.programs.indices[id]? = some i →
    w'.programs.indices[id]? = some i
  placed : ∀ (id : BlockId) (i : Nat), w'.programs.indices[id]? = some i →
    w.programs.indices[id]? = some i ∨
      w.programs.indices[id]? = none ∧ w.programs.slots.size ≤ i

theorem KeepsPlaces.refl (w : World) : KeepsPlaces w w :=
  ⟨Nat.le_refl _, fun _ _ h => h, fun _ _ h => .inl h⟩

/-- A block has the program that came of lowering its body, and nothing else changed. -/
structure HasCompiled (id : BlockId) (i : Nat) (b : Block) (d : Draft) (w w' : World) : Prop where
  only : OnlyPrograms w w'
  places : KeepsPlaces w w'
  derived : w'.Derived
  filed : w'.Files id i (finish b i d)
  others : ∀ (id' : BlockId) (j : Nat) (p : Program), id' ≠ id → (w'.Files id' j p ↔ w.Files id' j p)
  grown : w.supply ≤ w'.supply
  drawn : d.supply ≤ w'.supply

/-- Lowering takes numbers, and gives none back. -/
theorem lower_supply {ctx : LoweringContext} {body : List Directive} {n : BufferId}
    (h : lower ctx body n = .ok d) : n ≤ d.supply := by
  have halike := lower_alike ctx body n n
  rw [h] at halike
  cases halike with
  | ok hlike =>
    obtain ⟨ρ, hlike⟩ := hlike
    exact hlike.supply.first

/-- Filling the slot of a block. -/
theorem Derived.lowered_first (h : w.Derived) (hindex : w.programs.indices[id]? = some i)
    (hb : w.blocks[id]? = some b)
    (hd : lower ⟨b.signature.name, w.scope, w.natives⟩ b.body w.supply = .ok d) :
    (World.lowered b i w).1 = .ok i ∧ HasCompiled id i b d w (World.lowered b i w).2 := by
  obtain ⟨slot, hslot, rfl⟩ := (h.indexed id i).1 hindex
  have honly := lowered_only b i w
  have hderived := h.filled hslot hb
  have hrun : World.lowered b i w = (.ok i, { w with
      programs := { w.programs with
        slots := w.programs.slots.modify i fun slot => { slot with program := some (finish b i d) } }
      supply := d.supply }) := by
    rw [World.lowered, hd]
  rw [hrun] at honly hderived ⊢
  have hslots : ∀ j : Nat, (w.programs.slots.modify i fun slot =>
      { slot with program := some (finish b i d) })[j]?.bind (·.program) =
        if i = j then some (finish b i d) else w.slotProgram? j := by
    intro j
    rw [getElem?_modify_slot, slotProgram?]
    by_cases hij : i = j
    · subst hij
      rw [hslot, if_pos rfl, Option.map_some, Option.bind_some, if_pos rfl]
    · rw [if_neg hij]
      cases w.programs.slots[j]? with
      | none => rfl
      | some slot' => exact if_neg hij
  refine ⟨rfl, honly, ⟨Nat.le_of_eq (Array.size_modify).symm, fun _ _ hj => hj, fun _ _ hj => .inl hj⟩,
    hderived, ⟨hindex, (hslots i).trans (if_pos rfl)⟩, fun id' j p hid => and_congr_right fun hj => ?_,
    lower_supply hd, Nat.le_refl _⟩
  -- the slot of another block is another slot
  have hij : i ≠ j := by
    rintro rfl
    obtain ⟨slot', hslot', rfl⟩ := (h.indexed id' i).1 hj
    exact hid (congrArg ProgramSlot.block (Option.some.inj (hslot'.symm.trans hslot)))
  rw [slotProgram?, hslots j, if_neg hij]

/-- A block without an index is given one, with an empty slot. -/
theorem Derived.index_first (h : w.Derived) (hnew : w.programs.indices[id]? = none)
    (hfirst : HasCompiled id i b d (World.programIndex id w).2 w') : HasCompiled id i b d w w' := by
  have honly := programIndex_only id w
  have hpushed := programIndex_of_none hnew
  generalize World.programIndex id w = r at hfirst honly hpushed
  subst hpushed
  -- the new index is that of the block, and all others are as before
  have hindices : ∀ (id' : BlockId) (j : Nat),
      (w.programs.indices.insert id w.programs.slots.size)[id']? = some j →
      w.programs.indices[id']? = some j ∨ id' = id ∧ j = w.programs.slots.size := by
    intro id' j hj
    rw [Std.HashMap.getElem?_insert] at hj
    split at hj
    next heq => exact .inr ⟨(beq_iff_eq.1 heq).symm, (Option.some.inj hj).symm⟩
    next => exact .inl hj
  have hkept : ∀ (id' : BlockId) (j : Nat), w.programs.indices[id']? = some j →
      (w.programs.indices.insert id w.programs.slots.size)[id']? = some j := by
    intro id' j hj
    have hne : (id == id') = false := by
      refine beq_false_of_ne fun heq => ?_
      rw [← heq, hnew] at hj
      exact nomatch hj
    rw [Std.HashMap.getElem?_insert, hne]
    exact hj
  refine ⟨honly.trans hfirst.only,
    ⟨?_, fun id' j hj => hfirst.places.kept id' j (hkept id' j hj), fun id' j hj => ?_⟩,
    hfirst.derived, hfirst.filed, fun id' j p hid => ?_, hfirst.grown, hfirst.drawn⟩
  · refine Nat.le_trans ?_ hfirst.places.size
    rw [Array.size_push]
    exact Nat.le_succ _
  -- an index found afterwards was there before, was just given, or is new with its slot
  · rcases hfirst.places.placed id' j hj with hold | ⟨hnone, hsize⟩
    · exact (hindices id' j hold).imp_right fun ⟨hid, hj⟩ => ⟨hid ▸ hnew, Nat.le_of_eq hj.symm⟩
    · refine .inr ⟨?_, Nat.le_trans (by rw [Array.size_push]; exact Nat.le_succ _) hsize⟩
      rw [Std.HashMap.getElem?_insert] at hnone
      split at hnone
      · exact nomatch hnone
      · exact hnone
  -- the empty slot files no program, so the other blocks have the programs they had
  · rw [hfirst.others id' j p hid]
    constructor
    · rintro ⟨hj, hp⟩
      obtain hj := (hindices id' j hj).resolve_right fun hnew => hid hnew.1
      obtain ⟨slot, hslot, -⟩ := (h.indexed id' j).1 hj
      obtain ⟨slot', hslot', hp⟩ := Option.bind_eq_some_iff.1 hp
      rw [getElem?_push_of_some hslot] at hslot'
      obtain rfl := Option.some.inj hslot'
      exact ⟨hj, Option.bind_eq_some_iff.2 ⟨slot, hslot, hp⟩⟩
    · rintro ⟨hj, hp⟩
      obtain ⟨slot, hslot, hp⟩ := Option.bind_eq_some_iff.1 hp
      exact ⟨hkept id' j hj, Option.bind_eq_some_iff.2 ⟨slot, getElem?_push_of_some hslot _, hp⟩⟩

/-- A block that was not compiled is lowered into its slot. -/
theorem compile_lowered (hb : w.blocks[id]? = some b)
    (hunfiled : ∀ (i : Nat) (p : Program), ¬w.Files id i p) :
    World.compile id w =
      World.lowered b (World.programIndex id w).1 (World.programIndex id w).2 := by
  have hempty : (World.programIndex id w).2.slotProgram? (World.programIndex id w).1 = none := by
    cases hi : w.programs.indices[id]? with
    | none => simp only [programIndex_of_none hi, slotProgram?, Array.getElem?_push_size, Option.bind_some]
    | some i =>
      rw [programIndex_of_some hi]
      exact Option.eq_none_iff_forall_ne_some.2 fun p hp => hunfiled i p ⟨hi, hp⟩
  rw [compile_eq, hb]
  dsimp only
  rw [hempty]

/-- What a block is lowered against does not change when it is given an index. -/
theorem lowered_index (id : BlockId) (b : Block) (w : World) :
    lower ⟨b.signature.name, (World.programIndex id w).2.scope, (World.programIndex id w).2.natives⟩
        b.body (World.programIndex id w).2.supply =
      lower ⟨b.signature.name, w.scope, w.natives⟩ b.body w.supply := by
  cases hindex : w.programs.indices[id]? with
  | none =>
    rw [programIndex_of_none hindex]
    rfl
  | some i => rw [programIndex_of_some hindex]

/-- **A block that was not compiled compiles** if its body can be lowered, and its program is filed. -/
theorem Derived.compile_first (h : w.Derived) (hb : w.blocks[id]? = some b)
    (hunfiled : ∀ (i : Nat) (p : Program), ¬w.Files id i p)
    (hd : lower ⟨b.signature.name, w.scope, w.natives⟩ b.body w.supply = .ok d) :
    ∃ i w', World.compile id w = (.ok i, w') ∧ HasCompiled id i b d w w' := by
  have hcompile := compile_lowered hb hunfiled
  have hderived := h.programIndex id
  obtain ⟨-, slot, hslot, rfl⟩ := h.filed.programIndex id
  have hindex := (hderived.indexed slot.block _).2 ⟨slot, hslot, rfl⟩
  obtain ⟨hresult, hfirst⟩ := hderived.lowered_first hindex
    (by rw [(programIndex_only slot.block w).blocks]; exact hb) (by rw [lowered_index]; exact hd)
  refine ⟨_, _, hcompile.trans (Prod.ext hresult rfl), ?_⟩
  cases hi : w.programs.indices[slot.block]? with
  | none => exact h.index_first hi hfirst
  | some i =>
    rw [programIndex_of_some hi] at hfirst ⊢
    exact hfirst

/-- What compiling a block comes to: its program is filed already, or it is compiled for the first
    time. -/
theorem Derived.compile_cases (h : w.Derived) (hcompile : World.compile id w = (.ok i, w')) :
    (w' = w ∧ ∃ p, w.Files id i p) ∨
      ∃ b d, w.blocks[id]? = some b ∧ (∀ (j : Nat) (p : Program), ¬w.Files id j p) ∧
        lower ⟨b.signature.name, w.scope, w.natives⟩ b.body w.supply = .ok d ∧
        HasCompiled id i b d w w' := by
  by_cases hfiled : ∃ j p, w.Files id j p
  · obtain ⟨j, p, hp⟩ := hfiled
    rw [h.compile_files hp] at hcompile
    obtain ⟨hj, rfl⟩ := Prod.mk.inj hcompile
    obtain rfl := Except.ok.inj hj
    exact .inl ⟨rfl, p, hp⟩
  · have hunfiled : ∀ (j : Nat) (p : Program), ¬w.Files id j p := fun j p hp => hfiled ⟨j, p, hp⟩
    cases hb : w.blocks[id]? with
    | none =>
      rw [compile_eq, hb] at hcompile
      cases (Prod.mk.inj hcompile).1
    | some b =>
      cases hd : lower ⟨b.signature.name, w.scope, w.natives⟩ b.body w.supply with
      | error e =>
        rw [compile_lowered hb hunfiled, World.lowered, lowered_index, hd] at hcompile
        cases (Prod.mk.inj hcompile).1
      | ok d =>
        obtain ⟨j, w'', hcompile', hfirst⟩ := h.compile_first hb hunfiled hd
        rw [hcompile] at hcompile'
        obtain ⟨hj, rfl⟩ := Prod.mk.inj hcompile'
        obtain rfl := Except.ok.inj hj
        exact .inr ⟨b, d, rfl, hunfiled, hd, hfirst⟩

/-! ### Two worlds -/

/-- Two worlds have the same definitions, but the second may have further blocks. What the first has
    compiled, the second has compiled alike. Where the second is ahead, it compiled the same body, and
    the buffer numbers of these constants are set apart: `owner` tells for which block. -/
structure Beside (owner : BufferId → Option BlockId) (ρ : Matching) (w₁ w₂ : World) : Prop where
  derived₁ : w₁.Derived
  derived₂ : w₂.Derived
  blocks : ∀ (id : BlockId) (b : Block), w₁.blocks[id]? = some b → w₂.blocks[id]? = some b
  natives : w₂.natives = w₁.natives
  registry : w₂.registry = w₁.registry
  modules : w₂.modules = w₁.modules
  epoch : w₂.epoch = w₁.epoch
  members : ∀ m ∈ w₁.modules, ∀ (name : String) (v : Value), m.member? name = some (.value v) →
    v.Like ρ v
  numbers : ρ.Within 0 0 w₁.supply w₂.supply
  filed : ∀ (id : BlockId) (i : Nat) (p : Program), w₁.Files id i p →
    ∃ j q, w₂.Files id j q ∧ p.Like ρ q
  ahead : ∀ (id : BlockId) (b : Block) (j : Nat) (q : Program), w₁.blocks[id]? = some b →
    w₂.Files id j q → (∃ i p, w₁.Files id i p) ∨
      ∃ start d, lower ⟨b.signature.name, w₁.scope, w₁.natives⟩ b.body start = .ok d ∧
        q = finish b j d ∧ d.supply ≤ w₂.supply ∧ ∀ n, start ≤ n → n < d.supply → owner n = some id
  owned : ∀ a n v w id, ρ.pairs a n v w → owner n = some id → ∃ i p, w₁.Files id i p
  unowned : ∀ n, w₂.supply ≤ n → owner n = none

namespace Beside

variable {owner : BufferId → Option BlockId} {ρ ρ' : Matching}

/-- The two worlds draw buffer numbers in step. -/
theorem draw (h : Beside owner ρ w₁ w₂) : ∃ ρ', ρ ≤ ρ' ∧ ρ'.links w₁.supply w₂.supply ∧
    Beside owner ρ' { w₁ with supply := w₁.supply + 1 } { w₂ with supply := w₂.supply + 1 } := by
  have hle := Matching.le_join_left h.numbers.link
  refine ⟨_, hle, fun _ _ => .inr ⟨rfl, rfl⟩, { h with
    derived₁ := h.derived₁.congr rfl rfl
    derived₂ := h.derived₂.congr rfl rfl
    members := fun m hm name v hv => (h.members m hm name v hv).mono hle
    numbers := h.numbers.linked
    filed := fun id i p hp => ?_
    ahead := fun id b j q hb hq => ?_
    owned := ?_
    unowned := fun n hn => h.unowned n (Nat.le_of_succ_le hn) }⟩
  · obtain ⟨j, q, hq, hpq⟩ := h.filed id i p hp
    exact ⟨j, q, hq, hpq.mono hle⟩
  · refine (h.ahead id b j q hb hq).imp_right ?_
    rintro ⟨start, d, hd, hqd, hsupply, howner⟩
    exact ⟨start, d, hd, hqd, Nat.le_succ_of_le hsupply, howner⟩
  · rintro a n v w id (hpair | ⟨-, rfl⟩) howner
    · exact h.owned a n v w id hpair howner
    · rw [h.unowned _ (Nat.le_refl _)] at howner
      exact nomatch howner

/-- The first world compiles a block for the first time, and the second has compiled it, now or before.
    The constants are paired off. -/
theorem first (h : Beside owner ρ w₁ w₂) {w₁' w₂' : World} {d₁ d₂ : Draft} {start : BufferId}
    {σ : Matching} (h₁ : HasCompiled id i b d₁ w₁ w₁') (h₂ : HasCompiled id j b d₂ w₂ w₂')
    (hlike : d₁.Like (Matching.Within w₁.supply start) σ d₂) (hapart : ρ.Apart σ)
    (howner : ∀ n, start ≤ n → n < d₂.supply → owner n = none ∨ owner n = some id) :
    Beside owner (ρ.join σ hapart) w₁' w₂' := by
  have hle := Matching.le_join_left hapart
  have hprograms : (finish b i d₁).Like (ρ.join σ hapart) (finish b j d₂) :=
    (hlike.finish b i j).mono (Matching.le_join_right hapart)
  -- compiling one block files its program and no other
  have hfiled : ∀ (id' : BlockId), id' ≠ id → ((∃ i p, w₁.Files id' i p) ↔ ∃ i p, w₁'.Files id' i p) :=
    fun id' hid => exists₂_congr fun k p => (h₁.others id' k p hid).symm
  refine {
    derived₁ := h₁.derived
    derived₂ := h₂.derived
    blocks := by rw [h₁.only.blocks, h₂.only.blocks]; exact h.blocks
    natives := by rw [h₁.only.natives, h₂.only.natives, h.natives]
    registry := by rw [h₁.only.registry, h₂.only.registry, h.registry]
    modules := by rw [h₁.only.modules, h₂.only.modules, h.modules]
    epoch := by rw [h₁.only.epoch, h₂.only.epoch, h.epoch]
    members := by
      rw [h₁.only.modules]
      exact fun m hm name v hv => (h.members m hm name v hv).mono hle
    numbers := ⟨Nat.zero_le _, Nat.zero_le _, ?_⟩
    filed := fun id' k p hp => ?_
    ahead := fun id' b' k q hb' hq => ?_
    owned := ?_
    unowned := fun n hn => h.unowned n (Nat.le_trans h₂.grown hn) }
  -- paired numbers come from before or from the constants just paired, below either supply
  · rintro a n v w (hpair | hpair)
    · obtain ⟨⟨-, ha⟩, -, hn⟩ := h.numbers.pairs a n v w hpair
      exact ⟨⟨Nat.zero_le _, Nat.lt_of_lt_of_le ha h₁.grown⟩, Nat.zero_le _,
        Nat.lt_of_lt_of_le hn h₂.grown⟩
    · obtain ⟨⟨-, ha⟩, -, hn⟩ := hlike.supply.pairs a n v w hpair
      exact ⟨⟨Nat.zero_le _, Nat.lt_of_lt_of_le ha h₁.drawn⟩, Nat.zero_le _,
        Nat.lt_of_lt_of_le hn h₂.drawn⟩
  -- what the first world files, the second files: the new program, or one from before
  · by_cases hid : id' = id
    · subst hid
      obtain ⟨rfl, rfl⟩ := hp.unique h₁.filed
      exact ⟨j, _, h₂.filed, hprograms⟩
    · obtain ⟨k', q, hq, hpq⟩ := h.filed id' k p ((h₁.others id' k p hid).1 hp)
      exact ⟨k', q, (h₂.others id' k' q hid).2 hq, hpq.mono hle⟩
  -- what only the second world had filed is filed by the first now, or was lowered apart before
  · by_cases hid : id' = id
    · subst hid
      exact .inl ⟨i, _, h₁.filed⟩
    · rw [← hfiled id' hid, scope, h₁.only.registry, h₁.only.modules, h₁.only.natives]
      rw [h₁.only.blocks] at hb'
      refine (h.ahead id' b' k q hb' ((h₂.others id' k q hid).1 hq)).imp_right ?_
      rintro ⟨start', d, hd, hqd, hsupply, howner'⟩
      exact ⟨start', d, hd, hqd, Nat.le_trans hsupply h₂.grown, howner'⟩
  -- an owned number that is paired belongs to a block the first world has filed
  · intro a n v w id' hpair hn
    by_cases hid : id' = id
    · subst hid
      exact ⟨i, _, h₁.filed⟩
    · rw [← hfiled id' hid]
      rcases hpair with hpair | hpair
      · exact h.owned a n v w id' hpair hn
      · obtain ⟨-, hstart, hlast⟩ := hlike.supply.pairs a n v w hpair
        rcases howner n hstart hlast with hnone | hsome
        · rw [hnone] at hn
          cases hn
        · rw [hsome] at hn
          exact absurd (Option.some.inj hn).symm hid

/-- **What the first world compiles, the second compiles as well**, unless it did before, and the
    programs are alike. -/
theorem compile (h : Beside owner ρ w₁ w₂) {w₁' : World}
    (hcompile : World.compile id w₁ = (.ok i, w₁')) :
    ∃ ρ' j w₂' p q, ρ ≤ ρ' ∧ World.compile id w₂ = (.ok j, w₂') ∧ Beside owner ρ' w₁' w₂' ∧
      w₁'.Files id i p ∧ w₂'.Files id j q ∧ p.Like ρ' q ∧ KeepsPlaces w₁ w₁' ∧ KeepsPlaces w₂ w₂' := by
  rcases h.derived₁.compile_cases hcompile with ⟨rfl, p, hp⟩ | ⟨b, d₁, hb, hunfiled, hd₁, h₁⟩
  · obtain ⟨j, q, hq, hpq⟩ := h.filed id i p hp
    exact ⟨ρ, j, w₂, p, q, le_rfl, h.derived₂.compile_files hq, h, hp, hq, hpq, .refl _, .refl _⟩
  -- what is needed besides a draft that is alike and the way it got into the second world
  have hdone : ∀ {j : Nat} {w₂' : World} {d₂ : Draft} {start : BufferId},
      World.compile id w₂ = (.ok j, w₂') → HasCompiled id j b d₂ w₂ w₂' →
      lower ⟨b.signature.name, w₁.scope, w₁.natives⟩ b.body start = .ok d₂ →
      (∀ a n v w, ρ.pairs a n v w → start ≤ n → n < d₂.supply → False) →
      (∀ n, start ≤ n → n < d₂.supply → owner n = none ∨ owner n = some id) →
      ∃ ρ' j w₂' p q, ρ ≤ ρ' ∧ World.compile id w₂ = (.ok j, w₂') ∧ Beside owner ρ' w₁' w₂' ∧
        w₁'.Files id i p ∧ w₂'.Files id j q ∧ p.Like ρ' q ∧ KeepsPlaces w₁ w₁' ∧ KeepsPlaces w₂ w₂' := by
    intro j w₂' d₂ start hcompile₂ h₂ hd₂ hfree howner
    have halike := lower_alike ⟨b.signature.name, w₁.scope, w₁.natives⟩ b.body w₁.supply start
    rw [hd₁, hd₂] at halike
    cases halike with
    | ok hlike =>
      obtain ⟨σ, hlike⟩ := hlike
      have hapart : ρ.Apart σ := by
        intro a n a' n' v w v' w' hpair hpair'
        obtain ⟨⟨hstart, -⟩, hstart', hlast⟩ := hlike.supply.pairs a' n' v' w' hpair'
        refine ⟨Nat.ne_of_lt (Nat.lt_of_lt_of_le (h.numbers.pairs a n v w hpair).1.2 hstart), ?_⟩
        rintro rfl
        exact hfree a n v w hpair hstart' hlast
      exact ⟨_, j, w₂', _, _, Matching.le_join_left hapart, hcompile₂,
        h.first h₁ h₂ hlike hapart howner, h₁.filed, h₂.filed,
        (hlike.finish b i j).mono (Matching.le_join_right hapart), h₁.places, h₂.places⟩
  by_cases hfiled : ∃ j q, w₂.Files id j q
  · obtain ⟨j, q, hq⟩ := hfiled
    obtain ⟨start, d₂, hd₂, rfl, hsupply, howner⟩ :=
      (h.ahead id b j q hb hq).resolve_left fun ⟨k, p, hp⟩ => hunfiled k p hp
    refine hdone (h.derived₂.compile_files hq) ⟨.refl w₂, .refl w₂, h.derived₂, hq, fun _ _ _ _ => .rfl,
      Nat.le_refl _, hsupply⟩ hd₂ (fun a n v w hpair hstart hlast => ?_)
      fun n hstart hlast => .inr (howner n hstart hlast)
    obtain ⟨k, p, hp⟩ := h.owned a n v w id hpair (howner n hstart hlast)
    exact hunfiled k p hp
  · obtain ⟨d₂, hd₂⟩ := lower_isOk hd₁ w₂.supply
    have hcontext : lower ⟨b.signature.name, w₂.scope, w₂.natives⟩ b.body w₂.supply = .ok d₂ := by
      rw [scope, h.registry, h.modules, h.natives]
      exact hd₂
    obtain ⟨j, w₂', hcompile₂, h₂⟩ := h.derived₂.compile_first (h.blocks id b hb)
      (fun k q hq => hfiled ⟨k, q, hq⟩) hcontext
    exact hdone hcompile₂ h₂ hd₂
      (fun a n v w hpair hstart _ =>
        Nat.not_lt_of_le hstart (h.numbers.pairs a n v w hpair).2.2)
      fun n hstart _ => .inl (h.unowned n hstart)

end Beside

end World

/-! ### Call sites -/

/-- What a site of a block's program remembers. -/
def Caches.ofBlock (c : Caches) (w : World) (id : BlockId) (site : Nat) : SiteCache :=
  match w.programs.indices[id]? with
  | some i => c.site i site
  | none => {}

/-- Sites of one block remember the same, and unused indices have no sites. -/
structure Caches.Beside (w₁ w₂ : World) (c₁ c₂ : Caches) : Prop where
  sites : ∀ id site, c₁.ofBlock w₁ id site = c₂.ofBlock w₂ id site
  unused₁ : ∀ i site, w₁.programs.slots.size ≤ i → c₁.site i site = {}
  unused₂ : ∀ i site, w₂.programs.slots.size ≤ i → c₂.site i site = {}

/-- Nothing is remembered yet. -/
theorem Caches.Beside.empty (w₁ w₂ : World) : Caches.Beside w₁ w₂ {} {} := by
  have hempty : ∀ i site, ({} : Caches).site i site = {} := fun _ _ => Std.HashMap.getD_empty
  have hblock : ∀ (w : World) id site, ({} : Caches).ofBlock w id site = {} := fun w id site => by
    rw [Caches.ofBlock]
    split
    · exact hempty _ _
    · rfl
  exact ⟨fun id site => by rw [hblock, hblock], fun i site _ => hempty i site, fun i site _ => hempty i site⟩

theorem Caches.ofBlock_keeps {w w' : World} (h : w.KeepsPlaces w') {c : Caches}
    (hunused : ∀ i site, w.programs.slots.size ≤ i → c.site i site = {}) (id : BlockId) (site : Nat) :
    c.ofBlock w' id site = c.ofBlock w id site := by
  rw [ofBlock, ofBlock]
  cases hi : w.programs.indices[id]? with
  | some i => rw [h.kept id i hi]
  | none =>
    cases hi' : w'.programs.indices[id]? with
    | none => rfl
    | some i =>
      rcases h.placed id i hi' with hold | ⟨-, hsize⟩
      · rw [hi] at hold
        exact nomatch hold
      · exact hunused i site hsize

theorem Caches.Beside.keeps {w₁ w₂ w₁' w₂' : World} {c₁ c₂ : Caches} (h : Caches.Beside w₁ w₂ c₁ c₂)
    (h₁ : w₁.KeepsPlaces w₁') (h₂ : w₂.KeepsPlaces w₂') : Caches.Beside w₁' w₂' c₁ c₂ where
  sites id site := by
    rw [ofBlock_keeps h₁ h.unused₁, ofBlock_keeps h₂ h.unused₂, h.sites]
  unused₁ i site hi := h.unused₁ i site (Nat.le_trans h₁.size hi)
  unused₂ i site hi := h.unused₂ i site (Nat.le_trans h₂.size hi)

/-- What is asked of a site depends on what the site remembers only, and changes that only. -/
theorem Caches.consult_sites {c c' : Caches} {i j site : Nat} (h : c.site i site = c'.site j site)
    (resolved : CacheLine) :
    (c.consult i site resolved).1 = (c'.consult j site resolved).1 ∧ ∃ cache,
      (∀ i' site', (c.consult i site resolved).2.site i' site' =
        if i = i' ∧ site = site' then cache else c.site i' site') ∧
      ∀ i' site', (c'.consult j site resolved).2.site i' site' =
        if j = i' ∧ site = site' then cache else c'.site i' site' := by
  rw [consult, consult, ← h]
  rcases (c.site i site).lookup resolved.type resolved.epoch with ⟨_ | line, cache⟩
  · exact ⟨rfl, _, fun i' site' => site_setSite c i site i' site' _,
      fun i' site' => site_setSite c' j site i' site' _⟩
  · exact ⟨rfl, _, fun i' site' => site_setSite c i site i' site' _,
      fun i' site' => site_setSite c' j site i' site' _⟩

/-- Sites of one block answer alike, and remember the same afterwards. -/
theorem Caches.Beside.consult {w₁ w₂ : World} {c₁ c₂ : Caches} (h : Caches.Beside w₁ w₂ c₁ c₂)
    (hindexed₁ : World.Indexed w₁.programs) (hindexed₂ : World.Indexed w₂.programs) {id : BlockId}
    {i j : Nat} (hi : w₁.programs.indices[id]? = some i) (hj : w₂.programs.indices[id]? = some j)
    (site : Nat) (resolved : CacheLine) :
    (c₁.consult i site resolved).1 = (c₂.consult j site resolved).1 ∧
      Caches.Beside w₁ w₂ (c₁.consult i site resolved).2 (c₂.consult j site resolved).2 := by
  have hplace : ∀ (c : Caches) {w : World} {i : Nat}, w.programs.indices[id]? = some i →
      ∀ site, c.ofBlock w id site = c.site i site := by
    intro c w i hi site
    rw [ofBlock, hi]
  have hsame : c₁.site i site = c₂.site j site := by
    rw [← hplace c₁ hi, ← hplace c₂ hj, h.sites]
  -- no other block has the index, and it is in use
  have hother : ∀ {w : World} {i : Nat}, World.Indexed w.programs → w.programs.indices[id]? = some i →
      i < w.programs.slots.size ∧ ∀ id' i', id ≠ id' → w.programs.indices[id']? = some i' → i ≠ i' := by
    intro w i hindexed hi
    obtain ⟨slot, hslot, rfl⟩ := (hindexed id i).1 hi
    refine ⟨(Array.getElem?_eq_some_iff.1 hslot).1, ?_⟩
    rintro id' i' hid hi' rfl
    obtain ⟨slot', hslot', rfl⟩ := (hindexed id' i).1 hi'
    exact hid (congrArg ProgramSlot.block (Option.some.inj (hslot.symm.trans hslot')))
  obtain ⟨hlt₁, hother₁⟩ := hother hindexed₁ hi
  obtain ⟨hlt₂, hother₂⟩ := hother hindexed₂ hj
  obtain ⟨hanswer, cache, hsites₁, hsites₂⟩ := consult_sites hsame resolved
  have hkept : ∀ {c c' : Caches} {w : World} {i : Nat}, (∀ i' site', c'.site i' site' =
        if i = i' ∧ site = site' then cache else c.site i' site') →
      (∀ id' i', id ≠ id' → w.programs.indices[id']? = some i' → i ≠ i') → ∀ id' site', id ≠ id' →
      c'.ofBlock w id' site' = c.ofBlock w id' site' := by
    intro c c' w i hsites hother id' site' hid
    rw [ofBlock, ofBlock]
    cases hi' : w.programs.indices[id']? with
    | none => rfl
    | some i' =>
      dsimp only
      rw [hsites, if_neg fun h => hother id' i' hid hi' h.1]
  refine ⟨hanswer, fun id' site' => ?_, fun i' site' hi' => ?_, fun j' site' hj' => ?_⟩
  · by_cases hid : id = id'
    · subst hid
      rw [hplace _ hi, hplace _ hj, hsites₁, hsites₂]
      by_cases hsite : site = site'
      · rw [if_pos ⟨rfl, hsite⟩, if_pos ⟨rfl, hsite⟩]
      · rw [if_neg fun h => hsite h.2, if_neg fun h => hsite h.2, ← hplace c₁ hi, ← hplace c₂ hj,
          h.sites]
    · rw [hkept hsites₁ hother₁ id' site' hid, hkept hsites₂ hother₂ id' site' hid, h.sites]
  · rw [hsites₁, if_neg fun h => Nat.ne_of_lt (Nat.lt_of_lt_of_le hlt₁ hi') h.1, h.unused₁ i' site' hi']
  · rw [hsites₂, if_neg fun h => Nat.ne_of_lt (Nat.lt_of_lt_of_le hlt₂ hj') h.1, h.unused₂ j' site' hj']

end BlockMachine

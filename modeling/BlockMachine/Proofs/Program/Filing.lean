import BlockMachine.Proofs.Program.Table

namespace BlockMachine

/-!
# How programs are filed

Compiling a block and fetching a program change the table of programs and the supply of buffer
numbers, and nothing else of a world. They fill empty slots and leave programs that are filed where
they are; only a new definition of a block takes its program out.

* `World.OnlyPrograms` says that nothing else changes;
* `World.Filed` says that the table is in order, `World.Retains` that programs stay in their slots;
* `World.Derived` says that programs come from the current definitions of their blocks;
* `World.compile_filed` and `World.Derived.compile_ok` say what compiling a block files.
-/

namespace World

/-- A computation changes nothing but programs and the supply of buffer numbers. -/
structure OnlyPrograms (w w' : World) : Prop where
  blocks : w'.blocks = w.blocks
  natives : w'.natives = w.natives
  registry : w'.registry = w.registry
  modules : w'.modules = w.modules
  epoch : w'.epoch = w.epoch

namespace OnlyPrograms

variable {w w' w'' : World}

/-- Nothing changes. -/
theorem refl (w : World) : OnlyPrograms w w :=
  ⟨rfl, rfl, rfl, rfl, rfl⟩

/-- Changes of programs follow each other. -/
theorem trans (h : OnlyPrograms w w') (h' : OnlyPrograms w' w'') : OnlyPrograms w w'' :=
  ⟨h'.blocks.trans h.blocks, h'.natives.trans h.natives, h'.registry.trans h.registry,
    h'.modules.trans h.modules, h'.epoch.trans h.epoch⟩

end OnlyPrograms

/-- Giving out an index changes the table of programs only. -/
theorem programIndex_only (id : BlockId) (w : World) : OnlyPrograms w (programIndex id w).2 := by
  cases hi : w.programs.indices[id]? with
  | some i =>
    rw [programIndex_of_some hi]
    exact .refl w
  | none =>
    rw [programIndex_of_none hi]
    exact ⟨rfl, rfl, rfl, rfl, rfl⟩

/-- Lowering a block changes that table, and takes buffer numbers. -/
theorem lowered_only (b : Block) (i : Nat) (w : World) : OnlyPrograms w (lowered b i w).2 := by
  rw [lowered]
  split <;> exact ⟨rfl, rfl, rfl, rfl, rfl⟩

/-- A block whose program is filed is not compiled again. -/
theorem compile_filed {w : World} {id : BlockId} {b : Block} {i : Nat} {p : Program}
    (hb : w.blocks[id]? = some b) (hindex : w.programs.indices[id]? = some i)
    (hslot : w.slotProgram? i = some p) (hversion : p.version = b.version) :
    compile id w = (.ok i, w) := by
  rw [compile_eq, hb, programIndex_of_some hindex]
  dsimp only
  rw [hslot]
  dsimp only
  rw [if_pos hversion]

/-- A block with an empty slot is lowered into it. -/
theorem compile_unfiled {w : World} {id : BlockId} {b : Block} {i : Nat} (hb : w.blocks[id]? = some b)
    (hindex : w.programs.indices[id]? = some i) (hslot : w.slotProgram? i = none) :
    compile id w = lowered b i w := by
  rw [compile_eq, hb, programIndex_of_some hindex]
  dsimp only
  rw [hslot]

/-- Compiling a block changes the table of programs only, and takes buffer numbers. -/
theorem compile_only (id : BlockId) (w : World) : OnlyPrograms w (compile id w).2 := by
  have hindex := programIndex_only id w
  have hlowered : ∀ b, OnlyPrograms w (lowered b (programIndex id w).1 (programIndex id w).2).2 :=
    fun b => hindex.trans (lowered_only b _ _)
  rw [compile_eq]
  split
  · exact .refl w
  · split
    · split
      · exact hindex
      · exact hlowered _
    · exact hlowered _

/-- Fetching a program changes the table of programs only, and takes buffer numbers. -/
theorem program_only (index : Nat) (w : World) : OnlyPrograms w (program index w).2 := by
  rw [program_eq]
  split
  · exact .refl w
  next slot _ =>
    split
    · exact .refl w
    · have hcompile := compile_only slot.block w
      generalize World.compile slot.block w = r at hcompile
      obtain ⟨_ | _, w'⟩ := r
      · exact hcompile
      · dsimp only
        split <;> exact hcompile

/-! ### Slots -/

/-- The table of programs is in order: blocks have their slots, and a program that is filed belongs to
    the current version of its block. -/
structure Filed (w : World) : Prop where
  indexed : Indexed w.programs
  current : ∀ (i : Nat) (slot : ProgramSlot) (p : Program), w.programs.slots[i]? = some slot →
    slot.program = some p → ∃ b, w.blocks[slot.block]? = some b ∧ p.version = b.version

/-- All programs that are filed stay in their slots. -/
def Retains (w w' : World) : Prop :=
  ∀ (i : Nat) (p : Program), w.slotProgram? i = some p → w'.slotProgram? i = some p

/-- A world in order in which no program was lost. -/
structure Kept (w w' : World) : Prop where
  filed : w'.Filed
  retains : w.Retains w'

variable {w w' w'' : World}

/-- A world in order keeps what it has. -/
theorem Kept.refl (h : w.Filed) : Kept w w :=
  ⟨h, fun _ _ hp => hp⟩

/-- What is kept from one world to the next is kept along a chain of worlds. -/
theorem Kept.trans (h : Kept w w') (h' : Kept w' w'') : Kept w w'' :=
  ⟨h'.filed, fun i p hp => h'.retains i p (h.retains i p hp)⟩

/-- A new world has no programs. -/
theorem filed_new : Filed {} where
  indexed := by intro id i; simp
  current := by simp

/-- Only blocks and programs matter. -/
theorem Filed.kept (h : w.Filed) (hblocks : w'.blocks = w.blocks) (hprograms : w'.programs = w.programs) :
    Kept w w' := by
  refine ⟨⟨hprograms ▸ h.indexed, ?_⟩, fun i p hp => ?_⟩
  · rw [hblocks, hprograms]
    exact h.current
  · rw [slotProgram?, hprograms]
    exact hp

/-- The program at an index is the one in its slot. -/
theorem slotProgram?_of_slot {i : Nat} {slot : ProgramSlot} (h : w.programs.slots[i]? = some slot) :
    w.slotProgram? i = slot.program := by
  rw [slotProgram?, h]
  rfl

/-- A program that is filed is fetched. -/
theorem program_of_slot {i : Nat} {p : Program} (h : w.slotProgram? i = some p) :
    program i w = (.ok p, w) := by
  obtain ⟨slot, hslot, hprogram⟩ := Option.bind_eq_some_iff.1 h
  rw [program_eq, hslot]
  dsimp only
  rw [hprogram]

/-- A block that gets an index has a slot there. -/
theorem Filed.programIndex (h : w.Filed) (id : BlockId) :
    Kept w (programIndex id w).2 ∧ ∃ slot,
      (World.programIndex id w).2.programs.slots[(World.programIndex id w).1]? = some slot ∧
        slot.block = id := by
  cases hi : w.programs.indices[id]? with
  | some i =>
    rw [programIndex_of_some hi]
    exact ⟨.refl h, (h.indexed id i).1 hi⟩
  | none =>
    rw [programIndex_of_none hi]
    refine ⟨⟨⟨h.indexed.push hi, fun i slot p hslot hp => ?_⟩, fun i p hp => ?_⟩, _,
      Array.getElem?_push_size, rfl⟩
    · rcases getElem?_push_cases hslot with ⟨_, rfl⟩ | hslot
      · exact nomatch hp
      · exact h.current i slot p hslot hp
    · obtain ⟨slot, hslot, hprogram⟩ := Option.bind_eq_some_iff.1 hp
      exact Option.bind_eq_some_iff.2 ⟨slot, getElem?_push_of_some hslot _, hprogram⟩

/-- An empty slot is filled with a program of the current version. -/
theorem Filed.lowered (h : w.Filed) {i : Nat} {slot : ProgramSlot} {b : Block}
    (hslot : w.programs.slots[i]? = some slot) (hempty : slot.program = none)
    (hb : w.blocks[slot.block]? = some b) :
    Kept w (lowered b i w).2 ∧ ∀ j, (World.lowered b i w).1 = .ok j →
      ∃ p, (World.lowered b i w).2.slotProgram? j = some p := by
  rw [World.lowered]
  split
  · exact ⟨.refl h, by simp⟩
  next d hd =>
    refine ⟨⟨⟨?_, fun j slot' p hslot' hp => ?_⟩, fun j p hp => ?_⟩, fun j hj => ?_⟩
    · exact h.indexed.of_slots rfl _ fun j => getElem?_modify_slot w.programs.slots i j _
    · rw [getElem?_modify_slot] at hslot'
      obtain ⟨slot₀, hslot₀, rfl⟩ := Option.map_eq_some_iff.1 hslot'
      dsimp only at hp
      split at hp
      next hij =>
        subst hij
        rw [hslot] at hslot₀
        obtain rfl := Option.some.inj hslot₀
        exact ⟨b, hb, Option.some.inj hp ▸ rfl⟩
      next => exact h.current j slot₀ p hslot₀ hp
    · obtain ⟨slot', hslot', hprogram⟩ := Option.bind_eq_some_iff.1 hp
      refine Option.bind_eq_some_iff.2 ⟨_, modify_slot_of_some hslot' i _, ?_⟩
      dsimp only
      rw [if_neg]
      · exact hprogram
      · -- the slot that is filled was empty
        rintro rfl
        rw [hslot] at hslot'
        obtain rfl := Option.some.inj hslot'
        rw [hempty] at hprogram
        cases hprogram
    · obtain rfl := Except.ok.inj hj
      exact ⟨_, Option.bind_eq_some_iff.2 ⟨_, modify_slot_of_some hslot i _, if_pos rfl⟩⟩

/-- Compiling a block leaves filed programs alone, and the program of the block is one of them
    afterwards. -/
theorem Filed.compile (h : w.Filed) (id : BlockId) :
    Kept w (compile id w).2 ∧ ∀ i, (World.compile id w).1 = .ok i →
      ∃ p, (World.compile id w).2.slotProgram? i = some p := by
  rw [compile_eq]
  cases hb : w.blocks[id]? with
  | none => exact ⟨.refl h, nofun⟩
  | some b =>
    obtain ⟨hindex, slot, hslot, rfl⟩ := h.programIndex id
    have hb' : (World.programIndex slot.block w).2.blocks[slot.block]? = some b := by
      rw [(programIndex_only slot.block w).blocks]
      exact hb
    dsimp only
    rw [slotProgram?_of_slot hslot]
    cases hp : slot.program with
    | none =>
      obtain ⟨hlowered, hfilled⟩ := hindex.filed.lowered hslot hp hb'
      exact ⟨hindex.trans hlowered, hfilled⟩
    | some p =>
      -- a program that is filed is current
      obtain ⟨b', hb'', hversion⟩ := hindex.filed.current _ slot p hslot hp
      rw [hb'] at hb''
      obtain rfl := Option.some.inj hb''
      dsimp only
      rw [if_pos hversion]
      refine ⟨hindex, fun i hi => ?_⟩
      obtain rfl := Except.ok.inj hi
      exact ⟨p, (slotProgram?_of_slot hslot).trans hp⟩

/-- Fetching a program leaves filed programs alone, and the program is one of them afterwards. -/
theorem Filed.program (h : w.Filed) (index : Nat) :
    Kept w (program index w).2 ∧ ∀ p, (World.program index w).1 = .ok p →
      (World.program index w).2.slotProgram? index = some p := by
  rw [program_eq]
  cases hslot : w.programs.slots[index]? with
  | none => exact ⟨.refl h, nofun⟩
  | some slot =>
    dsimp only
    cases hp : slot.program with
    | some p =>
      refine ⟨.refl h, fun p' hp' => ?_⟩
      obtain rfl := Except.ok.inj hp'
      exact (slotProgram?_of_slot hslot).trans hp
    | none =>
      have hcompile := (h.compile slot.block).1
      dsimp only
      generalize World.compile slot.block w = r at hcompile
      obtain ⟨_ | _, w'⟩ := r
      · exact ⟨hcompile, nofun⟩
      · dsimp only
        cases hp' : w'.slotProgram? index with
        | none => exact ⟨hcompile, nofun⟩
        | some p => exact ⟨hcompile, fun q hq => Except.ok.inj hq ▸ hp'⟩

/-- A new block has no slot. -/
theorem Filed.addBlock (h : w.Filed) (signature : Signature) (body : List Directive) :
    Kept w (w.addBlock signature body).2 := by
  refine ⟨⟨h.indexed, fun i slot p hslot hp => ?_⟩, fun _ _ hp => hp⟩
  obtain ⟨b, hb, hversion⟩ := h.current i slot p hslot hp
  exact ⟨b, getElem?_push_of_some hb _, hversion⟩

/-- A new definition of a block takes its program out, so the table stays in order. -/
theorem Filed.replaceBlock (h : w.Filed) (id : BlockId) (signature : Signature)
    (body : List Directive) : Filed (replaceBlock id signature body w).2 := by
  rw [replaceBlock_eq]
  cases hb : w.blocks[id]? with
  | none => exact h
  | some b =>
    refine ⟨h.indexed.drop id, fun i slot p hslot hp => ?_⟩
    rw [h.indexed.getElem?_drop] at hslot
    obtain ⟨slot₀, hslot₀, rfl⟩ := Option.map_eq_some_iff.1 hslot
    dsimp only at hp ⊢
    split at hp
    · exact nomatch hp
    next hid =>
      obtain ⟨b', hb', hversion⟩ := h.current i slot₀ p hslot₀ hp
      rw [Array.getElem?_setIfInBounds_ne (Ne.symm hid)]
      exact ⟨b', hb', hversion⟩

/-! ### Where programs come from -/

/-- Every program that is filed was lowered from the current definition of its block. -/
structure Derived (w : World) : Prop where
  indexed : Indexed w.programs
  lowered : ∀ (i : Nat) (slot : ProgramSlot) (p : Program), w.programs.slots[i]? = some slot →
    slot.program = some p → ∃ b ctx supply d, w.blocks[slot.block]? = some b ∧
      lower ctx b.body supply = .ok d ∧ p = finish b i d

/-- Programs that were lowered from current definitions are filed for their blocks. -/
theorem Derived.filed (h : w.Derived) : w.Filed := by
  refine ⟨h.indexed, fun i slot p hslot hp => ?_⟩
  obtain ⟨b, ctx, supply, d, hb, hd, rfl⟩ := h.lowered i slot p hslot hp
  exact ⟨b, hb, rfl⟩

/-- Nothing was compiled yet. -/
theorem Derived.of_empty (h : w.programs = {}) : w.Derived := by
  refine ⟨?_, ?_⟩
  · rw [h]
    intro id i
    constructor
    · exact fun hi => nomatch Std.HashMap.getElem?_empty.symm.trans hi
    · rintro ⟨slot, hslot, -⟩
      exact nomatch hslot
  · rw [h]
    exact fun i slot p hslot => nomatch hslot

/-- Only blocks and programs matter. -/
theorem Derived.congr (h : w.Derived) (hblocks : w'.blocks = w.blocks)
    (hprograms : w'.programs = w.programs) : w'.Derived := by
  refine ⟨hprograms ▸ h.indexed, ?_⟩
  rw [hblocks, hprograms]
  exact h.lowered

/-- Giving out an index adds no program. -/
theorem Derived.programIndex (h : w.Derived) (id : BlockId) : (programIndex id w).2.Derived := by
  refine ⟨(h.filed.programIndex id).1.filed.indexed, fun i slot p hslot hp => ?_⟩
  cases hi : w.programs.indices[id]? with
  | some j =>
    rw [programIndex_of_some hi] at hslot ⊢
    exact h.lowered i slot p hslot hp
  | none =>
    rw [programIndex_of_none hi] at hslot ⊢
    rcases getElem?_push_cases hslot with ⟨_, rfl⟩ | hslot
    · exact nomatch hp
    · exact h.lowered i slot p hslot hp

/-- What a slot is filled with was lowered from the definition of its block. -/
theorem Derived.filled (h : w.Derived) {i : Nat} {slot : ProgramSlot} {b : Block}
    (hslot : w.programs.slots[i]? = some slot) (hb : w.blocks[slot.block]? = some b) :
    (World.lowered b i w).2.Derived := by
  rw [World.lowered]
  split
  · exact h
  next d hd =>
    refine ⟨?_, fun j slot' p hslot' hp => ?_⟩
    · exact h.indexed.of_slots rfl _ fun j => getElem?_modify_slot w.programs.slots i j _
    · rw [getElem?_modify_slot] at hslot'
      obtain ⟨slot₀, hslot₀, rfl⟩ := Option.map_eq_some_iff.1 hslot'
      dsimp only at hp
      split at hp
      next hij =>
        subst hij
        rw [hslot] at hslot₀
        obtain rfl := Option.some.inj hslot₀
        exact ⟨b, _, _, d, hb, hd, (Option.some.inj hp).symm⟩
      next => exact h.lowered j slot₀ p hslot₀ hp

/-- Compiling a block keeps programs in step with definitions. -/
theorem Derived.compile (h : w.Derived) (id : BlockId) : (compile id w).2.Derived := by
  rw [compile_eq]
  cases hb : w.blocks[id]? with
  | none => exact h
  | some b =>
    have hindex := h.programIndex id
    obtain ⟨-, slot, hslot, rfl⟩ := h.filed.programIndex id
    have hb' : (World.programIndex slot.block w).2.blocks[slot.block]? = some b := by
      rw [(programIndex_only slot.block w).blocks]
      exact hb
    have hfilled := hindex.filled hslot hb'
    dsimp only
    split
    · split
      · exact hindex
      · exact hfilled
    · exact hfilled

/-- Fetching a program keeps programs in step with definitions. -/
theorem Derived.program (h : w.Derived) (index : Nat) : (program index w).2.Derived := by
  rw [program_eq]
  split
  · exact h
  next slot _ =>
    split
    · exact h
    · have hcompile := h.compile slot.block
      generalize World.compile slot.block w = r at hcompile
      obtain ⟨_ | _, w'⟩ := r
      · exact hcompile
      · dsimp only
        split <;> exact hcompile

/-- **A block whose body can be lowered compiles**, and what is filed was lowered from that body. -/
theorem Derived.compile_ok (h : w.Derived) {id : BlockId} {b : Block} (hb : w.blocks[id]? = some b)
    (hlower : ∀ ctx supply, ∃ d, lower ctx b.body supply = .ok d) :
    ∃ i w' ctx supply d, World.compile id w = (.ok i, w') ∧ w'.programs.indices[id]? = some i ∧
      lower ctx b.body supply = .ok d ∧ w'.slotProgram? i = some (finish b i d) := by
  obtain ⟨-, slot, hslot, rfl⟩ := h.filed.programIndex id
  have hderived := h.programIndex slot.block
  have hindex := (hderived.indexed slot.block _).2 ⟨slot, hslot, rfl⟩
  have hb' : (World.programIndex slot.block w).2.blocks[slot.block]? = some b := by
    rw [(programIndex_only slot.block w).blocks]
    exact hb
  rw [compile_eq, hb]
  dsimp only
  generalize World.programIndex slot.block w = r at hslot hderived hindex hb' ⊢
  obtain ⟨i, w₁⟩ := r
  dsimp only at hslot hindex hb' ⊢
  rw [slotProgram?_of_slot hslot]
  cases hp : slot.program with
  | some p =>
    obtain ⟨b', ctx, supply, d, hb'', hd, rfl⟩ := hderived.lowered i slot p hslot hp
    obtain rfl := Option.some.inj (hb'.symm.trans hb'')
    exact ⟨i, w₁, ctx, supply, d, if_pos rfl, hindex, hd, (slotProgram?_of_slot hslot).trans hp⟩
  | none =>
    obtain ⟨d, hd⟩ := hlower ⟨b.signature.name, w₁.scope, w₁.natives⟩ w₁.supply
    dsimp only
    rw [World.lowered, hd]
    exact ⟨i, _, _, _, d, rfl, hindex, hd, Option.bind_eq_some_iff.2
      ⟨_, modify_slot_of_some hslot i _, if_pos rfl⟩⟩

/-- A new block has no program. -/
theorem Derived.addBlock (h : w.Derived) (signature : Signature) (body : List Directive) :
    (w.addBlock signature body).2.Derived := by
  refine ⟨h.indexed, fun i slot p hslot hp => ?_⟩
  obtain ⟨b, ctx, supply, d, hb, hd, rfl⟩ := h.lowered i slot p hslot hp
  exact ⟨b, ctx, supply, d, getElem?_push_of_some hb _, hd, rfl⟩

/-- A block that is defined anew loses the program of its old definition. -/
theorem Derived.replaceBlock (h : w.Derived) (id : BlockId) (signature : Signature)
    (body : List Directive) : (replaceBlock id signature body w).2.Derived := by
  rw [replaceBlock_eq]
  cases hb : w.blocks[id]? with
  | none => exact h
  | some b =>
    refine ⟨h.indexed.drop id, fun i slot p hslot hp => ?_⟩
    rw [h.indexed.getElem?_drop] at hslot
    obtain ⟨slot₀, hslot₀, rfl⟩ := Option.map_eq_some_iff.1 hslot
    dsimp only at hp ⊢
    split at hp
    · exact nomatch hp
    next hid =>
      obtain ⟨b', ctx, supply, d, hb', hd, rfl⟩ := h.lowered i slot₀ p hslot₀ hp
      refine ⟨b', ctx, supply, d, ?_, hd, rfl⟩
      rw [Array.getElem?_setIfInBounds_ne (Ne.symm hid)]
      exact hb'

end World

end BlockMachine

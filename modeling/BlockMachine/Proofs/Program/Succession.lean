import BlockMachine.Machine.Frame
import BlockMachine.Proofs.Program.Filing

namespace BlockMachine

/-!
# Worlds one after the other

Blocks keep their program indices, their versions only rise, and a program is dropped only together
with its version. So a frame that once ran an old version of its block never runs the current one, and
a frame that runs the current one still has the program its offset belongs to.

* `World.Succeeds` relates a world to a later one;
* `World.Filed.compile_succeeds` and its companions are about the operations of a world;
* `Frame.Stands` is about the place of a frame in the programs of a world.
-/

namespace World

/-- What a later world keeps of blocks and programs. -/
structure Succeeds (w w' : World) : Prop where
  indices : ∀ (id : BlockId) (i : Nat), w.programs.indices[id]? = some i →
    w'.programs.indices[id]? = some i
  blocks : ∀ (id : BlockId) (b : Block), w.blocks[id]? = some b → ∃ b', w'.blocks[id]? = some b' ∧
    b.version ≤ b'.version ∧ (b'.version = b.version → ∀ i p, w.programs.indices[id]? = some i →
      w.slotProgram? i = some p → w'.slotProgram? i = some p)

namespace Succeeds

variable {w w' w'' : World}

/-- A world succeeds itself. -/
theorem refl (w : World) : Succeeds w w :=
  ⟨fun _ _ h => h, fun _ b hb => ⟨b, hb, Nat.le_refl _, fun _ _ _ _ hp => hp⟩⟩

/-- Worlds succeed each other along a chain. -/
theorem trans (h : Succeeds w w') (h' : Succeeds w' w'') : Succeeds w w'' := by
  refine ⟨fun id i hi => h'.indices id i (h.indices id i hi), fun id b hb => ?_⟩
  obtain ⟨b', hb', hle, hkeep⟩ := h.blocks id b hb
  obtain ⟨b'', hb'', hle', hkeep'⟩ := h'.blocks id b' hb'
  refine ⟨b'', hb'', Nat.le_trans hle hle', fun heq i p hi hp => ?_⟩
  -- the version did not rise in either step
  have hfirst : b'.version = b.version := Nat.le_antisymm (heq ▸ hle') hle
  exact hkeep' (heq.trans hfirst.symm) i p (h.indices id i hi) (hkeep hfirst i p hi hp)

/-- Programs that are retained while blocks stay the same. -/
theorem of_retains (hblocks : w'.blocks = w.blocks) (hretains : w.Retains w')
    (hindices : ∀ (id : BlockId) (i : Nat), w.programs.indices[id]? = some i →
      w'.programs.indices[id]? = some i) : Succeeds w w' :=
  ⟨hindices, fun _ b hb => ⟨b, hblocks ▸ hb, Nat.le_refl _, fun _ i p _ hp => hretains i p hp⟩⟩

/-- Only blocks and programs matter. -/
theorem of_eq (hblocks : w'.blocks = w.blocks) (hprograms : w'.programs = w.programs) :
    Succeeds w w' := by
  refine of_retains hblocks (fun i p hp => ?_) fun id i hi => hprograms ▸ hi
  rw [slotProgram?, hprograms]
  exact hp

end Succeeds

variable {w w' : World}

/-! ### Operations on programs -/

/-- A block that was given an index has it. -/
theorem programIndex_index (id : BlockId) (w : World) :
    (programIndex id w).2.programs.indices[id]? = some (programIndex id w).1 := by
  cases hi : w.programs.indices[id]? with
  | some i =>
    rw [programIndex_of_some hi]
    exact hi
  | none =>
    rw [programIndex_of_none hi]
    exact Std.HashMap.getElem?_insert_self

/-- An index that was given out stays. -/
theorem programIndex_indices (id : BlockId) {id' : BlockId} {i : Nat}
    (h : w.programs.indices[id']? = some i) :
    (programIndex id w).2.programs.indices[id']? = some i := by
  cases hi : w.programs.indices[id]? with
  | some j =>
    rw [programIndex_of_some hi]
    exact h
  | none =>
    rw [programIndex_of_none hi]
    show (w.programs.indices.insert id _)[id']? = some i
    rw [Std.HashMap.getElem?_insert]
    split
    next heq =>
      obtain rfl := eq_of_beq heq
      rw [hi] at h
      exact nomatch h
    next => exact h

/-- Lowering a block gives out no index. -/
theorem lowered_indices (b : Block) (i : Nat) (w : World) :
    (lowered b i w).2.programs.indices = w.programs.indices := by
  rw [lowered]
  split <;> rfl

/-- Compiling a block leaves the indices of blocks. -/
theorem compile_indices (id : BlockId) {id' : BlockId} {i : Nat}
    (h : w.programs.indices[id']? = some i) :
    (compile id w).2.programs.indices[id']? = some i := by
  have hindex := programIndex_indices id h
  have hlowered : ∀ b, (lowered b (programIndex id w).1
      (programIndex id w).2).2.programs.indices[id']? = some i :=
    fun b => (lowered_indices b _ _).symm ▸ hindex
  rw [compile_eq]
  split
  · exact h
  · split
    · split
      · exact hindex
      · exact hlowered _
    · exact hlowered _

/-- Fetching a program leaves the indices of blocks. -/
theorem program_indices (index : Nat) {id : BlockId} {i : Nat}
    (h : w.programs.indices[id]? = some i) :
    (program index w).2.programs.indices[id]? = some i := by
  rw [program_eq]
  split
  · exact h
  next slot _ =>
    split
    · exact h
    · have hcompile := compile_indices slot.block h
      generalize World.compile slot.block w = r at hcompile
      obtain ⟨_ | _, w'⟩ := r
      · exact hcompile
      · dsimp only
        split <;> exact hcompile

/-- A block that was compiled has the index that is answered. -/
theorem compile_index {id : BlockId} {i : Nat} (h : (compile id w).1 = .ok i) :
    (compile id w).2.programs.indices[id]? = some i := by
  have hindex := programIndex_index id w
  have hlowered : ∀ b, (lowered b (programIndex id w).1 (programIndex id w).2).1 = .ok i →
      (lowered b (programIndex id w).1 (programIndex id w).2).2.programs.indices[id]? = some i := by
    intro b hb
    rw [lowered_indices, hindex]
    rw [lowered] at hb
    split at hb
    · cases hb
    · exact congrArg some (Except.ok.inj hb)
  rw [compile_eq] at h ⊢
  cases hb : w.blocks[id]? with
  | none =>
    rw [hb] at h
    cases h
  | some b =>
    rw [hb] at h
    dsimp only at h ⊢
    cases hp : (programIndex id w).2.slotProgram? (programIndex id w).1 with
    | none =>
      rw [hp] at h
      exact hlowered b h
    | some p =>
      rw [hp] at h
      dsimp only at h ⊢
      split at h
      next hversion =>
        rw [if_pos hversion]
        exact hindex.trans (congrArg some (Except.ok.inj h))
      next hversion =>
        rw [if_neg hversion]
        exact hlowered b h

/-- A world in which a block is compiled succeeds the one before. -/
theorem Filed.compile_succeeds (h : w.Filed) (id : BlockId) : w.Succeeds (World.compile id w).2 :=
  .of_retains (compile_only id w).blocks (h.compile id).1.retains fun _ _ => compile_indices id

/-- A world from which a program is fetched succeeds the one before. -/
theorem Filed.program_succeeds (h : w.Filed) (index : Nat) : w.Succeeds (World.program index w).2 :=
  .of_retains (program_only index w).blocks (h.program index).1.retains fun _ _ => program_indices index

/-- A world with a new block succeeds the one before. -/
theorem addBlock_succeeds (signature : Signature) (body : List Directive) (w : World) :
    w.Succeeds (w.addBlock signature body).2 :=
  ⟨fun _ _ h => h, fun _ b hb =>
    ⟨b, getElem?_push_of_some hb _, Nat.le_refl _, fun _ _ _ _ hp => hp⟩⟩

/-- A new definition raises the version of its block, and takes no other program away. -/
theorem Filed.replaceBlock_succeeds (h : w.Filed) (id : BlockId) (signature : Signature)
    (body : List Directive) :
    w.Succeeds (World.replaceBlock id signature body w).2 := by
  rw [replaceBlock_eq]
  cases hb : w.blocks[id]? with
  | none => exact .refl w
  | some b =>
    obtain ⟨hlt, -⟩ := Array.getElem?_eq_some_iff.1 hb
    refine ⟨fun id' i hi => ?_, fun id' b' hb' => ?_⟩
    · show (w.programs.drop id).indices[id']? = some i
      rw [ProgramTable.drop]
      split <;> exact hi
    · dsimp only
      by_cases hid : id = id'
      · subst hid
        obtain rfl := Option.some.inj (hb.symm.trans hb')
        exact ⟨_, Array.getElem?_setIfInBounds_self_of_lt hlt, Nat.le_succ _,
          fun heq => absurd heq (Nat.succ_ne_self _)⟩
      · refine ⟨b', by rw [Array.getElem?_setIfInBounds_ne hid]; exact hb', Nat.le_refl _,
          fun _ i p hi hp => ?_⟩
        obtain ⟨slot, hslot, hprogram⟩ := Option.bind_eq_some_iff.1 hp
        obtain ⟨slot', hslot', hblock⟩ := (h.indexed id' i).1 hi
        obtain rfl := Option.some.inj (hslot.symm.trans hslot')
        refine Option.bind_eq_some_iff.2 ⟨_, ?_, hprogram⟩
        rw [h.indexed.getElem?_drop, hslot, Option.map_some, if_neg]
        rw [hblock]
        exact Ne.symm hid

end World

/-! ### Frames in worlds -/

/-- A frame runs its block, if that is the current version then at an offset that the control flow of
    the program leads to. -/
def Frame.Stands (w : World) (f : Frame) : Prop :=
  w.programs.indices[f.block]? = some f.program ∧ ∃ b, w.blocks[f.block]? = some b ∧
    f.version ≤ b.version ∧ (f.version = b.version →
      ∃ p, w.slotProgram? f.program = some p ∧ p.Reaches f.pc.offset)

/-- The current program of a block is filed under an index. -/
def World.Runs (w : World) (block : BlockId) (index : Nat) (p : Program) : Prop :=
  w.programs.indices[block]? = some index ∧ w.slotProgram? index = some p ∧
    ∃ b, w.blocks[block]? = some b ∧ p.version = b.version

/-- A current program declares what its block does. -/
theorem World.Derived.signature {w : World} (h : w.Derived) {block : BlockId} {index : Nat} {p : Program}
    (hruns : w.Runs block index p) : ∃ b, w.blocks[block]? = some b ∧ b.signature = p.signature := by
  obtain ⟨hindex, hp, -⟩ := hruns
  obtain ⟨slot, hslot, hprogram⟩ := Option.bind_eq_some_iff.1 hp
  obtain ⟨slot', hslot', rfl⟩ := (h.indexed block index).1 hindex
  obtain rfl := Option.some.inj (hslot.symm.trans hslot')
  obtain ⟨b, ctx, supply, d, hb, -, rfl⟩ := h.lowered index slot p hslot hprogram
  exact ⟨b, hb, rfl⟩

/-- Only blocks and programs matter. -/
theorem World.Runs.congr {w w' : World} {block : BlockId} {index : Nat} {p : Program}
    (h : w.Runs block index p) (hblocks : w'.blocks = w.blocks) (hprograms : w'.programs = w.programs) :
    w'.Runs block index p := by
  rw [World.Runs, World.slotProgram?, hblocks, hprograms]
  exact h

/-- A program that is filed under the index of a block is the block's current program. -/
theorem World.Filed.runs {w : World} (h : w.Filed) {block : BlockId} {index : Nat} {p : Program}
    (hindex : w.programs.indices[block]? = some index) (hp : w.slotProgram? index = some p) :
    w.Runs block index p := by
  obtain ⟨slot, hslot, hblock⟩ := (h.indexed block index).1 hindex
  obtain ⟨b, hb, hversion⟩ := h.current index slot p hslot
    ((World.slotProgram?_of_slot hslot).symm.trans hp)
  exact ⟨hindex, hp, b, hblock ▸ hb, hversion⟩

/-- A block that is compiled has its program fetched. -/
theorem World.Filed.fetched {w w₁ w₂ : World} (h : w.Filed) {block : BlockId} {index : Nat}
    {p : Program} (hcompile : World.compile block w = (.ok index, w₁))
    (hprogram : World.program index w₁ = (.ok p, w₂)) :
    w₂.Filed ∧ w.Succeeds w₂ ∧ w₂.Runs block index p := by
  have hfiled₁ := (h.compile block).1.filed
  have hsucceeds₁ := h.compile_succeeds block
  have hindex := World.compile_index (congrArg Prod.fst hcompile)
  rw [hcompile] at hfiled₁ hsucceeds₁ hindex
  obtain ⟨⟨hfiled₂, -⟩, hfound⟩ := hfiled₁.program index
  have hsucceeds₂ := hfiled₁.program_succeeds index
  have hslot := hfound p (congrArg Prod.fst hprogram)
  rw [hprogram] at hfiled₂ hsucceeds₂ hslot
  exact ⟨hfiled₂, hsucceeds₁.trans hsucceeds₂, hfiled₂.runs (hsucceeds₂.indices _ _ hindex) hslot⟩

namespace Frame.Stands

variable {w w' : World} {f f' : Frame} {p : Program}

/-- A frame that runs an old version never runs the current one again. -/
theorem mono (h : f.Stands w) (hw : w.Succeeds w') : f.Stands w' := by
  obtain ⟨hindex, b, hb, hle, hcurrent⟩ := h
  obtain ⟨b', hb', hle', hkeep⟩ := hw.blocks f.block b hb
  refine ⟨hw.indices _ _ hindex, b', hb', Nat.le_trans hle hle', fun heq => ?_⟩
  obtain ⟨p, hp, hreaches⟩ := hcurrent (Nat.le_antisymm hle (heq ▸ hle'))
  exact ⟨p, hkeep (Nat.le_antisymm (heq ▸ hle) hle') f.program p hindex hp, hreaches⟩

/-- Only the place of a frame matters. -/
theorem congr (h : f.Stands w) (hblock : f'.block = f.block) (hprogram : f'.program = f.program)
    (hversion : f'.version = f.version) (hpc : f'.pc.offset = f.pc.offset) : f'.Stands w := by
  rw [Stands, hblock, hprogram, hversion, hpc]
  exact h

/-- A frame of the version that is found stands where the control flow of the program leads. -/
theorem reaches (h : f.Stands w) (hw : w.Filed) (hp : w.slotProgram? f.program = some p)
    (hversion : p.version = f.version) : p.Reaches f.pc.offset := by
  obtain ⟨hindex, b', hb', -, hreaches⟩ := h
  obtain ⟨-, -, b, hb, hcurrent⟩ := hw.runs hindex hp
  obtain rfl := Option.some.inj (hb.symm.trans hb')
  obtain ⟨p', hp', hreaches⟩ := hreaches (hversion.symm.trans hcurrent)
  obtain rfl := Option.some.inj (hp.symm.trans hp')
  exact hreaches

/-- A frame of the current program, at an offset that its control flow leads to. -/
theorem of_runs (h : w.Runs f.block f.program p) (hversion : f.version = p.version)
    (hreaches : p.Reaches f.pc.offset) : f.Stands w := by
  obtain ⟨hindex, hp, b, hb, hcurrent⟩ := h
  exact ⟨hindex, b, hb, Nat.le_of_eq (hversion.trans hcurrent), fun _ => ⟨p, hp, hreaches⟩⟩

end Frame.Stands

end BlockMachine

import BlockMachine.LoweringScript
import BlockMachine.Proofs.Program.Succession

namespace BlockMachine

/-!
# The upkeep of the table of programs

Blocks are added and replaced, compiled and fetched in any order, a block may fail to lower at any
time, and while it is lowered the host's code may make such calls itself. Frames and bytecode hold bare
program indices meanwhile, so an index must go on meaning the same block, and the program behind it must
be the one of the block's current definition.

* `TableCall` is one of the four calls, `World.afterAll` the world after many of them;
* `World.Lowers` says that a program is what the lowering of a block's current definition came to;
* `World.Tidy` is the invariant, `World.Proceeds` says what every call keeps, `World.Upkept` is both;
* `World.perform_upkept` is about one lowering, `World.Tidy.afterAll` about many calls;
* `World.afterAll_orderly` is what holds after any calls;
* `Usurping.replaced_unfetched` is a block that its own lowering replaces;
* `World.lowerBy_ofBody` says that lists of directives are lowered this way.
-/

/-- A call that defines a block or asks for a program. -/
inductive TableCall where
  | add (signature : Signature) (body : List Directive)
  | replace (id : BlockId) (signature : Signature) (body : List Directive)
  | compile (id : BlockId)
  | fetch (index : Nat)

namespace World

/-- The world after a call, whether the call succeeds or fails. -/
def after (scripts : Block → LoweringScript) (depth : Nat) (w : World) : TableCall → World
  | .add signature body => (w.addBlock signature body).2
  | .replace id signature body => (replaceBlock id signature body w).2
  | .compile id => (compileBy (lowerBy scripts depth) id w).2
  | .fetch index => (programBy (lowerBy scripts depth) index w).2

/-- The world after calls, one after the other. -/
def afterAll (scripts : Block → LoweringScript) (depth : Nat) (w : World) (calls : List TableCall) :
    World :=
  calls.foldl (after scripts depth) w

/-- A program at an index is what a lowering of the current definition of a block came to. -/
def Lowers (scripts : Block → LoweringScript) (w : World) (id : BlockId) (i : Nat) (p : Program) :
    Prop :=
  ∃ b depth w₀ w₁ d, w.blocks[id]? = some b ∧ w₀.blocks[id]? = some b ∧
    lowerBy scripts depth b w₀ = (.ok d, w₁) ∧ p = finish b i d

/-- Blocks know their numbers, slots and indices belong together, and the programs in slots are what
    the current definitions of their blocks were lowered to. -/
structure Tidy (scripts : Block → LoweringScript) (w : World) : Prop where
  numbered : ∀ (id : BlockId) (b : Block), w.blocks[id]? = some b → b.id = id
  indexed : Indexed w.programs
  lowered : ∀ (i : Nat) (slot : ProgramSlot) (p : Program), w.programs.slots[i]? = some slot →
    slot.program = some p → w.Lowers scripts slot.block i p

/-- What a later world keeps. A slot whose block is not replaced stays filled, though a lowering that
    had its own block compiled may put another program of the same version there. -/
structure Proceeds (w w' : World) : Prop where
  indices : ∀ (id : BlockId) (i : Nat), w.programs.indices[id]? = some i →
    w'.programs.indices[id]? = some i
  blocks : ∀ (id : BlockId) (b : Block), w.blocks[id]? = some b → ∃ b', w'.blocks[id]? = some b' ∧
    b.version ≤ b'.version ∧ (b'.version = b.version → b' = b ∧
      ∀ i, w.programs.indices[id]? = some i → (w.slotProgram? i).isSome → (w'.slotProgram? i).isSome)
  epoch : w.epoch ≤ w'.epoch

variable {scripts : Block → LoweringScript} {depth : Nat} {w w' w'' : World}

namespace Proceeds

/-- A world comes after itself. -/
theorem refl (w : World) : Proceeds w w :=
  ⟨fun _ _ hi => hi, fun _ b hb => ⟨b, hb, Nat.le_refl _, fun _ => ⟨rfl, fun _ _ hp => hp⟩⟩,
    Nat.le_refl _⟩

/-- What is kept from one world to the next is kept along a chain of worlds. -/
theorem trans (h : Proceeds w w') (h' : Proceeds w' w'') : Proceeds w w'' := by
  refine ⟨fun id i hi => h'.indices id i (h.indices id i hi), fun id b hb => ?_,
    Nat.le_trans h.epoch h'.epoch⟩
  obtain ⟨b', hb', hle, hkeep⟩ := h.blocks id b hb
  obtain ⟨b'', hb'', hle', hkeep'⟩ := h'.blocks id b' hb'
  refine ⟨b'', hb'', Nat.le_trans hle hle', fun heq => ?_⟩
  -- the version did not rise in either step
  obtain ⟨rfl, hfilled⟩ := hkeep (Nat.le_antisymm (heq ▸ hle') hle)
  obtain ⟨rfl, hfilled'⟩ := hkeep' heq
  exact ⟨rfl, fun i hi hp => hfilled' i (h.indices id i hi) (hfilled i hi hp)⟩

/-- Slots may be filled while blocks stay the same. -/
theorem of_filled (hblocks : w'.blocks = w.blocks) (hepoch : w.epoch ≤ w'.epoch)
    (hindices : ∀ (id : BlockId) (i : Nat), w.programs.indices[id]? = some i →
      w'.programs.indices[id]? = some i)
    (hfilled : ∀ i, (w.slotProgram? i).isSome → (w'.slotProgram? i).isSome) : Proceeds w w' :=
  ⟨hindices, fun _ b hb => ⟨b, hblocks ▸ hb, Nat.le_refl _, fun _ => ⟨rfl, fun i _ => hfilled i⟩⟩,
    hepoch⟩

end Proceeds

/-- A tidy world that comes after another one. -/
structure Upkept (scripts : Block → LoweringScript) (w w' : World) : Prop where
  tidy : w'.Tidy scripts
  proceeds : w.Proceeds w'

namespace Upkept

/-- A tidy world comes after itself. -/
theorem refl (h : w.Tidy scripts) : Upkept scripts w w :=
  ⟨h, .refl w⟩

/-- Tidy worlds come after each other. -/
theorem trans (h : Upkept scripts w w') (h' : Upkept scripts w' w'') : Upkept scripts w w'' :=
  ⟨h'.tidy, h.proceeds.trans h'.proceeds⟩

end Upkept

/-- The programs of a tidy world are filed for their blocks. -/
theorem Tidy.filed (h : w.Tidy scripts) : w.Filed := by
  refine ⟨h.indexed, fun i slot p hslot hp => ?_⟩
  obtain ⟨b, depth, w₀, w₁, d, hb, -, -, rfl⟩ := h.lowered i slot p hslot hp
  exact ⟨b, hb, rfl⟩

/-- Only the definition of the block matters. -/
theorem Lowers.congr {id : BlockId} {i : Nat} {p : Program} (h : w.Lowers scripts id i p)
    (hblock : w'.blocks[id]? = w.blocks[id]?) : w'.Lowers scripts id i p := by
  rw [Lowers, hblock]
  exact h

/-- A world without blocks and programs is tidy, whatever natives, types and modules it has. -/
theorem tidy_of_empty (hblocks : w.blocks = #[]) (hprograms : w.programs = {}) : w.Tidy scripts := by
  refine ⟨?_, ?_, ?_⟩
  · simp [hblocks]
  · intro id i
    simp [hprograms]
  · simp [hprograms]

/-! ### Indices and slots -/

/-- Giving a block an index at most adds an empty slot for it. -/
theorem programIndex_slots (id : BlockId) (w : World) :
    (programIndex id w).2.programs.slots = w.programs.slots ∨
      (programIndex id w).2.programs.slots = w.programs.slots.push ⟨id, none⟩ := by
  cases hi : w.programs.indices[id]? with
  | some i => exact .inl (by rw [programIndex_of_some hi])
  | none => exact .inr (by rw [programIndex_of_none hi])

/-- Giving a block an index leaves the slots of all other blocks alone. -/
theorem programIndex_others (w : World) {id : BlockId} {j : Nat} {slot : ProgramSlot}
    (hother : slot.block ≠ id ∨ slot.program ≠ none) :
    (programIndex id w).2.programs.slots[j]? = some slot ↔ w.programs.slots[j]? = some slot := by
  rcases programIndex_slots id w with hslots | hslots
  · rw [hslots]
  · rw [hslots]
    refine ⟨fun hslot => ?_, fun hslot => getElem?_push_of_some hslot _⟩
    rcases getElem?_push_cases hslot with ⟨-, rfl⟩ | hslot
    · simp at hother
    · exact hslot

/-- No program comes or goes when a block gets an index. -/
theorem programIndex_programs (id : BlockId) (w : World) (j : Nat) :
    (programIndex id w).2.slotProgram? j = w.slotProgram? j := by
  refine Option.ext fun p => ?_
  simp only [slotProgram?, Option.bind_eq_some_iff]
  refine exists_congr fun slot => and_congr_left fun hp => ?_
  exact programIndex_others w (.inr (by simp [hp]))

/-- Giving out an index keeps the table tidy. -/
theorem Tidy.programIndex (h : w.Tidy scripts) (id : BlockId) :
    Upkept scripts w (programIndex id w).2 := by
  have honly := programIndex_only id w
  refine ⟨⟨?_, (h.filed.programIndex id).1.filed.indexed, fun i slot p hslot hp => ?_⟩, ?_⟩
  · rw [honly.blocks]
    exact h.numbered
  · have hold := (programIndex_others w (.inr (by simp [hp]))).1 hslot
    exact (h.lowered i slot p hold hp).congr (congrArg (·[slot.block]?) honly.blocks)
  · refine .of_filled honly.blocks (Nat.le_of_eq honly.epoch.symm)
      (fun _ _ hi => programIndex_indices id hi) fun j hj => ?_
    rw [programIndex_programs]
    exact hj

/-- The program that a slot is filled with is there. -/
theorem slotProgram?_fill {i : Nat} {slot : ProgramSlot} (hslot : w.programs.slots[i]? = some slot)
    (p : Program) : (w.fill i p).slotProgram? i = some p :=
  Option.bind_eq_some_iff.2 ⟨_, modify_slot_of_some hslot i _, if_pos rfl⟩

/-- A slot is filled with what the current definition of its block was lowered to. -/
theorem Tidy.fill (h : w.Tidy scripts) {i : Nat} {slot : ProgramSlot} {p : Program}
    (hslot : w.programs.slots[i]? = some slot) (hp : w.Lowers scripts slot.block i p) :
    Upkept scripts w (w.fill i p) := by
  refine ⟨⟨h.numbered, ?_, fun j slot' p' hslot' hp' => ?_⟩, ?_⟩
  · exact h.indexed.of_slots rfl _ fun j => getElem?_modify_slot w.programs.slots i j _
  · rw [World.fill, getElem?_modify_slot] at hslot'
    obtain ⟨slot₀, hslot₀, rfl⟩ := Option.map_eq_some_iff.1 hslot'
    dsimp only at hp' ⊢
    split at hp'
    next hij =>
      subst hij
      obtain rfl := Option.some.inj (hslot.symm.trans hslot₀)
      obtain rfl := Option.some.inj hp'
      exact hp
    next => exact h.lowered j slot₀ p' hslot₀ hp'
  · refine .of_filled rfl (Nat.le_refl _) (fun _ _ hi => hi) fun j hj => ?_
    obtain ⟨p', hp'⟩ := Option.isSome_iff_exists.1 hj
    obtain ⟨slot', hslot', hprogram⟩ := Option.bind_eq_some_iff.1 hp'
    have hfilled : (w.fill i p).programs.slots[j]? = _ := modify_slot_of_some hslot' i _
    rw [slotProgram?_of_slot hfilled]
    dsimp only
    split
    · rfl
    · exact Option.isSome_iff_exists.2 ⟨p', hprogram⟩

/-- A block that is added has no slot yet. -/
theorem Tidy.addBlock (h : w.Tidy scripts) (signature : Signature) (body : List Directive) :
    Upkept scripts w (w.addBlock signature body).2 := by
  refine ⟨⟨fun id b hb => ?_, h.indexed, fun i slot p hslot hp => ?_⟩, fun _ _ hi => hi,
    fun id b hb => ?_, Nat.le_refl _⟩
  · rcases getElem?_push_cases hb with ⟨rfl, rfl⟩ | hb
    · rfl
    · exact h.numbered id b hb
  · -- the blocks there are keep their definitions
    obtain ⟨b, depth, w₀, w₁, d, hb, hrest⟩ := h.lowered i slot p hslot hp
    exact ⟨b, depth, w₀, w₁, d, getElem?_push_of_some hb _, hrest⟩
  · exact ⟨b, getElem?_push_of_some hb _, Nat.le_refl _, fun _ => ⟨rfl, fun _ _ hp => hp⟩⟩

/-- A block that is replaced loses its program; all other blocks keep theirs. -/
theorem Tidy.replaceBlock (h : w.Tidy scripts) (id : BlockId) (signature : Signature)
    (body : List Directive) : Upkept scripts w (World.replaceBlock id signature body w).2 := by
  have hsucceeds := h.filed.replaceBlock_succeeds id signature body
  rw [replaceBlock_eq] at hsucceeds ⊢
  cases hb : w.blocks[id]? with
  | none => exact .refl h
  | some b =>
    rw [hb] at hsucceeds
    obtain ⟨hlt, -⟩ := Array.getElem?_eq_some_iff.1 hb
    have hother : ∀ {id' : BlockId}, id' ≠ id →
        (w.blocks.setIfInBounds id ⟨id, b.version + 1, signature, body⟩)[id']? = w.blocks[id']? :=
      fun hne => Array.getElem?_setIfInBounds_ne hne.symm
    refine ⟨⟨fun id' b' hb' => ?_, h.indexed.drop id, fun i slot p hslot hp => ?_⟩,
      hsucceeds.indices, fun id' b' hb' => ?_, Nat.le_succ _⟩
    · by_cases hid : id' = id
      · subst hid
        obtain rfl := Option.some.inj ((Array.getElem?_setIfInBounds_self_of_lt hlt).symm.trans hb')
        rfl
      · exact h.numbered id' b' ((hother hid).symm.trans hb')
    · rw [h.indexed.getElem?_drop] at hslot
      obtain ⟨slot₀, hslot₀, rfl⟩ := Option.map_eq_some_iff.1 hslot
      by_cases hid : slot₀.block = id
      · -- the program of the block was taken out
        simp [hid] at hp
      · simp only [if_neg hid] at hp
        exact (h.lowered i slot₀ p hslot₀ hp).congr (hother hid)
    · obtain ⟨b'', hb'', hle, hkeep⟩ := hsucceeds.blocks id' b' hb'
      refine ⟨b'', hb'', hle, fun heq => ⟨?_, fun i hi hp => ?_⟩⟩
      · by_cases hid : id' = id
        · subst hid
          obtain rfl := Option.some.inj (hb.symm.trans hb')
          obtain rfl := Option.some.inj ((Array.getElem?_setIfInBounds_self_of_lt hlt).symm.trans hb'')
          exact absurd heq (Nat.succ_ne_self _)
        · exact Option.some.inj (hb''.symm.trans ((hother hid).trans hb'))
      · obtain ⟨p, hp⟩ := Option.isSome_iff_exists.1 hp
        exact Option.isSome_iff_exists.2 ⟨p, hkeep heq i p hi hp⟩

/-- Natives, types, methods and modules do not matter. -/
theorem Tidy.changed (h : w.Tidy scripts) (f : World → World) :
    Upkept scripts w (w.changed f) :=
  ⟨⟨h.numbered, h.indexed, h.lowered⟩,
    .of_filled rfl (Nat.le_max_left _ _) (fun _ _ hi => hi) fun _ hp => hp⟩

/-! ### Compiling -/

/-- Lowerings keep the table tidy. -/
def KeepTidy (scripts : Block → LoweringScript) (lowering : Block → Action Draft) : Prop :=
  ∀ b w, w.Tidy scripts → Upkept scripts w (lowering b w).2

/-- How lowering a block ends: it fails, its block was replaced meanwhile, or the slot is filled. -/
theorem Tidy.filledBy_cases (h : w.Tidy scripts) (hkeep : KeepTidy scripts (lowerBy scripts depth))
    {id : BlockId} {b : Block} (hb : w.blocks[id]? = some b) (i : Nat) :
    (∃ e w₁, lowerBy scripts depth b w = (.error e, w₁) ∧
      filledBy (lowerBy scripts depth) id b i w = (.error e, w₁)) ∨
    (∃ d w₁ b', lowerBy scripts depth b w = (.ok d, w₁) ∧ w₁.blocks[id]? = some b' ∧
      b'.version ≠ b.version ∧ filledBy (lowerBy scripts depth) id b i w = (.ok i, w₁)) ∨
    ∃ d w₁, lowerBy scripts depth b w = (.ok d, w₁) ∧ w₁.blocks[id]? = some b ∧
      filledBy (lowerBy scripts depth) id b i w = (.ok i, w₁.fill i (finish b i d)) := by
  have hlowering := hkeep b w h
  rw [filledBy]
  generalize lowerBy scripts depth b w = r at hlowering
  obtain ⟨e | d, w₁⟩ := r
  · exact .inl ⟨e, w₁, rfl, rfl⟩
  · -- blocks do not vanish, and one of the same version is the same
    obtain ⟨b', hb', -, hsame⟩ := hlowering.proceeds.blocks id b hb
    dsimp only at hb' ⊢
    rw [hb']
    by_cases hversion : b'.version = b.version
    · obtain ⟨rfl, -⟩ := hsame hversion
      exact .inr (.inr ⟨d, w₁, rfl, hb', congrArg (Prod.mk _) (if_pos rfl)⟩)
    · exact .inr (.inl ⟨d, w₁, b', rfl, hb', hversion, congrArg (Prod.mk _) (if_neg hversion)⟩)

/-- **Lowering a block keeps the table tidy**, if scripts do. -/
theorem Tidy.filledBy (h : w.Tidy scripts) (hkeep : KeepTidy scripts (lowerBy scripts depth))
    {id : BlockId} {b : Block} {i : Nat} (hb : w.blocks[id]? = some b)
    (hi : w.programs.indices[id]? = some i) :
    Upkept scripts w (filledBy (lowerBy scripts depth) id b i w).2 := by
  have hlowering := hkeep b w h
  rcases h.filledBy_cases hkeep hb i with ⟨e, w₁, heq, hfilled⟩ | ⟨d, w₁, b', heq, -, -, hfilled⟩ |
    ⟨d, w₁, heq, hb', hfilled⟩ <;> rw [heq] at hlowering <;> rw [hfilled]
  · exact hlowering
  · exact hlowering
  · obtain ⟨slot, hslot, rfl⟩ :=
      (hlowering.tidy.indexed id i).1 (hlowering.proceeds.indices id i hi)
    exact hlowering.trans (hlowering.tidy.fill hslot ⟨b, depth, w, w₁, d, hb', hb, heq, rfl⟩)

/-- How compiling a block goes: the block is unknown, its program is there, or it is lowered. -/
theorem compileBy_cases (lowering : Block → Action Draft) (id : BlockId) (w : World) :
    (w.blocks[id]? = none ∧ compileBy lowering id w = (.error (.unknownBlock id), w)) ∨
    ∃ b, w.blocks[id]? = some b ∧
      ((∃ p, (programIndex id w).2.slotProgram? (programIndex id w).1 = some p ∧
        compileBy lowering id w = (.ok (programIndex id w).1, (programIndex id w).2)) ∨
      compileBy lowering id w =
        World.filledBy lowering id b (programIndex id w).1 (programIndex id w).2) := by
  rw [compileBy_eq]
  cases hb : w.blocks[id]? with
  | none => exact .inl ⟨rfl, rfl⟩
  | some b =>
    refine .inr ⟨b, rfl, ?_⟩
    cases hp : (programIndex id w).2.slotProgram? (programIndex id w).1 with
    | none => exact .inr rfl
    | some p =>
      by_cases hversion : p.version = b.version
      · exact .inl ⟨p, rfl, if_pos hversion⟩
      · exact .inr (if_neg hversion)

/-- Compiling a block keeps the table tidy, if scripts do. -/
theorem Tidy.compileBy (h : w.Tidy scripts) (hkeep : KeepTidy scripts (lowerBy scripts depth))
    (id : BlockId) : Upkept scripts w (compileBy (lowerBy scripts depth) id w).2 := by
  have hindex := h.programIndex id
  rcases compileBy_cases (lowerBy scripts depth) id w with ⟨-, heq⟩ | ⟨b, hb, ⟨p, -, heq⟩ | heq⟩ <;>
    rw [heq]
  · exact .refl h
  · exact hindex
  · rw [← programIndex_blocks id w] at hb
    exact hindex.trans (hindex.tidy.filledBy hkeep hb (programIndex_index id w))

/-- Fetching a program keeps the table tidy, if scripts do. -/
theorem Tidy.programBy (h : w.Tidy scripts) (hkeep : KeepTidy scripts (lowerBy scripts depth))
    (index : Nat) : Upkept scripts w (programBy (lowerBy scripts depth) index w).2 := by
  rw [programBy_eq]
  split
  · exact .refl h
  next slot _ =>
    split
    · exact .refl h
    · have hcompile := h.compileBy hkeep slot.block
      generalize World.compileBy (lowerBy scripts depth) slot.block w = r at hcompile
      obtain ⟨_ | _, w'⟩ := r
      · exact hcompile
      · dsimp only
        split <;> exact hcompile

/-! ### Lowering -/

/-- **Following a script keeps the table tidy**, if lowerings one level down do. -/
theorem perform_upkept (hkeep : KeepTidy scripts (lowerBy scripts depth)) (script : LoweringScript)
    (h : w.Tidy scripts) : Upkept scripts w (script.perform (lowerBy scripts depth) w).2 := by
  induction script generalizing w with
  | done r =>
    rw [LoweringScript.perform, Failing.except_apply]
    exact .refl h
  | look next ih => exact ih w h
  | add signature body next ih =>
    have hcall := h.addBlock signature body
    exact hcall.trans (ih _ hcall.tidy)
  | replace id signature body next ih =>
    have hcall := h.replaceBlock id signature body
    exact hcall.trans (ih _ hcall.tidy)
  | compile id next ih =>
    have hcall := h.compileBy hkeep id
    exact hcall.trans (ih _ hcall.tidy)
  | fetch index next ih =>
    have hcall := h.programBy hkeep index
    exact hcall.trans (ih _ hcall.tidy)
  | change f next ih =>
    have hcall := h.changed f
    exact hcall.trans (ih hcall.tidy)

/-- **Lowerings keep the table tidy**, by induction on how deep they nest. -/
theorem keepTidy_lowerBy (scripts : Block → LoweringScript) (depth : Nat) :
    KeepTidy scripts (lowerBy scripts depth) := by
  induction depth with
  | zero => exact fun b w h => .refl h
  | succ depth ih => exact fun b w h => perform_upkept ih (scripts b) h

/-- A call keeps the table tidy. -/
theorem Tidy.after (h : w.Tidy scripts) (depth : Nat) (call : TableCall) :
    Upkept scripts w (w.after scripts depth call) := by
  have hkeep := keepTidy_lowerBy scripts depth
  cases call with
  | add signature body => exact h.addBlock signature body
  | replace id signature body => exact h.replaceBlock id signature body
  | compile id => exact h.compileBy hkeep id
  | fetch index => exact h.programBy hkeep index

/-- Many calls keep the table tidy, one after the other. -/
theorem Tidy.afterAll (h : w.Tidy scripts) (depth : Nat) (calls : List TableCall) :
    Upkept scripts w (w.afterAll scripts depth calls) := by
  induction calls generalizing w with
  | nil => exact .refl h
  | cons call calls ih =>
    have hcall := h.after depth call
    exact hcall.trans (ih hcall.tidy)

/-! ### Answers -/

/-- A slot has one block, so an index belongs to one block. -/
theorem Indexed.injective {programs : ProgramTable} (h : Indexed programs) {id id' : BlockId} {i : Nat}
    (hi : programs.indices[id]? = some i) (hi' : programs.indices[id']? = some i) : id = id' := by
  obtain ⟨slot, hslot, hblock⟩ := (h id i).1 hi
  obtain ⟨slot', hslot', hblock'⟩ := (h id' i).1 hi'
  obtain rfl := Option.some.inj (hslot.symm.trans hslot')
  exact hblock.symm.trans hblock'

/-- The block of an index that was given out. -/
theorem Indexed.programBlock (h : Indexed w.programs) {id : BlockId} {i : Nat}
    (hi : w.programs.indices[id]? = some i) : w.programBlock i = .ok id := by
  obtain ⟨slot, hslot, rfl⟩ := (h id i).1 hi
  rw [World.programBlock, hslot]

/-- A program that is there is fetched without more ado, and it belongs to the current definition of
    its block. -/
theorem Tidy.programBy_of_slot (h : w.Tidy scripts) (lowering : Block → Action Draft) {id : BlockId}
    {i : Nat} (hi : w.programs.indices[id]? = some i) (hfilled : (w.slotProgram? i).isSome) :
    ∃ p, World.programBy lowering i w = (.ok p, w) ∧ w.Lowers scripts id i p := by
  obtain ⟨p, hp⟩ := Option.isSome_iff_exists.1 hfilled
  obtain ⟨slot, hslot, rfl⟩ := (h.indexed id i).1 hi
  have hprogram := (slotProgram?_of_slot hslot).symm.trans hp
  refine ⟨p, ?_, h.lowered i slot p hslot hprogram⟩
  rw [programBy_eq, hslot]
  dsimp only
  rw [hprogram]

/-- A block that was compiled has the index that is answered, and its slot is filled unless the block
    was replaced while it was lowered. -/
theorem Tidy.compileBy_ok (h : w.Tidy scripts) {id : BlockId} {i : Nat}
    (hok : World.compileBy (lowerBy scripts depth) id w = (.ok i, w')) :
    w'.programs.indices[id]? = some i ∧ ∃ b, w.blocks[id]? = some b ∧
      ((w'.slotProgram? i).isSome ∨ ∃ b', w'.blocks[id]? = some b' ∧ b'.version ≠ b.version) := by
  have hkeep := keepTidy_lowerBy scripts depth
  have hindex := h.programIndex id
  have hi := programIndex_index id w
  have hlater := h.compileBy hkeep id
  rw [hok] at hlater
  rcases compileBy_cases (lowerBy scripts depth) id w with ⟨-, heq⟩ | ⟨b, hb, ⟨p, hp, heq⟩ | heq⟩ <;>
    rw [hok] at heq
  · cases congrArg Prod.fst heq
  · obtain rfl := Except.ok.inj (congrArg Prod.fst heq)
    obtain rfl := congrArg Prod.snd heq
    exact ⟨hi, b, hb, .inl (Option.isSome_iff_exists.2 ⟨p, hp⟩)⟩
  · have hb' := hb
    rw [← programIndex_blocks id w] at hb'
    have hstays := hindex.tidy.filledBy hkeep hb' hi
    rcases hindex.tidy.filledBy_cases hkeep hb' (World.programIndex id w).1 with
      ⟨e, w₁, -, hfilled⟩ | ⟨d, w₁, b'', -, hb'', hne, hfilled⟩ | ⟨d, w₁, hlower, hb'', hfilled⟩ <;>
      rw [hfilled] at heq hstays
    · cases congrArg Prod.fst heq
    · obtain rfl := Except.ok.inj (congrArg Prod.fst heq)
      obtain rfl := congrArg Prod.snd heq
      exact ⟨hstays.proceeds.indices id _ hi, b, hb, .inr ⟨b'', hb'', hne⟩⟩
    · obtain rfl := Except.ok.inj (congrArg Prod.fst heq)
      obtain rfl := congrArg Prod.snd heq
      have hlowering := hkeep b _ hindex.tidy
      rw [hlower] at hlowering
      obtain ⟨slot, hslot, -⟩ :=
        (hlowering.tidy.indexed id _).1 (hlowering.proceeds.indices id _ hi)
      exact ⟨hstays.proceeds.indices id _ hi, b, hb,
        .inl (Option.isSome_iff_exists.2 ⟨_, slotProgram?_fill hslot _⟩)⟩

/-- The index of a block that was compiled goes on giving the program of its current definition, as long
    as the block is not replaced. -/
theorem Tidy.compiled (h : w.Tidy scripts) {id : BlockId} {i : Nat}
    (hok : World.compileBy (lowerBy scripts depth) id w = (.ok i, w')) :
    ∃ b, w.blocks[id]? = some b ∧ ∀ calls,
      (w'.afterAll scripts depth calls).programBlock i = .ok id ∧
      ∃ b', (w'.afterAll scripts depth calls).blocks[id]? = some b' ∧ (b'.version = b.version →
        b' = b ∧ ∃ p, World.programBy (lowerBy scripts depth) i (w'.afterAll scripts depth calls) =
            (.ok p, w'.afterAll scripts depth calls) ∧
          (w'.afterAll scripts depth calls).Lowers scripts id i p) := by
  have hcompile := h.compileBy (keepTidy_lowerBy scripts depth) id
  obtain ⟨hi, b, hb, hfilled⟩ := h.compileBy_ok hok
  rw [hok] at hcompile
  refine ⟨b, hb, fun calls => ?_⟩
  have hcalls := hcompile.tidy.afterAll depth calls
  have hi' := hcalls.proceeds.indices id i hi
  refine ⟨hcalls.tidy.indexed.programBlock hi', ?_⟩
  obtain ⟨b₁, hb₁, hle, hsame⟩ := hcompile.proceeds.blocks id b hb
  obtain ⟨b₂, hb₂, hle', hsame'⟩ := hcalls.proceeds.blocks id b₁ hb₁
  refine ⟨b₂, hb₂, fun hversion => ?_⟩
  -- the version did not rise, neither while the block was lowered nor later
  obtain ⟨rfl, -⟩ := hsame (Nat.le_antisymm (hversion ▸ hle') hle)
  obtain ⟨rfl, hstays⟩ := hsame' hversion
  refine ⟨rfl, hcalls.tidy.programBy_of_slot _ hi' (hstays i hi ?_)⟩
  rcases hfilled with hfilled | ⟨b', hb', hne⟩
  · exact hfilled
  · obtain rfl := Option.some.inj (hb₁.symm.trans hb')
    exact absurd rfl hne

/-- A program that is fetched is the one of the current definition of its block. -/
theorem Tidy.fetched (h : w.Tidy scripts) {i : Nat} {p : Program}
    (hok : World.programBy (lowerBy scripts depth) i w = (.ok p, w')) :
    ∃ id, w'.programBlock i = .ok id ∧ w'.Lowers scripts id i p := by
  have hlater := h.programBy (keepTidy_lowerBy scripts depth) i
  rw [hok] at hlater
  have hp : w'.slotProgram? i = some p := by
    rw [programBy_eq] at hok
    split at hok
    · cases congrArg Prod.fst hok
    next slot hslot =>
      split at hok
      next p' hp' =>
        obtain rfl := Except.ok.inj (congrArg Prod.fst hok)
        obtain rfl := congrArg Prod.snd hok
        exact (slotProgram?_of_slot hslot).trans hp'
      · split at hok
        · cases congrArg Prod.fst hok
        next w₁ _ =>
          cases hp' : w₁.slotProgram? i with
          | none =>
            rw [hp'] at hok
            cases congrArg Prod.fst hok
          | some p' =>
            rw [hp'] at hok
            obtain rfl := Except.ok.inj (congrArg Prod.fst hok)
            obtain rfl := congrArg Prod.snd hok
            exact hp'
  obtain ⟨slot, hslot, hprogram⟩ := Option.bind_eq_some_iff.1 hp
  refine ⟨slot.block, ?_, hlater.tidy.lowered i slot p hslot hprogram⟩
  rw [World.programBlock, hslot]

/-- When a block cannot be compiled, what changes apart from its index is what its lowering did. -/
theorem Tidy.compileBy_failed (h : w.Tidy scripts) {id : BlockId} {e : CompileError}
    (hfailed : World.compileBy (lowerBy scripts depth) id w = (.error e, w')) :
    w' = w ∨ ∃ b, w.blocks[id]? = some b ∧
      lowerBy scripts depth b (World.programIndex id w).2 = (.error e, w') := by
  rcases compileBy_cases (lowerBy scripts depth) id w with ⟨-, heq⟩ | ⟨b, hb, ⟨p, -, heq⟩ | heq⟩ <;>
    rw [hfailed] at heq
  · exact .inl (congrArg Prod.snd heq)
  · cases congrArg Prod.fst heq
  · refine .inr ⟨b, hb, ?_⟩
    rw [← programIndex_blocks id w] at hb
    rcases (h.programIndex id).tidy.filledBy_cases (keepTidy_lowerBy scripts depth) hb
      (World.programIndex id w).1 with ⟨e', w₁, hlower, hfilled⟩ | ⟨d, w₁, b', -, -, -, hfilled⟩ |
        ⟨d, w₁, -, -, hfilled⟩ <;> rw [hfilled] at heq
    · obtain rfl := Except.error.inj (congrArg Prod.fst heq)
      obtain rfl := congrArg Prod.snd heq
      exact hlower
    · cases congrArg Prod.fst heq
    · cases congrArg Prod.fst heq

/-- The index of a slot is known already, so what changes when its program cannot be fetched is what
    the lowering did. -/
theorem Tidy.programBy_failed (h : w.Tidy scripts) {i : Nat} {e : CompileError}
    (hfailed : World.programBy (lowerBy scripts depth) i w = (.error e, w')) :
    w' = w ∨ ∃ id b r, w.programBlock i = .ok id ∧ w.blocks[id]? = some b ∧
      lowerBy scripts depth b w = (r, w') := by
  have hkeep := keepTidy_lowerBy scripts depth
  rw [programBy_eq] at hfailed
  cases hslot : w.programs.slots[i]? with
  | none =>
    rw [hslot] at hfailed
    exact .inl (congrArg Prod.snd hfailed).symm
  | some slot =>
    have hi := (h.indexed slot.block i).2 ⟨slot, hslot, rfl⟩
    have hindex := programIndex_of_some hi
    rw [hslot] at hfailed
    dsimp only at hfailed
    cases hp : slot.program with
    | some p =>
      rw [hp] at hfailed
      cases congrArg Prod.fst hfailed
    | none =>
      rw [hp] at hfailed
      dsimp only at hfailed
      rcases compileBy_cases (lowerBy scripts depth) slot.block w with
        ⟨-, heq⟩ | ⟨b, hb, ⟨p, hp', -⟩ | heq⟩
      · rw [heq] at hfailed
        exact .inl (congrArg Prod.snd hfailed).symm
      · rw [hindex] at hp'
        cases hp.symm.trans ((slotProgram?_of_slot hslot).symm.trans hp')
      · refine .inr ⟨slot.block, b, ?_⟩
        rw [hindex] at heq
        suffices hlower : ∃ r, lowerBy scripts depth b w = (r, w') by
          obtain ⟨r, hlower⟩ := hlower
          exact ⟨r, h.indexed.programBlock hi, hb, hlower⟩
        rcases h.filledBy_cases hkeep hb i with ⟨e', w₁, hlower, hfilled⟩ |
          ⟨d, w₁, b', hlower, -, -, hfilled⟩ | ⟨d, w₁, hlower, -, hfilled⟩ <;>
          rw [heq, hfilled] at hfailed <;> dsimp only at hfailed
        · obtain rfl := congrArg Prod.snd hfailed
          exact ⟨_, hlower⟩
        · refine ⟨_, hlower.trans (congrArg (Prod.mk _) ?_)⟩
          split at hfailed
          · cases congrArg Prod.fst hfailed
          · exact congrArg Prod.snd hfailed
        · -- the slot was filled, so there is a program to fetch
          have hlowering := hkeep b w h
          rw [hlower] at hlowering
          obtain ⟨slot', hslot', -⟩ :=
            (hlowering.tidy.indexed slot.block i).1 (hlowering.proceeds.indices slot.block i hi)
          rw [slotProgram?_fill hslot'] at hfailed
          cases congrArg Prod.fst hfailed

/-- A block that is replaced was there, and has a later version and a later epoch then. -/
theorem replaceBlock_ok {id : BlockId} {signature : Signature} {body : List Directive} {version : Nat}
    (hok : World.replaceBlock id signature body w = (.ok version, w')) :
    ∃ b, w.blocks[id]? = some b ∧ b.version < version ∧
      w'.blocks[id]? = some ⟨id, version, signature, body⟩ ∧ w.epoch < w'.epoch := by
  rw [replaceBlock_eq] at hok
  cases hb : w.blocks[id]? with
  | none =>
    rw [hb] at hok
    cases congrArg Prod.fst hok
  | some b =>
    rw [hb] at hok
    obtain ⟨hlt, -⟩ := Array.getElem?_eq_some_iff.1 hb
    obtain rfl := Except.ok.inj (congrArg Prod.fst hok)
    obtain rfl := congrArg Prod.snd hok
    exact ⟨b, rfl, Nat.lt_succ_self _, Array.getElem?_setIfInBounds_self_of_lt hlt, Nat.lt_succ_self _⟩

/-- What is true of the blocks and programs of a world at all times: -/
structure Orderly (scripts : Block → LoweringScript) (depth : Nat) (w : World) : Prop where
  /-- The two halves of the table are inverse to each other. -/
  inverse : ∀ (id : BlockId) (i : Nat), w.programs.indices[id]? = some i ↔
    ∃ slot, w.programs.slots[i]? = some slot ∧ slot.block = id
  /-- A program knows its slot, and its version is the current one. -/
  slot : ∀ (i : Nat) (slot : ProgramSlot) (p : Program), w.programs.slots[i]? = some slot →
    slot.program = some p → p.index = i ∧ p.block = slot.block ∧
      ∃ b, w.blocks[slot.block]? = some b ∧ p.version = b.version
  /-- An index stays what it is, whatever calls follow. -/
  stable : ∀ (id : BlockId) (i : Nat), w.programs.indices[id]? = some i →
    ∀ calls, (w.afterAll scripts depth calls).programs.indices[id]? = some i
  /-- Two blocks have two indices. -/
  distinct : ∀ (id id' : BlockId) (i : Nat), w.programs.indices[id]? = some i →
    w.programs.indices[id']? = some i → id = id'
  /-- The index of a block that was compiled gives the block, whatever calls follow, and as long as the
      block keeps the definition that was lowered it gives the program of that definition. -/
  compiled : ∀ (id : BlockId) (i : Nat) (w' : World),
    compileBy (lowerBy scripts depth) id w = (.ok i, w') →
    ∃ b, w.blocks[id]? = some b ∧ ∀ calls,
      (w'.afterAll scripts depth calls).programBlock i = .ok id ∧
      ∃ b', (w'.afterAll scripts depth calls).blocks[id]? = some b' ∧ (b'.version = b.version →
        b' = b ∧ ∃ p, programBy (lowerBy scripts depth) i (w'.afterAll scripts depth calls) =
            (.ok p, w'.afterAll scripts depth calls) ∧
          (w'.afterAll scripts depth calls).Lowers scripts id i p)
  /-- A program that is fetched is the current one of its block. -/
  fetched : ∀ (i : Nat) (p : Program) (w' : World),
    programBy (lowerBy scripts depth) i w = (.ok p, w') →
    ∃ id, w'.programBlock i = .ok id ∧ w'.Lowers scripts id i p
  /-- Compiling a block that fails changes no block and no slot of another block and takes no program
      away before the block is lowered, and nothing after the lowering failed. -/
  uncompiled : ∀ (id : BlockId) (e : CompileError) (w' : World),
    compileBy (lowerBy scripts depth) id w = (.error e, w') →
    ∃ w₁, w₁.blocks = w.blocks ∧ (∀ j, w₁.slotProgram? j = w.slotProgram? j) ∧
      (∀ (j : Nat) (slot : ProgramSlot), slot.block ≠ id →
        (w₁.programs.slots[j]? = some slot ↔ w.programs.slots[j]? = some slot)) ∧
      (w' = w₁ ∨ ∃ b, w.blocks[id]? = some b ∧ lowerBy scripts depth b w₁ = (.error e, w'))
  /-- Fetching a program that fails changes nothing but what the lowering of its block did. -/
  unfetched : ∀ (i : Nat) (e : CompileError) (w' : World),
    programBy (lowerBy scripts depth) i w = (.error e, w') →
    w' = w ∨ ∃ id b r, w.programBlock i = .ok id ∧ w.blocks[id]? = some b ∧
      lowerBy scripts depth b w = (r, w')
  /-- A new definition raises the version of its block and the epoch. -/
  replaced : ∀ (id : BlockId) (signature : Signature) (body : List Directive) (version : Nat)
    (w' : World), World.replaceBlock id signature body w = (.ok version, w') →
    ∃ b, w.blocks[id]? = some b ∧ b.version < version ∧
      w'.blocks[id]? = some ⟨id, version, signature, body⟩ ∧ w.epoch < w'.epoch

/-- The blocks and programs of a tidy world are in order. -/
theorem Tidy.orderly (h : w.Tidy scripts) (depth : Nat) : w.Orderly scripts depth where
  inverse := h.indexed
  slot := by
    intro i slot p hslot hp
    obtain ⟨b, _, w₀, w₁, d, hb, -, -, rfl⟩ := h.lowered i slot p hslot hp
    exact ⟨rfl, h.numbered slot.block b hb, b, hb, rfl⟩
  stable := fun id i hi calls => (h.afterAll depth calls).proceeds.indices id i hi
  distinct := fun _ _ _ hi hi' => h.indexed.injective hi hi'
  compiled := fun _ _ _ hok => h.compiled hok
  fetched := fun _ _ _ hok => h.fetched hok
  uncompiled := by
    intro id e w' hfailed
    rcases h.compileBy_failed hfailed with rfl | ⟨b, hb, hlower⟩
    · exact ⟨w', rfl, fun _ => rfl, fun _ _ _ => Iff.rfl, .inl rfl⟩
    · exact ⟨(World.programIndex id w).2, programIndex_blocks id w, programIndex_programs id w,
        fun j slot hother => programIndex_others w (.inl hother), .inr ⟨b, hb, hlower⟩⟩
  unfetched := fun _ _ _ hfailed => h.programBy_failed hfailed
  replaced := fun _ _ _ _ _ hok => replaceBlock_ok hok

/-- **Blocks and programs are in order after any calls**, from a world with any natives, types and
    modules that has no blocks yet, whatever the lowerings do in between. -/
theorem afterAll_orderly (scripts : Block → LoweringScript) (depth : Nat) (start : World)
    (calls : List TableCall) :
    ({ start with blocks := #[], programs := {} }.afterAll scripts depth calls).Orderly scripts depth :=
  ((tidy_of_empty rfl rfl).afterAll depth calls).tidy.orderly depth

end World

/-! ### A block that is replaced while it is lowered -/

namespace Usurping

open World

def signature : Signature :=
  ⟨"f", [], false, [], 0⟩

/-- The first definition of a block replaces the block while it is lowered; all others add a block and
    fail. -/
def script (b : Block) : LoweringScript :=
  if b.version = 0 then .replace b.id signature b.body fun _ => .done (.ok { supply := 0 })
  else .add signature [] fun _ => .done (.error (.lowering b.signature.name "no"))

/-- The error of a computation on a world. -/
def error? {α : Type} (r : Except CompileError α × World) : Option CompileError :=
  match r.1 with
  | .ok _ => none
  | .error e => some e

/-- A world with one block, which is lowered by the script. -/
def usurped : World :=
  ({} : World).afterAll script 1 [.add signature []]

/-- A world with one block that only returns. -/
def plain : World :=
  ({} : World).afterAll .ofBody 1 [.add signature [.code (.emit .ret)]]

/-- There need not be a program behind the index that is answered, since the lowering may replace its
    block, and the block may be replaced later. A lowering that fails may have added a block. -/
theorem replaced_unfetched :
    ((compileBy (lowerBy script 1) 0 usurped).1.toOption = some 0 ∧
      error? (programBy (lowerBy script 1) 0 (usurped.after script 1 (.compile 0))) =
        some (.lowering "f" "no") ∧
      usurped.blocks.size = 1 ∧ (usurped.afterAll script 1 [.compile 0, .fetch 0]).blocks.size = 2) ∧
    (compileBy (lowerBy .ofBody 1) 0 plain).1.toOption = some 0 ∧
      error? (programBy (lowerBy .ofBody 1) 0
        (plain.afterAll .ofBody 1 [.compile 0, .replace 0 signature [.fail "no"]])) =
          some (.lowering "f" "no") := by
  decide +kernel

end Usurping
/-! ### Lists of directives -/

namespace World

/-- Bodies are lowered by their scripts. -/
theorem lowerBy_ofBody (depth : Nat) : lowerBy .ofBody (depth + 1) = draft := by
  funext b w
  rw [lowerBy, LoweringScript.ofBody, LoweringScript.perform, draft]
  simp only [Failing.bind_apply, Failing.get_apply, Failing.except_apply, Failing.set_apply,
    Failing.pure_apply]
  cases lower ⟨b.signature.name, w.scope, w.natives⟩ b.body w.supply with
  | error e => rfl
  | ok d =>
    simp only [LoweringScript.perform, Failing.bind_apply, Failing.get_apply, Failing.set_apply,
      Failing.except_apply, changed, Nat.max_self]

-- A body that cannot be lowered leaves its block without a program but not without its index, and
-- the next definition is compiled under that index.
example :
    let w := ({} : World).afterAll .ofBody 1 [.add ⟨"f", [], false, [], 0⟩ [.fail "no"], .compile 0,
      .replace 0 ⟨"f", [], false, [], 0⟩ [.code (.emit .ret)], .fetch 0]
    w.programs.indices[0]? = some 0 ∧ (w.slotProgram? 0).map (·.version) = some 1 := by
  decide +kernel

end World

end BlockMachine

import BlockMachine.Dispatch.Resolve
import BlockMachine.Proofs.Failing
import BlockMachine.Proofs.Program.Sites

namespace BlockMachine

/-!
# Coherent worlds

The parts of a world agree: types are declared, program slots belong to blocks, and the program
in a slot is the one of the current version of its block. Every operation on a world keeps this,
and changes the world only in ways that `World.Grows` allows.

* `World.Coherent` is the invariant;
* `World.Grows` relates a world to a later one;
* `World.Indexed` is the part of the invariant about the table of programs;
* `World.Coherent.compile`, `World.Coherent.replaceBlock` and their companions are about the
  operations.
-/

/-- The signature of a block is known, and its body names each call site once. -/
structure Block.Sound (reg : Registry) (i : BlockId) (b : Block) : Prop where
  id : b.id = i
  signature : b.signature.Known reg
  body : OneNamePerSite b.body

/-- A program is the one at index `i` of the current version of block `b`. -/
structure Program.Current (reg : Registry) (i : Nat) (b : Block) (p : Program) : Prop where
  index : p.index = i
  version : p.version = b.version
  known : p.Known reg
  oneNamed : p.OneNamed

/-- The parts of a module are known. -/
structure Module.Known (reg : Registry) (m : Module) : Prop where
  type : reg.HasModule m.type.id
  members : ∀ e ∈ m.members, ∀ v, e.2 = .value v → v.Known reg

/-- A block stays sound while a registry grows. -/
theorem Block.Sound.mono {reg reg' : Registry} {i : BlockId} {b : Block} (h : b.Sound reg i)
    (hreg : reg.Within reg') : b.Sound reg' i :=
  ⟨h.id, h.signature.mono hreg, h.body⟩

/-- A program stays the current one while a registry grows. -/
theorem Program.Current.mono {reg reg' : Registry} {i : Nat} {b : Block} {p : Program}
    (h : p.Current reg i b) (hreg : reg.Within reg') : p.Current reg' i b :=
  ⟨h.index, h.version, h.known.mono hreg, h.oneNamed⟩

/-- A module stays known while a registry grows. -/
theorem Module.Known.mono {reg reg' : Registry} {m : Module} (h : m.Known reg)
    (hreg : reg.Within reg') : m.Known reg' :=
  ⟨h.type.imp fun _ hm => hreg.get? hm, fun e he v hv => (h.members e he v hv).mono hreg⟩

namespace World

/-- What a name means for receivers of a type, by the number of the type. -/
def resolveId (w : World) (id : TypeId) (name : String) : Resolution × Option BlockId :=
  match w.registry.method? id name with
  | some block => (.method, some block)
  | none =>
    match w.registry.types[id]? with
    | some (.module type) =>
      match (w.module? type).bind (·.member? name) with
      | some (.function block) => (.moduleMember, some block)
      | some (.value _) => (.moduleMember, none)
      | none => (.notFound, none)
    | some (.basic .map) => (.mapKey, none)
    | _ => (.notFound, none)

/-- The parts of a world agree. -/
structure Coherent (w : World) : Prop where
  registry : w.registry.Sound
  modules : ∀ m ∈ w.modules, m.Known w.registry
  blocks : ∀ (i : BlockId) (b : Block), w.blocks[i]? = some b → b.Sound w.registry i
  indices : ∀ (id : BlockId) (i : Nat), w.programs.indices[id]? = some i ↔
    ∃ slot, w.programs.slots[i]? = some slot ∧ slot.block = id
  slots : ∀ (i : Nat) (slot : ProgramSlot), w.programs.slots[i]? = some slot →
    ∃ b, w.blocks[slot.block]? = some b ∧
      ∀ p, slot.program = some p → p.Current w.registry i b

/-- What may be different in a later world. In particular, a program is dropped only when its
    block gets a new version, and as long as the epoch stays, so do programs and resolutions. -/
structure Grows (w w' : World) : Prop where
  registry : w.registry.Within w'.registry
  slots : ∀ (i : Nat) (slot : ProgramSlot) (b : Block), w.programs.slots[i]? = some slot →
    w.blocks[slot.block]? = some b →
    ∃ slot' b', w'.programs.slots[i]? = some slot' ∧ slot'.block = slot.block ∧
      w'.blocks[slot.block]? = some b' ∧ b.version ≤ b'.version ∧
      (b'.version = b.version → ∀ p, slot.program = some p → slot'.program = some p)
  epoch : w.epoch ≤ w'.epoch
  programs : w'.epoch = w.epoch → ∀ i p, w.slotProgram? i = some p → w'.slotProgram? i = some p
  resolutions : w'.epoch = w.epoch → ∀ id < w.registry.nextId, ∀ name,
    w'.resolveId id name = w.resolveId id name

/-- A module is found by the number of its type. -/
theorem module?_congr (w : World) {m m' : ModuleType} (h : m.id = m'.id) :
    w.module? m = w.module? m' := by
  rw [module?, module?, h]

/-- What a name means for a known receiver depends on the number of its type. -/
theorem resolve_eq {w : World} (hw : w.registry.Sound) {v : Value} (hv : v.Known w.registry)
    (name : String) : w.resolve v name = w.resolveId v.typeId name := by
  have hbasic : ∀ b, v.type = .basic b → w.registry.types[v.typeId]? = some (.basic b) := by
    intro b hb
    rw [Value.typeId, hb]
    exact hw.builtin b
  -- A method decides by the number alone. Otherwise the kind of the receiver does, and the registry
  -- has a type of that kind under the number.
  cases hmethod : w.registry.method? v.typeId name with
  | some block => simp only [resolve, resolveId, hmethod]
  | none =>
    cases v with
    | record id r fields =>
      cases hv.type with
      | record declared _ =>
        obtain ⟨r', hr'⟩ := declared
        simp only [resolve, resolveId, hmethod]
        simp only [Value.typeId, Value.type, Ty.id, hr']
    | module m =>
      cases hv.type with
      | module declared =>
        obtain ⟨m', hm'⟩ := declared
        have hid : m'.id = m.id := hw.numbered m.id _ hm'
        simp only [resolve, resolveId, hmethod]
        cases hmember : (w.module? m).bind (·.member? name) with
        | none => simp only [Value.typeId, Value.type, Ty.id, hm', w.module?_congr hid, hmember]
        | some member =>
          cases member <;>
            simp only [Value.typeId, Value.type, Ty.id, hm', w.module?_congr hid, hmember]
    | _ => simp only [resolve, resolveId, hmethod, hbasic _ rfl]

namespace Grows

variable {w w' w'' : World}

/-- A world is a later one of itself. -/
theorem refl (w : World) : w.Grows w where
  registry := .refl _
  slots := fun _ slot b hslot hb => ⟨slot, b, hslot, rfl, hb, Nat.le_refl _, fun _ _ hp => hp⟩
  epoch := Nat.le_refl _
  programs := fun _ _ _ hp => hp
  resolutions := fun _ _ _ _ => rfl

/-- Later worlds follow each other. -/
theorem trans (h : w.Grows w') (h' : w'.Grows w'') : w.Grows w'' where
  registry := h.registry.trans h'.registry
  slots := by
    intro i slot b hslot hb
    obtain ⟨slot₁, b₁, hslot₁, hblock₁, hb₁, hle₁, hkeep₁⟩ := h.slots i slot b hslot hb
    obtain ⟨slot₂, b₂, hslot₂, hblock₂, hb₂, hle₂, hkeep₂⟩ :=
      h'.slots i slot₁ b₁ hslot₁ (hblock₁ ▸ hb₁)
    refine ⟨slot₂, b₂, hslot₂, hblock₂.trans hblock₁, hblock₁ ▸ hb₂, Nat.le_trans hle₁ hle₂, ?_⟩
    -- versions only rise, so equal ends leave no change in between
    intro heq p hp
    exact hkeep₂ (by omega) p (hkeep₁ (by omega) p hp)
  epoch := Nat.le_trans h.epoch h'.epoch
  programs := by
    intro heq i p hp
    have := h.epoch
    have := h'.epoch
    exact h'.programs (by omega) i p (h.programs (by omega) i p hp)
  resolutions := by
    intro heq id hid name
    have := h.epoch
    have := h'.epoch
    have hid' : id < w'.registry.nextId := Nat.lt_of_lt_of_le hid h.registry.length_le
    rw [h'.resolutions (by omega) id hid' name, h.resolutions (by omega) id hid name]

/-- Programs and blocks that stay the same. -/
theorem of_table (hregistry : w.registry.Within w'.registry) (hblocks : w'.blocks = w.blocks)
    (hslots : w'.programs.slots = w.programs.slots) (hepoch : w.epoch ≤ w'.epoch)
    (hresolve : w'.epoch = w.epoch → ∀ id < w.registry.nextId, ∀ name,
      w'.resolveId id name = w.resolveId id name) : w.Grows w' where
  registry := hregistry
  slots := fun _ slot b hslot hb =>
    ⟨slot, b, hslots ▸ hslot, rfl, hblocks ▸ hb, Nat.le_refl _, fun _ _ hp => hp⟩
  epoch := hepoch
  programs := fun _ i p hp => by rwa [slotProgram?, hslots]
  resolutions := hresolve

end Grows

/-! ### Types, methods and modules -/

variable {w : World}

/-- The names of a coherent world stand for what is declared. -/
theorem Coherent.scope (h : w.Coherent) : w.scope.Sound where
  registry := h.registry
  modules := by
    intro m hm
    obtain ⟨mod, hmod, rfl⟩ := List.mem_map.1 hm
    exact (h.modules mod hmod).type

/-- Buffer numbers play no role. -/
theorem Coherent.supply (h : w.Coherent) (supply : BufferId) :
    { w with supply := supply }.Coherent :=
  ⟨h.registry, h.modules, h.blocks, h.indices, h.slots⟩

/-- Another next buffer number makes a later world. -/
theorem grows_supply (w : World) (supply : BufferId) : w.Grows { w with supply := supply } :=
  .of_table (.refl _) rfl rfl (Nat.le_refl _) fun _ _ _ _ => rfl

/-- A world stays coherent with other natives. -/
theorem Coherent.natives (h : w.Coherent) (natives : NativeTable) :
    { w with natives := natives }.Coherent :=
  ⟨h.registry, h.modules, h.blocks, h.indices, h.slots⟩

/-- Other natives make a later world. -/
theorem grows_natives (w : World) (natives : NativeTable) : w.Grows { w with natives := natives } :=
  .of_table (.refl _) rfl rfl (Nat.le_refl _) fun _ _ _ _ => rfl

/-- A world with more types and modules. -/
theorem Coherent.extend {w' : World} (h : w.Coherent) (hblocks : w'.blocks = w.blocks)
    (hprograms : w'.programs = w.programs) (hreg : w.registry.Within w'.registry)
    (hsound : w'.registry.Sound)
    (hmodules : ∀ m ∈ w'.modules, m ∈ w.modules ∨ m.Known w'.registry) : w'.Coherent where
  registry := hsound
  modules := fun m hm =>
    (hmodules m hm).elim (fun hold => (h.modules m hold).mono hreg) fun hnew => hnew
  blocks := fun i b hb => (h.blocks i b (hblocks ▸ hb)).mono hreg
  indices := hprograms ▸ h.indices
  slots := by
    intro i slot hslot
    rw [hprograms] at hslot
    obtain ⟨b, hb, hprogram⟩ := h.slots i slot hslot
    exact ⟨b, hblocks ▸ hb, fun p hp => (hprogram p hp).mono hreg⟩

/-- What a name means depends on the methods of the type, and on the module of the type if there is one. -/
theorem resolveId_congr {w' : World} {id : TypeId} (name : String)
    (hmethod : w'.registry.method? id name = w.registry.method? id name)
    (htype : w'.registry.types[id]? = w.registry.types[id]?)
    (hmodule : ∀ type, w.registry.types[id]? = some (.module type) →
      w'.module? type = w.module? type) : w'.resolveId id name = w.resolveId id name := by
  rw [resolveId, resolveId, hmethod, htype]
  cases w.registry.method? id name with
  | some block => rfl
  | none =>
    cases hty : w.registry.types[id]? with
    | none => rfl
    | some ty =>
      cases ty with
      | module type => simp only [hmodule type hty]
      | basic b => cases b <;> rfl
      | record r => rfl

/-- A world stays coherent with a new method. -/
theorem Coherent.addMethod (h : w.Coherent) (type : TypeId) (name : String) (block : BlockId) :
    (w.addMethod type name block).Coherent :=
  h.extend rfl rfl (.refl _)
    ⟨h.registry.builtin, h.registry.numbered,
      fun ty hty => (h.registry.known ty hty).mono (.refl _)⟩
    fun _ hm => .inl hm

/-- A new method begins a new epoch. -/
theorem grows_addMethod (w : World) (type : TypeId) (name : String) (block : BlockId) :
    w.Grows (w.addMethod type name block) :=
  .of_table (.refl _) rfl rfl (Nat.le_succ _) fun heq => absurd heq (Nat.succ_ne_self _)

/-- A registry with one more type declares all that it declared. -/
theorem within_push (reg : Registry) (ty : Ty) :
    reg.Within { reg with types := reg.types ++ [ty] } :=
  List.prefix_append ..

/-- A world stays coherent with a new record type, which is known then. -/
theorem Coherent.addRecord (h : w.Coherent) (name : String) {fields : List (String × Ty)}
    (hfields : ∀ e ∈ fields, e.2.Known w.registry) :
    (w.addRecord name fields).2.Coherent ∧
      (Ty.record (w.addRecord name fields).1).Known (w.addRecord name fields).2.registry := by
  have hwithin := within_push w.registry (.record (w.addRecord name fields).1)
  have hnew : (Ty.record (w.addRecord name fields).1).Known (w.addRecord name fields).2.registry :=
    .record ⟨_, List.getElem?_concat_length⟩ fun e he => (hfields e he).mono hwithin
  exact ⟨h.extend rfl rfl hwithin (h.registry.push rfl hnew) fun _ hm => .inl hm, hnew⟩

/-- A new record type changes no resolution of the types there were. -/
theorem grows_addRecord (w : World) (name : String) (fields : List (String × Ty)) :
    w.Grows (w.addRecord name fields).2 := by
  refine .of_table (within_push ..) rfl rfl (Nat.le_refl _) fun _ id hid name' => ?_
  exact resolveId_congr name' rfl (List.getElem?_append_left hid) fun _ _ => rfl

/-- A member of a module to which one was added is the new one or was there before. -/
theorem insertMember_mem {name : String} {m : Member} {ms : List (String × Member)}
    {e : String × Member} (h : e ∈ Module.insertMember name m ms) : e.2 = m ∨ e ∈ ms := by
  induction ms with
  | nil =>
    obtain rfl := List.mem_singleton.1 h
    exact .inl rfl
  | cons e' rest ih =>
    rw [Module.insertMember] at h
    split at h
    · rcases List.mem_cons.1 h with rfl | h
      · exact .inl rfl
      · exact .inr (List.mem_cons_of_mem _ h)
    · rcases List.mem_cons.1 h with rfl | h
      · exact .inr List.mem_cons_self
      · exact (ih h).imp_right (List.mem_cons_of_mem _)

/-- The members of a new module are those it is made of. -/
theorem foldl_insertMember_mem {members acc : List (String × Member)} {e : String × Member}
    (h : e ∈ members.foldl (fun ms (n, m) => Module.insertMember n m ms) acc) :
    e ∈ acc ∨ ∃ e' ∈ members, e'.2 = e.2 := by
  induction members generalizing acc with
  | nil => exact .inl h
  | cons e' rest ih =>
    rcases ih h with hacc | ⟨e'', hmem, heq⟩
    · rcases insertMember_mem hacc with heq | hacc
      · exact .inr ⟨e', List.mem_cons_self, heq.symm⟩
      · exact .inl hacc
    · exact .inr ⟨e'', List.mem_cons_of_mem _ hmem, heq⟩

/-- A world stays coherent with a new module of known members, which is known then. -/
theorem Coherent.addModule (h : w.Coherent) (name : String) {members : List (String × Member)}
    (hmembers : ∀ e ∈ members, ∀ v, e.2 = .value v → v.Known w.registry) :
    (w.addModule name members).2.Coherent ∧
      (w.addModule name members).1.Known (w.addModule name members).2.registry := by
  have hwithin := within_push w.registry (.module (w.addModule name members).1.type)
  have htype : (w.addModule name members).2.registry.HasModule
      (w.addModule name members).1.type.id := ⟨_, List.getElem?_concat_length⟩
  have hnew : (w.addModule name members).1.Known (w.addModule name members).2.registry := by
    refine ⟨htype, fun e he v hv => ?_⟩
    rcases foldl_insertMember_mem he with hnil | ⟨e', hmem, heq⟩
    · exact nomatch hnil
    · exact (hmembers e' hmem v (heq.trans hv)).mono hwithin
  refine ⟨h.extend rfl rfl hwithin (h.registry.push rfl (.module htype)) fun m hm => ?_, hnew⟩
  rcases List.mem_append.1 hm with hold | hm
  · exact .inl hold
  · exact .inr (List.mem_singleton.1 hm ▸ hnew)

/-- A new module has a type of its own, so it changes no resolution of the types there were. -/
theorem Coherent.grows_addModule (h : w.Coherent) (name : String)
    (members : List (String × Member)) : w.Grows (w.addModule name members).2 := by
  refine .of_table (within_push ..) rfl rfl (Nat.le_refl _) fun _ id hid name' => ?_
  refine resolveId_congr name' rfl (List.getElem?_append_left hid) fun type htype => ?_
  -- modules are found by the number of their type, and the new number is larger
  have hid' : type.id = id := h.registry.numbered id _ htype
  have hne : ((w.addModule name members).1.type.id == type.id) = false := by
    rw [hid']
    exact beq_false_of_ne (Nat.ne_of_gt hid)
  change (w.modules ++ [(w.addModule name members).1]).find? _ = w.modules.find? _
  rw [List.find?_append, List.find?_cons, hne]
  simp

/-! ### Program slots -/

/-- What an array holds stays where it is when something is added. -/
theorem getElem?_push_of_some {α : Type} {xs : Array α} {i : Nat} {a : α} (h : xs[i]? = some a)
    (b : α) : (xs.push b)[i]? = some a := by
  obtain ⟨hlt, _⟩ := Array.getElem?_eq_some_iff.1 h
  rw [Array.getElem?_push, if_neg (Nat.ne_of_lt hlt)]
  exact h

/-- What an array holds then was added or was there before. -/
theorem getElem?_push_cases {α : Type} {xs : Array α} {i : Nat} {a b : α}
    (h : (xs.push b)[i]? = some a) : (i = xs.size ∧ a = b) ∨ xs[i]? = some a := by
  rw [Array.getElem?_push] at h
  split at h
  next hi => exact .inl ⟨hi, (Option.some.inj h).symm⟩
  next => exact .inr h

/-- A block has an index exactly if the slot there belongs to it. -/
def Indexed (programs : ProgramTable) : Prop :=
  ∀ (id : BlockId) (i : Nat), programs.indices[id]? = some i ↔
    ∃ slot, programs.slots[i]? = some slot ∧ slot.block = id

namespace Indexed

variable {programs : ProgramTable}

/-- A block without an index gets the next one, with a slot of its own. -/
theorem push (h : Indexed programs) {id : BlockId} (hid : programs.indices[id]? = none) :
    Indexed ⟨programs.indices.insert id programs.slots.size, programs.slots.push ⟨id, none⟩⟩ := by
  intro id' i
  dsimp only
  rw [Std.HashMap.getElem?_insert]
  constructor
  · intro hindex
    split at hindex
    next heq =>
      obtain rfl := Option.some.inj hindex
      exact ⟨_, Array.getElem?_push_size, by simpa using heq⟩
    next =>
      obtain ⟨slot, hslot, hblock⟩ := (h id' i).1 hindex
      exact ⟨slot, getElem?_push_of_some hslot _, hblock⟩
  · rintro ⟨slot, hslot, rfl⟩
    rcases getElem?_push_cases hslot with ⟨rfl, rfl⟩ | hslot
    · simp
    · -- an old slot belongs to a block that had its index, so not to the new one
      have hindex := (h slot.block i).2 ⟨slot, hslot, rfl⟩
      have hne : (id == slot.block) = false := by
        refine beq_false_of_ne fun heq => ?_
        rw [heq, hindex] at hid
        exact nomatch hid
      rw [hne]
      exact hindex

/-- Which programs are in the slots plays no role. -/
theorem of_slots {programs' : ProgramTable} (h : Indexed programs)
    (hindices : programs'.indices = programs.indices) (f : Nat → ProgramSlot → Option Program)
    (hslots : ∀ i : Nat, programs'.slots[i]? =
      (programs.slots[i]?).map fun slot => { slot with program := f i slot }) :
    Indexed programs' := by
  intro id i
  rw [hindices, h, hslots]
  constructor
  · rintro ⟨slot, hslot, hid⟩
    exact ⟨_, Option.map_eq_some_iff.2 ⟨slot, hslot, rfl⟩, hid⟩
  · rintro ⟨slot', hslot', hid⟩
    obtain ⟨slot, hslot, rfl⟩ := Option.map_eq_some_iff.1 hslot'
    exact ⟨slot, hslot, hid⟩

end Indexed

/-- The slots after the program of one was changed. -/
theorem getElem?_modify_slot (slots : Array ProgramSlot) (i j : Nat) (q : Option Program) :
    (slots.modify i fun slot => { slot with program := q })[j]? =
      (slots[j]?).map fun slot => { slot with program := if i = j then q else slot.program } := by
  rw [Array.getElem?_modify]
  split
  · rfl
  · rw [Option.map_id_fun']
    rfl

/-- A slot keeps its block, and its program unless it is the slot that is changed. -/
theorem modify_slot_of_some {slots : Array ProgramSlot} {j : Nat} {slot : ProgramSlot}
    (h : slots[j]? = some slot) (i : Nat) (q : Option Program) :
    (slots.modify i fun slot => { slot with program := q })[j]? =
      some { slot with program := if i = j then q else slot.program } := by
  rw [getElem?_modify_slot, h]
  rfl

/-- The slots after the program of a block was dropped. -/
theorem Indexed.getElem?_drop {programs : ProgramTable} (h : Indexed programs) (id : BlockId)
    (i : Nat) :
    (programs.drop id).slots[i]? = (programs.slots[i]?).map fun slot =>
      { slot with program := if slot.block = id then none else slot.program } := by
  rw [ProgramTable.drop]
  cases hindex : programs.indices[id]? with
  | none =>
    cases hslot : programs.slots[i]? with
    | none => rfl
    | some slot =>
      -- a block without an index has no slot to drop the program of
      have hne : slot.block ≠ id := by
        intro heq
        rw [(h id i).2 ⟨slot, hslot, heq⟩] at hindex
        exact nomatch hindex
      simp [hne]
  | some j =>
    dsimp only
    rw [getElem?_modify_slot]
    cases hslot : programs.slots[i]? with
    | none => rfl
    | some slot =>
      have hiff : j = i ↔ slot.block = id := by
        obtain ⟨slot', hslot', hblock⟩ := (h id j).1 hindex
        constructor
        · rintro rfl
          rw [hslot] at hslot'
          exact Option.some.inj hslot' ▸ hblock
        · intro heq
          have := (h id i).2 ⟨slot, hslot, heq⟩
          rw [hindex] at this
          exact Option.some.inj this
      simp only [Option.map_some, hiff]

/-- Indices belong to slots when the program of a block is dropped. -/
theorem Indexed.drop {programs : ProgramTable} (h : Indexed programs) (id : BlockId) :
    Indexed (programs.drop id) := by
  refine h.of_slots ?_ _ (h.getElem?_drop id)
  rw [ProgramTable.drop]
  split <;> rfl

/-! ### Programs -/

/-- The program of a lowered body is put into its slot. -/
def lowered (b : Block) (i : Nat) (w : World) : Except CompileError Nat × World :=
  match lower ⟨b.signature.name, w.scope, w.natives⟩ b.body w.supply with
  | .error e => (.error e, w)
  | .ok d =>
    (.ok i, { w with
      programs := { w.programs with
        slots := w.programs.slots.modify i
          fun slot => { slot with program := some (finish b i d) } }
      supply := d.supply })

/-- A program is put into a slot. -/
def fill (w : World) (i : Nat) (p : Program) : World :=
  { w with programs := { w.programs with
    slots := w.programs.slots.modify i fun slot => { slot with program := some p } } }

/-- What a lowering makes of a block is put into the slot of the block, unless the block has another
    version by then. -/
def filledBy (lowering : Block → Action Draft) (id : BlockId) (b : Block) (i : Nat) (w : World) :
    Except CompileError Nat × World :=
  match lowering b w with
  | (.error e, w') => (.error e, w')
  | (.ok d, w') =>
    match w'.blocks[id]? with
    | none => (.error (.unknownBlock id), w')
    | some current =>
      (.ok i, if current.version = b.version then w'.fill i (finish b i d) else w')

/-- How a block is compiled: its index is found or given out, and unless a program of its version is
    there it is lowered. -/
theorem compileBy_eq (lowering : Block → Action Draft) (id : BlockId) (w : World) :
    compileBy lowering id w = match w.blocks[id]? with
      | none => (.error (.unknownBlock id), w)
      | some b =>
        match (programIndex id w).2.slotProgram? (programIndex id w).1 with
        | some p =>
          if p.version = b.version then (.ok (programIndex id w).1, (programIndex id w).2)
          else filledBy lowering id b (programIndex id w).1 (programIndex id w).2
        | none => filledBy lowering id b (programIndex id w).1 (programIndex id w).2 := by
  simp only [compileBy, block?, Failing.bind_apply, Failing.get_apply, Failing.except_apply,
    Failing.lift_apply]
  cases w.blocks[id]? with
  | none => rfl
  | some b =>
    have hfilled : ∀ (i : Nat) (w : World),
        (do
          let d ← lowering b
          let w ← get
          let current ← w.block? id
          if current.version = b.version then set (w.fill i (finish b i d))
          return i : Action Nat) w = filledBy lowering id b i w := by
      intro i w
      simp only [Failing.bind_apply, Failing.get_apply, Failing.except_apply, filledBy, block?]
      rcases lowering b w with ⟨e | d, w'⟩
      · rfl
      · dsimp only
        cases w'.blocks[id]? with
        | none => rfl
        | some current =>
          dsimp only
          split <;> rfl
    dsimp only
    cases (programIndex id w).2.slotProgram? (programIndex id w).1 with
    | none => exact hfilled _ _
    | some p =>
      dsimp only
      split
      · rfl
      · exact hfilled _ _

/-- A block that has an index keeps it. -/
theorem programIndex_of_some {id : BlockId} {i : Nat} (h : w.programs.indices[id]? = some i) :
    programIndex id w = (i, w) := by
  simp only [programIndex, bind, StateT.bind, get, getThe, MonadStateOf.get, StateT.get, pure, h]
  rfl

/-- A block without an index gets the next one, with an empty slot. -/
theorem programIndex_of_none {id : BlockId} (h : w.programs.indices[id]? = none) :
    programIndex id w = (w.programs.slots.size, { w with
      programs := ⟨w.programs.indices.insert id w.programs.slots.size,
        w.programs.slots.push ⟨id, none⟩⟩ }) := by
  simp only [programIndex, bind, StateT.bind, get, getThe, MonadStateOf.get, StateT.get, pure, h]
  rfl

/-- Giving out an index leaves the blocks alone. -/
theorem programIndex_blocks (id : BlockId) (w : World) : (programIndex id w).2.blocks = w.blocks := by
  cases hi : w.programs.indices[id]? with
  | some i => rw [programIndex_of_some hi]
  | none => rw [programIndex_of_none hi]

/-- Lowering a body leaves its block alone, so the program always gets into its slot. -/
theorem filledBy_draft {id : BlockId} {b : Block} (h : w.blocks[id]? = some b) (i : Nat) :
    filledBy draft id b i w = lowered b i w := by
  rw [filledBy, draft, lowered]
  simp only [Failing.bind_apply, Failing.get_apply, Failing.except_apply, Failing.set_apply,
    Failing.pure_apply]
  cases lower ⟨b.signature.name, w.scope, w.natives⟩ b.body w.supply with
  | error e => rfl
  | ok d =>
    dsimp only
    rw [h]
    exact congrArg (Prod.mk _) (if_pos rfl)

/-- **How a block is compiled.** It has to be known. If its slot holds a program of its version, that one is
    taken, and otherwise its body is lowered. -/
theorem compile_eq (id : BlockId) (w : World) :
    compile id w = match w.blocks[id]? with
      | none => (.error (.unknownBlock id), w)
      | some b =>
        match (programIndex id w).2.slotProgram? (programIndex id w).1 with
        | some p =>
          if p.version = b.version then (.ok (programIndex id w).1, (programIndex id w).2)
          else lowered b (programIndex id w).1 (programIndex id w).2
        | none => lowered b (programIndex id w).1 (programIndex id w).2 := by
  rw [compile, compileBy_eq]
  cases hb : w.blocks[id]? with
  | none => rfl
  | some b =>
    have hfilled := filledBy_draft (w := (programIndex id w).2)
      (by rw [programIndex_blocks]; exact hb) (programIndex id w).1
    dsimp only
    rw [hfilled]

/-- Blocks and programs after a step that only fills or adds program slots. -/
structure Compiled (w w' : World) : Prop where
  coherent : w'.Coherent
  grows : w.Grows w'
  registry : w'.registry = w.registry
  blocks : w'.blocks = w.blocks

namespace Compiled

/-- Nothing was filled or added. -/
theorem refl (h : w.Coherent) : Compiled w w :=
  ⟨h, .refl w, rfl, rfl⟩

/-- Steps that only fill or add program slots follow each other. -/
theorem trans {w' w'' : World} (h : Compiled w w') (h' : Compiled w' w'') : Compiled w w'' :=
  ⟨h'.coherent, h.grows.trans h'.grows, h'.registry.trans h.registry, h'.blocks.trans h.blocks⟩

end Compiled

/-- A block gets an index, whose slot belongs to it. -/
theorem Coherent.programIndex (h : w.Coherent) {id : BlockId} {b : Block}
    (hb : w.blocks[id]? = some b) :
    Compiled w (programIndex id w).2 ∧
      ∃ slot, (World.programIndex id w).2.programs.slots[(World.programIndex id w).1]? = some slot ∧
        slot.block = id := by
  cases hi : w.programs.indices[id]? with
  | some i =>
    rw [programIndex_of_some hi]
    exact ⟨.refl h, (h.indices id i).1 hi⟩
  | none =>
    rw [programIndex_of_none hi]
    refine ⟨⟨⟨h.registry, h.modules, h.blocks, Indexed.push h.indices hi, ?_⟩,
      ⟨.refl _, ?_, Nat.le_refl _, ?_, fun _ _ _ _ => rfl⟩, rfl, rfl⟩,
      _, Array.getElem?_push_size, rfl⟩
    · intro i slot hslot
      rcases getElem?_push_cases hslot with ⟨_, rfl⟩ | hslot
      · exact ⟨b, hb, nofun⟩
      · exact h.slots i slot hslot
    · intro i slot b' hslot hb'
      exact ⟨slot, b', getElem?_push_of_some hslot _, rfl, hb', Nat.le_refl _, fun _ _ hp => hp⟩
    · intro _ i p hp
      obtain ⟨slot, hslot, hprogram⟩ := Option.bind_eq_some_iff.1 hp
      exact Option.bind_eq_some_iff.2 ⟨slot, getElem?_push_of_some hslot _, hprogram⟩

/-- An empty slot is filled with the program of its block. -/
theorem Coherent.lowered (h : w.Coherent) {i : Nat} {slot : ProgramSlot} {b : Block}
    (hslot : w.programs.slots[i]? = some slot) (hempty : slot.program = none)
    (hb : w.blocks[slot.block]? = some b) :
    Compiled w (lowered b i w).2 ∧
      ∀ j, (World.lowered b i w).1 = .ok j →
        j = i ∧ ∃ p, (World.lowered b i w).2.slotProgram? i = some p := by
  rw [World.lowered]
  split
  next e _ => exact ⟨.refl h, nofun⟩
  next d hd =>
    have hsound := h.blocks slot.block b hb
    have hcurrent : (finish b i d).Current w.registry i b :=
      ⟨rfl, rfl, finish_known i (lower_known h.scope hd) hsound.signature, hsound.body _ _ d hd b i⟩
    -- the slot was empty, so no program that was there is lost
    have hfill : ∀ (j : Nat) slot', w.programs.slots[j]? = some slot' →
        ∀ p, slot'.program = some p →
          (if i = j then some (finish b i d) else slot'.program) = some p := by
      intro j slot' hslot' p hp
      rw [if_neg, hp]
      rintro rfl
      rw [hslot] at hslot'
      obtain rfl := Option.some.inj hslot'
      rw [hempty] at hp
      exact nomatch hp
    have hindexed : Indexed { w.programs with
        slots := w.programs.slots.modify i
          fun slot => { slot with program := some (finish b i d) } } :=
      Indexed.of_slots h.indices rfl _ fun j => getElem?_modify_slot w.programs.slots i j _
    refine ⟨⟨⟨h.registry, h.modules, h.blocks, hindexed, ?_⟩,
      ⟨.refl _, ?_, Nat.le_refl _, ?_, fun _ _ _ _ => rfl⟩, rfl, rfl⟩, ?_⟩
    · intro j slot' hslot'
      rw [getElem?_modify_slot] at hslot'
      obtain ⟨slot₀, hslot₀, rfl⟩ := Option.map_eq_some_iff.1 hslot'
      obtain ⟨b', hb', hprogram⟩ := h.slots j slot₀ hslot₀
      refine ⟨b', hb', fun p hp => ?_⟩
      dsimp only at hp
      split at hp
      next hij =>
        subst hij
        rw [hslot] at hslot₀
        obtain rfl := Option.some.inj hslot₀
        rw [hb] at hb'
        obtain rfl := Option.some.inj hb'
        exact Option.some.inj hp ▸ hcurrent
      next => exact hprogram p hp
    · intro j slot' b' hslot' hb'
      exact ⟨_, b', modify_slot_of_some hslot' i _, rfl, hb', Nat.le_refl _,
        fun _ p hp => hfill j slot' hslot' p hp⟩
    · intro _ j p hp
      obtain ⟨slot', hslot', hprogram⟩ := Option.bind_eq_some_iff.1 hp
      exact Option.bind_eq_some_iff.2
        ⟨_, modify_slot_of_some hslot' i _, hfill j slot' hslot' p hprogram⟩
    · intro j hj
      refine ⟨(Except.ok.inj hj).symm, finish b i d, ?_⟩
      exact Option.bind_eq_some_iff.2 ⟨_, modify_slot_of_some hslot i _, if_pos rfl⟩

/-- Compiling a block fills its slot. -/
theorem Coherent.compile (h : w.Coherent) (id : BlockId) :
    Compiled w (compile id w).2 ∧
      ∀ i, (World.compile id w).1 = .ok i →
        ∃ slot p, (World.compile id w).2.programs.slots[i]? = some slot ∧ slot.block = id ∧
          slot.program = some p := by
  rw [compile_eq]
  cases hb : w.blocks[id]? with
  | none => exact ⟨.refl h, nofun⟩
  | some b =>
    obtain ⟨hindex, slot, hslot, rfl⟩ := h.programIndex hb
    have hb' : (World.programIndex slot.block w).2.blocks[slot.block]? = some b := by
      rw [hindex.blocks]
      exact hb
    have hprogram : (World.programIndex slot.block w).2.slotProgram?
        (World.programIndex slot.block w).1 = slot.program := by
      rw [slotProgram?, hslot]
      rfl
    dsimp only
    rw [hprogram]
    cases hp : slot.program with
    | none =>
      obtain ⟨hlowered, hdone⟩ := hindex.coherent.lowered hslot hp hb'
      refine ⟨hindex.trans hlowered, fun i hi => ?_⟩
      obtain ⟨rfl, p, hfilled⟩ := hdone i hi
      obtain ⟨slot', hslot', hp'⟩ := Option.bind_eq_some_iff.1 hfilled
      obtain ⟨slot'', _, hslot'', hblock, _⟩ := hlowered.grows.slots _ slot b hslot hb'
      rw [hslot'] at hslot''
      obtain rfl := Option.some.inj hslot''
      exact ⟨slot', p, hslot', hblock, hp'⟩
    | some p =>
      -- a program in a slot is current, so the comparison of versions never fails
      obtain ⟨b'', hb'', hcurrent⟩ := hindex.coherent.slots _ slot hslot
      rw [hb'] at hb''
      obtain rfl := Option.some.inj hb''
      simp only [(hcurrent p hp).version, if_true]
      refine ⟨hindex, fun i hi => ?_⟩
      obtain rfl := Except.ok.inj hi
      exact ⟨slot, p, hslot, rfl, hp⟩

/-- How a program is fetched: if its slot is empty, its block is compiled first. -/
theorem programBy_eq (lowering : Block → Action Draft) (index : Nat) (w : World) :
    programBy lowering index w = match w.programs.slots[index]? with
      | none => (.error (.unknownProgram index), w)
      | some slot =>
        match slot.program with
        | some p => (.ok p, w)
        | none =>
          match compileBy lowering slot.block w with
          | (.error e, w') => (.error e, w')
          | (.ok _, w') =>
            match w'.slotProgram? index with
            | some p => (.ok p, w')
            | none => (.error (.unknownProgram index), w') := by
  simp only [programBy, Failing.bind_apply, Failing.get_apply]
  cases w.programs.slots[index]? with
  | none => rfl
  | some slot =>
    dsimp only
    cases slot.program with
    | some p => rfl
    | none =>
      simp only [Failing.bind_apply, Failing.get_apply]
      rcases compileBy lowering slot.block w with ⟨_ | _, w'⟩
      · rfl
      · dsimp only
        cases w'.slotProgram? index <;> rfl

/-- How a program is fetched by its index: from its slot, or by compiling the block that the slot belongs
    to. -/
theorem program_eq (index : Nat) (w : World) :
    program index w = match w.programs.slots[index]? with
      | none => (.error (.unknownProgram index), w)
      | some slot =>
        match slot.program with
        | some p => (.ok p, w)
        | none =>
          match World.compile slot.block w with
          | (.error e, w') => (.error e, w')
          | (.ok _, w') =>
            match w'.slotProgram? index with
            | some p => (.ok p, w')
            | none => (.error (.unknownProgram index), w') :=
  programBy_eq draft index w

/-- The program at an index is the one in its slot. -/
theorem Coherent.program (h : w.Coherent) (index : Nat) :
    Compiled w (program index w).2 ∧
      ∀ p, (World.program index w).1 = .ok p →
        (World.program index w).2.slotProgram? index = some p := by
  rw [program_eq]
  cases hslot : w.programs.slots[index]? with
  | none => exact ⟨.refl h, nofun⟩
  | some slot =>
    dsimp only
    cases hp : slot.program with
    | some p =>
      refine ⟨.refl h, fun p' hp' => ?_⟩
      obtain rfl := Except.ok.inj hp'
      rw [slotProgram?, hslot]
      exact hp
    | none =>
      have hcompile := (h.compile slot.block).1
      dsimp only
      generalize World.compile slot.block w = r at hcompile
      rcases r with ⟨_ | _, w'⟩
      · exact ⟨hcompile, nofun⟩
      · dsimp only
        cases hp' : w'.slotProgram? index with
        | none => exact ⟨hcompile, nofun⟩
        | some p => exact ⟨hcompile, fun q hq => Except.ok.inj hq ▸ hp'⟩

/-- A program that is found is the current one of its block. -/
theorem Coherent.current (h : w.Coherent) {i : Nat} {p : Program} (hp : w.slotProgram? i = some p) :
    ∃ slot b, w.programs.slots[i]? = some slot ∧ slot.program = some p ∧
      w.blocks[slot.block]? = some b ∧ p.Current w.registry i b := by
  obtain ⟨slot, hslot, hprogram⟩ := Option.bind_eq_some_iff.1 hp
  obtain ⟨b, hb, hcurrent⟩ := h.slots i slot hslot
  exact ⟨slot, b, hslot, hprogram, hb, hcurrent p hprogram⟩

/-! ### Definitions of blocks -/

/-- A new block takes a number that no slot belongs to. -/
theorem Coherent.addBlock (h : w.Coherent) {signature : Signature} {body : List Directive}
    (hsignature : signature.Known w.registry) (hbody : OneNamePerSite body) :
    (w.addBlock signature body).2.Coherent ∧ w.Grows (w.addBlock signature body).2 := by
  have hold : ∀ (i : BlockId) b, w.blocks[i]? = some b →
      (w.addBlock signature body).2.blocks[i]? = some b :=
    fun _ _ hb => getElem?_push_of_some hb _
  refine ⟨⟨h.registry, h.modules, fun i b hb => ?_, h.indices, fun i slot hslot => ?_⟩,
    ⟨.refl _, fun i slot b hslot hb => ?_, Nat.le_refl _, fun _ _ _ hp => hp, fun _ _ _ _ => rfl⟩⟩
  · rcases getElem?_push_cases hb with ⟨hi, rfl⟩ | hb
    · exact ⟨hi.symm, hsignature, hbody⟩
    · exact h.blocks i b hb
  · obtain ⟨b, hb, hprogram⟩ := h.slots i slot hslot
    exact ⟨b, hold _ b hb, hprogram⟩
  · exact ⟨slot, b, hslot, rfl, hold _ b hb, Nat.le_refl _, fun _ _ hp => hp⟩

/-- How a block is defined anew: it gets the next version, its program is dropped, and a new epoch
    begins. -/
theorem replaceBlock_eq (id : BlockId) (signature : Signature) (body : List Directive) (w : World) :
    replaceBlock id signature body w = match w.blocks[id]? with
      | none => (.error (.unknownBlock id), w)
      | some b => (.ok (b.version + 1), { w with
          blocks := w.blocks.setIfInBounds id ⟨id, b.version + 1, signature, body⟩
          programs := w.programs.drop id
          epoch := w.epoch + 1 }) := by
  simp only [replaceBlock, block?, Failing.bind_apply, Failing.get_apply, Failing.except_apply]
  cases w.blocks[id]? <;> rfl

/-- A new definition of a block drops its program and begins a new epoch. -/
theorem Coherent.replaceBlock (h : w.Coherent) (id : BlockId) {signature : Signature}
    {body : List Directive} (hsignature : signature.Known w.registry)
    (hbody : OneNamePerSite body) :
    (replaceBlock id signature body w).2.Coherent ∧
      w.Grows (World.replaceBlock id signature body w).2 ∧
      (World.replaceBlock id signature body w).2.registry = w.registry := by
  rw [replaceBlock_eq]
  cases hb : w.blocks[id]? with
  | none => exact ⟨h, .refl w, rfl⟩
  | some b =>
    dsimp only
    have hget : ∀ i : BlockId,
        (w.blocks.setIfInBounds id ⟨id, b.version + 1, signature, body⟩)[i]? =
          if id = i then some ⟨id, b.version + 1, signature, body⟩ else w.blocks[i]? := by
      intro i
      obtain ⟨hlt, _⟩ := Array.getElem?_eq_some_iff.1 hb
      rw [Array.getElem?_setIfInBounds, if_pos hlt]
    have hindexed : Indexed w.programs := h.indices
    refine ⟨⟨h.registry, h.modules, fun i b' hb' => ?_, hindexed.drop id, fun i slot hslot => ?_⟩,
      ⟨.refl _, fun i slot b' hslot hb' => ?_, Nat.le_succ _,
        fun heq => absurd heq (Nat.succ_ne_self _),
        fun heq => absurd heq (Nat.succ_ne_self _)⟩, rfl⟩
    · rw [hget] at hb'
      split at hb'
      next hi =>
        obtain rfl := Option.some.inj hb'
        exact ⟨hi, hsignature, hbody⟩
      next => exact h.blocks i b' hb'
    · rw [hindexed.getElem?_drop] at hslot
      obtain ⟨slot₀, hslot₀, rfl⟩ := Option.map_eq_some_iff.1 hslot
      obtain ⟨b', hb', hprogram⟩ := h.slots i slot₀ hslot₀
      dsimp only
      rw [hget]
      -- the slot of the block is empty now, the others have their programs and blocks
      by_cases hid : slot₀.block = id
      · simp [hid]
      · rw [if_neg (Ne.symm hid), if_neg hid]
        exact ⟨b', hb', hprogram⟩
    · have hslot' := hindexed.getElem?_drop id i
      rw [hslot] at hslot'
      refine ⟨_, if id = slot.block then ⟨id, b.version + 1, signature, body⟩ else b', hslot', rfl,
        ?_, ?_⟩
      · rw [hget]
        split
        · rfl
        · exact hb'
      · by_cases hid : slot.block = id
        · rw [hid, hb] at hb'
          obtain rfl := Option.some.inj hb'
          simp [hid]
        · rw [if_neg (Ne.symm hid)]
          refine ⟨Nat.le_refl _, fun _ p hp => ?_⟩
          dsimp only
          rw [if_neg hid]
          exact hp

/-! ### Natives -/

/-- A computation changes nothing but the table of natives. -/
def OnlyNatives (w w' : World) : Prop :=
  ∃ natives, w' = { w with natives := natives }

/-- Registering a native changes the table of natives only. -/
theorem registerNative_natives (name : String) (f : Native) (w : World) :
    OnlyNatives w (registerNative name f w).2 := by
  refine ⟨(w.natives.register name f).2, ?_⟩
  simp only [registerNative, Failing.bind_apply, Failing.get_apply, Failing.set_apply]
  cases (w.natives.register name f).1 <;> rfl

/-- Putting another native in the place of one changes the table of natives only. -/
theorem patchNative_natives (name : String) (f : Native) (w : World) :
    OnlyNatives w (patchNative name f w).2 := by
  refine ⟨(w.natives.patch name f).2, ?_⟩
  simp only [patchNative, Failing.bind_apply, Failing.get_apply, Failing.set_apply]
  cases (w.natives.patch name f).1 <;> rfl

end World

end BlockMachine

import BlockMachine.Proofs.Value.Cast
import BlockMachine.Proofs.Sharing.Counting

namespace BlockMachine

/-!
# Values into a store and back

`Store.build` puts a value into new buffers, `Store.adopt` shares those buffers of a value that
are live, and `Store.read` gives the value of a slot. All containers and closures are treated
alike once a value is split into its parts and the contents that hold them.

* `Value.contents?` is what a value puts into its buffer, given slots for its parts;
* `Sound.build`, `Sound.adopt` and `Sound.read_eq` are what the three functions do to a sound
  store.
-/

/-! ### Contents -/

namespace Value

/-- What the buffer of a value holds when its parts are in the given slots; `none` for a value
    without a buffer. -/
def contents? (slots : List Slot) : Value → Option Payload
  | str _ s => some (.str s)
  | list _ _ => some (.list slots)
  | map _ entries => some (.map ((entries.map (·.1)).zip slots))
  | record _ type _ => some (.record type slots)
  | func _ block _ => some (.func block slots)
  | _ => none

variable {v : Value} {slots : List Slot} {payload : Payload} {id : BufferId}
  {val : BufferId → Value}

/-- The slots inside of contents are those that they were made with. -/
theorem slots_of_contents? (h : v.contents? slots = some payload)
    (hlength : slots.length = v.parts.length) : payload.slots = slots := by
  cases v <;> simp only [contents?, Option.some.injEq, reduceCtorEq] at h <;> subst h <;>
    simp_all [Payload.slots, parts, List.map_snd_zip]

/-- Contents stand for the value that they were made for. -/
theorem value_of_contents? (h : v.contents? slots = some payload) (hid : v.id? = some id)
    (hslots : slots.map (Slot.value val) = v.parts) : payload.value val id = v := by
  cases v <;> simp only [contents?, id?, parts, Option.some.injEq, reduceCtorEq] at h hid hslots <;>
    subst h hid
  case str => rfl
  case map entries =>
    have hzip : ((entries.map (·.1)).zip slots).map (fun e => (e.1, e.2.value val)) = entries := by
      calc ((entries.map (·.1)).zip slots).map (fun e => (e.1, e.2.value val))
          = (entries.map (·.1)).zip (slots.map (Slot.value val)) := List.zip_map_right.symm
        _ = entries := by rw [hslots, List.zip_map', List.map_id']
    rw [Payload.value, hzip]
  all_goals simp [Payload.value, hslots]

/-- Contents stand for the value that they were made for, up to buffer numbers. -/
theorem erase_of_contents? (h : v.contents? slots = some payload)
    (hslots : (slots.map (Slot.value val)).map erase = v.parts.map erase) :
    (payload.value val id).erase = v.erase := by
  cases v <;> simp only [contents?, parts, Option.some.injEq, reduceCtorEq] at h hslots <;>
    subst h
  case str => rfl
  case map entries =>
    have hzip : (((entries.map (·.1)).zip slots).map fun e => (e.1, (e.2.value val).erase)) =
        entries.map fun e => (e.1, e.2.erase) := by
      calc (((entries.map (·.1)).zip slots).map fun e => (e.1, (e.2.value val).erase))
          = (entries.map (·.1)).zip ((slots.map (Slot.value val)).map erase) := by
            rw [List.map_map, List.zip_map_right]
            rfl
        _ = entries.map fun e => (e.1, e.2.erase) := by
            rw [hslots, List.map_map, List.zip_map']
            rfl
    simp only [Payload.value, erase, eraseEntries_eq, List.map_map, Function.comp_def, hzip]
  all_goals simp_all [Payload.value, erase, eraseItems_eq]

/-- The slot of a value without a buffer. -/
def atom : Value → Slot
  | int i => .int i
  | float x => .float x
  | bool b => .bool b
  | module m => .module m
  | host n => .host n
  | error message => .error message
  | moved => .moved
  | _ => .null

/-- The slot of a value without a buffer stands for that value. -/
theorem value_atom (h : v.id? = none) : v.atom.value val = v := by
  cases v <;> first | rfl | simp [id?] at h

/-- It is no handle. -/
theorem atom_ne_handle (v : Value) (id : BufferId) : v.atom ≠ .handle id := by
  cases v <;> simp [atom]

end Value

/-! ### Building -/

namespace Store

/-- A value without a buffer needs none. -/
theorem build_of_atom {v : Value} (h : v.id? = none) (s : Store) : build v s = (v.atom, s) := by
  cases v <;> first | rfl | simp [Value.id?] at h

/-- Entries are built as their values are. -/
theorem buildEntries_eq (entries : List (Key × Value)) (s : Store) :
    buildEntries entries s =
      ((entries.map (·.1)).zip (buildItems (entries.map (·.2)) s).1,
        (buildItems (entries.map (·.2)) s).2) := by
  induction entries generalizing s with
  | nil => rfl
  | cons e rest ih =>
    obtain ⟨k, v⟩ := e
    change ((k, (build v s).1) :: (buildEntries rest (build v s).2).1,
      (buildEntries rest (build v s).2).2) = _
    rw [ih]
    rfl

/-- There is a slot for every item. -/
theorem length_buildItems (vs : List Value) (s : Store) :
    (buildItems vs s).1.length = vs.length := by
  induction vs generalizing s with
  | nil => rfl
  | cons v rest ih => exact congrArg (· + 1) (ih (build v s).2)

/-- A value with a buffer is built by building its parts first. -/
theorem build_of_id {v : Value} {id : BufferId} (h : v.id? = some id) (s : Store) :
    ∃ payload, v.contents? (buildItems v.parts s).1 = some payload ∧
      build v s = alloc payload (buildItems v.parts s).2 := by
  cases v with
  | map id entries =>
    refine ⟨_, rfl, ?_⟩
    simp only [build, bind, StateT.bind, buildEntries_eq]
    rfl
  | str id text => exact ⟨_, rfl, rfl⟩
  | list id items => exact ⟨_, rfl, rfl⟩
  | record id type fields => exact ⟨_, rfl, rfl⟩
  | func id block bindings => exact ⟨_, rfl, rfl⟩
  | _ => simp [Value.id?] at h

/-- Building `v` adds one root, which stands for `v` up to buffer numbers, and changes no value
    of a buffer that was there. -/
def Builds (v : Value) : Prop :=
  ∀ (s : Store) (roots : List Slot) (val : BufferId → Value), s.Sound roots val →
    ∃ val', (build v s).2.Sound ((build v s).1 :: roots) val' ∧
      s.next ≤ (build v s).2.next ∧ (∀ j < s.next, val' j = val j) ∧
      ((build v s).1.value val').erase = v.erase

namespace Sound

variable {s : Store} {roots : List Slot} {val : BufferId → Value}

/-- Items are built one after the other, and are roots then. -/
theorem buildItems {vs : List Value} (hvs : ∀ v ∈ vs, Builds v) (h : s.Sound roots val) :
    ∃ val', (Store.buildItems vs s).2.Sound ((Store.buildItems vs s).1 ++ roots) val' ∧
      s.next ≤ (Store.buildItems vs s).2.next ∧ (∀ j < s.next, val' j = val j) ∧
      ((Store.buildItems vs s).1.map (Slot.value val')).map Value.erase = vs.map Value.erase := by
  induction vs generalizing s roots val with
  | nil => exact ⟨val, h, Nat.le_refl _, fun _ _ => rfl, rfl⟩
  | cons v rest ih =>
    obtain ⟨val₁, hsound₁, hnext₁, hagree₁, hvalue₁⟩ := hvs v List.mem_cons_self s roots val h
    obtain ⟨val₂, hsound₂, hnext₂, hagree₂, hvalue₂⟩ :=
      ih (fun w hw => hvs w (List.mem_cons_of_mem _ hw)) hsound₁
    -- the root of the first value still stands for it once the rest is built
    have hkept := hsound₁.value_eq_of_agrees hagree₂ List.mem_cons_self
    refine ⟨val₂, hsound₂.of_perm List.perm_middle, Nat.le_trans hnext₁ hnext₂, ?_, ?_⟩
    · intro j hj
      rw [hagree₂ j (Nat.lt_of_lt_of_le hj hnext₁), hagree₁ j hj]
    · change ((build v s).1.value val₂).erase :: _ = _
      rw [hkept, hvalue₁, List.map_cons]
      exact congrArg (v.erase :: ·) hvalue₂

/-- **A value is built in new buffers**, by induction on its parts. -/
theorem build (v : Value) : Builds v := by
  induction v using Value.induction_parts with
  | h v ih =>
    intro s roots val h
    cases hid : v.id? with
    | none =>
      rw [build_of_atom hid]
      exact ⟨val, h.of_atom v.atom_ne_handle, Nat.le_refl _, fun _ _ => rfl,
        congrArg Value.erase (Value.value_atom hid)⟩
    | some id =>
      -- parts first, then one buffer that takes their roots in
      obtain ⟨payload, hcontents, hrun⟩ := build_of_id hid s
      rw [hrun]
      obtain ⟨val₁, hsound₁, hnext₁, hagree₁, hvalue₁⟩ := h.buildItems ih
      have hslots := Value.slots_of_contents? hcontents (length_buildItems v.parts s)
      rw [← hslots] at hsound₁
      obtain ⟨val₂, hsound₂, hagree₂, hvalue₂⟩ := hsound₁.alloc
      refine ⟨val₂, hsound₂, Nat.le_succ_of_le hnext₁, ?_, ?_⟩
      · intro j hj
        rw [hagree₂ j (Nat.lt_of_lt_of_le hj hnext₁), hagree₁ j hj]
      · have hkept : (Store.buildItems v.parts s).1.map (Slot.value val₂) =
            (Store.buildItems v.parts s).1.map (Slot.value val₁) :=
          List.map_congr_left fun slot hmem =>
            hsound₁.value_eq_of_agrees hagree₂ (List.mem_append_left _ (hslots ▸ hmem))
        refine (congrArg Value.erase hvalue₂).trans (Value.erase_of_contents? hcontents ?_)
        rw [hkept, hvalue₁]

end Sound

/-! ### Adopting -/

/-- A value without a buffer shares none. -/
theorem adopt_of_atom {v : Value} (h : v.id? = none) (s : Store) : adopt v s = (v.atom, s) := by
  cases v <;> first | rfl | simp [Value.id?] at h

/-- Entries are adopted as their values are. -/
theorem adoptEntries_eq (entries : List (Key × Value)) (s : Store) :
    adoptEntries entries s =
      ((entries.map (·.1)).zip (adoptItems (entries.map (·.2)) s).1,
        (adoptItems (entries.map (·.2)) s).2) := by
  induction entries generalizing s with
  | nil => rfl
  | cons e rest ih =>
    obtain ⟨k, v⟩ := e
    change ((k, (adopt v s).1) :: (adoptEntries rest (adopt v s).2).1,
      (adoptEntries rest (adopt v s).2).2) = _
    rw [ih]
    rfl

/-- There is a slot for every item. -/
theorem length_adoptItems (vs : List Value) (s : Store) :
    (adoptItems vs s).1.length = vs.length := by
  induction vs generalizing s with
  | nil => rfl
  | cons v rest ih => exact congrArg (· + 1) (ih (adopt v s).2)

/-- A buffer that is live gets a handle more, and one that is not is made. -/
theorem shareOr_eq (id : BufferId) (contents : StateM Store Payload) (s : Store) :
    shareOr id contents s =
      if (s.get? id).isSome then (.handle id, s.retain (.handle id))
      else (.handle id, (contents s).2.insert id ⟨1, (contents s).1⟩) := by
  simp only [shareOr, bind, StateT.bind, get, getThe, MonadStateOf.get, StateT.get, pure]
  split <;> rfl

/-- The buffer of a value that is adopted is shared, or made after those of its parts. -/
theorem adopt_of_id {v : Value} {id : BufferId} (h : v.id? = some id) (s : Store) :
    ∃ payload, v.contents? (adoptItems v.parts s).1 = some payload ∧
      adopt v s =
        if (s.get? id).isSome then (.handle id, s.retain (.handle id))
        else (.handle id, (adoptItems v.parts s).2.insert id ⟨1, payload⟩) := by
  cases v with
  | map _ entries =>
    obtain rfl := Option.some.inj h
    refine ⟨_, rfl, (shareOr_eq ..).trans ?_⟩
    simp only [Functor.map, StateT.map, bind, pure, adoptEntries_eq]
    rfl
  | str _ text =>
    obtain rfl := Option.some.inj h
    exact ⟨_, rfl, shareOr_eq ..⟩
  | list _ items =>
    obtain rfl := Option.some.inj h
    exact ⟨_, rfl, shareOr_eq ..⟩
  | record _ type fields =>
    obtain rfl := Option.some.inj h
    exact ⟨_, rfl, shareOr_eq ..⟩
  | func _ block bindings =>
    obtain rfl := Option.some.inj h
    exact ⟨_, rfl, shareOr_eq ..⟩
  | _ => simp [Value.id?] at h

/-- Adopting `w` adds one root, which stands for `w`; the buffers it makes stand for parts
    of `w`. -/
def Adopts (val : BufferId → Value) (w : Value) : Prop :=
  ∀ (n : BufferId) (s : Store) (roots : List Slot), s.Sound roots val → w.Named n val →
    (adopt w s).2.Sound ((adopt w s).1 :: roots) val ∧ (adopt w s).1.value val = w ∧
      ∀ j, ((adopt w s).2.get? j).isSome → (s.get? j).isSome ∨ sizeOf (val j) ≤ sizeOf w

namespace Sound

variable {s : Store} {roots : List Slot} {val : BufferId → Value}

/-- Items are adopted one after the other, and are roots then. -/
theorem adoptItems {n : BufferId} {ws : List Value} (hws : ∀ w ∈ ws, Adopts val w)
    (h : s.Sound roots val) (hnamed : ∀ w ∈ ws, w.Named n val) :
    (Store.adoptItems ws s).2.Sound ((Store.adoptItems ws s).1 ++ roots) val ∧
      (Store.adoptItems ws s).1.map (Slot.value val) = ws ∧
      ∀ j, ((Store.adoptItems ws s).2.get? j).isSome →
        (s.get? j).isSome ∨ ∃ w ∈ ws, sizeOf (val j) ≤ sizeOf w := by
  induction ws generalizing s roots with
  | nil => exact ⟨h, rfl, fun j hj => .inl hj⟩
  | cons w rest ih =>
    obtain ⟨hsound₁, hvalue₁, hlive₁⟩ :=
      hws w List.mem_cons_self n s roots h (hnamed w List.mem_cons_self)
    obtain ⟨hsound₂, hvalue₂, hlive₂⟩ :=
      ih (fun w hw => hws w (List.mem_cons_of_mem _ hw)) hsound₁
        fun w hw => hnamed w (List.mem_cons_of_mem _ hw)
    refine ⟨hsound₂.of_perm List.perm_middle, ?_, ?_⟩
    · change (adopt w s).1.value val :: _ = _
      rw [hvalue₁]
      exact congrArg (w :: ·) hvalue₂
    · intro j hj
      rcases hlive₂ j hj with hj | ⟨w', hw', hsize⟩
      · exact (hlive₁ j hj).imp_right fun hsize => ⟨w, List.mem_cons_self, hsize⟩
      · exact .inr ⟨w', List.mem_cons_of_mem _ hw', hsize⟩

/-- **A value is adopted** with the buffers of it that are live, by induction on its parts. -/
theorem adopt (w : Value) : Adopts val w := by
  induction w using Value.induction_parts with
  | h w ih =>
    intro n s roots h hnamed
    cases hid : w.id? with
    | none =>
      rw [adopt_of_atom hid]
      exact ⟨h.of_atom w.atom_ne_handle, Value.value_atom hid, fun j hj => .inl hj⟩
    | some id =>
      have hval : val id = w := (hnamed.here id hid).2
      obtain ⟨payload, hcontents, hrun⟩ := adopt_of_id hid s
      rw [hrun]
      split
      next hlive =>
        -- a live buffer of this number stands for the value already
        have hget : ∀ j, Slot.handle id = .handle j → ∃ b, s.get? j = some b :=
          fun j hj => by cases hj; exact Option.isSome_iff_exists.1 hlive
        exact ⟨h.retain hget, hval, fun j hj => .inl (by rwa [isSome_get?_retain] at hj)⟩
      next hdead =>
        obtain ⟨hsound, hvalues, hnew⟩ := h.adoptItems ih hnamed.inside
        have hslots := Value.slots_of_contents? hcontents (length_adoptItems w.parts s)
        rw [← hslots] at hsound
        -- the buffers made for the parts stand for smaller values, so this one is still unused
        have hfree : (Store.adoptItems w.parts s).2.get? id = none := by
          rw [← Option.not_isSome_iff_eq_none]
          intro hlive
          rcases hnew id hlive with hlive | ⟨part, hmem, hsize⟩
          · exact hdead hlive
          · rw [hval] at hsize
            exact absurd (Value.sizeOf_part_lt hmem) (Nat.not_lt.2 hsize)
        refine ⟨hsound.insert hfree ?_, hval, ?_⟩
        · rw [Value.value_of_contents? hcontents hid hvalues, hval]
        · intro j hj
          rw [get?_insert] at hj
          by_cases hjid : j = id
          · exact .inr (Nat.le_of_eq (by rw [hjid, hval]))
          · rw [if_neg hjid] at hj
            refine (hnew j hj).imp_right fun ⟨part, hmem, hsize⟩ => ?_
            exact Nat.le_trans hsize (Nat.le_of_lt (Value.sizeOf_part_lt hmem))

/-! ### Reading -/

/-- What a root stands for is made of what live buffers stand for. -/
theorem named (h : s.Sound roots val) {slot : Slot}
    (hlive : ∀ id, slot = .handle id → ∃ b, s.get? id = some b) :
    (slot.value val).Named s.next val := by
  -- The induction is on the value: the store alone has no order that a proof could follow.
  generalize hv : slot.value val = v
  induction v using Value.induction_parts generalizing slot with
  | h v ih =>
    cases slot with
    | handle id =>
      obtain ⟨b, hb⟩ := hlive id rfl
      have hread : v = b.payload.value val id := hv.symm.trans (h.reads id b hb)
      constructor
      · intro j hj
        have hjid : j = id := by
          rw [hread] at hj
          cases hp : b.payload <;> rw [hp] at hj <;> exact (Option.some.inj hj).symm
        rw [hjid]
        exact ⟨h.bound id b hb, hv⟩
      · intro part hpart
        have hmem : part ∈ b.payload.slots.map (Slot.value val) := by
          rw [← Payload.parts_value val id, ← hread]
          exact hpart
        obtain ⟨inner, hinner, hpv⟩ := List.mem_map.1 hmem
        refine ih part hpart ?_ hpv
        rintro j rfl
        exact h.live_of_inside hb hinner
    | _ =>
      subst hv
      exact .of_atom rfl

/-- Fewer buffers stand for values as small as those inside a buffer than for values as small
    as its own. -/
theorem countP_inside_lt (h : s.Sound roots val) {id : BufferId} {b : Buffer}
    (hb : s.get? id = some b) {slot : Slot} (hmem : slot ∈ b.payload.slots) :
    s.buffers.countP (fun e => sizeOf (val e.1) ≤ sizeOf (slot.value val)) <
      s.buffers.countP (fun e => sizeOf (val e.1) ≤ sizeOf (val id)) := by
  have hsmaller : sizeOf (slot.value val) < sizeOf (val id) := by
    apply Value.sizeOf_part_lt
    rw [h.reads id b hb, Payload.parts_value]
    exact List.mem_map_of_mem hmem
  have hperm := perm_of_get? h.nodup hb
  rw [hperm.countP_eq, hperm.countP_eq, List.countP_cons_of_neg (by simpa using hsmaller),
    List.countP_cons_of_pos (by simp)]
  refine Nat.lt_succ_of_le (List.countP_mono_left fun e _ he => ?_)
  rw [decide_eq_true_eq] at he ⊢
  omega

/-- Reading a slot gives what it stands for, with fuel for the buffers that hold smaller values. -/
theorem readWith_eq (h : s.Sound roots val) {fuel : Nat} {slot : Slot}
    (hlive : ∀ id, slot = .handle id → ∃ b, s.get? id = some b)
    (hfuel : s.buffers.countP (fun e => sizeOf (val e.1) ≤ sizeOf (slot.value val)) ≤ fuel) :
    s.readWith fuel slot = slot.value val := by
  -- A chain of buffers inside one another has values of falling size, so it is no longer than the
  -- number of buffers that are small enough to stand in it.
  induction fuel generalizing slot with
  | zero =>
    cases slot with
    | handle id =>
      -- the buffer itself is counted, so the bound is not zero
      obtain ⟨b, hb⟩ := hlive id rfl
      have hself := (perm_of_get? h.nodup hb).countP_eq
        fun e => decide (sizeOf (val e.1) ≤ sizeOf (val id))
      rw [List.countP_cons_of_pos (by simp)] at hself
      change s.buffers.countP (fun e => sizeOf (val e.1) ≤ sizeOf (val id)) ≤ 0 at hfuel
      omega
    | _ => rfl
  | succ fuel ih =>
    cases slot with
    | handle id =>
      obtain ⟨b, hb⟩ := hlive id rfl
      have hslots : ∀ slot ∈ b.payload.slots, s.readWith fuel slot = slot.value val := by
        intro slot hmem
        have hlt := h.countP_inside_lt hb hmem
        refine ih (fun j hj => h.live_of_inside hb (hj ▸ hmem)) ?_
        exact Nat.le_of_lt_succ (Nat.lt_of_lt_of_le hlt hfuel)
      change _ = val id
      rw [h.reads id b hb]
      simp only [readWith, hb]
      cases hp : b.payload with
      | str text => rfl
      | list items =>
        rw [hp] at hslots
        exact congrArg (Value.list id) (List.map_congr_left hslots)
      | map entries =>
        rw [hp] at hslots
        have hentry : ∀ e ∈ entries, (e.1, s.readWith fuel e.2) = (e.1, e.2.value val) :=
          fun e he => by rw [hslots e.2 (List.mem_map.2 ⟨e, he, rfl⟩)]
        exact congrArg (Value.map id) (List.map_congr_left hentry)
      | record type fields =>
        rw [hp] at hslots
        exact congrArg (Value.record id type) (List.map_congr_left hslots)
      | func block bindings =>
        rw [hp] at hslots
        exact congrArg (Value.func id block) (List.map_congr_left hslots)
    | _ => rfl

/-- Reading gives what a root stands for. -/
theorem read_eq (h : s.Sound roots val) {slot : Slot} (hmem : slot ∈ roots) :
    s.read slot = slot.value val :=
  h.readWith_eq (fun _ hid => h.live_of_mem (hid ▸ hmem)) List.countP_le_length

end Sound

end Store

end BlockMachine

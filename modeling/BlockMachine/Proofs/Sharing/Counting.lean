import BlockMachine.Sharing.Store
import BlockMachine.Proofs.Value.Parts
import Mathlib.Data.List.Perm.Basic

namespace BlockMachine

/-!
# Counted stores

A store is sound for a list of roots when every buffer's count is the number of handles to it,
among the roots and inside live buffers, and when its buffers stand for values.

* `Store.handles` is the number of handles to a buffer;
* `Slot.value` and `Payload.value` are what slots and contents stand for once every buffer number
  has a value;
* `Store.Sound` is the invariant. That buffers stand for values, which are finite trees, is what
  excludes cycles.
* `Sound.retain`, `Sound.release`, `Sound.insert`, `Sound.write`, `Sound.own` and `Sound.touch` say
  what each operation of a store does to the roots and to the values of the buffers.
-/

/-! ### Buffers by number -/

namespace Store

/-- Looking up a buffer compares numbers from the front. -/
private theorem lookup_cons_eq (j k : BufferId) (b : Buffer) (rest : List (BufferId × Buffer)) :
    List.lookup j ((k, b) :: rest) = if j = k then some b else List.lookup j rest := by
  by_cases h : j = k
  · simp [h]
  · rw [List.lookup_cons, beq_false_of_ne h, if_neg h]

/-- A change of one buffer is seen there only. -/
theorem get?_modify (s : Store) (id j : BufferId) (f : Buffer → Buffer) :
    (s.modify id f).get? j = if j = id then (s.get? j).map f else s.get? j := by
  obtain ⟨buffers, next⟩ := s
  simp only [get?, modify]
  induction buffers with
  | nil => simp
  | cons e rest ih =>
    obtain ⟨k, b⟩ := e
    rw [List.map_cons, lookup_cons_eq]
    by_cases hk : k = id
    · simp only [hk, if_true, lookup_cons_eq, ih]
      grind
    · simp only [hk, if_false, lookup_cons_eq, ih]
      grind

/-- A buffer that is found after a change is the changed one, or another one as it was. -/
theorem get?_modify_cases {s : Store} {id j : BufferId} {b b' : Buffer} {f : Buffer → Buffer}
    (hb : s.get? id = some b) (h : (s.modify id f).get? j = some b') :
    (j = id ∧ b' = f b) ∨ (j ≠ id ∧ s.get? j = some b') := by
  rw [get?_modify] at h
  by_cases hj : j = id
  · subst hj
    rw [if_pos rfl, hb, Option.map_some, Option.some.injEq] at h
    exact .inl ⟨rfl, h.symm⟩
  · rw [if_neg hj] at h
    exact .inr ⟨hj, h⟩

/-- A buffer that was erased is not found, and the others are found as before. -/
theorem get?_erase (s : Store) (id j : BufferId) :
    (s.erase id).get? j = if j = id then none else s.get? j := by
  obtain ⟨buffers, next⟩ := s
  simp only [get?, erase]
  induction buffers with
  | nil => simp
  | cons e rest ih =>
    obtain ⟨k, b⟩ := e
    rw [List.filter_cons, lookup_cons_eq]
    by_cases hk : k = id
    · simp only [hk, ne_eq, not_true, decide_false, Bool.false_eq_true, if_false, ih]
      grind
    · simp only [hk, ne_eq, not_false_eq_true, decide_true, if_true, lookup_cons_eq, ih]
      grind

/-- A buffer that is found after another was erased is not that one, and was there before. -/
theorem get?_of_erase {s : Store} {id j : BufferId} {b : Buffer}
    (h : (s.erase id).get? j = some b) : j ≠ id ∧ s.get? j = some b := by
  rw [get?_erase] at h
  by_cases hj : j = id
  · rw [if_pos hj] at h
    exact nomatch h
  · rw [if_neg hj] at h
    exact ⟨hj, h⟩

/-- Counting a handle makes no buffer live, and none dead. -/
theorem isSome_get?_retain (s : Store) (slot : Slot) (j : BufferId) :
    ((s.retain slot).get? j).isSome = (s.get? j).isSome := by
  cases slot with
  | handle id =>
    rw [retain, get?_modify]
    split <;> simp
  | _ => rfl

/-- A store with one more buffer in front. -/
def insert (s : Store) (id : BufferId) (b : Buffer) : Store :=
  ⟨(id, b) :: s.buffers, max s.next (id + 1)⟩

/-- The buffer in front is found under its number, and the others as before. -/
theorem get?_insert (s : Store) (id j : BufferId) (b : Buffer) :
    (s.insert id b).get? j = if j = id then some b else s.get? j :=
  lookup_cons_eq j id b s.buffers

/-- A new buffer is found under the next number, with one handle. -/
theorem get?_alloc (s : Store) (payload : Payload) :
    (alloc payload s).2.get? s.next = some ⟨1, payload⟩ := by
  simp [alloc, get?]

/-- The live buffers are those listed. -/
theorem get?_isSome_iff {s : Store} {id : BufferId} :
    (s.get? id).isSome ↔ id ∈ s.buffers.map (·.1) := by
  obtain ⟨buffers, next⟩ := s
  simp only [get?]
  induction buffers with
  | nil => simp
  | cons e rest ih =>
    obtain ⟨k, b⟩ := e
    by_cases hk : id = k <;> simp_all [lookup_cons_eq]

/-- A buffer that is listed is found, if no number is listed twice. -/
theorem get?_of_mem {s : Store} (hs : (s.buffers.map (·.1)).Nodup) {id : BufferId} {b : Buffer}
    (h : (id, b) ∈ s.buffers) : s.get? id = some b := by
  obtain ⟨buffers, next⟩ := s
  simp only [get?] at h hs ⊢
  induction buffers with
  | nil => simp at h
  | cons e rest ih =>
    obtain ⟨k, b'⟩ := e
    rw [List.map_cons, List.nodup_cons] at hs
    rw [lookup_cons_eq]
    rcases List.mem_cons.1 h with he | hmem
    · cases he
      simp
    · have hne : id ≠ k := by
        rintro rfl
        exact hs.1 (List.mem_map.2 ⟨_, hmem, rfl⟩)
      rw [if_neg hne]
      exact ih hs.2 hmem

/-- Counting a handle takes no number. -/
@[simp] theorem next_retain (s : Store) (slot : Slot) : (s.retain slot).next = s.next := by
  cases slot <;> rfl

/-- Counting several handles takes no number. -/
@[simp] theorem next_retainAll (s : Store) (slots : List Slot) :
    (s.retainAll slots).next = s.next := by
  induction slots generalizing s with
  | nil => rfl
  | cons slot rest ih => exact (ih _).trans (next_retain s slot)

/-- Owning a buffer with several handles copies it: one handle goes, and what is inside is held once
    more. -/
theorem own_of_shared {s : Store} {id : BufferId} {b : Buffer} (hb : s.get? id = some b)
    (hshared : 1 < b.count) :
    own id s = (s.next, (alloc b.payload
      ((s.modify id fun b => { b with count := b.count - 1 }).retainAll b.payload.slots)).2) := by
  simp only [own, bind, StateT.bind, get, getThe, MonadStateOf.get, StateT.get, pure, hb, hshared, if_true]
  exact congrArg (Prod.mk · _) (next_retainAll _ b.payload.slots)

/-- A buffer with a single handle is owned as it is. -/
theorem own_of_sole {s : Store} {id : BufferId} {b : Buffer} (hb : s.get? id = some b)
    (hsole : ¬ 1 < b.count) : own id s = (id, s) := by
  simp only [own, bind, StateT.bind, get, getThe, MonadStateOf.get, StateT.get, pure, hb, hsole, if_false]
  rfl

/-- A buffer that is not a closure is touched by owning it. -/
theorem touch_eq_own {s : Store} {id : BufferId} {b : Buffer} (hb : s.get? id = some b)
    (hfunc : b.payload.isFunc = false) : touch id s = own id s := by
  simp only [touch, own, bind, StateT.bind, get, getThe, MonadStateOf.get, StateT.get, pure, hb, hfunc,
    Bool.not_false, Bool.and_true, decide_eq_true_eq]

/-- A live buffer can be taken to the front of the store, and changed there. -/
theorem perm_modify {s : Store} (hs : (s.buffers.map (·.1)).Nodup) {id : BufferId} {b : Buffer}
    (h : s.get? id = some b) (f : Buffer → Buffer) :
    (s.modify id f).buffers.Perm ((id, f b) :: (s.erase id).buffers) := by
  obtain ⟨buffers, next⟩ := s
  simp only [get?, modify, erase] at h hs ⊢
  induction buffers with
  | nil => simp at h
  | cons e rest ih =>
    obtain ⟨k, b'⟩ := e
    rw [List.map_cons, List.nodup_cons] at hs
    rw [lookup_cons_eq] at h
    by_cases hk : id = k
    · -- the buffer is here, and since numbers are not repeated nowhere in the rest
      subst hk
      rw [if_pos rfl, Option.some.injEq] at h
      have hrest : ∀ e ∈ rest, e.1 ≠ id := fun e he hid => hs.1 (List.mem_map.2 ⟨e, he, hid⟩)
      have hmap : rest.map (fun e => if e.1 = id then (e.1, f e.2) else (e.1, e.2)) = rest := by
        rw [List.map_congr_left fun e he => if_neg (hrest e he)]
        simp
      have hfilter : rest.filter (fun e => decide (e.1 ≠ id)) = rest :=
        List.filter_eq_self.2 fun e he => by simpa using hrest e he
      rw [List.map_cons, if_pos rfl, hmap, List.filter_cons_of_neg (by simp), hfilter, h]
    · rw [if_neg hk] at h
      rw [List.map_cons, if_neg (Ne.symm hk), List.filter_cons_of_pos (by simpa using Ne.symm hk)]
      exact ((ih hs.2 h).cons _).trans (List.Perm.swap ..)

/-- A live buffer can be taken to the front of the store. -/
theorem perm_of_get? {s : Store} (hs : (s.buffers.map (·.1)).Nodup) {id : BufferId} {b : Buffer}
    (h : s.get? id = some b) : s.buffers.Perm ((id, b) :: (s.erase id).buffers) := by
  have hself : (s.modify id fun b => b).buffers = s.buffers := by
    simp [modify]
  exact hself ▸ perm_modify hs h fun b => b

/-- A change of a buffer lists no number twice. -/
theorem nodup_modify {s : Store} (id : BufferId) (f : Buffer → Buffer)
    (hs : (s.buffers.map (·.1)).Nodup) : ((s.modify id f).buffers.map (·.1)).Nodup := by
  have hkeys : (s.modify id f).buffers.map (·.1) = s.buffers.map (·.1) := by
    rw [modify, List.map_map]
    refine List.map_congr_left fun e _ => ?_
    simp only [Function.comp]
    split <;> rfl
  rwa [hkeys]

/-- Erasing a buffer lists no number twice. -/
theorem nodup_erase {s : Store} (id : BufferId) (hs : (s.buffers.map (·.1)).Nodup) :
    ((s.erase id).buffers.map (·.1)).Nodup :=
  hs.sublist (List.filter_sublist.map _)

end Store

/-! ### Handles -/

/-- Whether a slot is a handle to a buffer. -/
def Slot.holds (id : BufferId) : Slot → Bool
  | .handle j => j == id
  | _ => false

/-- The number of handles to a buffer in a list of slots. -/
def handlesIn (id : BufferId) (slots : List Slot) : Nat :=
  slots.countP (Slot.holds id)

/-- Without slots there are no handles. -/
@[simp] theorem handlesIn_nil (id : BufferId) : handlesIn id [] = 0 := rfl

/-- Handles are counted part by part. -/
@[simp] theorem handlesIn_append (id : BufferId) (as bs : List Slot) :
    handlesIn id (as ++ bs) = handlesIn id as + handlesIn id bs :=
  List.countP_append

/-- A slot counts if it is a handle to the buffer. -/
theorem handlesIn_cons (id : BufferId) (slot : Slot) (slots : List Slot) :
    handlesIn id (slot :: slots) = (if slot.holds id then 1 else 0) + handlesIn id slots := by
  rw [handlesIn, List.countP_cons, Nat.add_comm]
  rfl

/-- A handle to the buffer counts. -/
@[simp] theorem handlesIn_handle_self (id : BufferId) (slots : List Slot) :
    handlesIn id (.handle id :: slots) = 1 + handlesIn id slots := by
  simp [handlesIn_cons, Slot.holds]

/-- A handle to another buffer does not. -/
theorem handlesIn_handle_of_ne {id j : BufferId} (h : j ≠ id) (slots : List Slot) :
    handlesIn j (.handle id :: slots) = handlesIn j slots := by
  simp [handlesIn_cons, Slot.holds, Ne.symm h]

/-- Where there is a handle, there is at least one. -/
theorem handlesIn_pos {id : BufferId} {slots : List Slot} (h : .handle id ∈ slots) :
    0 < handlesIn id slots :=
  List.countP_pos_iff.2 ⟨_, h, by simp [Slot.holds]⟩

/-- A count of zero says that there is none. -/
theorem handlesIn_eq_zero {id : BufferId} {slots : List Slot} :
    handlesIn id slots = 0 ↔ .handle id ∉ slots := by
  constructor
  · intro h hmem
    have := handlesIn_pos hmem
    omega
  · intro h
    refine List.countP_eq_zero.2 fun slot hmem hslot => h ?_
    cases slot <;> simp_all [Slot.holds]

namespace Store

/-- The number of handles to a buffer inside live buffers. -/
def inner (s : Store) (id : BufferId) : Nat :=
  handlesIn id (s.buffers.flatMap fun e => e.2.payload.slots)

/-- The number of handles to a buffer, among the roots and inside live buffers. -/
def handles (s : Store) (roots : List Slot) (id : BufferId) : Nat :=
  handlesIn id roots + s.inner id

/-- The handles inside of a changed buffer are counted anew, and those inside of the others as before. -/
theorem inner_modify {s : Store} (hs : (s.buffers.map (·.1)).Nodup) {id : BufferId} {b : Buffer}
    (h : s.get? id = some b) (f : Buffer → Buffer) (j : BufferId) :
    (s.modify id f).inner j = handlesIn j (f b).payload.slots + (s.erase id).inner j := by
  have hslots := (perm_modify hs h f).flatMap_right fun e => e.2.payload.slots
  exact (hslots.countP_eq _).trans (handlesIn_append ..)

/-- The handles inside of live buffers are those inside of one of them and of the others. -/
theorem inner_of_get? {s : Store} (hs : (s.buffers.map (·.1)).Nodup) {id : BufferId} {b : Buffer}
    (h : s.get? id = some b) (j : BufferId) :
    s.inner j = handlesIn j b.payload.slots + (s.erase id).inner j := by
  have hslots := (perm_of_get? hs h).flatMap_right fun e => e.2.payload.slots
  exact (hslots.countP_eq _).trans (handlesIn_append ..)

/-- The slots of a changed buffer are counted anew as well. -/
theorem slotCount_modify {s : Store} (hs : (s.buffers.map (·.1)).Nodup) {id : BufferId}
    {b : Buffer} (h : s.get? id = some b) (f : Buffer → Buffer) :
    (s.modify id f).slotCount = (f b).payload.slots.length + (s.erase id).slotCount := by
  have hslots := (perm_modify hs h f).flatMap_right fun e => e.2.payload.slots
  exact hslots.length_eq.trans List.length_append

/-- The slots of all buffers are those of one of them and of the others. -/
theorem slotCount_of_get? {s : Store} (hs : (s.buffers.map (·.1)).Nodup) {id : BufferId}
    {b : Buffer} (h : s.get? id = some b) :
    s.slotCount = b.payload.slots.length + (s.erase id).slotCount := by
  have hslots := (perm_of_get? hs h).flatMap_right fun e => e.2.payload.slots
  exact hslots.length_eq.trans List.length_append

/-- The count of a live buffer is the one that stands in it. -/
theorem count_of_get? {s : Store} {id : BufferId} {b : Buffer} (h : s.get? id = some b) :
    s.count id = b.count := by
  rw [count, h]

/-- A buffer that is not live counts nothing. -/
theorem count_of_none {s : Store} {id : BufferId} (h : s.get? id = none) : s.count id = 0 := by
  rw [count, h]

end Store

/-! ### What slots stand for -/

/-- The value of a slot, given the values of all buffers. -/
def Slot.value (val : BufferId → Value) : Slot → Value
  | .null => .null
  | .int i => .int i
  | .float x => .float x
  | .bool b => .bool b
  | .module m => .module m
  | .host n => .host n
  | .error message => .error message
  | .moved => .moved
  | .handle id => val id

/-- The value of contents that stand in buffer `id`. -/
def Payload.value (val : BufferId → Value) (id : BufferId) : Payload → Value
  | .str s => .str id s
  | .list items => .list id (items.map (Slot.value val))
  | .map entries => .map id (entries.map fun e => (e.1, e.2.value val))
  | .record type fields => .record id type (fields.map (Slot.value val))
  | .func block bindings => .func id block (bindings.map (Slot.value val))

/-- The value of a slot depends on the buffer that it is a handle to. -/
theorem Slot.value_congr {val val' : BufferId → Value} {slot : Slot}
    (h : ∀ id, slot = .handle id → val' id = val id) : slot.value val' = slot.value val := by
  cases slot with
  | handle id => exact h id rfl
  | _ => rfl

/-- The value of contents depends on the buffers that have a handle inside. -/
theorem Payload.value_congr {val val' : BufferId → Value} {p : Payload} (id : BufferId)
    (h : ∀ j, .handle j ∈ p.slots → val' j = val j) : p.value val' id = p.value val id := by
  have hslot : ∀ slot ∈ p.slots, slot.value val' = slot.value val :=
    fun slot hmem => Slot.value_congr fun j hj => h j (hj ▸ hmem)
  cases p with
  | str s => rfl
  | list items => exact congrArg (Value.list id) (List.map_congr_left hslot)
  | map entries =>
    have hentry : ∀ e ∈ entries, (e.1, e.2.value val') = (e.1, e.2.value val) :=
      fun e he => by rw [hslot e.2 (List.mem_map.2 ⟨e, he, rfl⟩)]
    exact congrArg (Value.map id) (List.map_congr_left hentry)
  | record type fields => exact congrArg (Value.record id type) (List.map_congr_left hslot)
  | func block bindings => exact congrArg (Value.func id block) (List.map_congr_left hslot)

/-- The parts of the value of contents are the values of the slots inside. -/
theorem Payload.parts_value (val : BufferId → Value) (id : BufferId) (p : Payload) :
    (p.value val id).parts = p.slots.map (Slot.value val) := by
  cases p <;> simp [Payload.value, Payload.slots, Value.parts]

/-! ### Sound stores -/

/-- Every count is the number of handles, every buffer has one, and the buffers stand for the
    values `val`. -/
structure Store.Sound (s : Store) (roots : List Slot) (val : BufferId → Value) : Prop where
  nodup : (s.buffers.map (·.1)).Nodup
  bound : ∀ id b, s.get? id = some b → id < s.next
  counts : ∀ id, s.count id = s.handles roots id
  held : ∀ id b, s.get? id = some b → 0 < b.count
  reads : ∀ id b, s.get? id = some b → val id = b.payload.value val id

namespace Store.Sound

variable {s : Store} {roots : List Slot} {val : BufferId → Value} {id : BufferId} {b : Buffer}

/-- An empty store is sound without roots, whatever values buffers would stand for. -/
theorem empty (val : BufferId → Value) : Sound {} [] val where
  nodup := List.nodup_nil
  bound := by simp [get?]
  counts := by simp [count, get?, handles, inner]
  held := by simp [get?]
  reads := by simp [get?]

/-- Only the number of handles among the roots matters. -/
theorem of_handlesIn {roots' : List Slot} (h : s.Sound roots val)
    (hroots : ∀ id, handlesIn id roots' = handlesIn id roots) : s.Sound roots' val :=
  { h with counts := fun id => by rw [h.counts, handles, handles, hroots] }

/-- The order of the roots does not matter. -/
theorem of_perm {roots' : List Slot} (h : s.Sound roots val) (hroots : roots.Perm roots') :
    s.Sound roots' val :=
  h.of_handlesIn fun _ => (hroots.countP_eq _).symm

/-- A buffer that has a handle is live. -/
theorem live_of_handles (h : s.Sound roots val) (hpos : 0 < s.handles roots id) :
    ∃ b, s.get? id = some b := by
  cases hget : s.get? id with
  | some b => exact ⟨b, rfl⟩
  | none =>
    have hcount := h.counts id
    rw [count_of_none hget] at hcount
    omega

/-- A handle among the roots leads to a live buffer. -/
theorem live_of_mem (h : s.Sound roots val) (hmem : .handle id ∈ roots) :
    ∃ b, s.get? id = some b :=
  h.live_of_handles (Nat.lt_of_lt_of_le (handlesIn_pos hmem) (Nat.le_add_right ..))

/-- A handle inside a live buffer leads to a live buffer. -/
theorem live_of_inside (h : s.Sound roots val) (hb : s.get? id = some b) {j : BufferId}
    (hmem : .handle j ∈ b.payload.slots) : ∃ b', s.get? j = some b' := by
  have hpos := handlesIn_pos hmem
  have hinner := inner_of_get? h.nodup hb j
  exact h.live_of_handles (by rw [handles]; omega)

/-- The values of buffers that are not live do not matter. -/
theorem revalue {val' : BufferId → Value} (h : s.Sound roots val)
    (hval : ∀ id b, s.get? id = some b → val' id = val id) : s.Sound roots val' :=
  { h with
    reads := fun id b hb => by
      rw [hval id b hb, h.reads id b hb]
      refine (Payload.value_congr id fun j hj => ?_).symm
      obtain ⟨b', hb'⟩ := h.live_of_inside hb hj
      exact hval j b' hb' }

/-! ### Counting handles -/

/-- A change of one buffer, with the counts and the values that follow from it. -/
theorem modify {roots' : List Slot} {val' : BufferId → Value} {f : Buffer → Buffer}
    (h : s.Sound roots val) (hb : s.get? id = some b) (hpos : 0 < (f b).count)
    (hcount : (f b).count =
      handlesIn id roots' + handlesIn id (f b).payload.slots + (s.erase id).inner id)
    (hother : ∀ j, j ≠ id → handlesIn j roots' + handlesIn j (f b).payload.slots =
      handlesIn j roots + handlesIn j b.payload.slots)
    (hval : val' id = (f b).payload.value val' id)
    (hrest : ∀ j b', j ≠ id → s.get? j = some b' → val' j = b'.payload.value val' j) :
    (s.modify id f).Sound roots' val' := by
  -- In each part the changed buffer is told from the others, which are as they were.
  refine ⟨nodup_modify _ _ h.nodup, ?_, ?_, ?_, ?_⟩
  · intro j b' hb'
    rcases get?_modify_cases hb hb' with ⟨rfl, _⟩ | ⟨_, hb'⟩
    · exact h.bound j b hb
    · exact h.bound j b' hb'
  · intro j
    rw [handles, inner_modify h.nodup hb, count, get?_modify]
    by_cases hj : j = id
    · subst hj
      rw [if_pos rfl, hb, ← Nat.add_assoc]
      exact hcount
    · have hbefore := h.counts j
      rw [handles, inner_of_get? h.nodup hb] at hbefore
      have := hother j hj
      rw [if_neg hj]
      change s.count j = _
      omega
  · intro j b' hb'
    rcases get?_modify_cases hb hb' with ⟨rfl, rfl⟩ | ⟨_, hb'⟩
    · exact hpos
    · exact h.held j b' hb'
  · intro j b' hb'
    rcases get?_modify_cases hb hb' with ⟨rfl, rfl⟩ | ⟨hj, hb'⟩
    · exact hval
    · exact hrest j b' hj hb'

/-- Changing a count keeps what buffers stand for. -/
theorem recount {roots' : List Slot} {f : Buffer → Buffer} (h : s.Sound roots val)
    (hb : s.get? id = some b) (hpayload : (f b).payload = b.payload) (hpos : 0 < (f b).count)
    (hid : (f b).count = handlesIn id roots' + s.inner id)
    (hother : ∀ j, j ≠ id → handlesIn j roots' = handlesIn j roots) :
    (s.modify id f).Sound roots' val := by
  refine h.modify hb hpos ?_ ?_ ?_ fun j b' _ => h.reads j b'
  · rw [hid, hpayload, inner_of_get? h.nodup hb, Nat.add_assoc]
  · intro j hj
    rw [hpayload, hother j hj]
  · rw [hpayload]
    exact h.reads id b hb

/-- A slot without a handle is no root. -/
theorem of_atom {slot : Slot} (h : s.Sound roots val) (hslot : ∀ id, slot ≠ .handle id) :
    s.Sound (slot :: roots) val :=
  h.of_handlesIn fun id => by cases slot <;> simp_all [handlesIn_cons, Slot.holds]

/-- One more handle to a live buffer. -/
theorem retain {slot : Slot} (h : s.Sound roots val)
    (hlive : ∀ id, slot = .handle id → ∃ b, s.get? id = some b) :
    (s.retain slot).Sound (slot :: roots) val := by
  cases slot with
  | handle id =>
    obtain ⟨b, hb⟩ := hlive id rfl
    have hcount := h.counts id
    rw [count_of_get? hb, handles] at hcount
    change (s.modify id fun b => { b with count := b.count + 1 }).Sound _ _
    refine h.recount hb rfl ?_ ?_ fun j hj => handlesIn_handle_of_ne hj roots
    · exact Nat.succ_pos _
    · rw [handlesIn_handle_self]
      dsimp only
      omega
  | _ => exact h.of_atom (by simp)

/-- One more handle for each of some slots of live buffers. -/
theorem retainAll {slots : List Slot} (h : s.Sound roots val)
    (hlive : ∀ id, .handle id ∈ slots → ∃ b, s.get? id = some b) :
    (s.retainAll slots).Sound (slots ++ roots) val := by
  induction slots generalizing s roots with
  | nil => exact h
  | cons slot rest ih =>
    have hslot : ∀ id, slot = .handle id → ∃ b, s.get? id = some b :=
      fun id hid => hlive id (hid ▸ List.mem_cons_self)
    have hrest : ∀ id, .handle id ∈ rest → ∃ b, (s.retain slot).get? id = some b :=
      fun id hid => by
        obtain ⟨b, hb⟩ := hlive id (List.mem_cons_of_mem _ hid)
        exact Option.isSome_iff_exists.1 (by rw [isSome_get?_retain, hb]; rfl)
    exact (ih (h.retain hslot) hrest).of_perm List.perm_middle

/-- The last handle to a buffer is given back: the buffer goes, and what it holds becomes roots. -/
theorem erase (h : s.Sound (.handle id :: roots) val) (hb : s.get? id = some b)
    (hlast : b.count ≤ 1) : (s.erase id).Sound (b.payload.slots ++ roots) val := by
  have hinner := inner_of_get? h.nodup hb
  refine ⟨nodup_erase id h.nodup, ?_, ?_, ?_, ?_⟩
  · exact fun j b' hb' => h.bound j b' (get?_of_erase hb').2
  · intro j
    have hcount := h.counts j
    have hinner := hinner j
    rw [handles] at hcount ⊢
    rw [count, get?_erase]
    by_cases hj : j = id
    · -- its only handle was the root, so there is none inside any buffer, itself included
      subst hj
      rw [count_of_get? hb, handlesIn_handle_self] at hcount
      rw [if_pos rfl, handlesIn_append]
      dsimp only
      omega
    · rw [handlesIn_handle_of_ne hj] at hcount
      rw [if_neg hj, handlesIn_append]
      change s.count j = _
      omega
  · exact fun j b' hb' => h.held j b' (get?_of_erase hb').2
  · exact fun j b' hb' => h.reads j b' (get?_of_erase hb').2

/-- A handle that is not the last one is given back. -/
theorem uncount (h : s.Sound (.handle id :: roots) val) (hb : s.get? id = some b)
    (hshared : 1 < b.count) :
    (s.modify id fun b => { b with count := b.count - 1 }).Sound roots val := by
  have hcount := h.counts id
  rw [count_of_get? hb, handles, handlesIn_handle_self] at hcount
  refine h.recount hb rfl ?_ ?_ fun j hj => (handlesIn_handle_of_ne hj roots).symm
  · dsimp only
    omega
  · dsimp only
    omega

/-- Giving back slots, and the slots of buffers whose last handle was given back, ends with the fuel for all
    slots, and keeps the store sound for the other roots. -/
theorem releaseWith {fuel : Nat} {slots : List Slot} (h : s.Sound (slots ++ roots) val)
    (hfuel : slots.length + s.slotCount < fuel) :
    (releaseWith fuel slots s).Sound roots val := by
  -- The slots on the work list and those inside live buffers get fewer with every step: a buffer
  -- that goes moves its slots from the store to the list.
  induction fuel generalizing s slots with
  | zero => omega
  | succ fuel ih =>
    cases slots with
    | nil => exact h
    | cons slot rest =>
      rw [List.length_cons] at hfuel
      cases slot with
      | handle id =>
        obtain ⟨b, hb⟩ := h.live_of_mem List.mem_cons_self
        simp only [Store.releaseWith, hb]
        split
        next hlast =>
          have hsize := slotCount_of_get? h.nodup hb
          refine ih ?_ (by rw [List.length_append]; omega)
          rw [List.append_assoc]
          exact h.erase hb hlast
        next hshared =>
          have hsize : (s.modify id fun b => { b with count := b.count - 1 }).slotCount =
              s.slotCount := by
            rw [slotCount_modify h.nodup hb, slotCount_of_get? h.nodup hb]
          exact ih (h.uncount hb (by omega)) (by omega)
      | _ =>
        simp only [Store.releaseWith]
        exact ih (h.of_handlesIn fun id => by simp [handlesIn_cons, Slot.holds]) (by omega)

/-- Giving a root back keeps the store sound for the other roots. -/
theorem release {slot : Slot} (h : s.Sound (slot :: roots) val) :
    (s.release slot).Sound roots val :=
  releaseWith h (Nat.lt_succ_self _)

/-! ### New buffers -/

/-- Roots that become the contents of a new buffer. -/
theorem insert {payload : Payload} (h : s.Sound (payload.slots ++ roots) val)
    (hid : s.get? id = none) (hval : val id = payload.value val id) :
    (s.insert id ⟨1, payload⟩).Sound (.handle id :: roots) val := by
  have hcases : ∀ j b, (s.insert id ⟨1, payload⟩).get? j = some b →
      (j = id ∧ b = ⟨1, payload⟩) ∨ s.get? j = some b := by
    intro j b hb
    rw [get?_insert] at hb
    by_cases hj : j = id
    · rw [if_pos hj] at hb
      exact .inl ⟨hj, (Option.some.inj hb).symm⟩
    · rw [if_neg hj] at hb
      exact .inr hb
  refine ⟨?_, ?_, ?_, ?_, ?_⟩
  · refine List.nodup_cons.2 ⟨fun hmem => ?_, h.nodup⟩
    have := get?_isSome_iff.2 hmem
    simp [hid] at this
  · intro j b hb
    rcases hcases j b hb with ⟨rfl, _⟩ | hb
    · exact Nat.lt_of_lt_of_le (Nat.lt_succ_self j) (Nat.le_max_right ..)
    · exact Nat.lt_of_lt_of_le (h.bound j b hb) (Nat.le_max_left ..)
  · intro j
    have hcount := h.counts j
    have hinner : (s.insert id ⟨1, payload⟩).inner j = handlesIn j payload.slots + s.inner j :=
      handlesIn_append ..
    rw [handles, handlesIn_append] at hcount
    rw [handles, hinner, count, get?_insert]
    by_cases hj : j = id
    · subst hj
      rw [count_of_none hid] at hcount
      rw [if_pos rfl, handlesIn_handle_self]
      dsimp only
      omega
    · rw [if_neg hj, handlesIn_handle_of_ne hj]
      change s.count j = _
      omega
  · intro j b hb
    rcases hcases j b hb with ⟨_, rfl⟩ | hb
    · exact Nat.one_pos
    · exact h.held j b hb
  · intro j b hb
    rcases hcases j b hb with ⟨rfl, rfl⟩ | hb
    · exact hval
    · exact h.reads j b hb

/-- What a root stands for depends only on the values of the buffers there are. -/
theorem value_eq_of_agrees {val' : BufferId → Value} (h : s.Sound roots val)
    (hval : ∀ j < s.next, val' j = val j) {slot : Slot} (hmem : slot ∈ roots) :
    slot.value val' = slot.value val := by
  refine Slot.value_congr fun j hj => ?_
  obtain ⟨b, hb⟩ := h.live_of_mem (hj ▸ hmem)
  exact hval j (h.bound j b hb)

/-- Roots that become the contents of a buffer with the next number. -/
theorem alloc {payload : Payload} (h : s.Sound (payload.slots ++ roots) val) :
    ∃ val', (Store.alloc payload s).2.Sound (.handle s.next :: roots) val' ∧
      (∀ j < s.next, val' j = val j) ∧ val' s.next = payload.value val' s.next := by
  -- The new number has no value yet; no live buffer refers to it, so it is free to take one.
  let val' : BufferId → Value := Function.update val s.next (payload.value val s.next)
  have hagree : ∀ j < s.next, val' j = val j :=
    fun j hj => Function.update_of_ne (Nat.ne_of_lt hj) ..
  have hfree : s.get? s.next = none := by
    cases hb : s.get? s.next with
    | none => rfl
    | some b => exact absurd (h.bound _ b hb) (Nat.lt_irrefl _)
  have hsound : s.Sound (payload.slots ++ roots) val' :=
    h.revalue fun j b hb => hagree j (h.bound j b hb)
  have hnext : val' s.next = payload.value val' s.next := by
    refine (Function.update_self ..).trans (Payload.value_congr _ fun j hj => ?_).symm
    obtain ⟨b, hb⟩ := h.live_of_mem (List.mem_append_left _ hj)
    exact hagree j (h.bound j b hb)
  have hinsert := hsound.insert hfree hnext
  rw [Store.insert, Nat.max_eq_right (Nat.le_succ _)] at hinsert
  exact ⟨val', hinsert, hagree, hnext⟩

/-! ### Writing -/

/-- The only handle to a buffer is nowhere else. -/
theorem not_mem_of_exclusive (h : s.Sound (.handle id :: roots) val) (hb : s.get? id = some b)
    (hone : b.count = 1) : .handle id ∉ roots ∧ s.inner id = 0 := by
  have hcount := h.counts id
  rw [count_of_get? hb, handles, handlesIn_handle_self] at hcount
  exact ⟨handlesIn_eq_zero.1 (by omega), by omega⟩

/-- New contents for an exclusively owned buffer: the slots `new` go in and `old` come out. -/
theorem write {new old : List Slot} {payload : Payload}
    (h : s.Sound (.handle id :: (new ++ roots)) val) (hb : s.get? id = some b)
    (hone : b.count = 1)
    (hslots : ∀ j, handlesIn j payload.slots + handlesIn j old =
      handlesIn j b.payload.slots + handlesIn j new) :
    ∃ val', (Store.write id payload s).2.Sound (.handle id :: (old ++ roots)) val' ∧
      (∀ slot ∈ old ++ roots, slot.value val' = slot.value val) ∧
      val' id = payload.value val id := by
  obtain ⟨hnot, hinner⟩ := h.not_mem_of_exclusive hb hone
  have hsplit := inner_of_get? h.nodup hb
  -- the buffer is neither in its own contents, old or new, nor among what comes out
  have habsent : handlesIn id payload.slots + handlesIn id old = 0 := by
    have hnew : handlesIn id new = 0 :=
      handlesIn_eq_zero.2 fun hmem => hnot (List.mem_append_left _ hmem)
    have := hslots id
    have := hsplit id
    omega
  have hfree : .handle id ∉ payload.slots ∧ .handle id ∉ old := by
    rw [← handlesIn_eq_zero, ← handlesIn_eq_zero]
    omega
  let val' : BufferId → Value := Function.update val id (payload.value val id)
  have hagree : ∀ j, j ≠ id → val' j = val j := fun j hj => Function.update_of_ne hj ..
  have hself : val' id = payload.value val id := Function.update_self ..
  refine ⟨val', ?_, ?_, hself⟩
  · change (s.modify id fun b => { b with payload := payload }).Sound _ val'
    refine h.modify hb (h.held id b hb) ?_ ?_ ?_ ?_
    · have hroots := handlesIn_eq_zero.2 hnot
      have hin := hsplit id
      rw [handlesIn_append] at hroots
      rw [handlesIn_handle_self, handlesIn_append]
      dsimp only
      omega
    · intro j hj
      have := hslots j
      rw [handlesIn_handle_of_ne hj, handlesIn_handle_of_ne hj, handlesIn_append,
        handlesIn_append]
      dsimp only
      omega
    · rw [hself]
      exact (Payload.value_congr id fun j hj => hagree j fun e => hfree.1 (e ▸ hj)).symm
    · -- no other buffer has a handle to it either, so their values do not change
      intro j b' hj hb'
      have hin := inner_of_get? h.nodup hb' id
      have hnone : .handle id ∉ b'.payload.slots := handlesIn_eq_zero.1 (by omega)
      rw [hagree j hj, h.reads j b' hb']
      exact (Payload.value_congr j fun k hk => hagree k fun e => hnone (e ▸ hk)).symm
  · intro slot hmem
    refine Slot.value_congr fun j hj => hagree j fun e => ?_
    subst e hj
    rcases List.mem_append.1 hmem with hmem | hmem
    · exact hfree.2 hmem
    · exact hnot (List.mem_append_right _ hmem)

/-- Owning a buffer makes it exclusively owned, with the contents it had. -/
theorem own (h : s.Sound (.handle id :: roots) val) (hb : s.get? id = some b) :
    ∃ val', (Store.own id s).2.Sound (.handle (Store.own id s).1 :: roots) val' ∧
      (∀ j < s.next, val' j = val j) ∧
      (Store.own id s).2.get? (Store.own id s).1 = some ⟨1, b.payload⟩ := by
  by_cases hshared : 1 < b.count
  · rw [own_of_shared hb hshared]
    -- what the buffer holds stays live when a handle to the buffer is given back
    have hlive : ∀ j, .handle j ∈ b.payload.slots →
        ∃ b', (s.modify id fun b => { b with count := b.count - 1 }).get? j = some b' := by
      intro j hj
      obtain ⟨b', hb'⟩ := h.live_of_inside hb hj
      rw [get?_modify, hb']
      split <;> exact ⟨_, rfl⟩
    have hsound := (h.uncount hb hshared).retainAll hlive
    obtain ⟨val', hnew, hagree, _⟩ := hsound.alloc
    have hget := get?_alloc
      ((s.modify id fun b => { b with count := b.count - 1 }).retainAll b.payload.slots) b.payload
    rw [next_retainAll] at hnew hagree hget
    exact ⟨val', hnew, hagree, hget⟩
  · rw [own_of_sole hb hshared]
    have hcount : b.count = 1 := by
      have := h.held id b hb
      omega
    exact ⟨val, h, fun _ _ => rfl, by rw [hb, ← hcount]⟩

/-- Touching a buffer makes it exclusively owned, with the contents it had. -/
theorem touch (h : s.Sound (.handle id :: roots) val) (hb : s.get? id = some b)
    (hfunc : b.payload.isFunc = false) :
    ∃ val', (Store.touch id s).2.Sound (.handle (Store.touch id s).1 :: roots) val' ∧
      (∀ j < s.next, val' j = val j) ∧
      (Store.touch id s).2.get? (Store.touch id s).1 = some ⟨1, b.payload⟩ := by
  rw [touch_eq_own hb hfunc]
  exact h.own hb

end Store.Sound

end BlockMachine

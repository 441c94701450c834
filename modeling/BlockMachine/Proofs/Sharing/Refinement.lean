import BlockMachine.Sharing.Plain
import BlockMachine.Proofs.Sharing.Adoption

namespace BlockMachine

/-!
# Shared cells against plain cells

Cells over shared buffers behave as cells that each own a deep copy. The relation between the
two, `Cells.Models`, says that the store is sound for the cells, with the slots that an operation
holds at the time, and that the cells stand for the plain values; every operation keeps it.

* `Cells.run` and `Plain.run` perform operations one after the other;
* `Cells.Counted` cells are those whose store is sound, such as `Cells.ofValues`;
* `Models.apply` is the step of the simulation, and `run_models` the whole run.
-/

/-- The number of a buffer plays no role in its value up to numbers. -/
theorem Payload.erase_value {val : BufferId → Value} {id : BufferId} (id' : BufferId)
    (p : Payload) : (p.value val id).erase = (p.value val id').erase := by
  cases p <;> rfl

/-- Contents with one slot of a list or record replaced. -/
def Payload.setSlot (n : Nat) (new : Slot) : Payload → Payload
  | list items => list (items.set n new)
  | record type fields => record type (fields.set n new)
  | p => p

/-- Beyond the last slot nothing is replaced. -/
theorem Payload.setSlot_of_none {n : Nat} {new : Slot} {p : Payload} (h : p.slots[n]? = none) :
    p.setSlot n new = p := by
  cases p with
  | list items => exact congrArg list (List.set_eq_of_length_le (List.getElem?_eq_none_iff.1 h))
  | record type fields =>
    exact congrArg (record type) (List.set_eq_of_length_le (List.getElem?_eq_none_iff.1 h))
  | _ => rfl

/-- In a list or a record the slot at a position is replaced. -/
theorem Payload.slots_setSlot (n : Nat) (new : Slot) {p : Payload}
    (h : Cells.isIndexed p = true) : (p.setSlot n new).slots = p.slots.set n new := by
  cases p with
  | list items => rfl
  | record type fields => rfl
  | _ => cases h

/-- A slot that replaces another takes its handle's place. -/
theorem handlesIn_set {j : BufferId} {n : Nat} {slots : List Slot} {old new : Slot}
    (h : slots[n]? = some old) :
    handlesIn j (slots.set n new) + handlesIn j [old] =
      handlesIn j slots + handlesIn j [new] := by
  obtain ⟨hn, rfl⟩ := List.getElem?_eq_some_iff.1 h
  have hset := (List.set_perm_cons_eraseIdx hn new).countP_eq (Slot.holds j)
  have hget := (List.getElem_cons_eraseIdx_perm hn).countP_eq (Slot.holds j)
  change handlesIn j _ = handlesIn j _ at hset hget
  rw [handlesIn_cons] at hset hget
  rw [hset, ← hget, handlesIn_cons, handlesIn_cons]
  simp only [handlesIn_nil]
  omega

namespace Entries

variable {α β : Type}

/-- A value that is put under a key takes the place of the one under that key. -/
theorem handlesIn_insert (j : BufferId) (k : Key) (new : Slot) (entries : List (Key × Slot)) :
    handlesIn j ((insert k new entries).map (·.2)) + handlesIn j (get? k entries).toList =
      handlesIn j (entries.map (·.2)) + handlesIn j [new] := by
  induction entries with
  | nil => simp [insert, get?]
  | cons e rest ih =>
    obtain ⟨k', old⟩ := e
    by_cases hk : k' = k
    · simp only [insert, get?, hk, if_true, List.map_cons, Option.toList_some, handlesIn_cons,
        handlesIn_nil]
      omega
    · simp only [insert, get?, hk, if_false, List.map_cons]
      rw [handlesIn_cons, handlesIn_cons j old]
      omega

/-- Putting a value under a key and changing all values can be done in either order. -/
theorem map_insert (f : α → β) (k : Key) (a : α) (entries : List (Key × α)) :
    (insert k a entries).map (fun e => (e.1, f e.2)) =
      insert k (f a) (entries.map fun e => (e.1, f e.2)) := by
  induction entries with
  | nil => rfl
  | cons e rest ih =>
    obtain ⟨k', a'⟩ := e
    by_cases hk : k' = k
    · simp [insert, hk]
    · simp [insert, hk, ih]

end Entries

/-- Every cell that an operation names is one of the first `n`. -/
def CellOp.Within (n : Nat) : CellOp → Prop
  | set i _ | touch i | changeType i _ | take i | setIndex i _ _ | push i _ | strPush i _
  | mapInsert i _ _ | recordSet i _ _ => i < n
  | copy i j | move i j | swap i j | cast i _ j | pushCell i j => i < n ∧ j < n

instance (n : Nat) : (op : CellOp) → Decidable (op.Within n)
  | .set i _ | .touch i | .changeType i _ | .take i | .setIndex i _ _ | .push i _ | .strPush i _
  | .mapInsert i _ _ | .recordSet i _ _ => inferInstanceAs (Decidable (i < n))
  | .copy i j | .move i j | .swap i j | .cast i _ j | .pushCell i j =>
    inferInstanceAs (Decidable (i < n ∧ j < n))

/-- The cells that an operation may change. -/
def CellOp.targets : CellOp → List Nat
  | set i _ | touch i | changeType i _ | take i | setIndex i _ _ | push i _ | pushCell i _
  | strPush i _ | mapInsert i _ _ | recordSet i _ _ => [i]
  | copy _ j | cast _ _ j => [j]
  | move i j | swap i j => [i, j]

namespace Plain

/-- A cell that gets the value it has stays as it is. -/
theorem set_value (cells : List Value) (i : Nat) : cells.set i (value cells i) = cells := by
  by_cases hi : i < cells.length
  · rw [value, List.getElem?_eq_getElem hi, Option.getD_some, List.set_getElem_self]
  · exact List.set_eq_of_length_le (Nat.le_of_not_lt hi)

/-- Changes the value of a cell if it is one that `f` changes. -/
def update (f : Value → Option Value) (cells : List Value) (i : Nat) : List Value :=
  match f (value cells i) with
  | some v => cells.set i v
  | none => cells

/-- A value that `f` does not change is left alone. -/
theorem update_of_none {f : Value → Option Value} {cells : List Value} {i : Nat}
    (h : f (value cells i) = none) : update f cells i = cells := by
  rw [update, h]

/-- A value that `f` changes is replaced. -/
theorem update_of_some {f : Value → Option Value} {cells : List Value} {i : Nat} {v : Value}
    (h : f (value cells i) = some v) : update f cells i = cells.set i v := by
  rw [update, h]

/-- A list with one more item. -/
def appended (w : Value) : Value → Option Value
  | .list b items => some (.list b (items ++ [w]))
  | _ => none

/-- A string with more text. -/
def extended (s : String) : Value → Option Value
  | .str b text => some (.str b (text ++ s))
  | _ => none

/-- A map with a value under a key. -/
def inserted (k : Key) (w : Value) : Value → Option Value
  | .map b entries => some (.map b (Entries.insert k w entries))
  | _ => none

/-- A list or record with another value at a position. -/
def replaced (n : Nat) (w : Value) : Value → Option Value
  | .list b items => some (.list b (items.set n w))
  | .record b type fields => some (.record b type (fields.set n w))
  | _ => none

/-- A record with another value in a field. -/
def fieldReplaced (n : Nat) (w : Value) : Value → Option Value
  | .record b type fields => some (.record b type (fields.set n w))
  | _ => none

section

variable (cells : List Value) (i n : Nat) (v : Value)

/-- Writing to a position is an update of a list or record. -/
theorem apply_setIndex : apply cells (.setIndex i n v) = update (replaced n v.erase) cells i := by
  simp only [apply, update]
  cases value cells i <;> rfl

/-- Appending a value is an update of a list. -/
theorem apply_push : apply cells (.push i v) = update (appended v.erase) cells i := by
  simp only [apply, update]
  cases value cells i <;> rfl

/-- Appending what a cell holds is an update of a list. -/
theorem apply_pushCell (j : Nat) :
    apply cells (.pushCell i j) = update (appended (value cells j)) cells i := by
  simp only [apply, update]
  cases value cells i <;> rfl

/-- Appending text is an update of a string. -/
theorem apply_strPush (s : String) : apply cells (.strPush i s) = update (extended s) cells i := by
  simp only [apply, update]
  cases value cells i <;> rfl

/-- Putting a value under a key is an update of a map. -/
theorem apply_mapInsert (k : Key) :
    apply cells (.mapInsert i k v) = update (inserted k v.erase) cells i := by
  simp only [apply, update]
  cases value cells i <;> rfl

/-- Writing to a field is an update of a record. -/
theorem apply_recordSet :
    apply cells (.recordSet i n v) = update (fieldReplaced n v.erase) cells i := by
  simp only [apply, update]
  cases value cells i <;> rfl

end

/-- An update makes no cells. -/
theorem length_update (f : Value → Option Value) (cells : List Value) (i : Nat) :
    (update f cells i).length = cells.length := by
  rw [update]
  split <;> simp

/-- No operation makes cells. -/
theorem length_apply (cells : List Value) (op : CellOp) :
    (apply cells op).length = cells.length := by
  cases op with
  | setIndex i n v => rw [apply_setIndex, length_update]
  | push i v => rw [apply_push, length_update]
  | pushCell i j => rw [apply_pushCell, length_update]
  | strPush i s => rw [apply_strPush, length_update]
  | mapInsert i k v => rw [apply_mapInsert, length_update]
  | recordSet i n v => rw [apply_recordSet, length_update]
  | cast i ty j =>
    simp only [apply]
    split <;> simp
  | _ => simp [apply]

/-- A cell that is set leaves the others alone. -/
theorem value_set_of_ne {i k : Nat} (h : k ≠ i) (cells : List Value) (v : Value) :
    value (cells.set i v) k = value cells k := by
  rw [value, List.getElem?_set_ne (Ne.symm h), value]

/-- A cell that is updated leaves the others alone. -/
theorem value_update_of_ne {i k : Nat} (h : k ≠ i) (f : Value → Option Value)
    (cells : List Value) : value (update f cells i) k = value cells k := by
  rw [update]
  split
  · exact value_set_of_ne h _ _
  · rfl

/-- An operation changes its targets and no other cell. -/
theorem value_apply_of_not_mem {cells : List Value} {op : CellOp} {k : Nat}
    (h : k ∉ op.targets) : value (apply cells op) k = value cells k := by
  cases op with
  | setIndex i n v =>
    rw [apply_setIndex, value_update_of_ne (by simpa [CellOp.targets] using h)]
  | push i v => rw [apply_push, value_update_of_ne (by simpa [CellOp.targets] using h)]
  | pushCell i j => rw [apply_pushCell, value_update_of_ne (by simpa [CellOp.targets] using h)]
  | strPush i s => rw [apply_strPush, value_update_of_ne (by simpa [CellOp.targets] using h)]
  | mapInsert i k v => rw [apply_mapInsert, value_update_of_ne (by simpa [CellOp.targets] using h)]
  | recordSet i n v => rw [apply_recordSet, value_update_of_ne (by simpa [CellOp.targets] using h)]
  | cast i ty j =>
    simp only [apply]
    split
    · exact value_set_of_ne (by simpa [CellOp.targets] using h) _ _
    · rfl
  | touch i => rfl
  | move i j =>
    simp only [CellOp.targets, List.mem_cons, List.not_mem_nil, or_false, not_or] at h
    rw [apply, value_set_of_ne h.2, value_set_of_ne h.1]
  | swap i j =>
    simp only [CellOp.targets, List.mem_cons, List.not_mem_nil, or_false, not_or] at h
    rw [apply, value_set_of_ne h.2, value_set_of_ne h.1]
  | _ => exact value_set_of_ne (by simpa [CellOp.targets] using h) _ _

/-- Performs operations one after the other. -/
def run (cells : List Value) (ops : List CellOp) : List Value :=
  ops.foldl apply cells

end Plain

namespace Cells

/-- Performs operations one after the other. -/
def run (c : Cells) (ops : List CellOp) : Cells :=
  ops.foldl (fun c op => (apply op c).2) c

/-- What only works on the store leaves the slots of the cells. -/
theorem onStore_apply {α : Type} (f : StateM Store α) (c : Cells) :
    onStore f c = ((f c.store).1, ⟨(f c.store).2, c.cells⟩) := rfl

/-- The store is sound for the cells. -/
def Counted (c : Cells) : Prop :=
  ∃ val, c.store.Sound c.cells val

/-- The store is sound for the cells and the slots `pending`, and the cells stand for `plain`. -/
structure Models (c : Cells) (pending : List Slot) (val : BufferId → Value) (plain : List Value) :
    Prop where
  sound : c.store.Sound (pending ++ c.cells) val
  values : c.cells.map (fun slot => (slot.value val).erase) = plain

/-- Slots stand for the same values as before, in the same buffers. -/
def Kept (slots : List Slot) (val val' : BufferId → Value) : Prop :=
  ∀ slot ∈ slots, slot.value val' = slot.value val

/-- Nothing changed. -/
theorem Kept.refl (slots : List Slot) (val : BufferId → Value) : Kept slots val val :=
  fun _ _ => rfl

/-- What is kept by both of two changes is kept. -/
theorem Kept.trans {slots : List Slot} {val val' val'' : BufferId → Value} (h : Kept slots val val')
    (h' : Kept slots val' val'') : Kept slots val val'' :=
  fun slot hmem => (h' slot hmem).trans (h slot hmem)

/-- A change that keeps slots and is followed by another one. -/
theorem Kept.extend {slots : List Slot} {val val' : BufferId → Value}
    {P : (BufferId → Value) → Prop} (h : Kept slots val val')
    (hrest : ∃ val'', P val'' ∧ Kept slots val' val'') : ∃ val'', P val'' ∧ Kept slots val val'' := by
  obtain ⟨val'', hP, hrest⟩ := hrest
  exact ⟨val'', hP, h.trans hrest⟩

/-- Fewer slots are kept as well. -/
theorem Kept.tail {slot : Slot} {slots : List Slot} {val val' : BufferId → Value}
    (h : Kept (slot :: slots) val val') : Kept slots val val' :=
  fun slot hmem => h slot (List.mem_cons_of_mem _ hmem)

namespace Models

variable {c : Cells} {pending : List Slot} {val : BufferId → Value} {plain : List Value}
  {i j : Nat} {slot : Slot}

/-- There are as many cells as plain values. -/
theorem length_eq (h : c.Models pending val plain) : plain.length = c.cells.length := by
  rw [← h.values, List.length_map]

/-- The slot of a cell that is there. -/
theorem slot_eq (hi : i < c.cells.length) : c.slot i = c.cells[i] := by
  rw [Cells.slot, List.getElem?_eq_getElem hi, Option.getD_some]

/-- It is one of the slots of the cells. -/
theorem slot_mem (hi : i < c.cells.length) : c.slot i ∈ c.cells := by
  rw [slot_eq hi]
  exact List.getElem_mem hi

/-- The slot of a cell can be taken to the front. -/
theorem cells_perm (hi : i < c.cells.length) :
    (c.slot i :: c.cells.eraseIdx i).Perm c.cells := by
  rw [slot_eq hi]
  exact List.getElem_cons_eraseIdx_perm hi

/-- A cell and its plain counterpart. -/
theorem value_eq (h : c.Models pending val plain) (i : Nat) :
    Plain.value plain i = ((c.slot i).value val).erase := by
  rw [Plain.value, ← h.values, List.getElem?_map, Cells.slot]
  cases c.cells[i]? <;> rfl

/-- A cell that holds a handle leads to a live buffer. -/
theorem live (h : c.Models pending val plain) (hi : i < c.cells.length) :
    ∀ id, c.slot i = .handle id → ∃ b, c.store.get? id = some b :=
  fun _ hid => h.sound.live_of_mem (List.mem_append_right _ (hid ▸ slot_mem hi))

/-- Reading a cell gives what its slot stands for. -/
theorem read_eq (h : c.Models pending val plain) (hi : i < c.cells.length) :
    c.value i = (c.slot i).value val :=
  h.sound.read_eq (List.mem_append_right _ (slot_mem hi))

/-- The handle of a cell in front of all other roots. -/
theorem front {id : BufferId} (h : c.Models pending val plain) (hi : i < c.cells.length)
    (hslot : c.slot i = .handle id) :
    c.store.Sound (.handle id :: (pending ++ c.cells.eraseIdx i)) val := by
  refine h.sound.of_perm ?_
  rw [← hslot]
  exact ((cells_perm hi).symm.append_left pending).trans List.perm_middle

/-- Cells stand for the same plain values as long as the buffers in use do. -/
theorem values_of_agrees {val' : BufferId → Value} (h : c.Models pending val plain)
    (hagree : ∀ j < c.store.next, val' j = val j) :
    c.cells.map (fun slot => (slot.value val').erase) = plain := by
  rw [← h.values]
  refine List.map_congr_left fun slot hmem => ?_
  rw [h.sound.value_eq_of_agrees hagree (List.mem_append_right _ hmem)]

/-- Pending slots keep the values of the buffers in use. -/
theorem kept_of_agrees {val' : BufferId → Value} (h : c.Models pending val plain)
    (hagree : ∀ j < c.store.next, val' j = val j) : Kept pending val val' :=
  fun _ hmem => h.sound.value_eq_of_agrees hagree (List.mem_append_left _ hmem)

/-- A store that keeps the values of the buffers in use. -/
theorem restore {store : Store} {pending' : List Slot} {val' : BufferId → Value}
    (h : c.Models pending val plain) (hsound : store.Sound (pending' ++ c.cells) val')
    (hagree : ∀ j < c.store.next, val' j = val j) :
    Models ⟨store, c.cells⟩ pending' val' plain :=
  ⟨hsound, h.values_of_agrees hagree⟩

/-- A pending slot goes into a cell, whose old slot becomes pending. -/
theorem put (h : c.Models (slot :: pending) val plain) (hi : i < c.cells.length) :
    Models ⟨c.store, c.cells.set i slot⟩ (c.slot i :: pending) val
      (plain.set i (slot.value val).erase) := by
  refine ⟨h.sound.of_perm ?_, ?_⟩
  · calc slot :: pending ++ c.cells
      _ |>.Perm (slot :: pending ++ c.slot i :: c.cells.eraseIdx i) :=
          (cells_perm hi).symm.append_left _
      _ |>.Perm (c.slot i :: (pending ++ slot :: c.cells.eraseIdx i)) := by
          refine List.perm_middle.trans ?_
          exact List.perm_middle.symm.cons _
      _ |>.Perm (c.slot i :: pending ++ c.cells.set i slot) :=
          (List.set_perm_cons_eraseIdx hi slot).symm.append_left (c.slot i :: pending)
  · rw [List.map_set, h.values]

/-- A pending slot is given back. -/
theorem release (h : c.Models (slot :: pending) val plain) :
    (Cells.release slot c).2.Models pending val plain :=
  ⟨Store.Sound.release h.sound, h.values⟩

/-- A pending slot is stored in a cell. -/
theorem assign (h : c.Models (slot :: pending) val plain) (hi : i < c.cells.length) :
    (Cells.assign i slot c).2.Models pending val (plain.set i (slot.value val).erase) :=
  (h.put hi).release

/-- A slot without a handle may be pending. -/
theorem atom (h : c.Models pending val plain) (hslot : ∀ id, slot ≠ .handle id) :
    c.Models (slot :: pending) val plain :=
  ⟨h.sound.of_atom hslot, h.values⟩

/-- A value in new buffers is pending. -/
theorem build (h : c.Models pending val plain) (v : Value) :
    ∃ val', Models ⟨(Store.build v c.store).2, c.cells⟩ ((Store.build v c.store).1 :: pending)
      val' plain ∧ ((Store.build v c.store).1.value val').erase = v.erase ∧ Kept pending val val' := by
  obtain ⟨val', hsound, _, hagree, hvalue⟩ := Store.Sound.build v c.store _ val h.sound
  exact ⟨val', h.restore hsound hagree, hvalue, h.kept_of_agrees hagree⟩

/-- One more handle to what a cell holds is pending. -/
theorem retain (h : c.Models pending val plain) (hi : i < c.cells.length) :
    Models ⟨c.store.retain (c.slot i), c.cells⟩ (c.slot i :: pending) val plain :=
  ⟨h.sound.retain (h.live hi), h.values⟩

/-! ### Writing into a cell -/

/-- A cell with the wanted contents is touched first, and holds the buffer that this gave. -/
theorem writable_of_handle {id : BufferId} {b : Buffer} {wanted : Payload → Bool}
    (hslot : c.slot i = .handle id) (hb : c.store.get? id = some b) (hw : wanted b.payload = true) :
    Cells.writable i wanted c = (some ((Store.touch id c.store).1, b.payload),
      ⟨(Store.touch id c.store).2, c.cells.set i (.handle (Store.touch id c.store).1)⟩) := by
  simp only [Cells.writable, bind, StateT.bind, get, getThe, MonadStateOf.get, StateT.get, pure,
    hslot, hb, hw]
  rfl

/-- A cell without the wanted contents is left as it is. -/
theorem writable_of_not {wanted : Payload → Bool}
    (hnot : ∀ id b, c.slot i = .handle id → c.store.get? id = some b → wanted b.payload = false) :
    Cells.writable i wanted c = (none, c) := by
  simp only [Cells.writable, bind, StateT.bind, get, getThe, MonadStateOf.get, StateT.get, pure]
  cases hslot : c.slot i with
  | handle id =>
    cases hb : c.store.get? id with
    | none =>
      simp only [bind, StateT.get, StateT.bind, pure, hb]
      rfl
    | some b =>
      simp only [bind, StateT.get, StateT.bind, pure, hb, hnot id b hslot hb]
      rfl
  | _ => rfl

/-- A cell that holds the wanted contents holds them exclusively after `writable`, and nothing
    else changes; other cells are left alone. -/
theorem writable (wanted : Payload → Bool) (h : c.Models pending val plain)
    (hi : i < c.cells.length) (hfunc : ∀ p, wanted p = true → p.isFunc = false) :
    (Cells.writable i wanted c = (none, c) ∧
      ∀ id b, c.slot i = .handle id → c.store.get? id = some b → wanted b.payload = false) ∨
    ∃ id payload c' val', Cells.writable i wanted c = (some (id, payload), c') ∧
      wanted payload = true ∧ c'.Models pending val' plain ∧ c'.cells.length = c.cells.length ∧
      c'.slot i = .handle id ∧ c'.store.get? id = some ⟨1, payload⟩ ∧ Kept pending val val' := by
  by_cases hwanted : ∃ id b, c.slot i = .handle id ∧ c.store.get? id = some b ∧
      wanted b.payload = true
  · obtain ⟨id, b, hslot, hb, hw⟩ := hwanted
    obtain ⟨val', hsound, hagree, hget⟩ := (h.front hi hslot).touch hb (hfunc _ hw)
    refine .inr ⟨(Store.touch id c.store).1, b.payload, _, val', writable_of_handle hslot hb hw, hw,
      ⟨?_, ?_⟩, List.length_set, ?_, hget, ?_⟩
    · refine hsound.of_perm (List.perm_middle.symm.trans ?_)
      exact (List.set_perm_cons_eraseIdx hi _).symm.append_left pending
    · -- the buffer to write stands for the same value as the old one, up to its number
      have hself : (val' (Store.touch id c.store).1).erase = Plain.value plain i := by
        rw [hsound.reads _ _ hget, h.value_eq, hslot]
        change _ = (val id).erase
        rw [h.sound.reads id b hb, Payload.erase_value id]
        refine congrArg Value.erase (Payload.value_congr id fun j hj => ?_)
        obtain ⟨b', hb'⟩ := h.sound.live_of_inside hb hj
        exact hagree j (h.sound.bound j b' hb')
      rw [List.map_set]
      change (List.map _ c.cells).set i (val' (Store.touch id c.store).1).erase = plain
      rw [h.values_of_agrees hagree, hself, Plain.set_value]
    · rw [Cells.slot, List.getElem?_set_self hi, Option.getD_some]
    · exact h.kept_of_agrees hagree
  · have hnot : ∀ id b, c.slot i = .handle id → c.store.get? id = some b →
        wanted b.payload = false :=
      fun id b hslot hb => Bool.eq_false_iff.2 fun hw => hwanted ⟨id, b, hslot, hb, hw⟩
    exact .inl ⟨writable_of_not hnot, hnot⟩

/-- New contents for the buffer that a cell holds exclusively: the slots `new` go in, and `old` come
    out. -/
theorem edit {id : BufferId} {payload : Payload} (payload' : Payload) (new old : List Slot)
    (h : c.Models (new ++ pending) val plain) (hi : i < c.cells.length)
    (hslot : c.slot i = .handle id) (hget : c.store.get? id = some ⟨1, payload⟩)
    (hslots : ∀ j, handlesIn j payload'.slots + handlesIn j old =
      handlesIn j payload.slots + handlesIn j new) :
    ∃ val', Models ⟨(Store.write id payload' c.store).2, c.cells⟩ (old ++ pending) val'
      (plain.set i (payload'.value val id).erase) ∧ Kept pending val val' := by
  have hfront := h.front hi hslot
  rw [List.append_assoc] at hfront
  obtain ⟨val', hsound, hkept, hvalue⟩ := hfront.write hget rfl hslots
  rw [← List.append_assoc] at hsound
  refine ⟨val', ⟨hsound.of_perm ?_, ?_⟩,
    fun slot hmem => hkept slot (List.mem_append_right _ (List.mem_append_left _ hmem))⟩
  · rw [← hslot]
    exact List.perm_middle.symm.trans ((cells_perm hi).append_left (old ++ pending))
  · rw [← h.values]
    refine List.ext_getElem? fun k => ?_
    rw [List.getElem?_map, List.getElem?_set, List.length_map, List.getElem?_map]
    by_cases hk : i = k
    · subst hk
      have hcell : c.cells[i]? = some (.handle id) := by
        rw [List.getElem?_eq_getElem hi, ← hslot, slot_eq hi]
      rw [if_pos rfl, if_pos hi, hcell, ← hvalue]
      rfl
    · -- another cell holds a root that the write left alone, even if it holds the same slot
      rw [if_neg hk]
      refine Option.map_congr fun slot hslot => ?_
      have hmem := List.mem_eraseIdx_iff_getElem?.2 ⟨k, Ne.symm hk, hslot⟩
      rw [hkept slot (List.mem_append_right _ (List.mem_append_right _ hmem))]

/-- The plain value of a cell that holds a buffer. -/
theorem value_of_handle {id : BufferId} {b : Buffer} (h : c.Models pending val plain)
    (hslot : c.slot i = .handle id) (hb : c.store.get? id = some b) :
    Plain.value plain i = (b.payload.value val id).erase := by
  rw [h.value_eq, hslot, ← h.sound.reads id b hb]
  rfl

/-- A change that is not made for values without the wanted contents. -/
theorem update_of_unwanted {wanted : Payload → Bool} {f : Value → Option Value}
    (h : c.Models pending val plain) (hi : i < c.cells.length)
    (hnot : ∀ id b, c.slot i = .handle id → c.store.get? id = some b → wanted b.payload = false)
    (hatom : ∀ v : Value, v.id? = none → f v = none)
    (hpayload : ∀ id p, wanted p = false → f (p.value val id).erase = none) :
    Plain.update f plain i = plain := by
  apply Plain.update_of_none
  by_cases hslot : ∃ id, c.slot i = .handle id
  · obtain ⟨id, hid⟩ := hslot
    obtain ⟨b, hb⟩ := h.live hi id hid
    rw [h.value_of_handle hid hb]
    exact hpayload id b.payload (hnot id b hid hb)
  · rw [h.value_eq]
    refine hatom _ ?_
    cases hs : c.slot i with
    | handle id => exact absurd ⟨id, hs⟩ hslot
    | _ => rfl

/-- A slot is appended to the list in a cell. -/
theorem append {new : Slot} {w : Value} (h : c.Models (new :: pending) val plain)
    (hi : i < c.cells.length) (hw : (new.value val).erase = w) :
    ∃ val', (Cells.append i new c).2.Models pending val' (Plain.update (Plain.appended w) plain i) ∧
      Kept pending val val' := by
  have hfunc : ∀ p, isList p = true → p.isFunc = false :=
    fun p hp => by cases p <;> first | rfl | cases hp
  rcases h.writable _ hi hfunc with ⟨hrun, hnot⟩ |
    ⟨id, payload, c', val', hrun, hwanted, hmodels, hlength, hslot, hget, hkept⟩
  · simp only [Cells.append, bind, StateT.bind, hrun]
    rw [h.update_of_unwanted hi hnot (fun v hv => by cases v <;> first | rfl | cases hv)
      (fun id p hp => by cases p <;> first | rfl | cases hp)]
    exact ⟨val, h.release, .refl pending val⟩
  · simp only [Cells.append, bind, StateT.bind, hrun]
    cases payload with
    | list items =>
      obtain ⟨val'', hedit, hkept'⟩ := hmodels.edit (.list (items ++ [new])) [new] []
        (hlength ▸ hi) hslot hget fun j => by simp [Payload.slots]
      have hplain : Plain.appended w (Plain.value plain i) =
          some ((Payload.list (items ++ [new])).value val' id).erase := by
        rw [hmodels.value_of_handle hslot hget, ← hw, ← hkept new List.mem_cons_self]
        simp [Plain.appended, Payload.value, Value.erase, Value.eraseItems_eq]
      rw [Plain.update_of_some hplain]
      exact ⟨val'', hedit, hkept.tail.trans hkept'⟩
    | _ => cases hwanted

/-- A position of the list or record in a cell is written. -/
theorem writeIndex {new : Slot} {w : Value} {wanted : Payload → Bool} {f : Value → Option Value}
    {n : Nat} (h : c.Models (new :: pending) val plain) (hi : i < c.cells.length)
    (hw : (new.value val).erase = w) (hindexed : ∀ p, wanted p = true → isIndexed p = true)
    (hatom : ∀ v : Value, v.id? = none → f v = none)
    (hunwanted : ∀ id p, wanted p = false → f (p.value val id).erase = none)
    (hwanted : ∀ val id p, wanted p = true → (new.value val).erase = w →
      f (p.value val id).erase = some ((p.setSlot n new).value val id).erase) :
    ∃ val', (Cells.writeIndex wanted i n new c).2.Models pending val' (Plain.update f plain i) ∧
      Kept pending val val' := by
  have hfunc : ∀ p, wanted p = true → p.isFunc = false :=
    fun p hp => by
      have := hindexed p hp
      cases p <;> first | rfl | cases this
  rcases h.writable _ hi hfunc with ⟨hrun, hnot⟩ |
    ⟨id, payload, c', val', hrun, hpayload, hmodels, hlength, hslot, hget, hkept⟩
  · simp only [Cells.writeIndex, bind, StateT.bind, hrun]
    rw [h.update_of_unwanted hi hnot hatom hunwanted]
    exact ⟨val, h.release, .refl pending val⟩
  · have hplain : f (Plain.value plain i) = some ((payload.setSlot n new).value val' id).erase := by
      rw [hmodels.value_of_handle hslot hget]
      exact hwanted val' id payload hpayload (by rw [hkept new List.mem_cons_self, hw])
    rw [Plain.update_of_some hplain]
    simp only [Cells.writeIndex, bind, StateT.bind, hrun]
    cases hold : payload.slots[n]? with
    | none =>
      -- outside the container nothing is written, and the new slot is given back
      rw [Payload.setSlot_of_none hold, ← hmodels.value_of_handle hslot hget, Plain.set_value]
      exact ⟨val', hmodels.release, hkept.tail⟩
    | some old =>
      have hslots := Payload.slots_setSlot n new (hindexed payload hpayload)
      obtain ⟨val'', hedit, hkept'⟩ := hmodels.edit (payload.setSlot n new) [new] [old]
        (hlength ▸ hi) hslot hget fun j => by rw [hslots, handlesIn_set hold]
      refine ⟨val'', ?_, hkept.tail.trans hkept'⟩
      have hrelease := hedit.release
      cases payload with
      | list items => exact hrelease
      | record type fields => exact hrelease
      | _ => cases hindexed _ hpayload

/-- Text is appended to the string in a cell. -/
theorem strPush (h : c.Models pending val plain) (hi : i < c.cells.length) (s : String) :
    ∃ val', (Cells.apply (.strPush i s) c).2.Models pending val'
      (Plain.update (Plain.extended s) plain i) ∧ Kept pending val val' := by
  have hfunc : ∀ p, isStr p = true → p.isFunc = false :=
    fun p hp => by cases p <;> first | rfl | cases hp
  rcases h.writable _ hi hfunc with ⟨hrun, hnot⟩ |
    ⟨id, payload, c', val', hrun, hwanted, hmodels, hlength, hslot, hget, hkept⟩
  · simp only [Cells.apply, bind, StateT.bind, hrun]
    rw [h.update_of_unwanted hi hnot (fun v hv => by cases v <;> first | rfl | cases hv)
      (fun id p hp => by cases p <;> first | rfl | cases hp)]
    exact ⟨val, h, .refl pending val⟩
  · simp only [Cells.apply, bind, StateT.bind, hrun]
    cases payload with
    | str text =>
      have hplain : Plain.extended s (Plain.value plain i) =
          some ((Payload.str (text ++ s)).value val' id).erase := by
        rw [hmodels.value_of_handle hslot hget]
        rfl
      rw [Plain.update_of_some hplain]
      obtain ⟨val'', hedit, hkept'⟩ := hmodels.edit (.str (text ++ s)) [] [] (hlength ▸ hi) hslot
        hget fun j => rfl
      exact ⟨val'', hedit, hkept.trans hkept'⟩
    | _ => cases hwanted

/-- A value is put into the map in a cell. -/
theorem mapInsert (h : c.Models pending val plain) (hi : i < c.cells.length) (k : Key) (v : Value) :
    ∃ val', (Cells.apply (.mapInsert i k v) c).2.Models pending val'
      (Plain.update (Plain.inserted k v.erase) plain i) ∧ Kept pending val val' := by
  obtain ⟨val₁, hbuilt, hv, hkept₁⟩ := h.build v
  have hfunc : ∀ p, isMap p = true → p.isFunc = false :=
    fun p hp => by cases p <;> first | rfl | cases hp
  rcases hbuilt.writable _ hi hfunc with ⟨hrun, hnot⟩ |
    ⟨id, payload, c', val', hrun, hwanted, hmodels, hlength, hslot, hget, hkept⟩
  · simp only [Cells.apply, bind, StateT.bind, onStore_apply, hrun]
    rw [hbuilt.update_of_unwanted hi hnot (fun v hv => by cases v <;> first | rfl | cases hv)
      (fun id p hp => by cases p <;> first | rfl | cases hp)]
    exact ⟨val₁, hbuilt.release, hkept₁⟩
  · simp only [Cells.apply, bind, StateT.bind, onStore_apply, hrun]
    cases payload with
    | map entries =>
      have hplain : Plain.inserted k v.erase (Plain.value plain i) =
          some ((Payload.map (Entries.insert k (Store.build v c.store).1 entries)).value
            val' id).erase := by
        rw [hmodels.value_of_handle hslot hget, ← hv, ← hkept _ List.mem_cons_self]
        simp only [Plain.inserted, Payload.value, Value.erase, Value.eraseEntries_eq,
          Entries.map_insert]
      rw [Plain.update_of_some hplain]
      obtain ⟨val'', hedit, hkept'⟩ := hmodels.edit
        (.map (Entries.insert k (Store.build v c.store).1 entries)) [(Store.build v c.store).1]
        (Entries.get? k entries).toList
        (hlength ▸ hi) hslot hget fun j => Entries.handlesIn_insert ..
      refine ⟨val'', ?_, hkept₁.trans (hkept.tail.trans hkept')⟩
      cases hold : Entries.get? k entries with
      | none =>
        rw [hold] at hedit
        simp only [hold]
        exact hedit
      | some old =>
        rw [hold] at hedit
        simp only [hold]
        exact hedit.release
    | _ => cases hwanted

/-! ### Every operation -/

/-- The slots of two cells change places. -/
theorem swap (h : c.Models pending val plain) (hi : i < c.cells.length) (hj : j < c.cells.length) :
    (Cells.apply (.swap i j) c).2.Models pending val (Plain.apply plain (.swap i j)) := by
  refine ⟨h.sound.of_perm (List.Perm.append_left pending ?_), ?_⟩
  · change c.cells.Perm ((c.cells.set i (c.slot j)).set j (c.slot i))
    rw [slot_eq hi, slot_eq hj]
    exact (List.set_set_perm hi hj).symm
  · change List.map _ ((c.cells.set i (c.slot j)).set j (c.slot i)) = _
    rw [List.map_set, List.map_set, h.values, ← h.value_eq, ← h.value_eq]
    rfl

/-- A value that is made from what a cell holds, sharing its buffers, is pending. -/
theorem cast (h : c.Models pending val plain) (hi : i < c.cells.length) (hj : j < c.cells.length)
    (ty : Ty) :
    ∃ val', (Cells.apply (.cast i ty j) c).2.Models pending val'
      (Plain.apply plain (.cast i ty j)) ∧ Kept pending val val' := by
  have hplain : Plain.value plain i = (c.value i).erase := by
    rw [h.value_eq, h.read_eq hi]
  rcases ty.cast_cases (c.value i) 0 c.store.next with ⟨e, e', hfail, hfail'⟩ |
    ⟨w, w', m', n', hcast, hcast', hnamed, herase⟩
  · simp only [Cells.apply, Plain.apply, bind, StateT.bind, get, getThe, MonadStateOf.get,
      StateT.get, pure, hplain, hfail, hfail']
    exact ⟨val, h, .refl pending val⟩
  · simp only [Cells.apply, Plain.apply, bind, StateT.bind, get, getThe, MonadStateOf.get,
      StateT.get, pure, hplain, hcast, hcast']
    have hcell : (c.value i).Named c.store.next val := by
      rw [h.read_eq hi]
      exact h.sound.named (h.live hi)
    -- the result may have buffers of its own, whose values are added before it is adopted
    obtain ⟨_, val', hagree, hw⟩ := Ty.cast?_named ty hnamed hcell
    have hrevalued : c.Models pending val' plain :=
      h.restore (h.sound.revalue fun j b hb => hagree j (h.sound.bound j b hb)) hagree
    obtain ⟨hadopted, hvalue, _⟩ := Store.Sound.adopt w' n' c.store (pending ++ c.cells)
      hrevalued.sound (hw w' List.mem_cons_self)
    have hpending : Models ⟨(Store.adopt w' c.store).2, c.cells⟩
        ((Store.adopt w' c.store).1 :: pending) val' plain := ⟨hadopted, hrevalued.values⟩
    have hdone := hpending.assign hj
    rw [hvalue, ← herase] at hdone
    exact ⟨val', hdone, h.kept_of_agrees hagree⟩

/-- One operation on cells does to their plain values what the plain operation does, and what is
    pending it leaves alone. -/
theorem apply (op : CellOp) (h : c.Models pending val plain) (hop : op.Within c.cells.length) :
    ∃ val', (Cells.apply op c).2.Models pending val' (Plain.apply plain op) ∧
      Kept pending val val' := by
  have hmoved : ∀ id, Slot.moved ≠ .handle id := fun id => nofun
  cases op with
  | set i v =>
    obtain ⟨val', hbuilt, hv, hkept⟩ := h.build v
    have hdone := hbuilt.assign hop
    rw [hv] at hdone
    exact ⟨val', hdone, hkept⟩
  | copy i j =>
    have hdone := (h.retain hop.1).assign hop.2
    rw [← h.value_eq] at hdone
    exact ⟨val, hdone, .refl pending val⟩
  | move i j =>
    -- the slot itself changes cells: its handle is pending in between and is never counted twice
    have hdone := ((h.atom hmoved).put hop.1).assign (Nat.lt_of_lt_of_eq hop.2 List.length_set.symm)
    rw [← h.value_eq] at hdone
    exact ⟨val, hdone, .refl pending val⟩
  | swap i j => exact ⟨val, h.swap hop.1 hop.2, .refl pending val⟩
  | touch i =>
    rcases h.writable (!·.isFunc) hop (fun p hp => by simpa using hp) with
      ⟨hrun, _⟩ | ⟨id, payload, c', val', hrun, _, hmodels, _, _, _, hkept⟩
    · simp only [Cells.apply, bind, StateT.bind, hrun]
      exact ⟨val, h, .refl pending val⟩
    · simp only [Cells.apply, bind, StateT.bind, hrun]
      exact ⟨val', hmodels, hkept⟩
  | changeType i ty =>
    obtain ⟨val', hbuilt, hv, hkept⟩ := h.build (ty.initial c.store.next).1
    have hdone := hbuilt.assign hop
    rw [hv, ty.erase_initial c.store.next 0] at hdone
    exact ⟨val', hdone, hkept⟩
  | cast i ty j => exact h.cast hop.1 hop.2 ty
  | take i => exact ⟨val, ((h.atom hmoved).put hop).release, .refl pending val⟩
  | setIndex i n v =>
    obtain ⟨val', hbuilt, hv, hkept⟩ := h.build v
    rw [Plain.apply_setIndex]
    refine hkept.extend (hbuilt.writeIndex hop hv (fun p hp => hp)
      (fun w hw => by cases w <;> first | rfl | cases hw)
      (fun id p hp => by cases p <;> first | rfl | cases hp) fun val id p hp hnew => ?_)
    cases p with
    | list items =>
      simp [Plain.replaced, Payload.setSlot, Payload.value, Value.erase, Value.eraseItems_eq,
        List.map_set, hnew]
    | record type fields =>
      simp [Plain.replaced, Payload.setSlot, Payload.value, Value.erase, Value.eraseItems_eq,
        List.map_set, hnew]
    | _ => cases hp
  | push i v =>
    obtain ⟨val', hbuilt, hv, hkept⟩ := h.build v
    rw [Plain.apply_push]
    exact hkept.extend (hbuilt.append hop hv)
  | pushCell i j =>
    -- the handle is taken before the list is touched, so the list may be pushed into itself
    rw [Plain.apply_pushCell, h.value_eq j]
    exact (h.retain hop.2).append hop.1 rfl
  | strPush i s =>
    rw [Plain.apply_strPush]
    exact h.strPush hop s
  | mapInsert i k v =>
    rw [Plain.apply_mapInsert]
    exact h.mapInsert hop k v
  | recordSet i n v =>
    obtain ⟨val', hbuilt, hv, hkept⟩ := h.build v
    rw [Plain.apply_recordSet]
    refine hkept.extend (hbuilt.writeIndex hop hv
      (fun p hp => by cases p <;> first | rfl | cases hp)
      (fun w hw => by cases w <;> first | rfl | cases hw)
      (fun id p hp => by cases p <;> first | rfl | cases hp) fun val id p hp hnew => ?_)
    cases p with
    | record type fields =>
      simp [Plain.fieldReplaced, Payload.setSlot, Payload.value, Value.erase, Value.eraseItems_eq,
        List.map_set, hnew]
    | _ => cases hp

end Models

/-! ### Runs -/

/-- The plain values of the cells. -/
def plain (c : Cells) : List Value :=
  c.cells.map fun slot => (c.store.read slot).erase

/-- Counted cells model their plain values. -/
theorem Counted.models {c : Cells} (h : c.Counted) : ∃ val, c.Models [] val c.plain := by
  obtain ⟨val, hsound⟩ := h
  refine ⟨val, hsound, List.map_congr_left fun slot hmem => ?_⟩
  rw [hsound.read_eq hmem]

/-- A run of operations on cells is a run of the plain operations on their values. -/
theorem run_models {c : Cells} {val : BufferId → Value} {plain : List Value}
    (h : c.Models [] val plain) {ops : List CellOp}
    (hops : ∀ op ∈ ops, op.Within c.cells.length) :
    (∃ val', (c.run ops).Models [] val' (Plain.run plain ops)) ∧
      (c.run ops).cells.length = c.cells.length := by
  induction ops generalizing c val plain with
  | nil => exact ⟨⟨val, h⟩, rfl⟩
  | cons op rest ih =>
    obtain ⟨val', hstep, -⟩ := h.apply op (hops op List.mem_cons_self)
    have hlength : (Cells.apply op c).2.cells.length = c.cells.length := by
      rw [← hstep.length_eq, Plain.length_apply, h.length_eq]
    have hrest := ih hstep fun op' hop' => hlength ▸ hops op' (List.mem_cons_of_mem _ hop')
    rw [hlength] at hrest
    exact hrest

/-- Cells made for values stand for these values. -/
theorem ofValues_models (values : List Value) :
    ∃ val, (ofValues values).Models [] val (values.map Value.erase) := by
  obtain ⟨val, hsound, _, _, hvalues⟩ :=
    (Store.Sound.empty fun _ => .null).buildItems fun v _ => Store.Sound.build v
  rw [List.append_nil] at hsound
  rw [List.map_map] at hvalues
  exact ⟨val, hsound, hvalues⟩

/-- The value of a cell is its plain value. -/
theorem Models.erase_value {c : Cells} {pending : List Slot} {val : BufferId → Value}
    {plain : List Value} (h : c.Models pending val plain) (i : Nat) :
    (c.value i).erase = Plain.value plain i := by
  rw [h.value_eq]
  by_cases hi : i < c.cells.length
  · rw [h.read_eq hi]
  · have hnull : c.slot i = .null := by
      rw [slot, List.getElem?_eq_none (Nat.le_of_not_lt hi), Option.getD_none]
    rw [value, hnull]
    cases hdepth : c.store.buffers.length <;>
      simp [Store.read, Store.readWith, Slot.value, hdepth]

/-- **Copy-on-write refinement.** Values can be put into cells, and from there on cells over shared
    buffers have, after any operations, the values of cells that own deep copies; an operation is
    visible through no cell but its targets. -/
theorem run_refines_plain :
    (∀ values : List Value,
      (ofValues values).Counted ∧ (ofValues values).plain = values.map Value.erase) ∧
    ∀ (c : Cells) (ops : List CellOp), c.Counted → (∀ op ∈ ops, op.Within c.cells.length) →
      (c.run ops).Counted ∧
      (∀ i, ((c.run ops).value i).erase = Plain.value (Plain.run c.plain ops) i) ∧
      ∀ op : CellOp, op.Within c.cells.length → ∀ k ∉ op.targets,
        ((apply op (c.run ops)).2.value k).erase = ((c.run ops).value k).erase := by
  refine ⟨fun values => ?_, fun c ops hc hops => ?_⟩
  · obtain ⟨val, h⟩ := ofValues_models values
    refine ⟨⟨val, h.sound⟩, ?_⟩
    rw [← h.values]
    exact List.map_congr_left fun slot hmem => by rw [h.sound.read_eq hmem]
  · obtain ⟨val, h⟩ := hc.models
    obtain ⟨⟨val', hrun⟩, hlength⟩ := run_models h hops
    refine ⟨⟨val', hrun.sound⟩, hrun.erase_value, fun op hop k hk => ?_⟩
    obtain ⟨val'', hstep, -⟩ := hrun.apply op (hlength ▸ hop)
    rw [hstep.erase_value, hrun.erase_value, Plain.value_apply_of_not_mem hk]

/-- A list pushed into itself holds its old value, and its copy in another cell keeps it. -/
theorem run_refines_plain_self_push :
    let c := (ofValues [.list 0 [.int 1], .null]).run [.copy 0 1, .pushCell 0 0]
    (c.value 0).erase = .list 0 [.int 1, .list 0 [.int 1]] ∧
      (c.value 1).erase = .list 0 [.int 1] := by
  obtain ⟨hcounted, hplain⟩ := run_refines_plain.1 [.list 0 [.int 1], .null]
  have hrun := (run_refines_plain.2 _ [.copy 0 1, .pushCell 0 0] hcounted (by decide)).2.1
  rw [hplain] at hrun
  exact ⟨hrun 0, hrun 1⟩

end Cells

end BlockMachine

import BlockMachine.Sharing.Rebinding
import BlockMachine.Proofs.Sharing.Refinement
import BlockMachine.Proofs.State.Rebinding

namespace BlockMachine

/-!
# Rebinding among other holders

Closures are pointed at another block in place, through copy-on-write. For the holder of the value this is
`Value.rebind`, and no other holder of the value or of a part of it notices.

* `Value.Within` bounds how deep buffers are inside a value, and `Store.Sound.within` that there are fewer
  levels than live buffers;
* `Store.Repoints` says what happens to some slots and to all other holders, and `Store.repoints_slot`
  is the step of the induction on the depth;
* `Store.rebind_substitutes` puts together what rebinding does in a store and to a value.
-/

/-! ### How deep buffers are -/

namespace Value

/-- Buffers are inside one another at most `n` deep. -/
def Within : Nat → Value → Prop
  | 0, v => v.id? = none
  | n + 1, v => ∀ p ∈ v.parts, p.Within n

variable {v : Value} {n : Nat}

/-- A value without a buffer refers to no block. -/
theorem refersTo_of_atom {block : BlockId} (h : v.id? = none) : v.refersTo block = false := by
  cases v <;> first | rfl | exact nomatch h

/-- It has no buffers inside at all. -/
theorem within_of_atom (h : v.id? = none) (n : Nat) : v.Within n := by
  cases n with
  | zero => exact h
  | succ n => cases v <;> first | exact List.forall_mem_nil _ | exact nomatch h

end Value

namespace Store

/-- What is read with some fuel has no more levels than that. -/
theorem readWith_within (s : Store) (fuel : Nat) (slot : Slot) : (s.readWith fuel slot).Within fuel := by
  induction fuel generalizing slot with
  | zero => cases slot <;> rfl
  | succ fuel ih =>
    cases slot with
    | handle id =>
      have hslots : ∀ slots : List Slot, ∀ p ∈ slots.map (s.readWith fuel), p.Within fuel :=
        fun slots => List.forall_mem_map.2 fun slot _ => ih slot
      cases hget : s.get? id with
      | none =>
        simp only [readWith, hget]
        exact Value.within_of_atom rfl _
      | some b =>
        simp only [readWith, hget]
        cases b.payload with
        | str text => exact List.forall_mem_nil _
        | list items => exact hslots items
        | map entries =>
          refine List.forall_mem_map.2 fun e he => ?_
          obtain ⟨e', -, rfl⟩ := List.mem_map.1 he
          exact ih e'.2
        | record type fields => exact hslots fields
        | func block bindings => exact hslots bindings
    | _ => exact List.forall_mem_nil _

/-- A value in a sound store has fewer levels than there are live buffers, since buffers hold smaller
    values. -/
theorem Sound.within {s : Store} {roots : List Slot} {val : BufferId → Value} (h : s.Sound roots val)
    {slot : Slot} (hmem : slot ∈ roots) : (slot.value val).Within s.buffers.length := by
  rw [← h.read_eq hmem]
  exact readWith_within s _ slot

end Store

/-! ### Contents -/

namespace Payload

variable {old new : BlockId} {val val' : BufferId → Value} {id id' : BufferId} {p : Payload}
  {slots : List Slot}

/-- Emptied contents hold no slots. -/
theorem slots_emptied (p : Payload) : p.emptied.slots = [] := by
  cases p <;> rfl

/-- Contents that can have a closure inside take any slots, one for each that they had. -/
theorem slots_rebound (h : (p.value val id).refersTo old = true) (hlength : slots.length = p.slots.length) :
    (p.rebound old new slots).slots = slots := by
  cases p with
  | str text => exact nomatch h
  | map entries =>
    rw [Payload.slots, List.length_map] at hlength
    exact List.map_snd_zip (by simp [hlength])
  | _ => rfl

/-- Contents that are rebound have the same shell, with the new block. -/
theorem sameShell_rebound (h : (p.value val id).refersTo old = true)
    (hlength : slots.length = p.slots.length) :
    Value.SameShell old new (p.value val id) ((p.rebound old new slots).value val' id') := by
  cases p with
  | str text => exact nomatch h
  | list items => trivial
  | map entries =>
    rw [Payload.slots, List.length_map] at hlength
    simp only [Payload.value, rebound, Value.SameShell, List.map_map, Function.comp_def]
    exact List.map_fst_zip (by simp [hlength])
  | record type fields => rfl
  | func block bindings => rfl

end Payload

/-! ### What is left alone -/

namespace Store

/-- Counting handles leaves buffers alone that none of them is of. -/
theorem get?_retainAll_of_not_mem {s : Store} {slots : List Slot} {j : BufferId}
    (h : .handle j ∉ slots) : (s.retainAll slots).get? j = s.get? j := by
  induction slots generalizing s with
  | nil => rfl
  | cons slot rest ih =>
    obtain ⟨hslot, hrest⟩ := not_or.1 (mt List.mem_cons.2 h)
    refine (ih hrest).trans ?_
    cases slot with
    | handle id =>
      rw [retain, get?_modify, if_neg]
      rintro rfl
      exact hslot rfl
    | _ => rfl

/-- A new buffer leaves every other one alone. -/
theorem get?_alloc_of_ne {s : Store} {j : BufferId} (h : j ≠ s.next) (payload : Payload) :
    (alloc payload s).2.get? j = s.get? j := by
  simp only [alloc, get?, List.lookup_cons, beq_false_of_ne h]

/-- A buffer that another holder owns alone stays as it is when a buffer is made exclusively owned. -/
theorem Sound.get?_own {s : Store} {roots : List Slot} {val : BufferId → Value} {id j : BufferId}
    {b b' : Buffer} (h : s.Sound (.handle id :: roots) val) (hb : s.get? id = some b)
    (hj : s.get? j = some b') (hone : b'.count = 1) (hmem : .handle j ∈ roots) :
    j ≠ (Store.own id s).1 ∧ (Store.own id s).2.get? j = some b' := by
  have hcount := h.counts j
  rw [count_of_get? hj, hone, handles] at hcount
  have hroots := handlesIn_pos hmem
  have hne : j ≠ id := by
    rintro rfl
    rw [handlesIn_handle_self] at hcount
    omega
  by_cases hshared : 1 < b.count
  · rw [own_of_shared hb hshared]
    have hnext : j ≠ s.next := Nat.ne_of_lt (h.bound j b' hj)
    -- its only handle is the other holder's, so that there is none inside the buffer
    have hinside : .handle j ∉ b.payload.slots := by
      rw [← handlesIn_eq_zero]
      have hinner := inner_of_get? h.nodup hb j
      rw [handlesIn_handle_of_ne hne] at hcount
      omega
    refine ⟨hnext, ?_⟩
    rw [get?_alloc_of_ne (by rwa [next_retainAll]), get?_retainAll_of_not_mem hinside, get?_modify, if_neg hne]
    exact hj
  · rw [own_of_sole hb hshared]
    exact ⟨hne, hj⟩

/-- A buffer that is written holds the new contents. -/
theorem get?_write_self {s : Store} {id : BufferId} {b : Buffer} (h : s.get? id = some b) (payload : Payload) :
    (write id payload s).2.get? id = some { b with payload := payload } := by
  change (s.modify id _).get? id = _
  rw [get?_modify, if_pos rfl, h]
  rfl

/-- The others hold what they held. -/
theorem get?_write_of_ne {s : Store} {id j : BufferId} (h : j ≠ id) (payload : Payload) :
    (write id payload s).2.get? j = s.get? j := by
  change (s.modify id _).get? j = _
  rw [get?_modify, if_neg h]

namespace Sound

variable {s : Store} {roots slots : List Slot} {val : BufferId → Value} {i : BufferId} {p : Payload}

/-- What is inside an exclusively owned buffer is taken out, and is held by whoever takes it. -/
theorem takeOut (h : s.Sound (.handle i :: roots) val) (hb : s.get? i = some ⟨1, p⟩) :
    ∃ val', (Store.write i p.emptied s).2.Sound (p.slots ++ .handle i :: roots) val' ∧
      ∀ slot ∈ p.slots ++ roots, slot.value val' = slot.value val := by
  have hout : s.Sound (.handle i :: ([] ++ roots)) val := h
  have hcounts : ∀ j, handlesIn j p.emptied.slots + handlesIn j p.slots =
      handlesIn j p.slots + handlesIn j [] := by simp [Payload.slots_emptied]
  obtain ⟨val', hsound, hkept, -⟩ := hout.write hb rfl hcounts
  exact ⟨val', hsound.of_perm List.perm_middle.symm, hkept⟩

/-- A buffer is made exclusively owned and is emptied, for what was inside to be changed. That and all other
    holders hold what they held, and buffers that another holder owns alone stay as they are. -/
theorem opened {s₁ : Store} {id : BufferId} {b : Buffer} (h : s.Sound (.handle id :: roots) val)
    (hb : s.get? id = some b) (hown : Store.own id s = (i, s₁)) :
    s₁.get? i = some ⟨1, b.payload⟩ ∧
    (∃ val', (Store.write i b.payload.emptied s₁).2.Sound (b.payload.slots ++ .handle i :: roots) val' ∧
      ∀ slot ∈ b.payload.slots ++ roots, slot.value val' = slot.value val) ∧
    ∀ j b', s.get? j = some b' → b'.count = 1 → .handle j ∈ roots →
      j ≠ i ∧ (Store.write i b.payload.emptied s₁).2.get? j = some b' := by
  obtain ⟨val₁, hsound, hagree, hget⟩ := h.own hb
  have howned : ∀ j b', s.get? j = some b' → b'.count = 1 → .handle j ∈ roots →
      j ≠ (Store.own id s).1 ∧ (Store.own id s).2.get? j = some b' := fun _ _ => h.get?_own hb
  rw [hown] at hsound hget howned
  obtain ⟨val', htaken, hkept⟩ := hsound.takeOut hget
  refine ⟨hget, ⟨val', htaken, fun slot hmem => (hkept slot hmem).trans ?_⟩, fun j b' hj hone hmem => ?_⟩
  · refine Slot.value_congr fun j hj => ?_
    subst hj
    obtain ⟨b', hb'⟩ := (List.mem_append.1 hmem).elim (h.live_of_inside hb)
      fun hroot => h.live_of_mem (List.mem_cons_of_mem _ hroot)
    exact hagree j (h.bound j b' hb')
  · obtain ⟨hne, hj₁⟩ := howned j b' hj hone hmem
    exact ⟨hne, (get?_write_of_ne hne _).trans hj₁⟩

/-- Slots are put into an exclusively owned buffer that is empty. -/
theorem putBack {payload : Payload} (h : s.Sound (slots ++ .handle i :: roots) val)
    (hb : s.get? i = some ⟨1, p.emptied⟩) (hslots : payload.slots = slots) :
    ∃ val', (Store.write i payload s).2.Sound (.handle i :: roots) val' ∧
      (∀ root ∈ roots, root.value val' = root.value val) ∧ val' i = payload.value val i := by
  have hcounts : ∀ j, handlesIn j payload.slots + handlesIn j [] =
      handlesIn j p.emptied.slots + handlesIn j slots := by simp [Payload.slots_emptied, hslots]
  exact (h.of_perm List.perm_middle).write hb rfl hcounts

end Sound

/-! ### Rebinding in place -/

/-- Slots were replaced by slots in which closures point at another block. All other holders hold what they
    held, and buffers that one of them owns alone stay as they are. -/
structure Repoints (old new : BlockId) (s s' : Store) (roots : List Slot) (val val' : BufferId → Value)
    (slots slots' : List Slot) : Prop where
  sound : s'.Sound (slots' ++ roots) val'
  kept : ∀ root ∈ roots, root.value val' = root.value val
  rebound : List.Forall₂ (Value.Rebound old new) (slots.map (Slot.value val)) (slots'.map (Slot.value val'))
  owned : ∀ j b, s.get? j = some b → b.count = 1 → .handle j ∈ roots → s'.get? j = some b

variable {old new : BlockId} {s s₁ s₂ : Store} {roots : List Slot} {val val₁ val₂ : BufferId → Value}
  {slot slot₁ : Slot} {rest rest' : List Slot}

/-- A slot without a closure over the block is left alone. -/
theorem Repoints.refl (h : s.Sound (slot :: roots) val) (hlacks : (slot.value val).refersTo old = false) :
    Repoints old new s s roots val val [slot] [slot] where
  sound := h
  kept _ _ := rfl
  rebound := .cons (.same hlacks) .nil
  owned _ _ hj _ _ := hj

/-- One slot is rebound while the others are held, and then the others while it is held. -/
theorem Repoints.cons (h₁ : Repoints old new s s₁ (rest ++ roots) val val₁ [slot] [slot₁])
    (h₂ : Repoints old new s₁ s₂ (slot₁ :: roots) val₁ val₂ rest rest') :
    Repoints old new s s₂ roots val val₂ (slot :: rest) (slot₁ :: rest') where
  sound := h₂.sound.of_perm List.perm_middle
  kept root hroot := (h₂.kept root (List.mem_cons_of_mem _ hroot)).trans
    (h₁.kept root (List.mem_append_right _ hroot))
  rebound := by
    have hrest : rest.map (Slot.value val₁) = rest.map (Slot.value val) :=
      List.map_congr_left fun root hroot => h₁.kept root (List.mem_append_left _ hroot)
    have hslot : slot₁.value val₂ = slot₁.value val₁ := h₂.kept slot₁ List.mem_cons_self
    obtain ⟨hrebound, -⟩ := List.forall₂_cons.1 h₁.rebound
    rw [List.map_cons, List.map_cons, hslot, ← hrest]
    exact .cons hrebound h₂.rebound
  owned j b hj hone hmem := h₂.owned j b (h₁.owned j b hj hone (List.mem_append_right _ hmem)) hone
    (List.mem_cons_of_mem _ hmem)

/-- Slots are rebound one after the other. -/
theorem repoints_slots {fuel : Nat} (hstep : ∀ slot s roots val, s.Sound (slot :: roots) val →
      (slot.value val).Within fuel → ∃ val', Repoints old new s (rebindWith old new fuel slot s).2 roots val val'
        [slot] [(rebindWith old new fuel slot s).1])
    {slots : List Slot} (h : s.Sound (slots ++ roots) val)
    (hwithin : ∀ slot ∈ slots, (slot.value val).Within fuel) :
    ∃ val', Repoints old new s (slots.mapM (rebindWith old new fuel) s).2 roots val val' slots
      (slots.mapM (rebindWith old new fuel) s).1 := by
  induction slots generalizing s roots val with
  | nil => exact ⟨val, h, fun _ _ => rfl, .nil, fun _ _ hj _ _ => hj⟩
  | cons slot rest ih =>
    obtain ⟨hslot, hrest⟩ := List.forall_mem_cons.1 hwithin
    obtain ⟨val₁, h₁⟩ := hstep slot s (rest ++ roots) val h hslot
    have hsound : Sound _ (_ :: (rest ++ roots)) val₁ := h₁.sound
    have hkept : ∀ root ∈ rest, (root.value val₁).Within fuel := by
      intro root hroot
      rw [h₁.kept root (List.mem_append_left _ hroot)]
      exact hrest root hroot
    obtain ⟨val₂, h₂⟩ := ih (hsound.of_perm List.perm_middle.symm) hkept
    rw [List.mapM_cons]
    exact ⟨val₂, h₁.cons h₂⟩

/-- A buffer on the way to a closure over the block is owned, and what is inside is taken out, rebound and
    put back. -/
theorem rebindWith_of_refers {fuel : Nat} {id i : BufferId} {b : Buffer} {slots : List Slot}
    (hrefers : (s.read (.handle id)).refersTo old = true) (hown : own id s = (i, s₁))
    (hb : s₁.get? i = some b)
    (hinside : b.payload.slots.mapM (rebindWith old new fuel) (write i b.payload.emptied s₁).2 =
      (slots, s₂)) :
    rebindWith old new (fuel + 1) (.handle id) s =
      (.handle i, (write i (b.payload.rebound old new slots) s₂).2) := by
  have htaken : write i b.payload.emptied s₁ = ((), (write i b.payload.emptied s₁).2) := rfl
  simp only [rebindWith, bind, StateT.bind, get, getThe, MonadStateOf.get, StateT.get, pure, hrefers, if_true,
    hown, hb]
  rw [htaken]
  dsimp only
  rw [hinside]
  rfl

/-- The step of the induction: a slot is rebound to the depth that its value has. -/
theorem repoints_slot (fuel : Nat) (slot : Slot) (s : Store) (roots : List Slot) (val : BufferId → Value)
    (h : s.Sound (slot :: roots) val) (hwithin : (slot.value val).Within fuel) :
    ∃ val', Repoints old new s (rebindWith old new fuel slot s).2 roots val val' [slot]
      [(rebindWith old new fuel slot s).1] := by
  induction fuel generalizing slot s roots val with
  | zero =>
    have hsame : rebindWith old new 0 slot s = (slot, s) := by
      cases slot <;> rfl
    rw [hsame]
    exact ⟨val, .refl h (Value.refersTo_of_atom hwithin)⟩
  | succ fuel ih =>
    cases slot with
    | handle id =>
      have hread : s.read (.handle id) = val id := h.read_eq List.mem_cons_self
      cases hrefers : (val id).refersTo old with
      | false =>
        have hsame : rebindWith old new (fuel + 1) (.handle id) s = (.handle id, s) := by
          simp only [rebindWith, bind, StateT.bind, get, getThe, MonadStateOf.get, StateT.get, pure, hread,
            hrefers]
          rfl
        rw [hsame]
        exact ⟨val, .refl h hrefers⟩
      | true =>
        obtain ⟨b, hb⟩ := h.live_of_mem List.mem_cons_self
        have hvalue : val id = b.payload.value val id := h.reads id b hb
        rw [hvalue] at hrefers
        rcases hown : own id s with ⟨i, s₁⟩
        -- what is inside is taken out
        obtain ⟨hget, ⟨val₁, htaken, hkept⟩, howned⟩ := h.opened hb hown
        have hparts : b.payload.slots.map (Slot.value val₁) = (b.payload.value val id).parts := by
          rw [Payload.parts_value]
          exact List.map_congr_left fun slot hslot => hkept slot (List.mem_append_left _ hslot)
        have hdeep : ∀ slot ∈ b.payload.slots, (slot.value val₁).Within fuel := by
          intro slot hslot
          refine hwithin _ ?_
          change _ ∈ (val id).parts
          rw [hvalue, ← hparts]
          exact List.mem_map_of_mem hslot
        -- it is rebound while the buffer is held
        obtain ⟨val₂, hin⟩ := repoints_slots ih htaken hdeep
        rcases hinside : b.payload.slots.mapM (rebindWith old new fuel) (write i b.payload.emptied s₁).2
          with ⟨slots, s₂⟩
        rw [hinside] at hin
        have hlength : slots.length = b.payload.slots.length := by
          simpa using hin.rebound.length_eq.symm
        -- and it is put back into the buffer, which nobody has changed
        have hempty := hin.owned i _ (get?_write_self hget b.payload.emptied) rfl List.mem_cons_self
        obtain ⟨val₃, hsound, hback, hself⟩ := hin.sound.putBack hempty (Payload.slots_rebound hrefers hlength)
        rw [rebindWith_of_refers (by rwa [hread, hvalue]) hown hget hinside]
        refine ⟨val₃, hsound, fun root hroot => ?_, .cons ?_ .nil, fun j b' hj hone hmem => ?_⟩
        · rw [hback root hroot, hin.kept root (List.mem_cons_of_mem _ hroot),
            hkept root (List.mem_append_right _ hroot)]
        · change Value.Rebound old new (val id) (val₃ i)
          rw [hvalue, hself]
          refine .of_parts hrefers (Payload.sameShell_rebound hrefers hlength) ?_
          rw [Payload.parts_value _ i, Payload.slots_rebound hrefers hlength, ← hparts]
          exact hin.rebound
        · obtain ⟨hne, hj₁⟩ := howned j b' hj hone hmem
          exact (get?_write_of_ne hne _).trans (hin.owned j b' hj₁ hone (List.mem_cons_of_mem _ hmem))
    | _ =>
      exact ⟨val, .refl h (Value.refersTo_of_atom rfl)⟩

/-- **Rebinding in place** replaces a slot, and all other holders hold what they held. -/
theorem repoints_rebind (old new : BlockId) (h : s.Sound (slot :: roots) val) : ∃ val',
    Repoints old new s (rebind old new slot s).2 roots val val' [slot] [(rebind old new slot s).1] :=
  repoints_slot _ slot s roots val h (h.within List.mem_cons_self)

end Store

/-- What pointing closures at another block makes of a value: up to the numbers of buffers the substitution,
    after which no closure is over the old block; and what had none stays where it was, in its own buffers. -/
structure Value.Repointed (old new : BlockId) (before after : Value) : Prop where
  substituted : after.erase = (before.substitute old new).erase
  lacks : old ≠ new → after.Lacks old
  shared : ∀ path w, before.at? path = some w → w.Lacks old → after.at? path = some w

/-- A value that was rebound points at the new block. -/
theorem Value.Rebound.repointed {old new : BlockId} {v v' : Value} (h : Rebound old new v v') :
    Repointed old new v v' :=
  ⟨h.erase_eq, fun hne => h.lacks hne, fun _ _ hw hlacks => h.at?_eq hw hlacks⟩

/-- **Rebinding is exact substitution, and keeps what can be shared.** In a store, the slot that is rebound
    holds afterwards what it held, with closures over the new block in place of the old one; what has no such
    closure is in the same buffers as before; every other slot holds the same value, whatever it shares with
    the slot that is rebound; and all handles are still counted. The same becomes of the value alone, and the
    buffers that are made for it have numbers that were not in use. -/
theorem rebind_substitutes (old new : BlockId) :
    (∀ (s : Store) (slot : Slot) (holders : List Slot) (val : BufferId → Value), s.Sound (slot :: holders) val →
      Value.Repointed old new (s.read slot)
        ((Store.rebind old new slot s).2.read (Store.rebind old new slot s).1) ∧
      (∀ holder ∈ holders, (Store.rebind old new slot s).2.read holder = s.read holder) ∧
      ∃ val', (Store.rebind old new slot s).2.Sound ((Store.rebind old new slot s).1 :: holders) val') ∧
    ∀ (tree : Value) (n : BufferId),
      Value.Repointed old new tree (tree.rebind old new n).1 ∧
      ∀ val, tree.Named n val → ∃ val' : BufferId → Value, (∀ j < n, val' j = val j) ∧
        (tree.rebind old new n).1.Named (tree.rebind old new n).2 val' := by
  refine ⟨fun s slot holders val h => ?_, fun tree n => ⟨(tree.rebind_rebound n).repointed, fun val hval => ?_⟩⟩
  · obtain ⟨val', hrepoints⟩ := Store.repoints_rebind old new h
    have hsound := hrepoints.sound
    obtain ⟨hrebound, -⟩ := List.forall₂_cons.1 hrepoints.rebound
    refine ⟨?_, fun holder hholder => ?_, val', hsound⟩
    · rw [h.read_eq List.mem_cons_self, hsound.read_eq List.mem_cons_self]
      exact hrebound.repointed
    · rw [h.read_eq (List.mem_cons_of_mem _ hholder), hsound.read_eq (List.mem_cons_of_mem _ hholder)]
      exact hrepoints.kept holder hholder
  · obtain ⟨-, val', hagree, hnamed⟩ := tree.rebind_named hval
    exact ⟨val', hagree, hnamed _ List.mem_cons_self⟩

namespace Repointing

/-- A closure beside a list that has none. -/
def tree : Value :=
  .list 0 [.func 1 7 [.int 3], .list 2 [.int 1]]

/-- Two cells that share the tree. -/
def cells : Cells :=
  (Cells.ofValues [tree, .null]).run [.copy 0 1]

/-- What the first cell holds after its closures are pointed at another block, and the store then. -/
def after : Slot × Store :=
  Store.rebind 7 8 (cells.slot 0) cells.store

/-- The first cell gets its own list and closure. Both cells still hold the inner list in one buffer, and the
    second one holds what it held. -/
theorem rebind_substitutes_shared :
    (after.2.read after.1).erase = .list 0 [.func 0 8 [.int 3], .list 0 [.int 1]] ∧
      (after.2.read after.1).Lacks 7 ∧
      (after.2.read after.1).at? [1] = some (.list 1 [.int 1]) ∧
      (after.2.read (cells.slot 1)).at? [1] = some (.list 1 [.int 1]) ∧
      (after.2.read (cells.slot 1)).erase = tree.erase := by
  have hops : ∀ op ∈ [CellOp.copy 0 1], op.Within 2 := by decide
  obtain ⟨val, h⟩ := Cells.ofValues_models [tree, .null]
  obtain ⟨⟨val', hcells⟩, -⟩ := Cells.run_models h hops
  obtain ⟨hrebound, hother, -⟩ :=
    (rebind_substitutes 7 8).1 cells.store (cells.slot 0) [cells.slot 1] val' hcells.sound
  have hsecond : after.2.read (cells.slot 1) = cells.value 1 := hother _ List.mem_cons_self
  refine ⟨hrebound.substituted, hrebound.lacks (by decide), ?_, ?_, ?_⟩
  · exact hrebound.shared [1] _ rfl (Value.lacks_iff.2 rfl)
  · exact hsecond ▸ rfl
  · exact hsecond ▸ rfl

end Repointing

end BlockMachine

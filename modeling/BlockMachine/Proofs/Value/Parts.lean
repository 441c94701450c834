import BlockMachine.Value.Basic

namespace BlockMachine

/-!
# Values part by part

A list, map, record or closure has parts, which are values again; other values have none.

* `Value.parts` are the immediate parts of a value, all smaller than the value itself;
* `Value.induction_parts` is induction on values by their parts;
* `Value.All P` says that `P` holds of a value and of everything inside it;
* `Value.Named n val` says that a value is the tree that `val` gives for its buffer numbers.
-/

namespace Value

/-- The values directly inside a value. -/
def parts : Value → List Value
  | list _ items => items
  | map _ entries => entries.map (·.2)
  | record _ _ fields => fields
  | func _ _ bindings => bindings
  | _ => []

/-- The number of the buffer or closure that a value stands for. -/
def id? : Value → Option BufferId
  | str id _ => some id
  | list id _ => some id
  | map id _ => some id
  | record id _ _ => some id
  | func id _ _ => some id
  | _ => none

/-- A part is smaller than the whole. -/
theorem sizeOf_part_lt {v p : Value} (h : p ∈ v.parts) : sizeOf p < sizeOf v := by
  cases v <;> simp only [parts, List.not_mem_nil] at h
  case list id items =>
    have hlt := List.sizeOf_lt_of_mem h
    simp only [list.sizeOf_spec]
    omega
  case map id entries =>
    obtain ⟨e, he, rfl⟩ := List.mem_map.1 h
    have hlt := List.sizeOf_lt_of_mem he
    have hpair : sizeOf e.2 < sizeOf e := by
      cases e
      simp only [Prod.mk.sizeOf_spec]
      omega
    simp only [map.sizeOf_spec]
    omega
  case record id type fields =>
    have hlt := List.sizeOf_lt_of_mem h
    simp only [record.sizeOf_spec]
    omega
  case func id block bindings =>
    have hlt := List.sizeOf_lt_of_mem h
    simp only [func.sizeOf_spec]
    omega

/-- Induction on values: what holds of a value whenever it holds of its parts holds of all. -/
theorem induction_parts {P : Value → Prop} (h : ∀ v, (∀ p ∈ v.parts, P p) → P v) (v : Value) :
    P v :=
  h v fun p hp =>
    have := sizeOf_part_lt hp
    induction_parts h p
termination_by sizeOf v

/-- A predicate holds of a value and of everything inside it. -/
inductive All (P : Value → Prop) : Value → Prop where
  | intro {v : Value} (here : P v) (inside : ∀ p ∈ v.parts, All P p) : All P v

namespace All

variable {P Q : Value → Prop} {v : Value}

theorem here (h : All P v) : P v := by
  cases h with
  | intro here _ => exact here

theorem inside (h : All P v) : ∀ p ∈ v.parts, All P p := by
  cases h with
  | intro _ inside => exact inside

theorem mono (hPQ : ∀ v, P v → Q v) (h : All P v) : All Q v := by
  induction h with
  | intro here _ ih => exact ⟨hPQ _ here, ih⟩

/-- A predicate that holds of every value without parts holds inside such a value. -/
theorem of_atom (hp : v.parts = []) (h : P v) : All P v :=
  ⟨h, by simp [hp]⟩

end All

/-! ### Values by number -/

/-- Every node of a value has a number below `n`, for which `val` gives the node. -/
def Named (n : BufferId) (val : BufferId → Value) (v : Value) : Prop :=
  v.All fun node => ∀ id, node.id? = some id → id < n ∧ val id = node

namespace Named

variable {n n' : BufferId} {val val' : BufferId → Value} {v : Value}

/-- Further numbers may be given to further values. -/
theorem mono (h : v.Named n val) (hn : n ≤ n') (hval : ∀ j < n, val' j = val j) :
    v.Named n' val' :=
  All.mono (fun _ hnode id hid =>
    have ⟨hlt, heq⟩ := hnode id hid
    ⟨Nat.lt_of_lt_of_le hlt hn, (hval id hlt).trans heq⟩) h

theorem of_atom (h : v.id? = none) : v.Named n val := by
  refine All.of_atom ?_ fun id hid => ?_
  · cases v <;> first | rfl | simp [id?] at h
  · rw [h] at hid
    exact nomatch hid

/-- A new node over parts that have their numbers. -/
theorem node (hid : v.id? = some n) (hparts : ∀ p ∈ v.parts, p.Named n val) :
    v.Named (n + 1) (fun j => if j = n then v else val j) := by
  refine ⟨fun id hid' => ?_, fun p hp => (hparts p hp).mono (Nat.le_succ n) fun j hj => ?_⟩
  · obtain rfl := Option.some.inj (hid'.symm.trans hid)
    exact ⟨Nat.lt_succ_self _, if_pos rfl⟩
  · exact if_neg (Nat.ne_of_lt hj)

end Named

end Value

end BlockMachine

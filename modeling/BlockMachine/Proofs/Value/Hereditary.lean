import BlockMachine.Proofs.Value.Known
import BlockMachine.Proofs.Value.Typing

namespace BlockMachine

/-!
# Hereditary properties of values

A property of values is hereditary if it goes over to the parts of a value and comes back from them,
moved values aside. It may ask of records that their fields have the declared types. Whatever a program
does with values that have such a property gives values that have it again.

* `Value.Hereditary` is the notion, `Value.Cell` what may be in a register;
* `Value.Hereditary.cast` and `Value.Hereditary.item?` are about what is made of values;
* `Value.Hereditary.ofOutgoing` and its companions are about state trees, `Value.Hereditary.ofJsonText`
  about those that are read;
* `Value.hereditary_wellTyped` and `Value.rebind_wellTyped` are about the types of fields.
-/

namespace Value

/-- A property that the parts of a value have, and a value which was not moved away if its parts do and it
    is no record of other fields than declared. -/
structure Hereditary (P : Value → Prop) : Prop where
  intro : ∀ {v : Value}, v.isMoved = false → v.Fits → (∀ p ∈ v.parts, P p) → P v
  parts : ∀ {v : Value}, P v → ∀ p ∈ v.parts, P p
  /-- A field is given a value of its type. -/
  write : ∀ {id id' : BufferId} {type : RecordType} {fields : List Value} {i : Nat} {d : String × Ty}
    {v : Value}, P (.record id type fields) → type.fields[i]? = some d → d.2.Leaves v → P v →
    P (.record id' type (fields.set i v))

/-- A property that a value which was not moved away has exactly if its parts do. -/
theorem Hereditary.of_parts {P : Value → Prop}
    (intro : ∀ {v : Value}, v.isMoved = false → (∀ p ∈ v.parts, P p) → P v)
    (parts : ∀ {v : Value}, P v → ∀ p ∈ v.parts, P p) : Hereditary P where
  intro hv _ hparts := intro hv hparts
  parts := parts
  write h _ _ hv := intro rfl fun p hp => by
    rcases List.mem_or_eq_of_mem_set hp with hold | rfl
    · exact parts h p hold
    · exact hv

/-- A register holds a value with a property, or its value was moved away. -/
def Cell (P : Value → Prop) (v : Value) : Prop :=
  v.isMoved = true ∨ P v

variable {P : Value → Prop} {v w : Value}

/-- The mark of a moved value may be in any register. -/
theorem Cell.moved : Cell P .moved :=
  .inl rfl

/-- A register that was not moved away holds a value with the property. -/
theorem Cell.of_not_moved (h : Cell P v) (hv : v.isMoved = false) : P v :=
  h.resolve_left (by rw [hv]; exact Bool.false_ne_true)

/-- All values have the property that says nothing. -/
theorem hereditary_true : Hereditary fun _ => True :=
  .of_parts (fun _ _ => trivial) fun _ _ _ => trivial

namespace Hereditary

variable (hP : Hereditary P)
include hP

/-- A value without parts has the property, unless it is a record. -/
theorem atom (hv : v.isMoved = false) (hparts : v.parts = []) (hrecord : v.fields? = none) : P v :=
  hP.intro hv (fits_of_fields? hrecord) (by simp [hparts])

/-- Null has the property. -/
theorem null : P .null :=
  hP.atom rfl rfl rfl

/-- A list has it if its items do. -/
theorem list {items : List Value} (h : ∀ v ∈ items, P v) (id : BufferId) : P (.list id items) :=
  hP.intro rfl trivial h

/-- A map has it if its values do. -/
theorem map {entries : List (Key × Value)} (h : Entries.All P entries) (id : BufferId) :
    P (.map id entries) := by
  refine hP.intro rfl trivial fun p hp => ?_
  obtain ⟨e, he, rfl⟩ := List.mem_map.1 hp
  exact h e he

/-- A record has it if its fields do and are of the declared types. -/
theorem record {type : RecordType} {fields : List Value}
    (hfits : List.Forall₂ (fun d v => d.2.Leaves v) type.fields fields) (h : ∀ v ∈ fields, P v)
    (id : BufferId) : P (.record id type fields) :=
  hP.intro rfl hfits h

/-- A closure has it if what it is bound to does. -/
theorem func {bindings : List Value} (h : ∀ v ∈ bindings, P v) (id : BufferId) (block : BlockId) :
    P (.func id block bindings) :=
  hP.intro rfl trivial h

/-- The values of a map that has it do. -/
theorem entries {id : BufferId} {entries : List (Key × Value)} (h : P (.map id entries)) :
    Entries.All P entries :=
  fun e he => hP.parts h e.2 (List.mem_map_of_mem he)

/-! ### What is made of values -/

/-- What is found has it, and so has null where nothing is. -/
theorem getD {v? : Option Value} (h : ∀ v, v? = some v → P v) : P (v?.getD .null) := by
  cases v? with
  | none => exact hP.null
  | some v => exact h v rfl

/-- The part of a value that has it does, texts cut out of a text included. -/
theorem item? (hv : P v) (i : Nat) (n : BufferId) : P ((v.item? i n).1.getD .null) := by
  have hitem : ∀ items : List Value, (∀ p ∈ items, P p) → P ((items[i]?).getD .null) :=
    fun items h => hP.getD fun p hp => h p (List.mem_of_getElem? hp)
  cases v with
  | str id s =>
    rw [Value.item?]
    cases s.toList[i]? with
    | none => exact hP.null
    | some c => exact hP.atom rfl rfl rfl
  | list id items => exact hitem items (hP.parts hv)
  | map id entries =>
    have hmap := hitem (entries.map Prod.snd) (hP.parts hv)
    rw [List.getElem?_map] at hmap
    exact hmap
  | record id type fields => exact hitem fields (hP.parts hv)
  | _ => exact hP.null

end Hereditary

/-! ### Casts -/

/-- What was moved away is not a value of any type. -/
theorem castBasic_moved (b : Builtin) (n : BufferId) : Ty.castBasic b .moved n = none := by
  cases b <;> rfl

namespace Hereditary

variable (hP : Hereditary P)
include hP

/-- A cast to a built-in type gives a value with the property. -/
theorem castBasic {b : Builtin} {n n' : BufferId} (hv : Cell P v)
    (h : Ty.castBasic b v n = some (w, n')) : P w := by
  have hmoved : v.isMoved = false := by
    cases v with
    | moved =>
      rw [castBasic_moved] at h
      cases h
    | _ => rfl
  have hv' := hv.of_not_moved hmoved
  simp only [Ty.castBasic] at h
  split at h
  case h_1 | h_3 => cases h
  case h_2 | h_7 =>
    obtain ⟨rfl, rfl⟩ := Prod.mk.inj (Option.some.inj h)
    exact hv'
  case h_4 x =>
    cases hx : Ty.exactInt? x with
    | none =>
      rw [hx] at h
      cases h
    | some i =>
      rw [hx] at h
      obtain ⟨rfl, rfl⟩ := Prod.mk.inj (Option.some.inj h)
      exact hP.atom rfl rfl rfl
  case h_5 =>
    obtain ⟨rfl, rfl⟩ := Prod.mk.inj (Option.some.inj h)
    exact hP.atom rfl rfl rfl
  case h_6 =>
    obtain ⟨rfl, rfl⟩ := Prod.mk.inj (Option.some.inj h)
    exact hP.list (hP.parts hv') _
  case h_8 =>
    split at h
    · obtain ⟨rfl, rfl⟩ := Prod.mk.inj (Option.some.inj h)
      exact hv'
    · cases h

omit hP

mutual

/-- A cast gives a value with the property, and refuses what was moved away. -/
theorem cast? (hP : Hereditary P) (ty : Ty) {v w : Value} {n n' : BufferId} (hv : Cell P v)
    (h : Ty.cast? ty v n = some (w, n')) : P w := by
  match ty with
  | .basic b => exact hP.castBasic hv h
  | .module m =>
    simp only [Ty.cast?] at h
    split at h
    · split at h
      · obtain ⟨rfl, rfl⟩ := Prod.mk.inj (Option.some.inj h)
        exact hv.of_not_moved rfl
      · exact nomatch h
    · exact nomatch h
  | .record ⟨id, name, decls⟩ =>
    have hmoved : v.isMoved = false := by
      cases v with
      | moved => exact nomatch h
      | _ => rfl
    have hv' := hv.of_not_moved hmoved
    rcases Ty.cast?_record h with ⟨rfl, _⟩ | ⟨ws, m, hcast, rfl, _⟩
    · exact hv'
    · exact hP.record (Ty.castFields_leaves hcast) (castFields hP decls (hP.parts hv') hcast) m

/-- Casts of the fields of a record give values with the property. -/
theorem castFields (hP : Hereditary P) (decls : List (String × Ty)) {vs ws : List Value} {n n' : BufferId}
    (hvs : ∀ v ∈ vs, P v) (h : Ty.castFields decls vs n = some (ws, n')) : ∀ w ∈ ws, P w := by
  match decls, vs with
  | [], [] =>
    obtain ⟨rfl, _⟩ := Prod.mk.inj (Option.some.inj h)
    exact List.forall_mem_nil _
  | (_, ty) :: decls, v :: rest =>
    obtain ⟨⟨w, m⟩, hcast, hrun⟩ := Option.bind_eq_some_iff.1 h
    obtain ⟨⟨ws', m'⟩, hrest, hdone⟩ := Option.bind_eq_some_iff.1 hrun
    obtain ⟨rfl, rfl⟩ := Prod.mk.inj (Option.some.inj hdone)
    obtain ⟨hhead, htail⟩ := List.forall_mem_cons.1 hvs
    exact List.forall_mem_cons.2 ⟨cast? hP ty (.inr hhead) hcast, castFields hP decls htail hrest⟩
  | [], _ :: _ => exact nomatch h
  | _ :: _, [] => exact nomatch h

end

include hP

/-- A cast whose failure is reported gives a value with the property. -/
theorem cast {ty : Ty} {n n' : BufferId} (hv : Cell P v) (h : Ty.cast ty v n = .ok (w, n')) :
    P w := by
  rw [Ty.cast] at h
  split at h
  next r hr =>
    obtain rfl := Except.ok.inj h
    exact hP.cast? ty hv hr
  next => cases h

/-! ### State trees -/

/-- What a tree with the property holds under a key has it. -/
theorem child (hv : P v) (k : Key) : P (StateTree.child v k) := by
  cases v with
  | map id entries => exact hP.getD fun u hu => (hP.entries hv).get? hu
  | _ => exact hP.null

/-- Entries have the property when those that a child has saved are taken over. -/
theorem merge {entries child : List (Key × Value)} (h : Entries.All P entries)
    (hchild : Entries.All P child) (k : Key) (n : BufferId) :
    Entries.All P (StateTree.merge entries k child n).1 := by
  rw [StateTree.merge]
  split
  · exact h.erase
  · exact h.insert (hP.map hchild n)

/-- A tree that is made of such entries has the property. -/
theorem ofOutgoing {entries : List (Key × Value)} (h : Entries.All P entries) (n : BufferId) :
    P (StateTree.ofOutgoing entries n).1 := by
  rw [StateTree.ofOutgoing]
  split
  · exact hP.null
  · exact hP.map h n

omit hP

mutual

/-- The value of a saved form has the property. -/
theorem toValue (hP : Hereditary P) (reg : Registry) (s : Saved) : Gives (s.toValue reg) P := by
  match s with
  | .null | .int _ | .float _ | .bool _ | .error _ => exact .pure (hP.atom rfl rfl rfl)
  | .str s => exact .bind .fresh fun _ _ => .pure (hP.atom rfl rfl rfl)
  | .list items =>
    exact .bind (toItems hP reg items) fun vs hvs => .bind .fresh fun id _ => .pure (hP.list hvs id)
  | .map entries =>
    exact .bind (toEntries hP reg entries) fun es hes =>
      .bind .fresh fun id _ => .pure (hP.map hes.ofList id)
  | .record name fields =>
    rw [Saved.toValue]
    split
    next => exact .throw _
    next ty _ =>
      exact .bind (toItems hP reg fields) fun vs hvs =>
        .bind .fresh fun id _ => .cast (fun _ _ _ => hP.cast (.inr (hP.list hvs id))) _

/-- The values of a list of saved forms have the property. -/
theorem toItems (hP : Hereditary P) (reg : Registry) (vs : List Saved) :
    Gives (Saved.toItems reg vs) fun ws => ∀ w ∈ ws, P w := by
  match vs with
  | [] => exact .pure (List.forall_mem_nil _)
  | v :: rest =>
    exact .bind (toValue hP reg v) fun w hw =>
      .bind (toItems hP reg rest) fun ws hws => .pure (List.forall_mem_cons.2 ⟨hw, hws⟩)

/-- The values of saved entries have the property. -/
theorem toEntries (hP : Hereditary P) (reg : Registry) (vs : List (Key × Saved)) :
    Gives (Saved.toEntries reg vs) (Entries.All P) := by
  match vs with
  | [] => exact .pure (List.forall_mem_nil _)
  | (k, v) :: rest =>
    exact .bind (toValue hP reg v) fun w hw =>
      .bind (toEntries hP reg rest) fun es hes => .pure (List.forall_mem_cons.2 ⟨hw, hes⟩)

end

include hP

/-- **What is read from a text has the property**, whatever the text is. -/
theorem ofJsonText (reg : Registry) (text : String) : Gives (BlockMachine.ofJsonText reg text) P := by
  rw [BlockMachine.ofJsonText]
  split
  next saved _ => exact hP.toValue reg saved
  next => exact .throw _

end Hereditary

end Value

/-! ### Types of fields -/

namespace Value

/-- Values whose records have the fields that they should have are such a property. -/
theorem hereditary_wellTyped : Hereditary WellTyped where
  intro _ hfits hparts := ⟨hfits, hparts⟩
  parts h := h.inside
  write h hd hleaves hv := by
    refine ⟨h.here.set hd hleaves, fun p hp => ?_⟩
    rcases List.mem_or_eq_of_mem_set hp with hold | rfl
    · exact h.inside p hold
    · exact hv

/-- The mark of a moved value is well typed. -/
theorem wellTyped_moved : WellTyped .moved :=
  .of_atom rfl trivial

variable (old new : BlockId)

/-- A value is rebound into one that the same types take as it is. -/
theorem rebind_leaves {ty : Ty} {v : Value} (h : ty.Leaves v) (n : BufferId) :
    ty.Leaves (rebind old new v n).1 := by
  cases v with
  | list id items =>
    rw [rebind]
    split
    · exact h.list
    · exact h
  | map id entries =>
    rw [rebind]
    split
    · exact h.map
    · exact h
  | record id type fields =>
    rw [rebind]
    split
    · exact h.record
    · exact h
  | func id block bindings =>
    rw [rebind]
    split
    · exact h.func
    · exact h
  | _ => exact h

/-- Fields are rebound into ones that the same types take as they are. -/
theorem rebindItems_leaves {decls : List (String × Ty)} {vs : List Value}
    (h : List.Forall₂ (fun d v => d.2.Leaves v) decls vs) (n : BufferId) :
    List.Forall₂ (fun d v => d.2.Leaves v) decls (rebindItems old new vs n).1 := by
  induction h generalizing n with
  | nil => exact .nil
  | cons hv _ ih => exact .cons (rebind_leaves old new hv n) (ih _)

mutual

/-- Rebinding keeps the types of fields. -/
theorem rebind_wellTyped (v : Value) (n : BufferId) (h : v.WellTyped) :
    (rebind old new v n).1.WellTyped := by
  match v with
  | .list id items =>
    rw [rebind]
    split
    · exact ⟨trivial, rebindItems_wellTyped items n h.inside⟩
    · exact h
  | .map id entries =>
    rw [rebind]
    split
    · exact hereditary_wellTyped.map
        (rebindEntries_wellTyped entries n (hereditary_wellTyped.entries h)) _
    · exact h
  | .record id type fields =>
    rw [rebind]
    split
    · exact ⟨rebindItems_leaves old new h.here n, rebindItems_wellTyped fields n h.inside⟩
    · exact h
  | .func id block bindings =>
    rw [rebind]
    split
    · exact ⟨trivial, rebindItems_wellTyped bindings n h.inside⟩
    · exact h
  | .null | .int _ | .float _ | .bool _ | .str _ _ | .module _ | .host _ | .error _ | .moved =>
    exact h

/-- Rebinding a list of values keeps the types of fields. -/
theorem rebindItems_wellTyped (vs : List Value) (n : BufferId) (h : ∀ v ∈ vs, v.WellTyped) :
    ∀ v ∈ (rebindItems old new vs n).1, v.WellTyped := by
  match vs with
  | [] => exact List.forall_mem_nil _
  | v :: rest =>
    obtain ⟨hhead, htail⟩ := List.forall_mem_cons.1 h
    exact List.forall_mem_cons.2
      ⟨rebind_wellTyped v n hhead, rebindItems_wellTyped rest (rebind old new v n).2 htail⟩

/-- Rebinding the entries of a map keeps the types of fields. -/
theorem rebindEntries_wellTyped (entries : List (Key × Value)) (n : BufferId)
    (h : Entries.All WellTyped entries) : Entries.All WellTyped (rebindEntries old new entries n).1 := by
  match entries with
  | [] => exact List.forall_mem_nil _
  | (k, v) :: rest =>
    obtain ⟨hhead, htail⟩ := List.forall_mem_cons.1 h
    exact List.forall_mem_cons.2
      ⟨rebind_wellTyped v n hhead, rebindEntries_wellTyped rest (rebind old new v n).2 htail⟩

end

end Value

/-- A value that is saved has the property. -/
theorem Entries.All.save {P : Value → Prop} {entries : List (Key × Value)} {v : Value}
    (h : All P entries) (hv : P v) (name : String) : All P (StateTree.save entries name v) := by
  rw [StateTree.save]
  split
  · exact h.erase
  · exact h.insert hv

end BlockMachine

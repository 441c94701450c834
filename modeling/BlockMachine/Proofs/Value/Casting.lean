import BlockMachine.Sharing.Cells
import BlockMachine.Proofs.Value.Known
import BlockMachine.Proofs.Value.Typing

namespace BlockMachine

/-!
# Casts are sound

What a cast gives is what its type asks for, in every field of every record inside it.

* `Registry.Made` tells which registries declarations make: in these a number belongs to one type
  (`Registry.Made.eq_of_id`), and the fields of a record type have declared types;
* `Value.HasShape` is what a type asks of a value;
* `Ty.cast?_hasShape`: casts give such values if the records that they are given are well typed;
* `Ty.cast_list_record`: the fields of a record, as a list, are cast to that record;
* `Ty.cast_sound` puts these together.
-/

/-! ### Registries -/

namespace Registry

/-- A registry that declarations made, each of types declared before. -/
inductive Made : Registry → Prop where
  | empty : Made {}
  | addRecord {reg : Registry} (h : Made reg) (name : String) {fields : List (String × Ty)}
    (hfields : ∀ d ∈ fields, d.2 ∈ reg.types) : Made (reg.addRecord name fields).2
  | addModule {reg : Registry} (h : Made reg) (name : String) : Made (reg.addModule name).2
  | addMethod {reg : Registry} (h : Made reg) (id : TypeId) (name : String) (block : BlockId) :
    Made (reg.addMethod id name block)

namespace Made

variable {reg : Registry}

/-- A registry that declarations make is sound. -/
theorem sound (h : reg.Made) : reg.Sound := by
  induction h with
  | empty => exact sound_new
  | @addRecord reg _ name fields hfields ih =>
    refine ih.push rfl (.record ⟨_, List.getElem?_concat_length⟩ fun d hd => ?_)
    exact (ih.known d.2 (hfields d hd)).mono (List.prefix_append ..)
  | addModule _ name ih => exact ih.push rfl (.module ⟨_, List.getElem?_concat_length⟩)
  | addMethod _ id name block ih =>
    exact ⟨ih.builtin, ih.numbered, fun ty hty => (ih.known ty hty).mono (.refl _)⟩

/-- A number belongs to one type. -/
theorem eq_of_id (h : reg.Made) {ty ty' : Ty} (hty : ty ∈ reg.types) (hty' : ty' ∈ reg.types)
    (hid : ty.id = ty'.id) : ty = ty' := by
  obtain ⟨i, hi⟩ := List.getElem?_of_mem hty
  obtain ⟨j, hj⟩ := List.getElem?_of_mem hty'
  obtain rfl : i = j := by rw [← h.sound.numbered i ty hi, hid, h.sound.numbered j ty' hj]
  exact Option.some.inj (hi.symm.trans hj)

/-- Built-in types are declared in it. -/
theorem builtin_mem (h : reg.Made) (b : Builtin) : .basic b ∈ reg.types :=
  List.mem_of_getElem? (h.sound.builtin b)

/-- The fields of a declared record type have declared types. -/
theorem field_mem (h : reg.Made) {r : RecordType} (hr : .record r ∈ reg.types) {d : String × Ty}
    (hd : d ∈ r.fields) : d.2 ∈ reg.types := by
  induction h with
  | empty =>
    obtain ⟨b, -, hb⟩ := List.mem_map.1 hr
    exact nomatch hb
  | addRecord _ name hfields ih =>
    rcases List.mem_append.1 hr with hold | hnew
    · exact List.mem_append_left _ (ih hold)
    · obtain rfl := Ty.record.inj (List.mem_singleton.1 hnew)
      exact List.mem_append_left _ (hfields d hd)
  | addModule _ name ih =>
    rcases List.mem_append.1 hr with hold | hnew
    · exact List.mem_append_left _ (ih hold)
    · exact nomatch List.mem_singleton.1 hnew
  | addMethod _ id name block ih => exact ih hr

end Made

end Registry

/-! ### What a type asks of a value -/

namespace Value

/-- A value has the shape that a type asks for: anything that was not moved away for `any`, a module of
    any type for `module`, a value with the number of the type for others, and for a record type a record
    with this number and one value for each declared field, of the shape that the type of the field
    asks for. -/
inductive HasShape : Ty → Value → Prop where
  | any {v : Value} (hmoved : v.isMoved = false) : HasShape (.basic .any) v
  | anyModule (m : ModuleType) : HasShape (.basic .module) (.module m)
  | basic {b : Builtin} {v : Value} (hany : b ≠ .any) (hmodule : b ≠ .module) (hid : v.typeId = b.id) :
    HasShape (.basic b) v
  | module {m : ModuleType} {v : Value} (hid : v.typeId = m.id) : HasShape (.module m) v
  | record {r type : RecordType} {id : BufferId} {fields : List Value} (hid : type.id = r.id)
    (hfields : List.Forall₂ (fun d u => HasShape d.2 u) r.fields fields) :
    HasShape (.record r) (.record id type fields)

/-- The types of a value and of everything inside it are in a registry. -/
def Over (reg : Registry) (v : Value) : Prop :=
  v.All fun u => u.type ∈ reg.types

variable {reg : Registry}

/-- No value has the number of the type of all modules, since each module has a type of its own. -/
theorem typeId_ne_module (hreg : reg.Made) {v : Value} (hv : v.type ∈ reg.types) :
    v.typeId ≠ Builtin.module.id := by
  intro hid
  have htype := hreg.eq_of_id hv (hreg.builtin_mem .module) hid
  cases v <;> cases htype

end Value

namespace Ty

variable {reg : Registry} {ty : Ty} {v w : Value} {n n' : BufferId}

open Value (HasShape Over)

/-- A cast to a built-in type gives a value of that type. -/
theorem castBasic_hasShape (hreg : reg.Made) (hv : v.type ∈ reg.types) {b : Builtin}
    (h : castBasic b v n = some (w, n')) : w.HasShape (.basic b) := by
  simp only [castBasic] at h
  split at h
  case h_1 | h_3 => cases h
  case h_2 hmoved =>
    obtain ⟨rfl, rfl⟩ := Prod.mk.inj (Option.some.inj h)
    refine .any ?_
    cases v with
    | moved => exact absurd rfl hmoved
    | _ => rfl
  case h_4 x =>
    cases hx : exactInt? x with
    | none =>
      rw [hx] at h
      cases h
    | some i =>
      rw [hx] at h
      obtain ⟨rfl, rfl⟩ := Prod.mk.inj (Option.some.inj h)
      exact .basic (by decide) (by decide) rfl
  case h_5 | h_6 =>
    obtain ⟨rfl, rfl⟩ := Prod.mk.inj (Option.some.inj h)
    exact .basic (by decide) (by decide) rfl
  case h_7 =>
    obtain ⟨rfl, rfl⟩ := Prod.mk.inj (Option.some.inj h)
    exact .anyModule _
  case h_8 hany _ _ _ _ _ _ =>
    split at h
    next hid =>
      obtain ⟨rfl, rfl⟩ := Prod.mk.inj (Option.some.inj h)
      refine .basic hany ?_ hid
      rintro rfl
      exact Value.typeId_ne_module hreg hv hid
    next => cases h

/-- A cast gives a value of the shape that its type asks for. -/
theorem cast?_hasShape (hreg : reg.Made) (hty : ty ∈ reg.types) (hover : v.Over reg) (hv : v.WellTyped)
    (h : ty.cast? v n = some (w, n')) : w.HasShape ty := by
  -- a cast to a record type casts the parts of its argument
  induction v using Value.induction_parts generalizing ty w n n' with
  | h v ih =>
    cases ty with
    | basic b => exact castBasic_hasShape hreg hover.here h
    | module m =>
      have hleaves := leaves_iff.1 (cast?_leaves h) n
      cases w with
      | module m' =>
        simp only [cast?] at hleaves
        split at hleaves
        next hid => exact .module hid
        next => cases hleaves
      | _ => cases hleaves
    | record r =>
      rcases cast?_record h with ⟨rfl, rfl⟩ | ⟨ws, m, hcast, rfl, rfl⟩
      · -- a record of this type is taken as it is; its fields are fixed points of casts
        obtain ⟨b, type, fields, rfl, hid⟩ := cast?_record_type h
        obtain rfl : type = r := Ty.record.inj (hreg.eq_of_id hover.here hty hid)
        have hfits : List.Forall₂ (fun d u => d.2.Leaves u) type.fields fields := hv.here
        refine .record rfl (forall₂_mono_mem hfits fun d hd u hu hleaves => ?_)
        exact ih u hu (hreg.field_mem hty hd) (hover.inside u hu) (hv.inside u hu) (leaves_iff.1 hleaves 0)
      · refine .record rfl (forall₂_mono_mem (castFields_casts hcast) fun d hd u _ hmade => ?_)
        obtain ⟨p, hp, k, k', hfield⟩ := hmade
        exact ih p hp (hreg.field_mem hty hd) (hover.inside p hp) (hv.inside p hp) hfield

/-- The fields of a well-typed record, as a list, are cast to that record again. -/
theorem cast_list_record {type : RecordType} {fields : List Value}
    (h : List.Forall₂ (fun d u => d.2.Leaves u) type.fields fields) (id n : BufferId) :
    (record type).cast (.list id fields) n = .ok (.record n type fields, n + 1) := by
  have hcast : (record type).cast? (.list id fields) n = some (.record n type fields, n + 1) := by
    change (castFields type.fields fields n).bind _ = _
    rw [castFields_of_leaves h]
    rfl
  rw [cast, hcast]

/-- A cast of a cell that fails leaves all cells as they were. -/
theorem apply_cast_failed {c c' : Cells} {i j : Nat} {e : CastError}
    (h : Cells.apply (.cast i ty j) c = (.failed e, c')) : c' = c := by
  simp only [Cells.apply, bind, StateT.bind, get, getThe, MonadStateOf.get, StateT.get, pure] at h
  cases hcast : ty.cast (c.value i) c.store.next with
  | ok r =>
    rw [hcast] at h
    exact nomatch (Prod.mk.inj h).1
  | error e' =>
    rw [hcast] at h
    exact (Prod.mk.inj h).2.symm

/-- **Casts are sound.** Let a type and the types inside a value be of one registry, and let each record
    inside the value have a value for each declared field which a cast to the type of the field leaves as
    it is. Then whatever a cast of the value to the type gives has the shape that the type asks for, at
    every depth, and a further cast leaves it as it is. If the value is a record then a cast to a list and
    one back give a record of its type with its fields. And a cast from cell to cell that fails changes
    no cell. -/
theorem cast_sound (hreg : reg.Made) (hty : ty ∈ reg.types) (hover : v.Over reg) (hv : v.WellTyped) :
    (∀ n w n', ty.cast v n = .ok (w, n') → w.HasShape ty ∧ ∀ k, ty.cast w k = .ok (w, k)) ∧
    (∀ b type fields, v = .record b type fields → ∀ n, ∃ l n' b' n'',
      (basic .list).cast v n = .ok (l, n') ∧
        (record type).cast l n' = .ok (.record b' type fields, n'')) ∧
    ∀ (c c' : Cells) (i j : Nat) (e : CastError),
      Cells.apply (.cast i ty j) c = (.failed e, c') → c' = c := by
  refine ⟨fun n w n' h => ?_, ?_, fun c c' i j e => apply_cast_failed⟩
  · have hcast : ty.cast? v n = some (w, n') := by
      rw [cast] at h
      split at h
      next r hr => rw [hr, Except.ok.inj h]
      next => cases h
    exact ⟨cast?_hasShape hreg hty hover hv hcast, cast?_leaves hcast⟩
  · rintro b type fields rfl n
    exact ⟨.list n fields, n + 1, n + 1, n + 2, rfl, cast_list_record hv.here n (n + 1)⟩

end Ty

namespace Segment

/-- A record of two numbers. -/
def point : RecordType :=
  (Registry.addRecord {} "Point" [("x", .basic .float), ("y", .basic .float)]).1

/-- A registry with a record type for points and one for pairs of them. -/
def registry : Registry :=
  (Registry.addRecord (Registry.addRecord {} point.name point.fields).2 "Segment"
    [("from", .record point), ("to", .record point)]).2

/-- A pair of points. -/
def segment : RecordType :=
  ⟨14, "Segment", [("from", .record point), ("to", .record point)]⟩

/-- A point that is a list of two integers, and one that is a record. -/
def ends : Value :=
  .list 0 [.list 1 [.int 1, .int 2], .record 2 point [.float 3.0, .float 4.0]]

/-- The registry of the example is made by declarations. -/
theorem registry_made : registry.Made := by
  refine .addRecord (.addRecord .empty _ ?_) _ ?_
  · rintro d hd
    obtain rfl | rfl : d = ("x", .basic .float) ∨ d = ("y", .basic .float) := by
      simpa [point, Registry.addRecord] using hd
    all_goals exact Registry.Made.builtin_mem .empty .float
  · rintro d hd
    obtain rfl | rfl : d = ("from", .record point) ∨ d = ("to", .record point) := by simpa using hd
    all_goals exact List.mem_append_right _ List.mem_cons_self

/-- Points are declared in it. -/
theorem point_mem : .record point ∈ registry.types :=
  List.mem_append_left _ (List.mem_append_right _ List.mem_cons_self)

/-- Segments are declared in the registry of the example. -/
theorem segment_mem : .record segment ∈ registry.types :=
  List.mem_append_right _ List.mem_cons_self

/-- The list of two ends has declared types only. -/
theorem ends_over : ends.Over registry := by
  have hbuiltin := registry_made.builtin_mem
  refine ⟨hbuiltin .list, ?_⟩
  simp only [ends, Value.parts, List.mem_cons, List.not_mem_nil, or_false, forall_eq_or_imp, forall_eq]
  refine ⟨⟨hbuiltin .list, ?_⟩, ⟨point_mem, ?_⟩⟩
  · simpa [Value.parts] using
      ⟨Value.All.of_atom rfl (hbuiltin .int), Value.All.of_atom rfl (hbuiltin .int)⟩
  · simpa [Value.parts] using
      ⟨Value.All.of_atom rfl (hbuiltin .float), Value.All.of_atom rfl (hbuiltin .float)⟩

/-- It is well typed. -/
theorem ends_wellTyped : ends.WellTyped := by
  have hatom : ∀ {v : Value}, v.parts = [] → v.fields? = none → v.WellTyped :=
    fun hparts hfields => .of_atom hparts (Value.fits_of_fields? hfields)
  refine ⟨trivial, ?_⟩
  simp only [ends, Value.parts, List.mem_cons, List.not_mem_nil, or_false, forall_eq_or_imp, forall_eq]
  refine ⟨⟨trivial, ?_⟩, ⟨?_, ?_⟩⟩
  · simpa [Value.parts] using ⟨hatom rfl rfl, hatom rfl rfl⟩
  · exact .cons (fun _ => rfl) (.cons (fun _ => rfl) .nil)
  · simpa [Value.parts] using ⟨hatom rfl rfl, hatom rfl rfl⟩

/-- A list of two ends becomes a record of two records of floats. -/
theorem cast_sound_segment :
    registry.Made ∧ .record segment ∈ registry.types ∧ ends.Over registry ∧ ends.WellTyped ∧
      ∃ w n', (Ty.record segment).cast ends 3 = .ok (w, n') ∧ w.HasShape (.record segment) ∧
        ∀ k, (Ty.record segment).cast w k = .ok (w, k) :=
  ⟨registry_made, segment_mem, ends_over, ends_wellTyped, _, _, rfl,
    (Ty.cast_sound registry_made segment_mem ends_over ends_wellTyped).1 3 _ _ rfl⟩

end Segment

end BlockMachine

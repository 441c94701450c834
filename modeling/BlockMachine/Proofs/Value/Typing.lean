import BlockMachine.Proofs.Value.Cast
import Mathlib.Data.List.Forall2

namespace BlockMachine

/-!
# Records of their type

A record is well formed if it has a value for every field of its type, and a cast to the type of the field
leaves the value as it is. Casts give only such records, whatever they are given.

* `Ty.Leaves` says that a type takes a value as it is, `Ty.cast?_leaves` that it takes what a cast gave;
* `Value.Fits` is about one record, `Value.WellTyped` about all records inside a value.
-/

/-- Lists that are related item by item are related in every way that follows for their items. -/
theorem forall₂_mono_mem {α β : Type} {R S : α → β → Prop} {xs : List α} {ys : List β}
    (h : List.Forall₂ R xs ys) (hRS : ∀ x ∈ xs, ∀ y ∈ ys, R x y → S x y) :
    List.Forall₂ S xs ys := by
  refine List.forall₂_iff_zip.2 ⟨h.length_eq, fun hmem => ?_⟩
  obtain ⟨hx, hy⟩ := List.of_mem_zip hmem
  exact hRS _ hx _ hy ((List.forall₂_iff_zip.1 h).2 hmem)

namespace Ty

variable {ty : Ty} {v w : Value} {n n' : BufferId}

/-- A cast to the type leaves the value as it is. -/
def Leaves (ty : Ty) (v : Value) : Prop :=
  ∀ n, ty.cast v n = .ok (v, n)

/-- A type leaves a value as it is if the cast gives it back, whatever number is next. -/
theorem leaves_iff : ty.Leaves v ↔ ∀ n, ty.cast? v n = some (v, n) := by
  refine forall_congr' fun n => ?_
  rw [cast]
  cases ty.cast? v n with
  | none => simp
  | some r => simp

/-- A built-in type leaves what it gave. -/
theorem castBasic_leaves {b : Builtin} (h : castBasic b v n = some (w, n')) : (basic b).Leaves w := by
  refine leaves_iff.2 fun k => ?_
  rw [cast?]
  simp only [castBasic] at h
  split at h
  case h_1 | h_3 => cases h
  case h_2 hmoved =>
    obtain ⟨rfl, rfl⟩ := Prod.mk.inj (Option.some.inj h)
    simp only [castBasic]
    rfl
  -- the integer that a whole float becomes is taken as it is
  case h_4 x =>
    cases hx : exactInt? x with
    | none =>
      rw [hx] at h
      cases h
    | some i =>
      rw [hx] at h
      obtain ⟨rfl, rfl⟩ := Prod.mk.inj (Option.some.inj h)
      rfl
  case h_5 | h_6 | h_7 =>
    obtain ⟨rfl, rfl⟩ := Prod.mk.inj (Option.some.inj h)
    rfl
  case h_8 =>
    split at h
    next hid =>
      obtain ⟨rfl, rfl⟩ := Prod.mk.inj (Option.some.inj h)
      simp only [castBasic, if_pos hid]
      rfl
    next => cases h

/-- A cast to a record type gives a record of that type. -/
theorem cast?_record_type {r : RecordType} (h : cast? (record r) v n = some (w, n')) :
    ∃ b type fields, w = .record b type fields ∧ type.id = r.id := by
  obtain ⟨id, name, decls⟩ := r
  -- a list, or a record of another type, is made into a record of this one
  have hnew : ∀ {vs}, (do
      let cast ← castFields decls vs
      return .record (← fresh) ⟨id, name, decls⟩ cast : StateT BufferId Option Value) n = some (w, n') →
      ∃ b type fields, w = .record b type fields ∧ type.id = id := by
    intro vs hrun
    obtain ⟨⟨ws, m⟩, -, hdone⟩ := Option.bind_eq_some_iff.1 hrun
    obtain ⟨rfl, -⟩ := Prod.mk.inj (Option.some.inj hdone)
    exact ⟨_, _, _, rfl, rfl⟩
  cases v with
  | record b type fields =>
    simp only [cast?] at h
    split at h
    next hid =>
      obtain ⟨rfl, -⟩ := Prod.mk.inj (Option.some.inj h)
      exact ⟨_, _, _, rfl, hid⟩
    next => exact hnew h
  | list b items => exact hnew h
  | _ => cases h

/-- A record type takes records of that type as they are. -/
theorem leaves_record {r : RecordType} :
    (record r).Leaves v ↔ ∃ b type fields, v = .record b type fields ∧ type.id = r.id := by
  refine ⟨fun h => cast?_record_type (leaves_iff.1 h 0), ?_⟩
  rintro ⟨b, type, fields, rfl, hid⟩
  obtain ⟨id, name, decls⟩ := r
  refine leaves_iff.2 fun n => ?_
  rw [cast?, if_pos hid]
  rfl

/-- A type takes what a cast gave as it is. -/
theorem cast?_leaves (h : ty.cast? v n = some (w, n')) : ty.Leaves w := by
  cases ty with
  | basic b => exact castBasic_leaves h
  | record r => exact leaves_record.2 (cast?_record_type h)
  | module m =>
    simp only [cast?] at h
    split at h
    · split at h
      next hid =>
        obtain ⟨rfl, -⟩ := Prod.mk.inj (Option.some.inj h)
        refine leaves_iff.2 fun k => ?_
        rw [cast?, if_pos hid]
        rfl
      next => cases h
    · cases h

/-- Every type leaves what a cast to it gave, where a failed cast is reported. -/
theorem cast_leaves (h : ty.cast v n = .ok (w, n')) : ty.Leaves w := by
  rw [cast] at h
  split at h
  next r hr =>
    obtain rfl := Except.ok.inj h
    exact cast?_leaves hr
  next => cases h

/-- Each field that a cast gives was made by casting one of the values to the type of the field. -/
theorem castFields_casts {decls : List (String × Ty)} {vs ws : List Value}
    (h : castFields decls vs n = some (ws, n')) :
    List.Forall₂ (fun d w => ∃ v ∈ vs, ∃ k k', d.2.cast? v k = some (w, k')) decls ws := by
  induction decls generalizing vs ws n with
  | nil =>
    cases vs with
    | nil =>
      obtain ⟨rfl, -⟩ := Prod.mk.inj (Option.some.inj h)
      exact .nil
    | cons => exact nomatch h
  | cons d decls ih =>
    cases vs with
    | nil => exact nomatch h
    | cons v rest =>
      obtain ⟨⟨w, m⟩, hcast, hrun⟩ := Option.bind_eq_some_iff.1 h
      obtain ⟨⟨ws', m'⟩, hrest, hdone⟩ := Option.bind_eq_some_iff.1 hrun
      obtain ⟨rfl, rfl⟩ := Prod.mk.inj (Option.some.inj hdone)
      refine .cons ⟨v, List.mem_cons_self, n, m, hcast⟩ ((ih hrest).imp ?_)
      rintro d w ⟨v', hv', hcast'⟩
      exact ⟨v', List.mem_cons_of_mem _ hv', hcast'⟩

/-- Fields that were cast are taken as they are by the types that they are declared with. -/
theorem castFields_leaves {decls : List (String × Ty)} {vs ws : List Value}
    (h : castFields decls vs n = some (ws, n')) : List.Forall₂ (fun d w => d.2.Leaves w) decls ws :=
  (castFields_casts h).imp fun _ _ ⟨_, _, _, _, hcast⟩ => cast?_leaves hcast

/-- Fields that their types leave as they are go through a cast unchanged. -/
theorem castFields_of_leaves {decls : List (String × Ty)} {vs : List Value}
    (h : List.Forall₂ (fun d v => d.2.Leaves v) decls vs) : castFields decls vs n = some (vs, n) := by
  induction h with
  | nil => rfl
  | @cons d v decls vs hd _ ih =>
    change (cast? d.2 v n).bind _ = _
    rw [leaves_iff.1 hd n]
    change (castFields decls vs n).bind _ = _
    rw [ih]
    rfl

/-! ### Other parts -/

namespace Leaves

variable {id id' : BufferId}

/-- Only built-in types take lists, maps and closures as they are. -/
theorem basic_of (h : ty.Leaves v) (hrecord : v.type.isRecord = false) (hmodule : ∀ m, v ≠ .module m) :
    ∃ b, ty = basic b := by
  cases ty with
  | basic b => exact ⟨b, rfl⟩
  | record r =>
    obtain ⟨_, _, _, rfl, -⟩ := leaves_record.1 h
    exact nomatch hrecord
  | module m =>
    cases v with
    | module n => exact absurd rfl (hmodule n)
    | _ => exact nomatch h 0

/-- Whether a list is left does not depend on its items. -/
theorem list {items items' : List Value} (h : ty.Leaves (.list id items)) : ty.Leaves (.list id' items') := by
  obtain ⟨b, rfl⟩ := h.basic_of rfl nofun
  intro n
  cases b <;> first | rfl | exact nomatch h n

/-- Whether a map is left does not depend on its entries. -/
theorem map {entries entries' : List (Key × Value)} (h : ty.Leaves (.map id entries)) :
    ty.Leaves (.map id' entries') := by
  obtain ⟨b, rfl⟩ := h.basic_of rfl nofun
  intro n
  cases b <;> first | rfl | exact nomatch h n

/-- Whether a closure is left does not depend on its block and its bindings. -/
theorem func {block block' : BlockId} {bindings bindings' : List Value}
    (h : ty.Leaves (.func id block bindings)) : ty.Leaves (.func id' block' bindings') := by
  obtain ⟨b, rfl⟩ := h.basic_of rfl nofun
  intro n
  cases b <;> first | rfl | exact nomatch h n

/-- Whether a record is left depends on its type, and not on its fields. -/
theorem record {type : RecordType} {fields fields' : List Value} (h : ty.Leaves (.record id type fields)) :
    ty.Leaves (.record id' type fields') := by
  cases ty with
  | basic b =>
    rw [leaves_iff] at h ⊢
    intro n
    replace h := h n
    -- other built-in types compare the numbers of types and do not look at fields
    cases b with
    | any => rfl
    | list | moved => exact nomatch h
    | _ =>
      have hid : type.id = Builtin.id _ := by_contra fun hne => nomatch (congrFun (if_neg hne) n).symm.trans h
      exact congrFun (if_pos hid) n
  | module m => exact nomatch h 0
  | record r =>
    obtain ⟨_, _, _, hv, hid⟩ := leaves_record.1 h
    obtain ⟨-, rfl, -⟩ := Value.record.inj hv
    exact leaves_record.2 ⟨_, _, _, rfl, hid⟩

end Leaves

end Ty

namespace Value

/-- A record has a value for every field of its type, which takes it as it is. -/
def Fits : Value → Prop
  | record _ type fields => List.Forall₂ (fun d v => d.2.Leaves v) type.fields fields
  | _ => True

/-- Every record inside a value has values of the types that its fields are declared with. -/
def WellTyped (v : Value) : Prop :=
  v.All Fits

/-- What is no record fits. -/
theorem fits_of_fields? {v : Value} (h : v.fields? = none) : v.Fits := by
  cases v with
  | record => exact nomatch h
  | _ => trivial

/-- A field is given another value. -/
theorem Fits.set {id id' : BufferId} {type : RecordType} {fields : List Value}
    (h : (record id type fields).Fits) {i : Nat} {d : String × Ty} (hd : type.fields[i]? = some d) {v : Value}
    (hv : d.2.Leaves v) : (record id' type (fields.set i v)).Fits := by
  obtain ⟨hlength, hleaves⟩ := List.forall₂_iff_get.1 h
  refine List.forall₂_iff_get.2 ⟨hlength.trans (List.length_set ..).symm, fun j hj hj' => ?_⟩
  rw [List.get_eq_getElem, List.get_eq_getElem, List.getElem_set]
  split
  next hij =>
    subst hij
    obtain ⟨_, rfl⟩ := List.getElem?_eq_some_iff.1 hd
    exact hv
  next => exact hleaves j hj (hlength ▸ hj)

end Value

end BlockMachine

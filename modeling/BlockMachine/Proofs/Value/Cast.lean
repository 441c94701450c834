import BlockMachine.Value.Cast
import BlockMachine.Sharing.Plain
import BlockMachine.Proofs.Value.Parts

namespace BlockMachine

/-!
# Casts and buffer numbers

A cast keeps the nodes of its argument or makes nodes with new numbers, and up to numbers its
result depends only on its argument up to numbers.

* `Value.erase_erase` and its companions are about `Value.erase`, which forgets the numbers;
* `Ty.castBasic_cases`, `Ty.cast?_module` and `Ty.cast?_record` say what a cast can give;
* `Ty.cast?_named`: the nodes of a result are nodes of the argument or have new numbers;
* `Ty.cast?_alike`, `Ty.cast_cases` and `Ty.erase_initial`: results up to numbers.
-/

/-! ### Buffer numbers forgotten -/

namespace Value

/-- Numbers of items are forgotten item by item. -/
theorem eraseItems_eq (items : List Value) : eraseItems items = items.map erase := by
  induction items with
  | nil => rfl
  | cons v rest ih => rw [eraseItems, ih, List.map_cons]

/-- Numbers of entries are forgotten value by value. -/
theorem eraseEntries_eq (entries : List (Key × Value)) :
    eraseEntries entries = entries.map fun e => (e.1, e.2.erase) := by
  induction entries with
  | nil => rfl
  | cons e rest ih => rw [eraseEntries, ih, List.map_cons]

/-- Forgetting numbers twice is forgetting them once. -/
theorem erase_erase (v : Value) : v.erase.erase = v.erase := by
  induction v using induction_parts with
  | h v ih =>
    cases v with
    | list id items =>
      simpa [erase, eraseItems_eq, parts] using ih
    | map id entries =>
      have hentry : ∀ e ∈ entries, e.2.erase.erase = e.2.erase :=
        fun e he => ih e.2 (List.mem_map.2 ⟨e, he, rfl⟩)
      simpa [erase, eraseEntries_eq] using fun k w hkw => hentry (k, w) hkw
    | record id type fields =>
      simpa [erase, eraseItems_eq, parts] using ih
    | func id block bindings =>
      simpa [erase, eraseItems_eq, parts] using ih
    | _ => rfl

/-- A value without a buffer is known by its contents. -/
theorem eq_of_erase {v w : Value} (hv : v.id? = none) (h : w.erase = v.erase) : w = v := by
  cases v <;> cases w <;> simp_all [id?, erase]

end Value

namespace Ty

/-! ### Named results -/

section Named

variable {v w : Value} {vs ws : List Value} {n n' : BufferId} {val : BufferId → Value}

/-- A cast to a built-in type gives its argument, a value of a built-in type without a buffer,
    or the fields of a record as a new list. -/
theorem castBasic_cases {b : Builtin} (h : castBasic b v n = some (w, n')) :
    (w = v ∧ n' = n) ∨ ((∃ b, w.type = .basic b) ∧ w.id? = none ∧ n' = n) ∨
      (∃ id type fields, v = .record id type fields ∧ w = .list n fields ∧ n' = n + 1) := by
  simp only [castBasic] at h
  split at h
  case h_1 | h_3 => exact nomatch h
  case h_2 | h_7 =>
    obtain ⟨rfl, rfl⟩ := Prod.mk.inj (Option.some.inj h)
    simp
  case h_4 x =>
    cases hx : exactInt? x with
    | none =>
      rw [hx] at h
      exact nomatch h
    | some i =>
      rw [hx] at h
      obtain ⟨rfl, rfl⟩ := Prod.mk.inj (Option.some.inj h)
      exact .inr (.inl ⟨⟨_, rfl⟩, rfl, rfl⟩)
  case h_5 =>
    obtain ⟨rfl, rfl⟩ := Prod.mk.inj (Option.some.inj h)
    exact .inr (.inl ⟨⟨_, rfl⟩, rfl, rfl⟩)
  case h_6 =>
    obtain ⟨rfl, rfl⟩ := Prod.mk.inj (Option.some.inj h)
    exact .inr (.inr ⟨_, _, _, rfl, rfl, rfl⟩)
  case h_8 =>
    split at h
    · obtain ⟨rfl, rfl⟩ := Prod.mk.inj (Option.some.inj h)
      exact .inl ⟨rfl, rfl⟩
    · exact nomatch h

/-- A cast to the type of a module gives its argument. -/
theorem cast?_module {m : ModuleType} (h : cast? (.module m) v n = some (w, n')) :
    w = v ∧ n' = n := by
  simp only [cast?] at h
  split at h
  · split at h
    · obtain ⟨rfl, rfl⟩ := Prod.mk.inj (Option.some.inj h)
      exact ⟨rfl, rfl⟩
    · exact nomatch h
  · exact nomatch h

/-- A cast to a record type gives its argument, or a new record of its parts, each cast to the
    type of its field. -/
theorem cast?_record {r : RecordType} (h : cast? (.record r) v n = some (w, n')) :
    (w = v ∧ n' = n) ∨
      ∃ ws m, castFields r.fields v.parts n = some (ws, m) ∧ w = .record m r ws ∧ n' = m + 1 := by
  obtain ⟨id, name, decls⟩ := r
  have hparts : ∀ vs,
      (do let cast ← castFields decls vs
          return .record (← fresh) ⟨id, name, decls⟩ cast : StateT BufferId Option Value) n =
        some (w, n') →
      ∃ ws m, castFields decls vs n = some (ws, m) ∧ w = .record m ⟨id, name, decls⟩ ws ∧
        n' = m + 1 := by
    intro vs hrun
    obtain ⟨⟨ws, m⟩, hcast, hnew⟩ := Option.bind_eq_some_iff.1 hrun
    obtain ⟨rfl, rfl⟩ := Prod.mk.inj (Option.some.inj hnew)
    exact ⟨ws, m, hcast, rfl, rfl⟩
  cases v with
  | record b r fields =>
    simp only [cast?] at h
    split at h
    · obtain ⟨rfl, rfl⟩ := Prod.mk.inj (Option.some.inj h)
      exact .inl ⟨rfl, rfl⟩
    · exact .inr (hparts fields h)
  | list b items => exact .inr (hparts items h)
  | _ => exact nomatch h

/-- The result of a cast has its numbers when the argument has. -/
def KeepsNames (n n' : BufferId) (val : BufferId → Value) (ws : List Value) : Prop :=
  n ≤ n' ∧ ∃ val' : BufferId → Value, (∀ j < n, val' j = val j) ∧ ∀ w ∈ ws, w.Named n' val'

/-- A value that is given back keeps its numbers. -/
theorem KeepsNames.refl (hv : v.Named n val) : KeepsNames n n val [v] :=
  ⟨Nat.le_refl _, val, fun _ _ => rfl, by simpa using hv⟩

/-- A cast to a built-in type keeps numbers, or makes one node. -/
theorem castBasic_named {b : Builtin} (h : castBasic b v n = some (w, n'))
    (hv : v.Named n val) : KeepsNames n n' val [w] := by
  rcases castBasic_cases h with ⟨rfl, rfl⟩ | ⟨_, hid, rfl⟩ | ⟨id, type, fields, rfl, rfl, rfl⟩
  · exact .refl hv
  · exact ⟨Nat.le_refl _, val, fun _ _ => rfl, by simpa using .of_atom hid⟩
  · refine ⟨Nat.le_succ n, fun j => if j = n then .list n fields else val j, ?_, ?_⟩
    · exact fun j hj => if_neg (Nat.ne_of_lt hj)
    · simpa using .node rfl hv.inside

/-- Fields with their numbers become a record with its number. -/
theorem KeepsNames.record {type : RecordType} (h : KeepsNames n n' val ws) :
    KeepsNames n (n' + 1) val [.record n' type ws] := by
  obtain ⟨hle, val', hagree, hws⟩ := h
  refine ⟨Nat.le_succ_of_le hle, fun j => if j = n' then .record n' type ws else val' j, ?_, ?_⟩
  · intro j hj
    exact (if_neg (Nat.ne_of_lt (Nat.lt_of_lt_of_le hj hle))).trans (hagree j hj)
  · simpa using .node rfl hws

mutual

/-- The nodes that a cast makes have new numbers, and the others stay. -/
theorem cast?_named (ty : Ty) {v w : Value} {n n' : BufferId} {val : BufferId → Value}
    (h : cast? ty v n = some (w, n')) (hv : v.Named n val) : KeepsNames n n' val [w] := by
  match ty with
  | .basic b => exact castBasic_named h hv
  | .module m =>
    obtain ⟨rfl, rfl⟩ := cast?_module h
    exact .refl hv
  | .record ⟨id, name, decls⟩ =>
    rcases cast?_record h with ⟨rfl, rfl⟩ | ⟨ws, m, hcast, rfl, rfl⟩
    · exact .refl hv
    · exact (castFields_named decls hcast hv.inside).record

/-- Casts of the fields of a record keep numbers, or make nodes. -/
theorem castFields_named (decls : List (String × Ty)) {vs ws : List Value} {n n' : BufferId}
    {val : BufferId → Value} (h : castFields decls vs n = some (ws, n'))
    (hvs : ∀ v ∈ vs, v.Named n val) : KeepsNames n n' val ws := by
  match decls, vs with
  | [], [] =>
    obtain ⟨rfl, rfl⟩ := Prod.mk.inj (Option.some.inj h)
    exact ⟨Nat.le_refl _, val, fun _ _ => rfl, by simp⟩
  | (_, ty) :: decls, v :: rest =>
    obtain ⟨⟨w, m⟩, hcast, hrun⟩ := Option.bind_eq_some_iff.1 h
    obtain ⟨⟨ws', m'⟩, hrest, hdone⟩ := Option.bind_eq_some_iff.1 hrun
    obtain ⟨rfl, rfl⟩ := Prod.mk.inj (Option.some.inj hdone)
    obtain ⟨hle₁, val₁, hagree₁, hw⟩ := cast?_named ty hcast (hvs v List.mem_cons_self)
    -- the first field may have taken numbers, so the others are named with those added
    have hrest' : ∀ u ∈ rest, u.Named m val₁ :=
      fun u hu => (hvs u (List.mem_cons_of_mem _ hu)).mono hle₁ hagree₁
    obtain ⟨hle₂, val₂, hagree₂, hws⟩ := castFields_named decls hrest hrest'
    refine ⟨Nat.le_trans hle₁ hle₂, val₂, ?_, List.forall_mem_cons.2 ⟨?_, hws⟩⟩
    · intro j hj
      rw [hagree₂ j (Nat.lt_of_lt_of_le hj hle₁), hagree₁ j hj]
    · exact (hw w List.mem_cons_self).mono hle₂ hagree₂
  | [], _ :: _ => exact nomatch h
  | _ :: _, [] => exact nomatch h

end

end Named

/-! ### Results up to numbers -/

/-- Two computations of a value agree up to buffer numbers, whatever numbers they start from. -/
def Alike (a a' : StateT BufferId Option Value) : Prop :=
  ∀ m n, (a m).map (·.1.erase) = (a' n).map (·.1.erase)

namespace Alike

/-- Values that are the same up to numbers. -/
theorem pure {v w : Value} (h : v.erase = w.erase) : Alike (pure v) (pure w) :=
  fun _ _ => congrArg some h

/-- Casts that are refused agree. -/
theorem failure : Alike failure failure :=
  fun _ _ => rfl

/-- Casts that decide the same way agree. -/
theorem ite {c c' : Prop} [Decidable c] [Decidable c'] {a a' b b' : StateT BufferId Option Value}
    (hc : c ↔ c') (ha : Alike a a') (hb : Alike b b') :
    Alike (if c then a else b) (if c' then a' else b') := by
  by_cases h : c
  · rwa [if_pos h, if_pos (hc.1 h)]
  · rwa [if_neg h, if_neg (mt hc.2 h)]

end Alike

/-- The type of a value has nothing to do with numbers. -/
theorem typeId_erase (v : Value) : v.erase.typeId = v.typeId := by
  cases v <;> rfl

/-- Casts to a built-in type agree up to numbers. -/
theorem castBasic_alike (b : Builtin) (v : Value) :
    Alike (castBasic b v.erase) (castBasic b v) := by
  have hsame : ∀ b : Builtin, Alike
      (if v.erase.typeId = b.id then return v.erase else Alternative.failure)
      (if v.typeId = b.id then return v else Alternative.failure) :=
    fun b => .ite (by rw [typeId_erase]) (.pure v.erase_erase) .failure
  cases b with
  | any => cases v <;> first | exact .failure | exact .pure (Value.erase_erase _)
  | moved => exact .failure
  | int =>
    cases v with
    | float x =>
      cases hx : exactInt? x with
      | none =>
        simp only [Value.erase, castBasic, hx]
        exact .failure
      | some i =>
        simp only [Value.erase, castBasic, hx]
        exact .pure rfl
    | _ => exact hsame .int
  | float =>
    cases v with
    | int i => exact .pure rfl
    | _ => exact hsame .float
  | list =>
    cases v with
    | record id type fields =>
      intro m n
      change some (Value.list m (Value.eraseItems fields)).erase = some (Value.list n fields).erase
      simp [Value.erase, Value.eraseItems_eq, Value.erase_erase]
    | _ => exact hsame .list
  | module =>
    cases v with
    | module m => exact .pure rfl
    | _ => exact hsame .module
  | _ => exact hsame _

/-- Two computations of a list of values agree up to buffer numbers. -/
def AlikeItems (a a' : StateT BufferId Option (List Value)) : Prop :=
  ∀ m n, (a m).map (·.1.map Value.erase) = (a' n).map (·.1.map Value.erase)

/-- Records of fields that agree do so. -/
theorem AlikeItems.record {a a' : StateT BufferId Option (List Value)} (type : RecordType)
    (h : AlikeItems a a') :
    Alike (do let fields ← a; return .record (← fresh) type fields)
      (do let fields ← a'; return .record (← fresh) type fields) := by
  intro m n
  have hmn := h m n
  change ((a m).bind fun r => some (Value.record r.2 type r.1, r.2 + 1)).map (·.1.erase) =
    ((a' n).bind fun r => some (Value.record r.2 type r.1, r.2 + 1)).map (·.1.erase)
  -- both fail or both succeed, since erasing decides that
  cases ha : a m <;> cases ha' : a' n <;> rw [ha, ha'] at hmn <;>
    simp_all [Value.erase, Value.eraseItems_eq]

/-- Lists of values that agree do so item by item. -/
theorem AlikeItems.cons {a a' : StateT BufferId Option Value}
    {b b' : StateT BufferId Option (List Value)} (ha : Alike a a') (hb : AlikeItems b b') :
    AlikeItems (do let w ← a; return w :: (← b)) (do let w ← a'; return w :: (← b')) := by
  intro m n
  have hmn := ha m n
  change ((a m).bind fun r => (b r.2).bind fun q => some (r.1 :: q.1, q.2)).map _ =
    ((a' n).bind fun r => (b' r.2).bind fun q => some (r.1 :: q.1, q.2)).map _
  cases ham : a m with
  | none =>
    cases han : a' n with
    | none => rfl
    | some r' => simp [ham, han] at hmn
  | some r =>
    cases han : a' n with
    | none => simp [ham, han] at hmn
    | some r' =>
      have hrest := hb r.2 r'.2
      simp only [ham, han, Option.map_some, Option.some.injEq] at hmn
      cases hbm : b r.2 <;> cases hbn : b' r'.2 <;> simp_all

mutual

/-- Up to buffer numbers, a cast depends on its argument up to buffer numbers. -/
theorem cast?_alike (ty : Ty) (v : Value) : Alike (cast? ty v.erase) (cast? ty v) := by
  match ty with
  | .basic b => exact castBasic_alike b v
  | .module m =>
    cases v with
    | module m' => exact .ite Iff.rfl (.pure rfl) .failure
    | _ => exact .failure
  | .record ⟨id, name, decls⟩ =>
    cases v with
    | record b r fields =>
      rw [Value.erase, Value.eraseItems_eq]
      refine .ite Iff.rfl (.pure ?_) ((castFields_alike decls fields).record _)
      simp [Value.erase, Value.eraseItems_eq, Value.erase_erase]
    | list b items =>
      rw [Value.erase, Value.eraseItems_eq]
      exact (castFields_alike decls items).record _
    | _ => exact .failure

/-- Casts of the fields of a record agree up to numbers. -/
theorem castFields_alike (decls : List (String × Ty)) (vs : List Value) :
    AlikeItems (castFields decls (vs.map Value.erase)) (castFields decls vs) := by
  match decls, vs with
  | [], [] => exact fun _ _ => rfl
  | (_, ty) :: decls, v :: rest =>
    exact .cons (cast?_alike ty v) (castFields_alike decls rest)
  | [], _ :: _ => exact fun _ _ => rfl
  | _ :: _, [] => exact fun _ _ => rfl

end

/-- Whether a cast succeeds, and with which value up to buffer numbers, depends on the argument
    up to buffer numbers. -/
theorem cast_cases (ty : Ty) (v : Value) (m n : BufferId) :
    (∃ e e', cast ty v.erase m = .error e ∧ cast ty v n = .error e') ∨
      (∃ w w' m' n', cast ty v.erase m = .ok (w, m') ∧ cast ty v n = .ok (w', n') ∧
        cast? ty v n = some (w', n') ∧ w.erase = w'.erase) := by
  have halike := cast?_alike ty v m n
  simp only [cast]
  cases hm : cast? ty v.erase m with
  | none =>
    cases hn : cast? ty v n with
    | none => exact .inl ⟨_, _, rfl, rfl⟩
    | some r => simp [hm, hn] at halike
  | some r =>
    cases hn : cast? ty v n with
    | none => simp [hm, hn] at halike
    | some r' =>
      simp only [hm, hn, Option.map_some, Option.some.injEq] at halike
      exact .inr ⟨_, _, _, _, rfl, rfl, rfl, halike⟩

mutual

/-- The initial value of a type, up to buffer numbers, does not depend on the numbers in use. -/
theorem erase_initial (ty : Ty) (m n : BufferId) :
    (initial ty m).1.erase = (initial ty n).1.erase := by
  match ty with
  | .basic b => cases b <;> rfl
  | .module _ => rfl
  | .record ⟨id, name, decls⟩ =>
    change Value.record 0 _ (Value.eraseItems (initialFields decls m).1) =
      Value.record 0 _ (Value.eraseItems (initialFields decls n).1)
    rw [Value.eraseItems_eq, Value.eraseItems_eq, erase_initialFields decls m n]

/-- The initial values of the fields of a record agree up to numbers. -/
theorem erase_initialFields (decls : List (String × Ty)) (m n : BufferId) :
    (initialFields decls m).1.map Value.erase = (initialFields decls n).1.map Value.erase := by
  match decls with
  | [] => rfl
  | (_, ty) :: rest =>
    change (initial ty m).1.erase :: (initialFields rest (initial ty m).2).1.map Value.erase =
      (initial ty n).1.erase :: (initialFields rest (initial ty n).2).1.map Value.erase
    rw [erase_initial ty m n, erase_initialFields rest (initial ty m).2 (initial ty n).2]

end

end Ty

end BlockMachine

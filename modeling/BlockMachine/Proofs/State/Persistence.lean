import Mathlib.Data.List.Forall2
import BlockMachine.Proofs.State.Format
import BlockMachine.Proofs.Value.Cast

namespace BlockMachine

/-!
# Values through a text and back

What is written for a value reads back as the same value, new buffers aside. Functions, modules,
host pointers and moved values are refused when a value is written, and infinities and what is not
a number when it is read.

* `Value.isSavable` and `Value.Restorable` say of one node what the text keeps;
* `Saved.ofValue_cases`: what can be written down;
* `Saved.toValue_ofValue`: a saved value becomes the value it was made of;
* `ofJsonText_toJsonText`: texts.
-/

namespace Value

variable {P : Value → Prop}

/-- A property of all nodes is one of the node itself and of all nodes of its parts. -/
theorem all_iff {v : Value} : v.All P ↔ P v ∧ ∀ p ∈ v.parts, p.All P :=
  ⟨fun h => ⟨h.here, h.inside⟩, fun h => ⟨h.1, h.2⟩⟩

/-- Whether a value can be written down, its parts aside. -/
def isSavable : Value → Bool
  | func .. | module _ | host _ | moved => false
  | _ => true

/-- The float that a value is has a property. -/
def FloatIs (P : Float → Prop) : Value → Prop
  | float x => P x
  | _ => True

end Value

/-- A cast to the type leaves the value as it is, new buffers aside. -/
def Ty.Fixes (ty : Ty) (v : Value) : Prop :=
  ∃ n w n', ty.cast v n = .ok (w, n') ∧ w.erase = v.erase

/-- What a value has to be, its parts aside, to come back from its text: a float is finite and has a
    text that reads back, a map has every key once, and a record is of the type that has its name
    now, with fields that their types leave alone. -/
def Value.Restorable (reg : Registry) : Value → Prop
  | .float x => Legible x
  | .map _ entries => (entries.map (·.1)).Nodup
  | .record _ type fields =>
    reg.byName? type.name = some (.record type) ∧
      List.Forall₂ (fun d v => Ty.Fixes d.2 v) type.fields fields
  | v => v.isSavable = true

namespace Saved

/-! ### Taking values apart -/

section

variable {ε α β : Type}

/-- What went well in two steps went well in each. -/
theorem exists_of_bind_eq_ok {x : Except ε α} {f : α → Except ε β} {b : β}
    (h : x.bind f = .ok b) : ∃ a, x = .ok a ∧ f a = .ok b := by
  cases x with
  | error e => exact nomatch h
  | ok a => exact ⟨a, rfl, h⟩

/-- What went well and was changed afterwards went well before. -/
theorem exists_of_map_eq_ok {x : Except ε α} {f : α → β} {b : β} (h : x.map f = .ok b) :
    ∃ a, x = .ok a ∧ f a = b := by
  cases x with
  | error e => exact nomatch h
  | ok a => exact ⟨a, rfl, Except.ok.inj h⟩

end

/-- The saved form of a value whose parts have these saved forms. -/
def ofNode : Value → List Saved → Saved
  | .int i, _ => .int i
  | .float x, _ => .float x
  | .bool b, _ => .bool b
  | .str _ s, _ => .str s
  | .list _ _, ss => .list ss
  | .map _ entries, ss => .map ((entries.map (·.1)).zip ss)
  | .record _ type _, ss => .record type.name ss
  | .error message, _ => .error message
  | _, _ => .null

/-- Items are written down one after the other. -/
theorem ofItems_cons (v : Value) (vs : List Value) :
    ofItems (v :: vs) = (ofValue v).bind fun s => (ofItems vs).map (s :: ·) := by
  rw [ofItems]
  cases ofValue v with
  | error e => rfl
  | ok s => cases ofItems vs <;> rfl

/-- The entries of a map are written down as its values are. -/
theorem ofEntries_eq (entries : List (Key × Value)) :
    ofEntries entries = (ofItems (entries.map (·.2))).map ((entries.map (·.1)).zip ·) := by
  induction entries with
  | nil => rfl
  | cons e rest ih =>
    rw [ofEntries, ih, List.map_cons (f := Prod.snd), ofItems_cons]
    cases ofValue e.2 with
    | error e => rfl
    | ok s => cases ofItems (rest.map (·.2)) <;> rfl

/-- A value is written down as its parts are. -/
theorem ofValue_eq {v : Value} (h : v.isSavable = true) :
    ofValue v = (ofItems v.parts).map (ofNode v) := by
  cases v with
  | list id items => 
    rw [ofValue, Value.parts]
    cases ofItems items <;> rfl
  | map id entries => 
    rw [ofValue, ofEntries_eq, Value.parts]
    cases ofItems (entries.map (·.2)) <;> rfl
  | record id type fields => 
    rw [ofValue, Value.parts]
    cases ofItems fields <;> rfl
  | func | module | host | moved => cases h
  | _ => rfl

/-- A node that cannot be written down is refused with the name of its type. -/
theorem ofValue_eq_error {v : Value} (h : v.isSavable = false) :
    ∃ type, ofValue v = .error (.notPersistable type) := by
  cases v with
  | func | module | host | moved => exact ⟨_, rfl⟩
  | _ => exact nomatch h

/-- A list is written down exactly if each of its items is. -/
theorem ofItems_cases {vs : List Value}
    (h : ∀ v ∈ vs, (v.All (·.isSavable = true) ∧ ∃ s, ofValue v = .ok s) ∨
      (¬v.All (·.isSavable = true) ∧ ∃ type, ofValue v = .error (.notPersistable type))) :
    ((∀ v ∈ vs, v.All (·.isSavable = true)) ∧ ∃ ss, ofItems vs = .ok ss) ∨
      ((¬∀ v ∈ vs, v.All (·.isSavable = true)) ∧
        ∃ type, ofItems vs = .error (.notPersistable type)) := by
  induction vs with
  | nil => exact .inl ⟨by simp, [], rfl⟩
  | cons v vs ih =>
    rw [ofItems_cons, List.forall_mem_cons]
    obtain ⟨hv, s, hs⟩ | ⟨hv, type, herror⟩ := h v List.mem_cons_self
    · obtain ⟨hvs, ss, hss⟩ | ⟨hvs, type, herror⟩ := ih fun w hw => h w (List.mem_cons_of_mem _ hw)
      · exact .inl ⟨⟨hv, hvs⟩, s :: ss, by rw [hs, hss]; rfl⟩
      · exact .inr ⟨fun hall => hvs hall.2, type, by rw [hs, herror]; rfl⟩
    · exact .inr ⟨fun hall => hv hall.1, type, by rw [herror]; rfl⟩

/-- A value is written down exactly if nothing inside it is refused. -/
theorem ofValue_cases (v : Value) :
    (v.All (·.isSavable = true) ∧ ∃ s, ofValue v = .ok s) ∨
      (¬v.All (·.isSavable = true) ∧ ∃ type, ofValue v = .error (.notPersistable type)) := by
  induction v using Value.induction_parts with
  | h v ih =>
    rw [Value.all_iff]
    cases hv : v.isSavable with
    | false => exact .inr ⟨by simp, ofValue_eq_error hv⟩
    | true =>
      rw [ofValue_eq hv]
      obtain ⟨hparts, ss, hss⟩ | ⟨hparts, type, herror⟩ := ofItems_cases ih
      · exact .inl ⟨⟨rfl, hparts⟩, ofNode v ss, by rw [hss]; rfl⟩
      · exact .inr ⟨fun h => hparts h.2, type, by rw [herror]; rfl⟩

/-- A list is written down item by item. -/
theorem ofItems_forall₂ {R : Value → Saved → Prop} {vs : List Value} {ss : List Saved}
    (hR : ∀ v ∈ vs, ∀ s, ofValue v = .ok s → R v s) (h : ofItems vs = .ok ss) :
    List.Forall₂ R vs ss := by
  induction vs generalizing ss with
  | nil =>
    cases h
    exact .nil
  | cons v vs ih =>
    rw [ofItems_cons] at h
    obtain ⟨s, hs, h⟩ := exists_of_bind_eq_ok h
    obtain ⟨rest, hrest, rfl⟩ := exists_of_map_eq_ok h
    exact .cons (hR v List.mem_cons_self s hs) (ih (fun w hw => hR w (List.mem_cons_of_mem _ hw)) hrest)

/-- What holds of a value and its saved form whenever it holds of its parts and theirs. -/
theorem ofValue_induct {R : Value → Saved → Prop}
    (step : ∀ v ss, v.isSavable = true → List.Forall₂ R v.parts ss → R v (ofNode v ss))
    {v : Value} {s : Saved} (h : ofValue v = .ok s) : R v s := by
  induction v using Value.induction_parts generalizing s with
  | h v ih =>
    cases hv : v.isSavable with
    | false =>
      obtain ⟨type, herror⟩ := ofValue_eq_error hv
      exact nomatch herror.symm.trans h
    | true =>
      rw [ofValue_eq hv] at h
      obtain ⟨ss, hss, rfl⟩ := exists_of_map_eq_ok h
      exact step v ss hv (ofItems_forall₂ (fun p hp s => ih p hp) hss)

/-! ### Floats -/

/-- The floats of entries are those of their values. -/
theorem entriesFloats_zip {ks : List Key} {ss : List Saved} (h : ks.length = ss.length) :
    entriesFloats (ks.zip ss) = itemsFloats ss := by
  induction ks generalizing ss with
  | nil =>
    obtain rfl := List.length_eq_zero_iff.1 h.symm
    rfl
  | cons k ks ih =>
    cases ss with
    | nil => exact nomatch h
    | cons s ss => simp [entriesFloats, itemsFloats, ih (Nat.succ.inj h)]

/-- The floats inside of items are those of their saved forms. -/
theorem forall_itemsFloats_iff {P : Float → Prop} {vs : List Value} {ss : List Saved}
    (h : List.Forall₂ (fun v s => v.All (Value.FloatIs P) ↔ ∀ x ∈ s.floats, P x) vs ss) :
    (∀ v ∈ vs, v.All (Value.FloatIs P)) ↔ ∀ x ∈ itemsFloats ss, P x := by
  induction h with
  | nil => simp [itemsFloats]
  | cons hv _ ih => rw [List.forall_mem_cons, hv, ih, itemsFloats, List.forall_mem_append]

/-- The floats inside a value are those of its saved form. -/
theorem all_floatIs_iff {P : Float → Prop} {v : Value} {s : Saved} (h : ofValue v = .ok s) :
    v.All (Value.FloatIs P) ↔ ∀ x ∈ s.floats, P x := by
  refine ofValue_induct (R := fun v s => v.All (Value.FloatIs P) ↔ ∀ x ∈ s.floats, P x) ?_ h
  intro v ss hv hss
  rw [Value.all_iff, forall_itemsFloats_iff hss]
  cases v with
  | list | record => simp [Value.FloatIs, ofNode, floats]
  | map id entries =>
    have hlength : (entries.map (·.1)).length = ss.length := by simpa [Value.parts] using hss.length_eq
    simp only [Value.FloatIs, ofNode, floats, entriesFloats_zip hlength, true_and]
  | func | module | host | moved => cases hv
  | _ =>
    cases hss
    simp [Value.FloatIs, ofNode, floats, itemsFloats]

end Saved

/-! ### Building values again -/

/-- A computation that takes buffer numbers gives a result, whatever numbers are in use, and the
    result satisfies `Q`. -/
def Yields {ε α : Type} (x : StateT BufferId (Except ε) α) (Q : α → Prop) : Prop :=
  ∀ n, ∃ a n', x n = .ok (a, n') ∧ Q a

namespace Yields

variable {ε α β : Type} {Q : α → Prop} {R : β → Prop}

/-- A result is given back. -/
theorem pure {a : α} (h : Q a) : Yields (pure a : StateT BufferId (Except ε) α) Q :=
  fun n => ⟨a, n, rfl, h⟩

/-- Computations that give results do so one after the other. -/
theorem bind {x : StateT BufferId (Except ε) α} {f : α → StateT BufferId (Except ε) β}
    (hx : Yields x Q) (hf : ∀ a, Q a → Yields (f a) R) : Yields (x >>= f) R := by
  intro n
  obtain ⟨a, m, ha, hQ⟩ := hx n
  obtain ⟨b, k, hb, hR⟩ := hf a hQ m
  refine ⟨b, k, ?_, hR⟩
  change (x n).bind _ = _
  rw [ha]
  exact hb

/-- There is always a next buffer number. -/
theorem fresh : Yields (fresh : StateT BufferId (Except ε) BufferId) fun _ => True :=
  fun n => ⟨n, n + 1, rfl, trivial⟩

end Yields

namespace Ty

/-- A type that leaves a value as it is does so with every value that differs in buffers only. -/
theorem Fixes.cast? {ty : Ty} {v w : Value} (h : ty.Fixes v) (hw : w.erase = v.erase)
    (n : BufferId) : ∃ u n', ty.cast? w n = some (u, n') ∧ u.erase = v.erase := by
  obtain ⟨m, u, m', hcast, hu⟩ := h
  have halike : (ty.cast? w n).map (·.1.erase) = (ty.cast? v m).map (·.1.erase) := by
    rw [← cast?_alike ty w n, hw, cast?_alike ty v n m]
  have hv : ty.cast? v m = some (u, m') := by
    unfold cast at hcast
    split at hcast
    next result hresult => exact hresult.trans (congrArg some (Except.ok.inj hcast))
    next => exact nomatch hcast
  rw [hv] at halike
  obtain ⟨⟨x, n'⟩, hx, hxu⟩ := Option.map_eq_some_iff.1 halike
  exact ⟨x, n', hx, hxu.trans hu⟩

/-- Fields that their types leave alone are cast to themselves. -/
theorem castFields_fixes {decls : List (String × Ty)} {vs : List Value}
    (h : List.Forall₂ (fun d v => Fixes d.2 v) decls vs) {ws : List Value}
    (hws : ws.map Value.erase = vs.map Value.erase) (n : BufferId) :
    ∃ us n', castFields decls ws n = some (us, n') ∧ us.map Value.erase = vs.map Value.erase := by
  induction h generalizing ws n with
  | nil =>
    obtain rfl : ws = [] := by simpa using hws
    exact ⟨[], n, rfl, rfl⟩
  | @cons d v decls vs hd _ ih =>
    obtain ⟨w, ws, rfl, hw, hws⟩ := List.map_eq_cons_iff.1 hws
    obtain ⟨u, m, hu, hue⟩ := hd.cast? hw n
    obtain ⟨us, n', hus, huse⟩ := ih hws m
    refine ⟨u :: us, n', ?_, by rw [List.map_cons, hue, huse, List.map_cons]⟩
    change (cast? d.2 w n).bind _ = _
    rw [hu]
    change (castFields decls ws m).bind _ = _
    rw [hus]
    rfl

/-- The fields of a record, as a list, are cast to that record. -/
theorem cast_fixes {type : RecordType} {fields : List Value}
    (h : List.Forall₂ (fun d v => Fixes d.2 v) type.fields fields) {ws : List Value}
    (hws : ws.map Value.erase = fields.map Value.erase) (id n : BufferId) (id' : BufferId) :
    ∃ w n', cast (.record type) (.list id ws) n = .ok (w, n') ∧
      w.erase = (Value.record id' type fields).erase := by
  obtain ⟨us, m, hus, huse⟩ := castFields_fixes h hws n
  refine ⟨.record m type us, m + 1, ?_, ?_⟩
  · have hcast : cast? (.record type) (.list id ws) n = some (.record m type us, m + 1) := by
      change (castFields type.fields ws n).bind _ = _
      rw [hus]
      rfl
    rw [cast, hcast]
  · simp [Value.erase, Value.eraseItems_eq, huse]

end Ty

/-- An entry under a new key is put at the end. -/
theorem Entries.insert_of_not_mem {α : Type} {k : Key} {entries : List (Key × α)}
    (h : k ∉ entries.map (·.1)) (a : α) : insert k a entries = entries ++ [(k, a)] := by
  induction entries with
  | nil => rfl
  | cons e rest ih => 
    simp only [List.map_cons, List.mem_cons, not_or] at h
    rw [insert, if_neg (Ne.symm h.1), ih h.2, List.cons_append]

/-- Entries whose keys are all different are read as they stand. -/
theorem Entries.ofList_eq {α : Type} {entries : List (Key × α)} (h : (entries.map (·.1)).Nodup) :
    ofList entries = entries := by
  have hfold (front rest : List (Key × α)) (h : ((front ++ rest).map (·.1)).Nodup) :
      rest.foldl (fun entries e => insert e.1 e.2 entries) front = front ++ rest := by
    induction rest generalizing front with
    | nil => simp
    | cons e rest ih =>
      have hnew : e.1 ∉ front.map (·.1) := by
        simp [List.nodup_append] at h
        grind
      rw [List.foldl_cons, insert_of_not_mem hnew, ih (front ++ [e]) (by simpa using h)]
      simp
  exact hfold [] entries h

namespace Saved

/-- Items are built again one after the other. -/
theorem toItems_yields {reg : Registry} {vs : List Value} {ss : List Saved}
    (h : List.Forall₂ (fun v s => Yields (toValue reg s) fun w => w.erase = v.erase) vs ss) :
    Yields (toItems reg ss) fun ws => ws.map Value.erase = vs.map Value.erase := by
  induction h with
  | nil => exact .pure rfl
  | cons hv _ ih =>
    exact .bind hv fun w hw => .bind ih fun ws hws => .pure (by simp [hw, hws])

/-- The entries of a map are built again as its values are. -/
theorem toEntries_yields {reg : Registry} {entries : List (Key × Value)} {ss : List Saved}
    (h : List.Forall₂ (fun v s => Yields (toValue reg s) fun w => w.erase = v.erase)
      (entries.map (·.2)) ss) :
    Yields (toEntries reg ((entries.map (·.1)).zip ss)) fun es =>
      Value.eraseEntries es = Value.eraseEntries entries := by
  induction entries generalizing ss with
  | nil => exact .pure rfl
  | cons e entries ih =>
    cases h with
    | cons hv hrest =>
      exact .bind hv fun w hw => .bind (ih hrest) fun es hes =>
        .pure (by simp only [Value.eraseEntries, hw, hes])

/-- A record is built again by a cast of its fields to the type of its name. -/
theorem toRecord_yields {reg : Registry} (id : BufferId) {type : RecordType} {fields : List Value}
    {ss : List Saved}
    (h : List.Forall₂ (fun v s => Yields (toValue reg s) fun w => w.erase = v.erase) fields ss)
    (hname : reg.byName? type.name = some (.record type))
    (hfields : List.Forall₂ (fun d v => Ty.Fixes d.2 v) type.fields fields) :
    Yields (toValue reg (.record type.name ss)) fun w =>
      w.erase = (Value.record id type fields).erase := by
  have hfilter : (reg.byName? type.name).filter (·.isRecord) = some (.record type) := by
    rw [hname]
    rfl
  rw [toValue, hfilter]
  refine .bind (toItems_yields h) fun ws hws => .bind .fresh fun plain _ n => ?_
  obtain ⟨w, n', hw, hwe⟩ := Ty.cast_fixes hfields hws plain n id
  exact ⟨w, n', by rw [hw], hwe⟩

/-- A saved value becomes the value it was made of, in new buffers. -/
theorem toValue_ofValue {reg : Registry} {v : Value} {s : Saved} (h : ofValue v = .ok s)
    (hv : v.All (Value.Restorable reg)) :
    Yields (toValue reg s) fun w => w.erase = v.erase := by
  refine ofValue_induct (R := fun v s => v.All (Value.Restorable reg) →
    Yields (toValue reg s) fun w => w.erase = v.erase) ?_ h hv
  intro v ss hsavable hss hv
  have hparts : List.Forall₂ (fun v s => Yields (toValue reg s) fun w => w.erase = v.erase)
      v.parts ss :=
    ((List.forall₂_and_left _ _).2 ⟨hv.inside, hss⟩).imp fun _ _ h => h.2 h.1
  cases v with
  | list id items =>
    exact .bind (toItems_yields hparts) fun ws hws => .bind .fresh fun id _ =>
      .pure (by simpa [Value.erase, Value.eraseItems_eq, Value.parts] using hws)
  | map id entries =>
    have hkeys : (entries.map (·.1)).Nodup := hv.here
    refine .bind (toEntries_yields hparts) fun es hes => .bind .fresh fun id _ => .pure ?_
    have hsame : es.map (·.1) = entries.map (·.1) := by
      simpa [Value.eraseEntries_eq, Function.comp_def] using congrArg (List.map (·.1)) hes
    rw [Entries.ofList_eq (hsame ▸ hkeys), Value.erase, Value.erase, hes]
  | record id type fields => exact toRecord_yields id hparts hv.here.1 hv.here.2
  | str id s => exact .bind .fresh fun id _ => .pure rfl
  | func | module | host | moved => cases hsavable
  | _ => exact .pure rfl

end Saved

/-! ### Texts -/

namespace Value.Restorable

variable {reg : Registry} {v : Value}

/-- What comes back can be written down. -/
theorem isSavable (h : v.Restorable reg) : v.isSavable = true := by
  cases v with
  | float | map | record => rfl
  | _ => exact h

/-- The float of such a value has a text that reads back. -/
theorem legible (h : v.Restorable reg) : v.FloatIs Legible := by
  cases v with
  | float x => exact h
  | _ => trivial

end Value.Restorable

/-- The text of a value is that of its saved form. -/
theorem toJsonText_eq {v : Value} {s : Saved} (h : Saved.ofValue v = .ok s) :
    toJsonText v = .ok s.toJson.pretty := by
  rw [toJsonText, h]
  rfl

/-- The text of a saved value is read as its tree is. -/
theorem ofJsonText_pretty (reg : Registry) {s : Saved} {r : Option Saved}
    (h : Saved.ofJson? .text maxNesting s.toJson = r) :
    ofJsonText reg s.toJson.pretty = r.elim (throw .syntaxError) (Saved.toValue reg) := by
  rw [ofJsonText, JsonTree.parse?_pretty s.writable_toJson, Option.bind_some, h]
  cases r <;> rfl

/-- A value whose nodes can come back comes back from its text, as long as the text does not nest
    too deep. A function, module, host pointer or moved value anywhere in a value is refused when
    it is written, and an infinity or what is not a number when the text is read. -/
theorem ofJsonText_toJsonText (reg : Registry) (v : Value) (next : BufferId) :
    (v.All (Value.Restorable reg) →
      (∀ s, Saved.ofValue v = .ok s → s.toJson.nesting ≤ maxNesting) →
      ∃ text w n, toJsonText v = .ok text ∧ ofJsonText reg text next = .ok (w, n) ∧
        w.erase = v.erase) ∧
    (¬v.All (·.isSavable = true) → ∃ type, toJsonText v = .error (.notPersistable type)) ∧
    (v.All (·.isSavable = true) → ¬v.All (Value.FloatIs (·.isFinite = true)) →
      ∃ text, toJsonText v = .ok text ∧ ofJsonText reg text next = .error .syntaxError) := by
  obtain ⟨hsavable, s, hs⟩ | ⟨hrefused, type, herror⟩ := Saved.ofValue_cases v
  · refine ⟨fun hv hnesting => ?_, fun h => absurd hsavable h, fun _ hfinite => ?_⟩
    · have hlegible := (Saved.all_floatIs_iff hs).1 (hv.mono fun _ h => h.legible)
      have hread := ofJsonText_pretty reg
        (Saved.ofJson?_toJson maxNesting s hlegible (hnesting s hs))
      obtain ⟨w, n, hw, hwe⟩ := Saved.toValue_ofValue hs hv next
      exact ⟨_, w, n, toJsonText_eq hs, by rw [hread]; exact hw, hwe⟩
    · rw [Saved.all_floatIs_iff hs] at hfinite
      have hnone := Saved.ofJson?_toJson_eq_none maxNesting s (by simpa using hfinite)
      exact ⟨_, toJsonText_eq hs, by rw [ofJsonText_pretty reg hnone]; rfl⟩
  · refine ⟨fun hv => absurd (hv.mono fun _ h => h.isSavable) hrefused, fun _ => ⟨type, ?_⟩,
      fun h => absurd h hrefused⟩
    rw [toJsonText, herror]
    rfl

/-- A record type with a float and a field for anything. -/
def pointType : RecordType :=
  (Registry.addRecord {} "point" [("x", .basic .float), ("tag", .basic .any)]).1

/-- A record in a list, with a map inside it. -/
def pointList : Value :=
  .list 0 [.record 1 pointType
    [.float 0.1, .map 2 [(.name "a\"b", .int (-7)), (.index 3, .bool true)]], .error "no"]

/-- The list comes back from its text. -/
theorem restorable_pointList :
    pointList.All (Value.Restorable { types := Builtin.all.map .basic ++ [.record pointType] }) := by
  refine ⟨rfl, ?_⟩
  simp only [pointList, Value.parts, List.mem_cons, List.not_mem_nil, or_false, forall_eq_or_imp,
    forall_eq]
  refine ⟨⟨⟨rfl, ?_⟩, ?_⟩, .of_atom rfl rfl⟩
  · exact .cons ⟨0, _, 0, rfl, rfl⟩ (.cons ⟨0, _, 0, rfl, rfl⟩ .nil)
  simp only [Value.parts, List.mem_cons, List.not_mem_nil, or_false, forall_eq_or_imp, forall_eq]
  refine ⟨.of_atom rfl ⟨by decide, by decide +kernel⟩, ?_, ?_⟩
  · exact (by decide : [Key.name "a\"b", .index 3].Nodup)
  · simp only [Value.parts, List.map_cons, List.map_nil, List.mem_cons, List.not_mem_nil, or_false,
      forall_eq_or_imp, forall_eq]
    exact ⟨.of_atom rfl rfl, .of_atom rfl rfl⟩

/-- A record comes back from its text, a list with a moved value has none, and an infinity is not
    read again. -/
theorem ofJsonText_toJsonText_point :
    (∃ text w n, toJsonText pointList = .ok text ∧
      ofJsonText { types := Builtin.all.map .basic ++ [.record pointType] } text 3 = .ok (w, n) ∧
        w.erase = pointList.erase) ∧
    (∃ type, toJsonText (.list 0 [.moved]) = .error (.notPersistable type)) ∧
    (∃ text, toJsonText (.list 0 [.float (1.0 / 0.0)]) = .ok text ∧
      ofJsonText {} text 1 = .error .syntaxError) := by
  refine ⟨(ofJsonText_toJsonText _ _ 3).1 restorable_pointList fun s hs => ?_,
    (ofJsonText_toJsonText {} _ 1).2.1 fun h => ?_, (ofJsonText_toJsonText {} _ 1).2.2 ?_ fun h => ?_⟩
  · obtain rfl := Except.ok.inj hs
    decide
  · exact nomatch (h.inside .moved List.mem_cons_self).here
  · refine ⟨rfl, ?_⟩
    simp only [Value.parts, List.mem_cons, List.not_mem_nil, or_false, forall_eq]
    exact .of_atom rfl rfl
  · have hinfinite : (1.0 / 0.0 : Float).isFinite = true := (h.inside _ List.mem_cons_self).here
    exact absurd hinfinite (by decide)

end BlockMachine

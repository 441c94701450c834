import BlockMachine.State.Format
import BlockMachine.State.Tree
import BlockMachine.Value.Literal
import BlockMachine.Proofs.Value.Cast

namespace BlockMachine

/-!
# Values of a world

The number of a type means something only in the registry that gave it out. A value is known to
a registry when the types of all its nodes are declared there, and everything that makes values
out of known types and values makes known values.

* `Ty.Known`, `Value.Known` and `Registry.Sound` are the predicates;
* `Ty.cast?_known`, `Value.rebind_known`, `Literal.eval_known` and `Saved.toValue_known` are about
  the functions that make values.
-/

/-! ### Declared types -/

namespace Registry

/-- A number was given to a record type. -/
def HasRecord (reg : Registry) (id : TypeId) : Prop :=
  ∃ r, reg.types[id]? = some (.record r)

/-- A number was given to the type of a module. -/
def HasModule (reg : Registry) (id : TypeId) : Prop :=
  ∃ m, reg.types[id]? = some (.module m)

/-- All types of a registry are declared in another, too. -/
def Within (reg reg' : Registry) : Prop :=
  reg.types <+: reg'.types

end Registry

/-- The type and the types of its fields are declared. -/
inductive Ty.Known (reg : Registry) : Ty → Prop where
  | basic (b : Builtin) : Known reg (.basic b)
  | record {r : RecordType} (declared : reg.HasRecord r.id)
    (fields : ∀ e ∈ r.fields, Known reg e.2) : Known reg (.record r)
  | module {m : ModuleType} (declared : reg.HasModule m.id) : Known reg (.module m)

/-- Every node of a value has a declared type. -/
def Value.Known (reg : Registry) (v : Value) : Prop :=
  v.All fun node => node.type.Known reg

/-- Types stand at the indices of their numbers, built-in types first, and are made of declared
    types. -/
structure Registry.Sound (reg : Registry) : Prop where
  builtin : ∀ b : Builtin, reg.types[b.id]? = some (.basic b)
  numbered : ∀ (i : Nat) (ty : Ty), reg.types[i]? = some ty → ty.id = i
  known : ∀ ty ∈ reg.types, ty.Known reg

namespace Registry

variable {reg reg' : Registry} {id : TypeId}

/-- A registry declares what it declares. -/
theorem Within.refl (reg : Registry) : reg.Within reg :=
  List.prefix_rfl

/-- What a registry declares is passed on along a chain of registries. -/
theorem Within.trans {reg'' : Registry} (h : reg.Within reg') (h' : reg'.Within reg'') :
    reg.Within reg'' :=
  List.IsPrefix.trans h h'

/-- Numbers that one registry gave out were given out by the other one. -/
theorem Within.length_le (h : reg.Within reg') : reg.nextId ≤ reg'.nextId :=
  List.IsPrefix.length_le h

/-- A number stands for the same type in both registries. -/
theorem Within.get? (h : reg.Within reg') {ty : Ty} (hty : reg.types[id]? = some ty) :
    reg'.types[id]? = some ty := by
  obtain ⟨rest, hrest⟩ := h
  obtain ⟨hlt, _⟩ := List.getElem?_eq_some_iff.1 hty
  rw [← hrest, List.getElem?_append_left hlt]
  exact hty

end Registry

/-- A type stays known while a registry grows. -/
theorem Ty.Known.mono {reg reg' : Registry} {ty : Ty} (h : ty.Known reg)
    (hreg : reg.Within reg') : ty.Known reg' := by
  induction h with
  | basic b => exact .basic b
  | record declared _ ih =>
    obtain ⟨r, hr⟩ := declared
    exact .record ⟨r, hreg.get? hr⟩ ih
  | module declared =>
    obtain ⟨m, hm⟩ := declared
    exact .module ⟨m, hreg.get? hm⟩

/-- A new registry declares the built-in types. -/
theorem Registry.sound_new : Registry.Sound {} where
  builtin := fun b => by cases b <;> rfl
  numbered := by
    intro i ty hty
    rw [List.getElem?_map] at hty
    obtain ⟨b, hb, rfl⟩ := Option.map_eq_some_iff.1 hty
    obtain ⟨hlt, rfl⟩ := List.getElem?_eq_some_iff.1 hb
    have hall : ∀ (i : Nat) (h : i < Builtin.all.length), Builtin.all[i].id = i := by decide
    exact hall i hlt
  known := by
    intro ty hty
    obtain ⟨b, _, rfl⟩ := List.mem_map.1 hty
    exact .basic b

/-- One more type with the next number. -/
theorem Registry.Sound.push {reg : Registry} (h : reg.Sound) {ty : Ty} (hid : ty.id = reg.nextId)
    (hty : ty.Known { reg with types := reg.types ++ [ty] }) :
    Sound { reg with types := reg.types ++ [ty] } := by
  have hwithin : reg.Within { reg with types := reg.types ++ [ty] } := List.prefix_append ..
  refine ⟨fun b => hwithin.get? (h.builtin b), fun i ty' hty' => ?_, fun ty' hmem => ?_⟩
  · -- an old number, or the number of the new type itself
    rcases Nat.lt_or_ge i reg.types.length with hi | hi
    · rw [List.getElem?_append_left hi] at hty'
      exact h.numbered i ty' hty'
    · rw [List.getElem?_append_right hi, List.getElem?_singleton] at hty'
      split at hty'
      next hzero =>
        obtain rfl := Option.some.inj hty'
        exact hid.trans (Nat.le_antisymm hi (Nat.le_of_sub_eq_zero hzero))
      next => exact nomatch hty'
  · rcases List.mem_append.1 hmem with hold | hnew
    · exact (h.known ty' hold).mono hwithin
    · obtain rfl := List.mem_singleton.1 hnew
      exact hty

namespace Value

variable {reg reg' : Registry} {v : Value}

/-- A value stays known while a registry grows. -/
theorem Known.mono (h : v.Known reg) (hreg : reg.Within reg') : v.Known reg' :=
  All.mono (fun _ hnode => hnode.mono hreg) h

/-- The type of a known value is known. -/
theorem Known.type (h : v.Known reg) : v.type.Known reg :=
  h.here

/-- A value is known if its own type and its parts are. -/
theorem known_iff : v.Known reg ↔ v.type.Known reg ∧ ∀ p ∈ v.parts, p.Known reg :=
  ⟨fun h => ⟨h.here, h.inside⟩, fun h => ⟨h.1, h.2⟩⟩

/-- A value of a built-in type is known when its parts are. -/
theorem known_of_basic {b : Builtin} (htype : v.type = .basic b)
    (hparts : ∀ p ∈ v.parts, p.Known reg) : v.Known reg :=
  known_iff.2 ⟨htype ▸ .basic b, hparts⟩

/-- A value of a built-in type without parts is known. -/
theorem known_atom {b : Builtin} (htype : v.type = .basic b) (hparts : v.parts = []) :
    v.Known reg :=
  known_of_basic htype (hparts ▸ List.forall_mem_nil _)

/-- A list of known values is known. -/
theorem known_list {items : List Value} (h : ∀ v ∈ items, v.Known reg) (id : BufferId) :
    (list id items).Known reg :=
  known_of_basic rfl h

end Value

/-! ### Casts and initial values -/

namespace Ty

variable {reg : Registry}

mutual

/-- Casting a known value to a known type gives a known value. -/
theorem cast?_known (ty : Ty) {v w : Value} {n n' : BufferId} (hty : ty.Known reg)
    (hv : v.Known reg) (h : cast? ty v n = some (w, n')) : w.Known reg := by
  match ty with
  | .basic b =>
    rcases castBasic_cases h with ⟨rfl, _⟩ | ⟨⟨b', hb'⟩, hid, _⟩ | ⟨id, type, fields, rfl, rfl, _⟩
    · exact hv
    · refine Value.known_of_basic hb' ?_
      cases w <;> simp_all [Value.id?, Value.parts]
    · exact Value.known_of_basic rfl hv.inside
  | .module m =>
    obtain ⟨rfl, _⟩ := cast?_module h
    exact hv
  | .record ⟨id, name, decls⟩ =>
    rcases cast?_record h with ⟨rfl, _⟩ | ⟨ws, m, hcast, rfl, _⟩
    · exact hv
    · cases hty with
      | record declared fields =>
        exact Value.known_iff.2
          ⟨.record declared fields, castFields_known decls fields hv.inside hcast⟩

/-- Casting known values to known types, field by field, gives known values. -/
theorem castFields_known (decls : List (String × Ty)) {vs ws : List Value} {n n' : BufferId}
    (hdecls : ∀ e ∈ decls, e.2.Known reg) (hvs : ∀ v ∈ vs, v.Known reg)
    (h : castFields decls vs n = some (ws, n')) : ∀ w ∈ ws, w.Known reg := by
  match decls, vs with
  | [], [] =>
    obtain ⟨rfl, _⟩ := Prod.mk.inj (Option.some.inj h)
    exact List.forall_mem_nil _
  | (_, ty) :: decls, v :: rest =>
    obtain ⟨⟨w, m⟩, hcast, hrun⟩ := Option.bind_eq_some_iff.1 h
    obtain ⟨⟨ws', m'⟩, hrest, hdone⟩ := Option.bind_eq_some_iff.1 hrun
    obtain ⟨rfl, rfl⟩ := Prod.mk.inj (Option.some.inj hdone)
    have hhead := cast?_known ty (hdecls _ List.mem_cons_self) (hvs v List.mem_cons_self) hcast
    have htail := castFields_known decls (fun e he => hdecls e (List.mem_cons_of_mem _ he))
      (fun u hu => hvs u (List.mem_cons_of_mem _ hu)) hrest
    exact List.forall_mem_cons.2 ⟨hhead, htail⟩
  | [], _ :: _ => exact nomatch h
  | _ :: _, [] => exact nomatch h

end

/-- A cast whose failure is reported gives a known value of a known type. -/
theorem cast_known {ty : Ty} {v w : Value} {n n' : BufferId} (hty : ty.Known reg)
    (hv : v.Known reg) (h : cast ty v n = .ok (w, n')) : w.Known reg := by
  simp only [cast] at h
  split at h
  next r hr =>
    cases h
    exact cast?_known ty hty hv hr
  next => cases h

mutual

/-- The initial value of a known type is known. -/
theorem initial_known (ty : Ty) (n : BufferId) (hty : ty.Known reg) :
    (initial ty n).1.Known reg := by
  match ty with
  | .basic b => cases b <;> exact Value.known_atom rfl rfl
  | .module _ => exact Value.known_atom rfl rfl
  | .record ⟨id, name, decls⟩ =>
    cases hty with
    | record declared fields =>
      exact Value.known_iff.2 ⟨.record declared fields, initialFields_known decls n fields⟩

/-- The initial values of fields of known types are known. -/
theorem initialFields_known (decls : List (String × Ty)) (n : BufferId)
    (hdecls : ∀ e ∈ decls, e.2.Known reg) : ∀ v ∈ (initialFields decls n).1, v.Known reg := by
  match decls with
  | [] => exact List.forall_mem_nil _
  | (_, ty) :: rest =>
    have hhead := initial_known ty n (hdecls _ List.mem_cons_self)
    have htail := initialFields_known rest (initial ty n).2
      fun e he => hdecls e (List.mem_cons_of_mem _ he)
    exact List.forall_mem_cons.2 ⟨hhead, htail⟩

end

end Ty

/-! ### Entries and state trees -/

namespace Entries

section

variable {α : Type} {P : α → Prop} {k : Key} {a : α} {entries : List (Key × α)}

/-- A property of all values of some entries. -/
def All (P : α → Prop) (entries : List (Key × α)) : Prop :=
  ∀ e ∈ entries, P e.2

/-- One entry more. -/
theorem All.cons {e : Key × α} (he : P e.2) (h : All P entries) : All P (e :: entries) :=
  List.forall_mem_cons.2 ⟨he, h⟩

/-- An entry that is put in or replaced. -/
theorem All.insert (h : All P entries) (ha : P a) : All P (insert k a entries) := by
  induction entries with
  | nil => exact .cons ha (List.forall_mem_nil _)
  | cons e rest ih =>
    obtain ⟨hhead, htail⟩ := List.forall_mem_cons.1 h
    rw [Entries.insert]
    split
    · exact .cons ha htail
    · exact .cons hhead (ih htail)

/-- An entry that is taken out. -/
theorem All.erase (h : All P entries) : All P (erase k entries) := by
  induction entries with
  | nil => exact h
  | cons e rest ih =>
    obtain ⟨hhead, htail⟩ := List.forall_mem_cons.1 h
    rw [Entries.erase]
    split
    · exact htail
    · exact .cons hhead (ih htail)

/-- The value of an entry that is looked up. -/
theorem All.get? (h : All P entries) (hget : get? k entries = some a) : P a := by
  induction entries with
  | nil => exact nomatch hget
  | cons e rest ih =>
    obtain ⟨hhead, htail⟩ := List.forall_mem_cons.1 h
    rw [Entries.get?] at hget
    split at hget
    · exact Option.some.inj hget ▸ hhead
    · exact ih htail hget

/-- Entries that are put in one after the other. -/
theorem All.ofList (h : All P entries) : All P (ofList entries) := by
  have hfold : ∀ acc, All P acc →
      All P (entries.foldl (fun es e => Entries.insert e.1 e.2 es) acc) := by
    induction entries with
    | nil => exact fun acc hacc => hacc
    | cons e rest ih =>
      obtain ⟨hhead, htail⟩ := List.forall_mem_cons.1 h
      exact fun acc hacc => ih htail _ (hacc.insert hhead)
  exact hfold [] (List.forall_mem_nil _)

end

/-- All values of some entries are known. -/
abbrev Known (reg : Registry) (entries : List (Key × Value)) : Prop :=
  All (Value.Known reg) entries

variable {reg : Registry} {entries : List (Key × Value)}

/-- A map of known values is known. -/
theorem All.map (h : Known reg entries) (id : BufferId) : (Value.map id entries).Known reg := by
  refine Value.known_of_basic rfl fun p hp => ?_
  obtain ⟨e, he, rfl⟩ := List.mem_map.1 hp
  exact h e he

/-- The values of a known map are known. -/
theorem known_of_map {id : BufferId} (h : (Value.map id entries).Known reg) : Known reg entries :=
  fun e he => h.inside e.2 (List.mem_map_of_mem he)

end Entries

namespace StateTree

variable {reg : Registry}

/-- Null is known to every registry. -/
theorem known_null : Value.null.Known reg :=
  Value.known_atom rfl rfl

/-- What a tree holds under a key is known, or is null. -/
theorem child_known {v : Value} (k : Key) (h : v.Known reg) : (child v k).Known reg := by
  cases v with
  | map id entries =>
    rw [child]
    cases hget : Entries.get? k entries with
    | none => exact known_null
    | some w => exact (Entries.known_of_map h).get? hget
  | _ => exact known_null

/-- Saving a known value keeps what is saved known. -/
theorem save_known {entries : List (Key × Value)} {v : Value} (name : String)
    (h : Entries.Known reg entries) (hv : v.Known reg) :
    Entries.Known reg (save entries name v) := by
  rw [save]
  split
  · exact h.erase
  · exact h.insert hv

/-- Taking over what a child has saved keeps what is saved known. -/
theorem merge_known {entries child : List (Key × Value)} (k : Key) (n : BufferId)
    (h : Entries.Known reg entries) (hchild : Entries.Known reg child) :
    Entries.Known reg (merge entries k child n).1 := by
  rw [merge]
  split
  · exact h.erase
  · exact h.insert (hchild.map n)

/-- A tree that is made of what was saved is known. -/
theorem ofOutgoing_known {entries : List (Key × Value)} (n : BufferId)
    (h : Entries.Known reg entries) : (ofOutgoing entries n).1.Known reg := by
  rw [ofOutgoing]
  split
  · exact known_null
  · exact h.map n

end StateTree

namespace Value

variable {reg : Registry} (old new : BlockId)

mutual

/-- Rebinding keeps the types of all nodes. -/
theorem rebind_known (v : Value) (n : BufferId) (h : v.Known reg) :
    (rebind old new v n).1.Known reg := by
  match v with
  | .list id items =>
    rw [rebind]
    split
    · exact known_of_basic rfl (rebindItems_known items n h.inside)
    · exact h
  | .map id entries =>
    rw [rebind]
    split
    · exact (rebindEntries_known entries n (Entries.known_of_map h)).map _
    · exact h
  | .record id type fields =>
    rw [rebind]
    split
    · exact known_iff.2 ⟨h.type, rebindItems_known fields n h.inside⟩
    · exact h
  | .func id block bindings =>
    rw [rebind]
    split
    · exact known_of_basic rfl (rebindItems_known bindings n h.inside)
    · exact h
  | .null | .int _ | .float _ | .bool _ | .str _ _ | .module _ | .host _ | .error _ | .moved =>
    exact h

/-- Rebinding a list keeps the types of all nodes. -/
theorem rebindItems_known (vs : List Value) (n : BufferId) (h : ∀ v ∈ vs, v.Known reg) :
    ∀ v ∈ (rebindItems old new vs n).1, v.Known reg := by
  match vs with
  | [] => exact List.forall_mem_nil _
  | v :: rest =>
    obtain ⟨hhead, htail⟩ := List.forall_mem_cons.1 h
    exact List.forall_mem_cons.2
      ⟨rebind_known v n hhead, rebindItems_known rest (rebind old new v n).2 htail⟩

/-- Rebinding the entries of a map keeps the types of all nodes. -/
theorem rebindEntries_known (entries : List (Key × Value)) (n : BufferId)
    (h : Entries.Known reg entries) : Entries.Known reg (rebindEntries old new entries n).1 := by
  match entries with
  | [] => exact List.forall_mem_nil _
  | (k, v) :: rest =>
    obtain ⟨hhead, htail⟩ := List.forall_mem_cons.1 h
    exact .cons (rebind_known v n hhead)
      (rebindEntries_known rest (rebind old new v n).2 htail)

end

end Value

/-! ### Written values -/

/-- Every result of a computation that takes buffer numbers satisfies `Q`. -/
def Gives {ε α : Type} (x : StateT BufferId (Except ε) α) (Q : α → Prop) : Prop :=
  ∀ n a n', x n = .ok (a, n') → Q a

namespace Gives

variable {ε α β : Type} {Q : α → Prop} {R : β → Prop}

/-- A result is given back as it is. -/
theorem pure {a : α} (h : Q a) : Gives (pure a : StateT BufferId (Except ε) α) Q := by
  rintro n _ _ ⟨⟩
  exact h

/-- A failure has no result. -/
theorem throw (e : ε) : Gives (throw e : StateT BufferId (Except ε) α) Q :=
  nofun

/-- Computations follow each other, and the second one may use what is known of the first. -/
theorem bind {x : StateT BufferId (Except ε) α} {f : α → StateT BufferId (Except ε) β}
    (hx : Gives x Q) (hf : ∀ a, Q a → Gives (f a) R) : Gives (x >>= f) R := by
  intro n b n' h
  cases hrun : x n with
  | error e =>
    change (x n).bind _ = _ at h
    rw [hrun] at h
    exact nomatch h
  | ok r =>
    change (x n).bind _ = _ at h
    rw [hrun] at h
    exact hf r.1 (hx n r.1 r.2 hrun) r.2 b n' h

/-- Any number may be the next one. -/
theorem fresh : Gives (fresh : StateT BufferId (Except ε) BufferId) fun _ => True :=
  fun _ _ _ _ => trivial

/-- A result of the other kind of failure is taken over. -/
theorem lift {x : Except ε α} (h : ∀ a, x = .ok a → Q a) :
    Gives (liftM x : StateT BufferId (Except ε) α) Q := by
  intro n a n' hrun
  cases x with
  | error e => exact nomatch hrun
  | ok b =>
    cases hrun
    exact h _ rfl

end Gives

/-- The types that a sound registry knows by name are known to it. -/
theorem Registry.Sound.byName? {reg : Registry} (h : reg.Sound) {name : String} {ty : Ty}
    (hty : reg.byName? name = some ty) : ty.Known reg :=
  h.known ty (List.mem_reverse.1 (List.mem_of_find?_eq_some hty))

/-- A cast whose failure is reported in another way. -/
theorem Gives.cast {ε : Type} {Q : Value → Prop} {ty : Ty} {v : Value} (h : Gives (ty.cast v) Q)
    (f : CastError → ε) :
    Gives (fun next => match ty.cast v next with
      | .ok result => .ok result
      | .error e => .error (f e)) Q := by
  intro n w n' hrun
  cases hcast : ty.cast v n with
  | error e =>
    simp only [hcast] at hrun
    exact nomatch hrun
  | ok r =>
    simp only [hcast] at hrun
    obtain rfl := Except.ok.inj hrun
    exact h n w n' hcast

/-- A known type gives known values by a cast. -/
theorem Gives.cast_known {reg : Registry} {ty : Ty} {v : Value} (hty : ty.Known reg) (hv : v.Known reg) :
    Gives (ty.cast v) (Value.Known reg) :=
  fun _ _ _ => Ty.cast_known hty hv

/-- The names of a scope stand for declared types and for modules with declared types. -/
structure Scope.Sound (scope : Scope) : Prop where
  registry : scope.registry.Sound
  modules : ∀ m ∈ scope.modules, scope.registry.HasModule m.id

/-- A name that stands for a type in a sound scope stands for a known one. -/
theorem Scope.Sound.type {scope : Scope} (h : scope.Sound) {name : String} {ty : Ty}
    (hty : scope.type name = .ok ty) : ty.Known scope.registry := by
  rw [Scope.type] at hty
  split at hty
  next ty' hname =>
    cases hty
    exact h.registry.byName? hname
  next => exact nomatch hty

namespace Literal

mutual

/-- A literal has a known value. -/
theorem eval_known {scope : Scope} (h : scope.Sound) (l : Literal) :
    Gives (eval scope l) (Value.Known scope.registry) := by
  match l with
  | .null | .int _ | .float _ | .bool _ | .error _ | .moved | .host _ =>
    exact .pure (Value.known_atom rfl rfl)
  | .str s => exact .bind .fresh fun _ _ => .pure (Value.known_atom rfl rfl)
  | .list items =>
    exact .bind (evalItems_known h items) fun vs hvs =>
      .bind .fresh fun id _ => .pure (Value.known_of_basic rfl hvs)
  | .map entries =>
    exact .bind (evalEntries_known h entries) fun es hes =>
      .bind .fresh fun id _ => .pure (hes.ofList.map id)
  | .record name fields =>
    exact .bind (.lift fun ty => h.type) fun ty hty =>
      .bind (evalItems_known h fields) fun vs hvs =>
      .bind .fresh fun id _ => .cast (.cast_known hty (Value.known_list hvs id)) _
  | .func block bindings =>
    exact .bind (evalItems_known h bindings) fun vs hvs =>
      .bind .fresh fun id _ => .pure (Value.known_of_basic rfl hvs)
  | .module index =>
    rw [eval]
    split
    next m hm =>
      exact .pure (Value.known_iff.2 ⟨.module (h.modules m (List.mem_of_getElem? hm)),
        List.forall_mem_nil _⟩)
    next => exact .throw _
  | .initial name =>
    refine .bind (.lift fun ty => h.type) fun ty hty n v n' hrun => ?_
    have hv : (ty.initial n).1 = v := congrArg Prod.fst (Except.ok.inj hrun)
    exact hv ▸ Ty.initial_known ty n hty

/-- A list of literals has known values. -/
theorem evalItems_known {scope : Scope} (h : scope.Sound) (ls : List Literal) :
    Gives (evalItems scope ls) fun vs => ∀ v ∈ vs, v.Known scope.registry := by
  match ls with
  | [] => exact .pure (List.forall_mem_nil _)
  | l :: rest =>
    exact .bind (eval_known h l) fun v hv =>
      .bind (evalItems_known h rest) fun vs hvs => .pure (List.forall_mem_cons.2 ⟨hv, hvs⟩)

/-- The entries of a map literal have known values. -/
theorem evalEntries_known {scope : Scope} (h : scope.Sound) (ls : List (Key × Literal)) :
    Gives (evalEntries scope ls) (Entries.Known scope.registry) := by
  match ls with
  | [] => exact .pure (List.forall_mem_nil _)
  | (k, l) :: rest =>
    exact .bind (eval_known h l) fun v hv =>
      .bind (evalEntries_known h rest) fun es hes => .pure (.cons hv hes)

end

end Literal

namespace Saved

mutual

/-- A saved form has a known value. -/
theorem toValue_known {reg : Registry} (h : reg.Sound) (v : Saved) :
    Gives (toValue reg v) (Value.Known reg) := by
  match v with
  | .null | .int _ | .float _ | .bool _ | .error _ =>
    exact .pure (Value.known_atom rfl rfl)
  | .str s => exact .bind .fresh fun _ _ => .pure (Value.known_atom rfl rfl)
  | .list items =>
    exact .bind (toItems_known h items) fun vs hvs =>
      .bind .fresh fun id _ => .pure (Value.known_of_basic rfl hvs)
  | .map entries =>
    exact .bind (toEntries_known h entries) fun es hes =>
      .bind .fresh fun id _ => .pure (hes.ofList.map id)
  | .record name fields =>
    rw [toValue]
    split
    next => exact .throw _
    next ty hty =>
      have hknown := h.byName? (Option.filter_eq_some_iff.1 hty).1
      exact .bind (toItems_known h fields) fun vs hvs =>
        .bind .fresh fun id _ => .cast (.cast_known hknown (Value.known_list hvs id)) _

/-- A list of saved forms has known values. -/
theorem toItems_known {reg : Registry} (h : reg.Sound) (vs : List Saved) :
    Gives (toItems reg vs) fun ws => ∀ w ∈ ws, w.Known reg := by
  match vs with
  | [] => exact .pure (List.forall_mem_nil _)
  | v :: rest =>
    exact .bind (toValue_known h v) fun w hw =>
      .bind (toItems_known h rest) fun ws hws => .pure (List.forall_mem_cons.2 ⟨hw, hws⟩)

/-- Saved entries have known values. -/
theorem toEntries_known {reg : Registry} (h : reg.Sound) (vs : List (Key × Saved)) :
    Gives (toEntries reg vs) (Entries.Known reg) := by
  match vs with
  | [] => exact .pure (List.forall_mem_nil _)
  | (k, v) :: rest =>
    exact .bind (toValue_known h v) fun w hw =>
      .bind (toEntries_known h rest) fun es hes => .pure (.cons hw hes)

end

end Saved

/-- **A text is read as a known value**, if it is read at all. -/
theorem ofJsonText_known {reg : Registry} (h : reg.Sound) (text : String) :
    Gives (ofJsonText reg text) (Value.Known reg) := by
  rw [ofJsonText]
  split
  next saved _ => exact Saved.toValue_known h saved
  next => exact .throw _

end BlockMachine

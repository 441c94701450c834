import BlockMachine.Proofs.Failing
import BlockMachine.Proofs.Value.Cast
import BlockMachine.Proofs.Value.Equality
import BlockMachine.Proofs.Value.Known
import BlockMachine.Value.Literal

namespace BlockMachine

/-!
# Literals in a heap

Whatever stands for a literal takes new buffer numbers, one for each buffer, and no map in it has a key twice:
together with the values that were there before, the values of literals form a heap.

* `Value.KeepsHeap` says that values are in a heap that has grown;
* `Ty.cast?_keepsHeap` and `Ty.initial_keepsHeap` are about what types make;
* **`Literal.evalItems_keepsHeap`** is about literals.
-/

namespace Value

variable {n m n' : BufferId} {val : BufferId → Value} {v : Value} {ws : List Value}

/-- Values are in a heap that has grown. -/
def KeepsHeap (n n' : BufferId) (val : BufferId → Value) (ws : List Value) : Prop :=
  n ≤ n' ∧ ∃ val' : BufferId → Value, (∀ j < n, val' j = val j) ∧ ∀ w ∈ ws, w.InHeap n' val'

namespace KeepsHeap

/-- Values stay in their heap. -/
theorem refl (h : ∀ w ∈ ws, w.InHeap n val) : KeepsHeap n n val ws :=
  ⟨Nat.le_refl n, val, fun _ _ => rfl, h⟩

/-- A value without a buffer does not need a number. -/
theorem atom (h : v.id? = none) : KeepsHeap n n val [v] :=
  .refl (List.forall_mem_singleton.2 (.of_atom h))

/-- A new buffer takes the next number. -/
theorem node (h : KeepsHeap n n' val ws) (hid : v.id? = some n') (hkeys : v.KeysOnce)
    (hparts : ∀ p ∈ v.parts, p ∈ ws) : KeepsHeap n (n' + 1) val [v] := by
  obtain ⟨hle, val', hagree, hws⟩ := h
  refine ⟨Nat.le_succ_of_le hle, fun j => if j = n' then v else val' j, fun j hj => ?_,
    List.forall_mem_singleton.2 ⟨.node hid fun p hp => (hws p (hparts p hp)).named,
      ⟨hkeys, fun p hp => (hws p (hparts p hp)).keysOnce⟩⟩⟩
  exact (if_neg (Nat.ne_of_lt (Nat.lt_of_lt_of_le hj hle))).trans (hagree j hj)

/-- A heap grows step by step. -/
theorem bind {vs : List Value} (h : KeepsHeap n m val vs)
    (hws : ∀ val', (∀ v ∈ vs, v.InHeap m val') → KeepsHeap m n' val' ws) : KeepsHeap n n' val ws := by
  obtain ⟨hle, val₁, hagree₁, hvs⟩ := h
  obtain ⟨hle₂, val₂, hagree₂, hws⟩ := hws val₁ hvs
  refine ⟨Nat.le_trans hle hle₂, val₂, fun j hj => ?_, hws⟩
  rw [hagree₂ j (Nat.lt_of_lt_of_le hj hle), hagree₁ j hj]

/-- Values enter the heap one after the other. -/
theorem cons (h : KeepsHeap n m val [v]) (hws : ∀ val', KeepsHeap m n' val' ws) :
    KeepsHeap n n' val (v :: ws) := by
  refine h.bind fun val₁ hv => ?_
  obtain ⟨hle, val₂, hagree, hws⟩ := hws val₁
  exact ⟨hle, val₂, hagree, List.forall_mem_cons.2 ⟨(hv v List.mem_cons_self).mono hle hagree, hws⟩⟩

end KeepsHeap

end Value

/-! ### What types make -/

namespace Ty

variable {n n' : BufferId} {val : BufferId → Value} {v w : Value}

mutual

/-- A cast leaves maps as they are. -/
theorem cast?_keysOnce (ty : Ty) {v w : Value} {n n' : BufferId} (h : cast? ty v n = some (w, n'))
    (hv : v.All Value.KeysOnce) : w.All Value.KeysOnce := by
  match ty with
  | .basic b =>
    rcases castBasic_cases h with ⟨rfl, -⟩ | ⟨-, hid, -⟩ | ⟨id, type, fields, rfl, rfl, -⟩
    · exact hv
    · exact (show w.InHeap 0 fun _ => .null from .of_atom hid).keysOnce
    · exact ⟨trivial, hv.inside⟩
  | .module m =>
    obtain ⟨rfl, -⟩ := cast?_module h
    exact hv
  | .record ⟨id, name, decls⟩ =>
    rcases cast?_record h with ⟨rfl, -⟩ | ⟨ws, m, hcast, rfl, -⟩
    · exact hv
    · exact ⟨trivial, castFields_keysOnce decls hcast hv.inside⟩

/-- Casts of fields put no key into a map twice. -/
theorem castFields_keysOnce (decls : List (String × Ty)) {vs ws : List Value} {n n' : BufferId}
    (h : castFields decls vs n = some (ws, n')) (hvs : ∀ v ∈ vs, v.All Value.KeysOnce) :
    ∀ w ∈ ws, w.All Value.KeysOnce := by
  match decls, vs with
  | [], [] =>
    obtain ⟨rfl, -⟩ := Prod.mk.inj (Option.some.inj h)
    exact List.forall_mem_nil _
  | (_, ty) :: decls, v :: rest =>
    obtain ⟨⟨w, m⟩, hcast, hrun⟩ := Option.bind_eq_some_iff.1 h
    obtain ⟨⟨ws', m'⟩, hrest, hdone⟩ := Option.bind_eq_some_iff.1 hrun
    obtain ⟨rfl, -⟩ := Prod.mk.inj (Option.some.inj hdone)
    obtain ⟨hv, hvs⟩ := List.forall_mem_cons.1 hvs
    exact List.forall_mem_cons.2 ⟨cast?_keysOnce ty hcast hv, castFields_keysOnce decls hrest hvs⟩
  | [], _ :: _ => cases h
  | _ :: _, [] => cases h

end

/-- **A cast keeps the heap**, with a new number for every node that it makes. -/
theorem cast?_keepsHeap (ty : Ty) (h : cast? ty v n = some (w, n')) (hv : v.InHeap n val) :
    Value.KeepsHeap n n' val [w] := by
  obtain ⟨hle, val', hagree, hw⟩ := cast?_named ty h hv.named
  exact ⟨hle, val', hagree, List.forall_mem_singleton.2
    ⟨hw w List.mem_cons_self, cast?_keysOnce ty h hv.keysOnce⟩⟩

/-- The initial value of a built-in type takes a number at most. -/
theorem initialBasic_keepsHeap (b : Builtin) (n : BufferId) (val : BufferId → Value) :
    Value.KeepsHeap n (initialBasic b n).2 val [(initialBasic b n).1] := by
  have hnil : Value.KeepsHeap n n val [] := .refl (List.forall_mem_nil _)
  cases b with
  | string => exact hnil.node (v := .str n "") rfl trivial (List.forall_mem_nil _)
  | list => exact hnil.node (v := .list n []) rfl trivial (List.forall_mem_nil _)
  | map => exact hnil.node (v := .map n []) rfl List.nodup_nil (List.forall_mem_nil _)
  | _ => exact .atom rfl

mutual

/-- Initial values take new numbers. -/
theorem initial_keepsHeap (ty : Ty) (n : BufferId) (val : BufferId → Value) :
    Value.KeepsHeap n (initial ty n).2 val [(initial ty n).1] := by
  match ty with
  | .basic b => exact initialBasic_keepsHeap b n val
  | .module _ => exact .atom rfl
  | .record ⟨id, name, decls⟩ =>
    exact (initialFields_keepsHeap decls n val).node
      (v := .record (initialFields decls n).2 ⟨id, name, decls⟩ (initialFields decls n).1) rfl trivial
      fun _ hp => hp

/-- The initial values of fields take one number after the other. -/
theorem initialFields_keepsHeap (decls : List (String × Ty)) (n : BufferId) (val : BufferId → Value) :
    Value.KeepsHeap n (initialFields decls n).2 val (initialFields decls n).1 := by
  match decls with
  | [] => exact .refl (List.forall_mem_nil _)
  | (_, ty) :: rest =>
    exact (initial_keepsHeap ty n val).cons fun val' => initialFields_keepsHeap rest (initial ty n).2 val'

end

end Ty

/-! ### Literals -/

/-- Entries that are read one after the other have every key once. -/
theorem Entries.nodup_ofList {α : Type} (entries : List (Key × α)) : ((ofList entries).map (·.1)).Nodup := by
  have hinsert : ∀ (k : Key) (a : α) (xs : List (Key × α)), (∀ k', k' ∈ (insert k a xs).map (·.1) →
      k' = k ∨ k' ∈ xs.map (·.1)) ∧ ((xs.map (·.1)).Nodup → ((insert k a xs).map (·.1)).Nodup) := by
    intro k a xs
    induction xs with
    | nil => exact ⟨fun k' hk' => .inl (List.mem_singleton.1 hk'), fun _ => List.nodup_singleton k⟩
    | cons e rest ih =>
      obtain ⟨k₁, a₁⟩ := e
      rw [insert]
      split
      · exact ⟨fun k' hk' => .inr hk', fun h => h⟩
      next hne =>
        obtain ⟨hkeys, hnodup⟩ := ih
        refine ⟨fun k' hk' => ?_, fun h => ?_⟩
        · rcases List.mem_cons.1 hk' with rfl | hk'
          · exact .inr List.mem_cons_self
          · exact (hkeys k' hk').imp_right (List.mem_cons_of_mem _)
        · obtain ⟨hfresh, hrest⟩ := List.nodup_cons.1 h
          refine List.nodup_cons.2 ⟨fun hmem => ?_, hnodup hrest⟩
          exact (hkeys k₁ hmem).elim hne hfresh
  have hfold : ∀ acc : List (Key × α), (acc.map (·.1)).Nodup →
      ((entries.foldl (fun es e => insert e.1 e.2 es) acc).map (·.1)).Nodup := by
    induction entries with
    | nil => exact fun acc hacc => hacc
    | cons e rest ih => exact fun acc hacc => ih _ ((hinsert e.1 e.2 acc).2 hacc)
  exact hfold [] List.nodup_nil

namespace Literal

variable {scope : Scope} {n n' : BufferId}

mutual

/-- The value of a literal takes new numbers. -/
theorem eval_keepsHeap (val : BufferId → Value) : ∀ (l : Literal) {v : Value} {n n' : BufferId},
    l.eval scope n = .ok (v, n') → Value.KeepsHeap n n' val [v]
  | .null, v, n, n', h | .int _, v, n, n', h | .float _, v, n, n', h | .bool _, v, n, n', h
  | .error _, v, n, n', h | .moved, v, n, n', h | .host _, v, n, n', h => by
    rw [eval] at h
    obtain ⟨rfl, rfl⟩ := Prod.mk.inj (Except.ok.inj h)
    exact .atom rfl
  | .str s, v, n, n', h => by
    rw [eval] at h
    obtain ⟨rfl, rfl⟩ := Prod.mk.inj (Except.ok.inj h)
    exact (Value.KeepsHeap.refl (List.forall_mem_nil _)).node rfl trivial (List.forall_mem_nil _)
  | .list items, v, n, n', h => by
    rw [eval] at h
    -- the items come first, the node that holds them takes the next number
    obtain ⟨vs, s, hvs, h⟩ := state_bind_ok h
    obtain ⟨rfl, rfl⟩ := Prod.mk.inj (Except.ok.inj h)
    exact (evalItems_keepsHeap val items hvs).node rfl trivial fun _ hp => hp
  | .map entries, v, n, n', h => by
    rw [eval] at h
    obtain ⟨es, s, hes, h⟩ := state_bind_ok h
    obtain ⟨rfl, rfl⟩ := Prod.mk.inj (Except.ok.inj h)
    refine (evalEntries_keepsHeap val entries hes).node rfl (Entries.nodup_ofList es) fun p hp => ?_
    have hall : Entries.All (· ∈ es.map (·.2)) es := fun e he => List.mem_map_of_mem he
    obtain ⟨e, he, rfl⟩ := List.mem_map.1 hp
    exact hall.ofList e he
  | .func block bindings, v, n, n', h => by
    rw [eval] at h
    obtain ⟨vs, s, hvs, h⟩ := state_bind_ok h
    obtain ⟨rfl, rfl⟩ := Prod.mk.inj (Except.ok.inj h)
    exact (evalItems_keepsHeap val bindings hvs).node rfl trivial fun _ hp => hp
  | .record name fields, v, n, n', h => by
    rw [eval] at h
    cases hty : scope.type name with
    | error e =>
      rw [hty] at h
      cases h
    | ok ty =>
      rw [hty] at h
      obtain ⟨ty', s, hty', h⟩ := state_bind_ok h
      obtain ⟨rfl, rfl⟩ := Prod.mk.inj (Except.ok.inj hty')
      obtain ⟨vs, s, hvs, h⟩ := state_bind_ok h
      obtain ⟨id, s', hfresh, h⟩ := state_bind_ok h
      obtain ⟨rfl, rfl⟩ := Prod.mk.inj (Except.ok.inj hfresh)
      dsimp only [Ty.cast] at h
      cases hcast : ty.cast? (.list s vs) (s + 1) with
      | none =>
        rw [hcast] at h
        cases h
      | some r =>
        rw [hcast] at h
        obtain rfl := Except.ok.inj h
        -- the fields are cast from a list that is made for it and dropped with it
        have hlist := (evalItems_keepsHeap val fields hvs).node (v := .list s vs) rfl trivial fun _ hp => hp
        exact hlist.bind fun val' h => ty.cast?_keepsHeap hcast (h _ List.mem_cons_self)
  | .module index, v, n, n', h => by
    rw [eval] at h
    cases hm : scope.modules[index]? with
    | none =>
      rw [hm] at h
      cases h
    | some m =>
      rw [hm] at h
      obtain ⟨rfl, rfl⟩ := Prod.mk.inj (Except.ok.inj h)
      exact .atom rfl
  | .initial name, v, n, n', h => by
    rw [eval] at h
    cases hty : scope.type name with
    | error e =>
      rw [hty] at h
      cases h
    | ok ty =>
      rw [hty] at h
      obtain ⟨rfl, rfl⟩ := Prod.mk.inj (Except.ok.inj h)
      exact ty.initial_keepsHeap n val

/-- **The values of literals keep the heap**, one after the other. -/
theorem evalItems_keepsHeap (val : BufferId → Value) : ∀ (ls : List Literal) {vs : List Value}
    {n n' : BufferId},
    evalItems scope ls n = .ok (vs, n') → Value.KeepsHeap n n' val vs
  | [], vs, n, n', h => by
    obtain ⟨rfl, rfl⟩ := Prod.mk.inj (Except.ok.inj h)
    exact .refl (List.forall_mem_nil _)
  | l :: rest, vs, n, n', h => by
    rw [evalItems] at h
    obtain ⟨v, s, hv, h⟩ := state_bind_ok h
    obtain ⟨ws, s', hws, h⟩ := state_bind_ok h
    obtain ⟨rfl, rfl⟩ := Prod.mk.inj (Except.ok.inj h)
    exact (eval_keepsHeap val l hv).cons fun val' => evalItems_keepsHeap val' rest hws

/-- The values of the entries of a map literal keep the heap. -/
theorem evalEntries_keepsHeap (val : BufferId → Value) : ∀ (ls : List (Key × Literal)) {es : List (Key × Value)}
    {n n' : BufferId}, evalEntries scope ls n = .ok (es, n') → Value.KeepsHeap n n' val (es.map (·.2))
  | [], es, n, n', h => by
    obtain ⟨rfl, rfl⟩ := Prod.mk.inj (Except.ok.inj h)
    exact .refl (List.forall_mem_nil _)
  | (k, l) :: rest, es, n, n', h => by
    rw [evalEntries] at h
    obtain ⟨v, s, hv, h⟩ := state_bind_ok h
    obtain ⟨ws, s', hws, h⟩ := state_bind_ok h
    obtain ⟨rfl, rfl⟩ := Prod.mk.inj (Except.ok.inj h)
    exact (eval_keepsHeap val l hv).cons fun val' => evalEntries_keepsHeap val' rest hws

end

/-- There is a value for every literal. -/
theorem length_evalItems {scope : Scope} {ls : List Literal} {vs : List Value} {n n' : BufferId}
    (h : evalItems scope ls n = .ok (vs, n')) : vs.length = ls.length := by
  induction ls generalizing vs n n' with
  | nil =>
    obtain ⟨rfl, -⟩ := Prod.mk.inj (Except.ok.inj h)
    rfl
  | cons l ls ih =>
    rw [evalItems] at h
    obtain ⟨v, s, -, h⟩ := state_bind_ok h
    obtain ⟨vs', s', hrest, h⟩ := state_bind_ok h
    obtain ⟨rfl, -⟩ := Prod.mk.inj (Except.ok.inj h)
    rw [List.length_cons, List.length_cons, ih hrest]

end Literal

end BlockMachine

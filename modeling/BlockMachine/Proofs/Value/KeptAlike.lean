import BlockMachine.Machine.Call
import BlockMachine.Proofs.Value.Likeness

namespace BlockMachine

/-!
# Operations that keep values alike

What the operations of a machine do to alike registers and alike values is alike again.

* `Registers.Like` is kept by writing, growing and cutting registers;
* `Numbering` describes the pairs of supplies from which two computations may draw, and
  `Ty.cast?_like` says that casts of alike values then go the same way;
* `StateTree.child_like`: alike trees have alike trees under a key.
-/

/-! ### Lists and registers -/

/-- Lists are alike if they are so at each position, and end together. -/
theorem Items.like_iff_getElem? {ρ : Matching} {xs ys : List Value} :
    Items.Like ρ xs ys ↔ ∀ i : Nat, Option.Rel (Value.Like ρ) xs[i]? ys[i]? := by
  constructor
  · intro h
    induction h with
    | nil => exact fun _ => .none
    | cons hhead _ ih =>
      intro i
      cases i with
      | zero => exact .some hhead
      | succ i => exact ih i
  · intro h
    induction xs generalizing ys with
    | nil =>
      cases ys with
      | nil => exact .nil
      | cons y ys => exact nomatch h 0
    | cons x xs ih =>
      cases ys with
      | nil => exact nomatch h 0
      | cons y ys =>
        cases h 0 with
        | some hhead => exact .cons hhead (ih fun i => h (i + 1))

/-- Lists stay alike under more links. -/
theorem Items.Like.mono {ρ ρ' : Matching} {xs ys : List Value} (h : Items.Like ρ xs ys)
    (hle : ρ ≤ ρ') : Items.Like ρ' xs ys :=
  List.Forall₂.imp (fun _ _ hvw => hvw.mono hle) h

/-- Lists stay alike when alike values are put at one position. -/
theorem Items.Like.set {ρ : Matching} {xs ys : List Value} (h : Items.Like ρ xs ys) (i : Nat)
    {v w : Value} (hvw : v.Like ρ w) : Items.Like ρ (xs.set i v) (ys.set i w) := by
  induction h generalizing i with
  | nil => exact .nil
  | cons hhead htail ih =>
    cases i with
    | zero => exact .cons hvw htail
    | succ i => exact .cons hhead (ih i)

/-- Alike lists are appended to alike lists. -/
theorem Items.Like.append {ρ : Matching} {xs ys xs' ys' : List Value} (h : Items.Like ρ xs ys)
    (h' : Items.Like ρ xs' ys') : Items.Like ρ (xs ++ xs') (ys ++ ys') :=
  List.rel_append h h'

/-- Entries stay alike under more links. -/
theorem Entries.Like.mono {ρ ρ' : Matching} {xs ys : List (Key × Value)} (h : Entries.Like ρ xs ys)
    (hle : ρ ≤ ρ') : Entries.Like ρ' xs ys :=
  List.Forall₂.imp (fun _ _ hentry => ⟨hentry.1, hentry.2.mono hle⟩) h

/-- What is found is alike, or null is taken on both sides. -/
theorem Value.Like.getD {ρ : Matching} {x y : Option Value} (h : Option.Rel (Value.Like ρ) x y) :
    (x.getD .null).Like ρ (y.getD .null) := by
  cases h with
  | none => exact .atom rfl
  | some hlike => exact hlike

namespace Registers.Like

variable {ρ ρ' : Matching} {xs ys : Array Value}

/-- Registers stay alike under more links. -/
theorem mono (h : Like ρ xs ys) (hle : ρ ≤ ρ') : Like ρ' xs ys := by
  intro i
  cases hx : xs[i]? <;> cases hy : ys[i]? <;> have hi := h i <;> rw [hx, hy] at hi <;> cases hi
  · exact .none
  case some hvw => exact .some (hvw.mono hle)

/-- Alike registers hold alike lists of values. -/
theorem toList (h : Like ρ xs ys) : Items.Like ρ xs.toList ys.toList := by
  refine Items.like_iff_getElem?.2 fun i => ?_
  rw [Array.getElem?_toList, Array.getElem?_toList]
  exact h i

/-- Alike lists of values may be registers. -/
theorem of_items {vs ws : List Value} (h : Items.Like ρ vs ws) : Like ρ vs.toArray ws.toArray := by
  intro i
  rw [List.getElem?_toArray, List.getElem?_toArray]
  exact Items.like_iff_getElem?.1 h i

/-- There are as many registers on both sides. -/
theorem size_eq (h : Like ρ xs ys) : xs.size = ys.size := by
  rw [← Array.length_toList, ← Array.length_toList]
  exact h.toList.length_eq

/-- Alike values are written to one register. -/
theorem set (h : Like ρ xs ys) (i : Nat) {v w : Value} (hvw : v.Like ρ w) :
    Like ρ (xs.setIfInBounds i v) (ys.setIfInBounds i w) := by
  intro j
  rw [Array.getElem?_setIfInBounds, Array.getElem?_setIfInBounds, h.size_eq]
  by_cases hij : i = j
  · rw [if_pos hij, if_pos hij]
    split
    · exact .some hvw
    · exact .none
  · rw [if_neg hij, if_neg hij]
    exact h j

/-- Registers between two positions are alike. -/
theorem extract (h : Like ρ xs ys) (start stop : Nat) :
    Like ρ (xs.extract start stop) (ys.extract start stop) := by
  intro i
  rw [Array.getElem?_extract, Array.getElem?_extract, h.size_eq]
  split
  · exact h (start + i)
  · exact .none

/-- Both sides get as many registers, new ones holding null. -/
theorem resized (h : Like ρ xs ys) (count : Nat) :
    Like ρ (Frame.resized xs count) (Frame.resized ys count) := by
  intro i
  have htake := h.extract 0 count
  unfold Frame.resized
  rw [Array.take_eq_extract, Array.take_eq_extract, Array.getElem?_append, Array.getElem?_append,
    htake.size_eq, h.size_eq]
  split
  · exact htake i
  · rw [Array.getElem?_replicate]
    split
    · exact .some (.atom rfl)
    · exact .none

/-- Registers stay alike when each of them is changed alike. -/
theorem mapIdx (h : Like ρ xs ys) {f : Nat → Value → Value}
    (hf : ∀ i v w, v.Like ρ w → (f i v).Like ρ (f i w)) : Like ρ (xs.mapIdx f) (ys.mapIdx f) := by
  intro i
  rw [Array.getElem?_mapIdx, Array.getElem?_mapIdx]
  cases hx : xs[i]? <;> cases hy : ys[i]? <;> have hi := h i <;> rw [hx, hy] at hi <;> cases hi
  · exact .none
  case some hvw => exact .some (hf i _ _ hvw)

end Registers.Like

/-! ### Supplies -/

/-- Pairs of supplies from which two computations draw buffer numbers in step: the next numbers may
    be linked. -/
def Numbering (T : Matching → BufferId → BufferId → Prop) : Prop :=
  ∀ ρ n₁ n₂, T ρ n₁ n₂ → ∃ ρ', ρ ≤ ρ' ∧ ρ'.links n₁ n₂ ∧ T ρ' (n₁ + 1) (n₂ + 1)

/-- Two results with the supplies that are left: alike, after more links. -/
def DrawnAlike {α : Type} (T : Matching → BufferId → BufferId → Prop) (ρ : Matching)
    (V : Matching → α → α → Prop) (x y : α × BufferId) : Prop :=
  ∃ ρ', ρ ≤ ρ' ∧ T ρ' x.2 y.2 ∧ V ρ' x.1 y.1

section Drawing

variable {T : Matching → BufferId → BufferId → Prop} {ρ : Matching} {n₁ n₂ : BufferId}

/-- Results that take no numbers. -/
theorem DrawnAlike.pure {α : Type} {V : Matching → α → α → Prop} (h : T ρ n₁ n₂) {x y : α}
    (hxy : V ρ x y) : DrawnAlike T ρ V (x, n₁) (y, n₂) :=
  ⟨ρ, le_rfl, h, hxy⟩

/-- A value in a new buffer, over contents that are alike under more links as well. -/
theorem DrawnAlike.node (hT : Numbering T) (h : T ρ n₁ n₂) {f g : BufferId → Value}
    (hfg : ∀ ρ', ρ ≤ ρ' → ∀ a b, ρ'.links a b → (f a).Like ρ' (g b)) :
    DrawnAlike T ρ Value.Like (f n₁, n₁ + 1) (g n₂, n₂ + 1) := by
  obtain ⟨ρ', hle, hlink, hnext⟩ := hT ρ n₁ n₂ h
  exact ⟨ρ', hle, hnext, hfg ρ' hle _ _ hlink⟩

/-- The same text is put into new buffers. -/
theorem Value.newStr_alike (hT : Numbering T) (h : T ρ n₁ n₂) (s : String) :
    DrawnAlike T ρ Value.Like (newStr s n₁) (newStr s n₂) :=
  .node hT h fun _ _ _ _ hlink => .str (hlink _ _)

/-- Alike lists in new buffers. -/
theorem Value.newList_alike (hT : Numbering T) (h : T ρ n₁ n₂) {xs ys : List Value}
    (hxs : Items.Like ρ xs ys) : DrawnAlike T ρ Value.Like (newList xs n₁) (newList ys n₂) :=
  .node hT h fun _ hle _ _ hlink => .list (hlink _ _) (hxs.mono hle)

/-- Alike maps in new buffers. -/
theorem Value.newMap_alike (hT : Numbering T) (h : T ρ n₁ n₂) {xs ys : List (Key × Value)}
    (hxs : Entries.Like ρ xs ys) : DrawnAlike T ρ Value.Like (newMap xs n₁) (newMap ys n₂) :=
  .node hT h fun _ hle _ _ hlink => .of_entries (hlink _ _) (hxs.mono hle)

/-- Alike records of one type in new buffers. -/
theorem Value.newRecord_alike (hT : Numbering T) (h : T ρ n₁ n₂) (type : RecordType)
    {xs ys : List Value} (hxs : Items.Like ρ xs ys) :
    DrawnAlike T ρ Value.Like (newRecord type xs n₁) (newRecord type ys n₂) :=
  .node hT h fun _ hle _ _ hlink => .record (hlink _ _) (hxs.mono hle)

/-- Alike closures over one block in new buffers. -/
theorem Value.newFunc_alike (hT : Numbering T) (h : T ρ n₁ n₂) (block : BlockId)
    {xs ys : List Value} (hxs : Items.Like ρ xs ys) :
    DrawnAlike T ρ Value.Like (newFunc block xs n₁) (newFunc block ys n₂) :=
  .node hT h fun _ hle _ _ hlink => .func (hlink _ _) (hxs.mono hle)

/-- The part of alike containers at a position. -/
theorem Value.item?_alike (hT : Numbering T) (h : T ρ n₁ n₂) {v w : Value} (hvw : v.Like ρ w)
    (i : Nat) : DrawnAlike T ρ (fun ρ => Option.Rel (Value.Like ρ)) (v.item? i n₁) (w.item? i n₂) := by
  cases hvw with
  | atom hid =>
    cases v <;> first | exact .pure h .none | exact nomatch hid
  | @str _ _ s _ =>
    rw [item?, item?]
    cases s.toList[i]? with
    | none => exact .pure h .none
    | some c =>
      obtain ⟨ρ', hle, hnext, hlike⟩ := newStr_alike hT h c.toString
      exact ⟨ρ', hle, hnext, .some hlike⟩
  | list _ items => exact .pure h (Items.like_iff_getElem?.1 items i)
  | @map a b xs ys _ _ values =>
    have hi := Items.like_iff_getElem?.1 values i
    rw [List.getElem?_map, List.getElem?_map] at hi
    exact .pure h hi
  | record _ fields => exact .pure h (Items.like_iff_getElem?.1 fields i)
  | func => exact .pure h .none

/-! ### Casts -/

/-- The results of two computations that may fail: both fail, or both give alike results. -/
abbrev CastAlike {α : Type} (T : Matching → BufferId → BufferId → Prop) (ρ : Matching)
    (V : Matching → α → α → Prop) : Option (α × BufferId) → Option (α × BufferId) → Prop :=
  Option.Rel (DrawnAlike T ρ V)

/-- Casts of alike values to a built-in type. -/
theorem Ty.castBasic_like (hT : Numbering T) (h : T ρ n₁ n₂) {v w : Value} (hvw : v.Like ρ w)
    (b : Builtin) : CastAlike T ρ Value.Like (castBasic b v n₁) (castBasic b w n₂) := by
  have hkeep : ∀ {v w : Value}, v.Like ρ w →
      CastAlike T ρ Value.Like (some (v, n₁)) (some (w, n₂)) :=
    fun hvw => .some (.pure h hvw)
  -- a value of its own type is kept, and alike values have one type
  have hown : ∀ b : Builtin, CastAlike T ρ Value.Like
      ((if v.typeId = b.id then return v else failure : StateT BufferId Option Value) n₁)
      ((if w.typeId = b.id then return w else failure : StateT BufferId Option Value) n₂) := by
    intro b
    rw [hvw.typeId_eq]
    split
    · exact hkeep hvw
    · exact .none
  cases b with
  | any =>
    cases hvw with
    | atom hid => cases v <;> first | exact .none | exact hkeep (.atom hid)
    | str hpair => exact hkeep (.str hpair)
    | list hpair items => exact hkeep (.list hpair items)
    | map hpair keys values => exact hkeep (.map hpair keys values)
    | record hpair fields => exact hkeep (.record hpair fields)
    | func hpair bindings => exact hkeep (.func hpair bindings)
  | moved => exact .none
  | int =>
    cases hvw with
    | atom hid =>
      cases v with
      | float x =>
        simp only [castBasic]
        cases exactInt? x with
        | none => exact .none
        | some i => exact hkeep (.atom rfl)
      | _ => exact hown .int
    | _ => exact hown .int
  | float =>
    cases hvw with
    | atom hid =>
      cases v with
      | int i => exact hkeep (.atom rfl)
      | _ => exact hown .float
    | _ => exact hown .float
  | list =>
    cases hvw with
    | atom hid =>
      cases v with
      | record => cases hid
      | _ => exact hown .list
    | record _ fields =>
      exact .some (.node hT h fun _ hle _ _ hlink => .list (hlink _ _) (Items.Like.mono fields hle))
    | _ => exact hown .list
  | module =>
    cases hvw with
    | atom hid =>
      cases v with
      | module m => exact hkeep (.atom rfl)
      | _ => exact hown .module
    | _ => exact hown .module
  | _ => exact hown _

mutual

/-- **Casts of alike values go alike**, records field by field. -/
theorem Ty.cast?_like (hT : Numbering T) : ∀ (ty : Ty) {ρ : Matching} {n₁ n₂ : BufferId}
    {v w : Value}, T ρ n₁ n₂ → v.Like ρ w →
      CastAlike T ρ Value.Like (cast? ty v n₁) (cast? ty w n₂)
  | .basic b, _, _, _, _, _, h, hvw => by
    rw [cast?, cast?]
    exact castBasic_like hT h hvw b
  | .module m, _, _, _, v, w, h, hvw => by
    cases hvw with
    | atom hid =>
      cases v with
      | module n =>
        simp only [cast?]
        split
        · exact .some (.pure h (.atom rfl))
        · exact .none
      | _ =>
        simp only [cast?]
        exact .none
    | _ =>
      simp only [cast?]
      exact .none
  | .record ⟨id, name, decls⟩, ρ, n₁, n₂, v, w, h, hvw => by
    -- fields are cast one by one, and the record gets a new buffer
    have hfields : ∀ {xs ys : List Value}, Items.Like ρ xs ys → CastAlike T ρ Value.Like
        ((do
          let cast ← castFields decls xs
          return .record (← fresh) ⟨id, name, decls⟩ cast : StateT BufferId Option Value) n₁)
        ((do
          let cast ← castFields decls ys
          return .record (← fresh) ⟨id, name, decls⟩ cast : StateT BufferId Option Value) n₂) := by
      intro xs ys hxs
      have hcast := castFields_like hT decls h hxs
      simp only [bind, StateT.bind]
      generalize castFields decls xs n₁ = r₁ at hcast
      generalize castFields decls ys n₂ = r₂ at hcast
      cases hcast with
      | none => exact .none
      | @some x y hxy =>
        obtain ⟨ρ', hle, hnext, hlike⟩ := hxy
        obtain ⟨ρ'', hle', hnext', hnode⟩ := DrawnAlike.node (f := fun a => .record a _ x.1)
          (g := fun b => .record b ⟨id, name, decls⟩ y.1) hT hnext
          fun _ hle' _ _ hlink => .record (hlink _ _) (hlike.mono hle')
        exact .some ⟨ρ'', le_trans hle hle', hnext', hnode⟩
    cases hvw with
    | atom hid =>
      cases v with
      | list | record => exact nomatch hid
      | _ =>
        simp only [cast?]
        exact .none
    | list _ items =>
      simp only [cast?]
      exact hfields items
    | record hpair fields =>
      simp only [cast?]
      split
      · exact .some (.pure h (.record hpair fields))
      · exact hfields fields
    | _ =>
      simp only [cast?]
      exact .none

/-- Casts of the fields of alike records go alike. -/
theorem Ty.castFields_like (hT : Numbering T) : ∀ (decls : List (String × Ty)) {ρ : Matching}
    {n₁ n₂ : BufferId} {xs ys : List Value}, T ρ n₁ n₂ → Items.Like ρ xs ys →
      CastAlike T ρ Items.Like (castFields decls xs n₁) (castFields decls ys n₂)
  | [], _, _, _, _, _, h, .nil => by
    rw [castFields]
    exact .some (.pure h .nil)
  | [], _, _, _, _, _, _, .cons _ _ => by
    simp only [castFields]
    exact .none
  | _ :: _, _, _, _, _, _, _, .nil => by
    simp only [castFields]
    exact .none
  | (_, ty) :: decls, _, n₁, n₂, v :: xs, w :: ys, h, .cons hhead htail => by
    have hcast := cast?_like hT ty h hhead
    rw [castFields, castFields]
    simp only [bind, StateT.bind]
    generalize cast? ty v n₁ = r₁ at hcast
    generalize cast? ty w n₂ = r₂ at hcast
    cases hcast with
    | none => exact .none
    | @some x y hxy =>
      obtain ⟨ρ', hle, hnext, hlike⟩ := hxy
      have hrest := castFields_like hT decls hnext (Items.Like.mono htail hle)
      dsimp only [Option.bind]
      generalize castFields decls xs x.2 = r₁ at hrest
      generalize castFields decls ys y.2 = r₂ at hrest
      cases hrest with
      | none => exact .none
      | @some xs ys hxs =>
        obtain ⟨ρ'', hle', hnext', hlikes⟩ := hxs
        exact .some ⟨ρ'', le_trans hle hle', hnext', .cons (hlike.mono hle') hlikes⟩

end

/-! ### Trees of kept state -/

/-- Alike trees have alike trees under a key, or none. -/
theorem StateTree.child_like {v w : Value} (h : v.Like ρ w) (k : Key) :
    (child v k).Like ρ (child w k) := by
  cases h with
  | atom hid => cases v <;> first | exact .atom rfl | exact nomatch hid
  | map hpair keys values =>
    exact Value.Like.getD ((Value.Like.map hpair keys values).entries.get? k)
  | _ => exact .atom rfl

/-- Alike values are saved under one name. -/
theorem StateTree.save_like {xs ys : List (Key × Value)} (h : Entries.Like ρ xs ys) (name : String)
    {v w : Value} (hvw : v.Like ρ w) : Entries.Like ρ (save xs name v) (save ys name w) := by
  rw [save, save, hvw.isNull_eq]
  split
  · exact h.erase _
  · exact h.insert _ hvw

/-- What alike children have saved is taken over alike. -/
theorem StateTree.merge_alike (hT : Numbering T) (h : T ρ n₁ n₂) {xs ys xs' ys' : List (Key × Value)}
    (hxs : Entries.Like ρ xs ys) (k : Key) (hxs' : Entries.Like ρ xs' ys') :
    DrawnAlike T ρ Entries.Like (merge xs k xs' n₁) (merge ys k ys' n₂) := by
  cases hxs' with
  | nil => exact .pure h (hxs.erase k)
  | cons hhead htail =>
    obtain ⟨ρ', hle, hnext, hmap⟩ := Value.newMap_alike hT h (.cons hhead htail)
    exact ⟨ρ', hle, hnext, (hxs.mono hle).insert k hmap⟩

end Drawing

end BlockMachine

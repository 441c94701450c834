import BlockMachine.Proofs.Value.Cast
import BlockMachine.Proofs.Value.Equality
import BlockMachine.Value.Text
import Mathlib.Data.List.Forall2
import Mathlib.Order.Defs.PartialOrder

namespace BlockMachine

/-!
# Values that differ in buffer numbers only

Two computations that do the same may give out different buffer numbers. Their values are then
alike: the same trees, where the numbers of one correspond to those of the other.

* `Matching` is a correspondence between buffer numbers, one to one but for values that equal each other
  anyway;
* `Value.Like ρ v w` says that two values are alike under it, `Entries.Like` and `Registers.Like`
  say it of the entries of maps and of registers;
* `Value.Like.equals_eq`, `Value.Like.text_eq` and `Value.Like.fingerprintBy_eq`: alike values
  cannot be told apart, not even by the short cut of equality for one and the same buffer;
* `Value.like_same`: under the correspondence of every number with itself, alike is equal.
-/

/-- A correspondence between the buffer numbers of two machines: which buffers correspond, and which values
    they hold. It is one to one, except that two buffers of one machine may stand for a single one of the
    other where equality finds their values equal by what they contain. -/
structure Matching where
  pairs : BufferId → BufferId → Value → Value → Prop
  oneToOne : ∀ {a b a' b' : BufferId} {v w v' w' : Value}, pairs a b v w → pairs a' b' v' w' →
    (a = a' ↔ b = b') ∨ v.equals v' = true ∧ w.equals w' = true

namespace Matching

/-- Two buffers correspond whatever values they hold. -/
def links (ρ : Matching) (a b : BufferId) : Prop :=
  ∀ v w, ρ.pairs a b v w

/-- A correspondence with all pairs of another. -/
instance : Preorder Matching where
  le ρ ρ' := ∀ a b v w, ρ.pairs a b v w → ρ'.pairs a b v w
  le_refl _ _ _ _ _ h := h
  le_trans _ _ _ h h' a b v w hab := h' a b v w (h a b v w hab)

/-- Every number corresponds to itself. -/
def same : Matching :=
  ⟨fun a b _ _ => a = b, by rintro a _ a' _ _ _ _ _ rfl rfl; exact .inl Iff.rfl⟩

/-- No numbers correspond. -/
def none : Matching :=
  ⟨fun _ _ _ _ => False, nofun⟩

/-- Only two given numbers correspond. -/
def link (a b : BufferId) : Matching :=
  ⟨fun a' b' _ _ => a' = a ∧ b' = b, by rintro _ _ _ _ _ _ _ _ ⟨rfl, rfl⟩ ⟨rfl, rfl⟩; simp⟩

/-- Two correspondences have no number in common. -/
def Apart (ρ σ : Matching) : Prop :=
  ∀ {a b a' b' : BufferId} {v w v' w' : Value}, ρ.pairs a b v w → σ.pairs a' b' v' w' →
    a ≠ a' ∧ b ≠ b'

/-- All pairs of two correspondences that have no number in common. -/
def join (ρ σ : Matching) (h : ρ.Apart σ) : Matching where
  pairs a b v w := ρ.pairs a b v w ∨ σ.pairs a b v w
  oneToOne := by
    rintro a b a' b' v w v' w' (hab | hab) (hab' | hab')
    · exact ρ.oneToOne hab hab'
    · obtain ⟨ha, hb⟩ := h hab hab'
      exact .inl ⟨fun heq => absurd heq ha, fun heq => absurd heq hb⟩
    · obtain ⟨ha, hb⟩ := h hab' hab
      exact .inl ⟨fun heq => absurd heq.symm ha, fun heq => absurd heq.symm hb⟩
    · exact σ.oneToOne hab hab'

/-- The first of two joined correspondences is a part of both. -/
theorem le_join_left {ρ σ : Matching} (h : ρ.Apart σ) : ρ ≤ ρ.join σ h :=
  fun _ _ _ _ => .inl

/-- The second of two joined correspondences is a part of both. -/
theorem le_join_right {ρ σ : Matching} (h : ρ.Apart σ) : σ ≤ ρ.join σ h :=
  fun _ _ _ _ => .inr

variable {ρ : Matching} {a b a' b' : BufferId} {v w v' w' : Value} {p q : Bool}

/-- The short cut of equality for one and the same buffer is taken on both sides, or changes nothing. -/
theorem short_cut (h : ρ.pairs a b v w) (h' : ρ.pairs a' b' v' w') (hpq : p = q)
    (hv : v.equals v' = (a == a' || p)) (hw : w.equals w' = (b == b' || q)) :
    v.equals v' = w.equals w' := by
  rcases ρ.oneToOne h h' with hiff | ⟨hequal, hequal'⟩
  · rw [hv, hw, hpq, show (a == a') = (b == b') from Bool.eq_iff_iff.2 (by simpa using hiff)]
  · rw [hequal, hequal']

end Matching

/-- Two values are the same tree, with corresponding buffer numbers. -/
inductive Value.Like (ρ : Matching) : Value → Value → Prop where
  | atom {v : Value} (h : v.id? = none) : Like ρ v v
  | str {a b : BufferId} {s : String} (h : ρ.pairs a b (.str a s) (.str b s)) :
    Like ρ (.str a s) (.str b s)
  | list {a b : BufferId} {xs ys : List Value} (h : ρ.pairs a b (.list a xs) (.list b ys))
    (items : List.Forall₂ (Like ρ) xs ys) : Like ρ (.list a xs) (.list b ys)
  | map {a b : BufferId} {xs ys : List (Key × Value)} (h : ρ.pairs a b (.map a xs) (.map b ys))
    (keys : xs.map (·.1) = ys.map (·.1))
    (values : List.Forall₂ (Like ρ) (xs.map (·.2)) (ys.map (·.2))) :
    Like ρ (.map a xs) (.map b ys)
  | record {a b : BufferId} {type : RecordType} {xs ys : List Value}
    (h : ρ.pairs a b (.record a type xs) (.record b type ys)) (fields : List.Forall₂ (Like ρ) xs ys) :
    Like ρ (.record a type xs) (.record b type ys)
  | func {a b : BufferId} {block : BlockId} {xs ys : List Value}
    (h : ρ.pairs a b (.func a block xs) (.func b block ys)) (bindings : List.Forall₂ (Like ρ) xs ys) :
    Like ρ (.func a block xs) (.func b block ys)

/-- The entries of two maps have the same keys in the same order, and alike values. -/
def Entries.Like (ρ : Matching) (xs ys : List (Key × Value)) : Prop :=
  List.Forall₂ (fun x y => x.1 = y.1 ∧ x.2.Like ρ y.2) xs ys

/-- Two lists of values are alike item by item. -/
abbrev Items.Like (ρ : Matching) (xs ys : List Value) : Prop :=
  List.Forall₂ (Value.Like ρ) xs ys

/-- The registers of two frames are alike, one by one. -/
def Registers.Like (ρ : Matching) (xs ys : Array Value) : Prop :=
  ∀ i : Nat, Option.Rel (Value.Like ρ) xs[i]? ys[i]?

namespace Entries.Like

variable {ρ : Matching} {xs ys : List (Key × Value)}

/-- The values under a key are alike, or there is none on either side. -/
theorem get? (h : Like ρ xs ys) (k : Key) :
    Option.Rel (Value.Like ρ) (Entries.get? k xs) (Entries.get? k ys) := by
  induction h with
  | nil => exact .none
  | @cons x y _ _ hhead _ ih =>
    rw [Entries.get?, Entries.get?, ← hhead.1]
    split
    · exact .some hhead.2
    · exact ih

/-- Alike values are put under a key. -/
theorem insert (h : Like ρ xs ys) (k : Key) {v w : Value} (hvw : v.Like ρ w) :
    Like ρ (Entries.insert k v xs) (Entries.insert k w ys) := by
  induction h with
  | nil => exact .cons ⟨rfl, hvw⟩ .nil
  | @cons x y _ _ hhead htail ih =>
    rw [Entries.insert, Entries.insert, ← hhead.1]
    split
    · exact .cons ⟨rfl, hvw⟩ htail
    · exact .cons ⟨rfl, hhead.2⟩ ih

/-- A key is taken out on both sides. -/
theorem erase (h : Like ρ xs ys) (k : Key) : Like ρ (Entries.erase k xs) (Entries.erase k ys) := by
  induction h with
  | nil => exact .nil
  | @cons x y _ _ hhead htail ih =>
    rw [Entries.erase, Entries.erase, ← hhead.1]
    split
    · exact htail
    · exact .cons ⟨rfl, hhead.2⟩ ih

end Entries.Like

namespace Value.Like

variable {ρ ρ' : Matching} {v w v' w' : Value}

/-- Induction over two alike values, with what is to be shown for their parts. -/
@[elab_as_elim]
theorem induct {P : ∀ v w, Like ρ v w → Prop}
    (atom : ∀ v (hid : v.id? = none), P v v (.atom hid))
    (str : ∀ a b s (hpair : ρ.pairs a b (.str a s) (.str b s)), P (.str a s) (.str b s) (.str hpair))
    (list : ∀ a b xs ys (hpair : ρ.pairs a b (.list a xs) (.list b ys))
      (items : List.Forall₂ (Like ρ) xs ys),
      List.Forall₂ (fun v w => ∃ h, P v w h) xs ys → P (.list a xs) (.list b ys) (.list hpair items))
    (map : ∀ a b xs ys (hpair : ρ.pairs a b (.map a xs) (.map b ys))
      (keys : xs.map (·.1) = ys.map (·.1))
      (values : List.Forall₂ (Like ρ) (xs.map (·.2)) (ys.map (·.2))),
      List.Forall₂ (fun x y => x.1 = y.1 ∧ ∃ h, P x.2 y.2 h) xs ys →
        P (.map a xs) (.map b ys) (.map hpair keys values))
    (record : ∀ a b type xs ys (hpair : ρ.pairs a b (.record a type xs) (.record b type ys))
      (fields : List.Forall₂ (Like ρ) xs ys),
      List.Forall₂ (fun v w => ∃ h, P v w h) xs ys →
        P (.record a type xs) (.record b type ys) (.record hpair fields))
    (func : ∀ a b block xs ys (hpair : ρ.pairs a b (.func a block xs) (.func b block ys))
      (bindings : List.Forall₂ (Like ρ) xs ys),
      List.Forall₂ (fun v w => ∃ h, P v w h) xs ys →
        P (.func a block xs) (.func b block ys) (.func hpair bindings))
    (h : Like ρ v w) : P v w h := by
  refine @Like.rec ρ P (fun xs ys _ => List.Forall₂ (fun v w => ∃ h, P v w h) xs ys)
    (fun hid => atom _ hid) (fun hpair => str _ _ _ hpair)
    (fun hpair items ih => list _ _ _ _ hpair items ih)
    (fun hpair keys values ih => map _ _ _ _ hpair keys values ?_)
    (fun hpair fields ih => record _ _ _ _ _ hpair fields ih)
    (fun hpair bindings ih => func _ _ _ _ _ hpair bindings ih)
    .nil (fun h _ ih ihs => .cons ⟨h, ih⟩ ihs) v w h
  -- keys and values one after the other are the entries
  rename_i xs ys
  clear values hpair
  induction xs generalizing ys with
  | nil =>
    cases ys with
    | nil => exact .nil
    | cons y ys => exact nomatch keys
  | cons x xs ihxs =>
    cases ys with
    | nil => exact nomatch keys
    | cons y ys =>
      obtain ⟨hkey, hkeys⟩ := List.cons.inj keys
      cases ih with
      | cons hhead htail => exact .cons ⟨hkey, hhead⟩ (ihxs hkeys htail)

/-- The values of two alike maps, from their entries. -/
theorem of_entries {a b : BufferId} {xs ys : List (Key × Value)}
    (h : ρ.pairs a b (.map a xs) (.map b ys)) (hentries : Entries.Like ρ xs ys) :
    Like ρ (.map a xs) (.map b ys) := by
  have hsplit : xs.map (·.1) = ys.map (·.1) ∧ Items.Like ρ (xs.map (·.2)) (ys.map (·.2)) := by
    clear h
    induction hentries with
    | nil => exact ⟨rfl, .nil⟩
    | cons hentry _ ih =>
      simp only [List.map_cons, hentry.1, ih.1]
      exact ⟨trivial, .cons hentry.2 ih.2⟩
  exact .map h hsplit.1 hsplit.2

/-- More links keep values alike. -/
theorem mono (hle : ρ ≤ ρ') (h : Like ρ v w) : Like ρ' v w := by
  induction h using induct with
  | atom v hid => exact .atom hid
  | str a b s hpair => exact .str (hle _ _ _ _ hpair)
  | list a b xs ys hpair _ ih => exact .list (hle _ _ _ _ hpair) (ih.imp fun _ _ h => h.2)
  | map a b xs ys hpair _ _ ih =>
    exact of_entries (hle _ _ _ _ hpair) (ih.imp fun _ _ h => ⟨h.1, h.2.2⟩)
  | record a b type xs ys hpair _ ih =>
    exact .record (hle _ _ _ _ hpair) (ih.imp fun _ _ h => h.2)
  | func a b block xs ys hpair _ ih =>
    exact .func (hle _ _ _ _ hpair) (ih.imp fun _ _ h => h.2)

/-- The entries of two alike maps. -/
theorem entries {a b : BufferId} {xs ys : List (Key × Value)} (h : Like ρ (.map a xs) (.map b ys)) :
    Entries.Like ρ xs ys := by
  generalize hv : Value.map a xs = v at h
  generalize hw : Value.map b ys = w at h
  induction h using induct with
  | map a' b' xs' ys' _ _ _ ih =>
    obtain ⟨-, rfl⟩ := Value.map.inj hv
    obtain ⟨-, rfl⟩ := Value.map.inj hw
    exact ih.imp fun _ _ h => ⟨h.1, h.2.1⟩
  | atom v hid =>
    rw [← hv] at hid
    exact nomatch hid
  | str | list | record | func => exact nomatch hv

/-! ### What can be read of alike values -/

/-- Alike values are of one type. -/
theorem type_eq (h : Like ρ v w) : v.type = w.type := by
  cases h <;> rfl

/-- Their types have one number. -/
theorem typeId_eq (h : Like ρ v w) : v.typeId = w.typeId :=
  congrArg Ty.id h.type_eq

/-- Their types have one name. -/
theorem typeName_eq (h : Like ρ v w) : v.typeName = w.typeName :=
  congrArg Ty.name h.type_eq

/-- Alike values are both null, or none is. -/
theorem isNull_eq (h : Like ρ v w) : v.isNull = w.isNull := by
  cases h <;> rfl

/-- Alike values were both moved away, or none was. -/
theorem isMoved_eq (h : Like ρ v w) : v.isMoved = w.isMoved := by
  cases h <;> rfl

/-- Alike values are the same integer, or none is one. -/
theorem int?_eq (h : Like ρ v w) : v.int? = w.int? := by
  cases h <;> rfl

/-- Alike values are the same number, or none is one. -/
theorem float?_eq (h : Like ρ v w) : v.float? = w.float? := by
  cases h <;> rfl

/-- Alike values are the same truth value, or none is one. -/
theorem bool?_eq (h : Like ρ v w) : v.bool? = w.bool? := by
  cases h <;> rfl

/-- Alike values are the same key, or none is one. -/
theorem key?_eq (h : Like ρ v w) : v.key? = w.key? := by
  cases h <;> rfl

/-- Alike values are of the same length, or have none. -/
theorem length?_eq (h : Like ρ v w) : v.length? = w.length? := by
  cases h with
  | atom | str => rfl
  | list _ items => exact congrArg some items.length_eq
  | map _ keys _ =>
    have hlength : _ = _ := congrArg List.length keys
    rw [List.length_map, List.length_map] at hlength
    exact congrArg some hlength
  | record _ fields => exact congrArg some fields.length_eq
  | func => rfl

/-- Alike values are both lists with alike items, or none is one. -/
theorem list? (h : Like ρ v w) : Option.Rel (Items.Like ρ) v.list? w.list? := by
  cases h with
  | list _ items => exact .some items
  | atom hid => cases v <;> first | exact .none | exact nomatch hid
  | _ => exact .none

/-- Alike values are both closures over one block with alike bindings, or none is one. -/
theorem func? (h : Like ρ v w) :
    Option.Rel (fun x y => x.1 = y.1 ∧ Items.Like ρ x.2 y.2) v.func? w.func? := by
  cases h with
  | func _ bindings => exact .some ⟨rfl, bindings⟩
  | atom hid => cases v <;> first | exact .none | exact nomatch hid
  | _ => exact .none

/-- Alike values have the same text. -/
theorem text_eq (h : Like ρ v w) : v.text = w.text := by
  -- strings inside containers are quoted, and alike values are both strings or neither is
  have hcases : ∀ {v w : Value}, Like ρ v w →
      (∃ a b s, v = .str a s ∧ w = .str b s) ∨ (∀ a s, v ≠ .str a s) ∧ ∀ a s, w ≠ .str a s := by
    intro v w h
    cases h with
    | str _ => exact .inl ⟨_, _, _, rfl, rfl⟩
    | atom hid =>
      refine .inr ⟨?_, ?_⟩ <;>
      · rintro a s rfl
        exact nomatch hid
    | _ => exact .inr ⟨nofun, nofun⟩
  have hitems : ∀ {xs ys : List Value},
      List.Forall₂ (fun v w => ∃ _ : Like ρ v w, v.text = w.text) xs ys →
      itemTexts xs = itemTexts ys := by
    intro xs ys h
    induction h with
    | nil => rfl
    | cons hhead _ ih =>
      rcases hcases hhead.fst with ⟨a, b, s, rfl, rfl⟩ | ⟨hv, hw⟩
      · simp only [itemTexts, ih]
      · rw [itemTexts.eq_3 _ _ hv, itemTexts.eq_3 _ _ hw, hhead.2, ih]
  have hfields : ∀ {xs ys : List Value} (names : List String),
      List.Forall₂ (fun v w => ∃ _ : Like ρ v w, v.text = w.text) xs ys →
      fieldTexts names xs = fieldTexts names ys := by
    intro xs ys names h
    induction h generalizing names with
    | nil => rfl
    | cons hhead _ ih =>
      cases names with
      | nil => simp only [fieldTexts]
      | cons name names =>
        rcases hcases hhead.fst with ⟨a, b, s, rfl, rfl⟩ | ⟨hv, hw⟩
        · simp only [fieldTexts, ih]
        · rw [fieldTexts.eq_2 _ _ _ _ hv, fieldTexts.eq_2 _ _ _ _ hw, hhead.2, ih]
  have hentries : ∀ {xs ys : List (Key × Value)},
      List.Forall₂ (fun x y => x.1 = y.1 ∧ ∃ _ : Like ρ x.2 y.2, x.2.text = y.2.text) xs ys →
      entryTexts xs = entryTexts ys := by
    intro xs ys h
    induction h with
    | nil => rfl
    | @cons x y _ _ hhead _ ih =>
      obtain ⟨k, v⟩ := x
      obtain ⟨k', w⟩ := y
      obtain ⟨rfl, hlike, htext⟩ := hhead
      rcases hcases hlike with ⟨a, b, s, rfl, rfl⟩ | ⟨hv, hw⟩
      · simp only [entryTexts, ih]
      · have hv' : ∀ a s, (k, v) ≠ (k, .str a s) := fun a s heq => hv a s (Prod.mk.inj heq).2
        rw [entryTexts.eq_3 _ _ _ hv, entryTexts.eq_3 _ _ _ hw]
        dsimp only at htext
        rw [htext, ih]
  induction h using induct with
  | atom | str => rfl
  | list a b xs ys _ _ ih => rw [text, text, hitems ih]
  | map a b xs ys _ _ _ ih => rw [text, text, hentries ih]
  | record a b type xs ys _ _ ih => rw [text, text, hfields _ ih]
  | func => simp only [text]

/-- Alike values feed the same words to a hasher, whatever the hash of a map's entries. -/
theorem fingerprintBy_eq (hash : List HashWord → UInt64) (h : Like ρ v w) :
    v.fingerprintBy hash = w.fingerprintBy hash := by
  have hitems : ∀ {xs ys : List Value},
      List.Forall₂ (fun v w => ∃ _ : Like ρ v w, v.fingerprintBy hash = w.fingerprintBy hash) xs ys →
      itemWordsBy hash xs = itemWordsBy hash ys ∧ xs.length = ys.length := by
    intro xs ys h
    refine ⟨?_, h.length_eq⟩
    induction h with
    | nil => rfl
    | cons hhead _ ih => rw [itemWordsBy, itemWordsBy, hhead.2, ih]
  have hentries : ∀ {xs ys : List (Key × Value)},
      List.Forall₂
        (fun x y => x.1 = y.1 ∧
          ∃ _ : Like ρ x.2 y.2, x.2.fingerprintBy hash = y.2.fingerprintBy hash) xs ys →
      entrySumBy hash xs = entrySumBy hash ys ∧ xs.length = ys.length := by
    intro xs ys h
    refine ⟨?_, h.length_eq⟩
    induction h with
    | nil => rfl
    | @cons x y _ _ hhead _ ih =>
      obtain ⟨k, v⟩ := x
      obtain ⟨k', w⟩ := y
      obtain ⟨rfl, -, hwords⟩ := hhead
      dsimp only at hwords
      rw [entrySumBy, entrySumBy, hwords, ih]
  induction h using induct with
  | atom | str => rfl
  | list a b xs ys _ _ ih => rw [fingerprintBy, fingerprintBy, (hitems ih).1, (hitems ih).2]
  | map a b xs ys _ _ _ ih => rw [fingerprintBy, fingerprintBy, (hentries ih).1, (hentries ih).2]
  | record a b type xs ys _ _ ih => rw [fingerprintBy, fingerprintBy, (hitems ih).1, (hitems ih).2]
  | func a b block xs ys _ _ ih => rw [fingerprintBy, fingerprintBy, (hitems ih).1, (hitems ih).2]

section Equals

variable {xs ys xs' ys' : List Value} {es fs es' fs' : List (Key × Value)}

/-- Comparing lists gives the same for alike lists, given that it does for their items. -/
theorem equalItems_eq (h : Items.Like ρ xs ys) (h' : Items.Like ρ xs' ys')
    (heq : ∀ p ∈ xs, ∀ p' ∈ xs', ∀ {q q' : Value}, Like ρ p q → Like ρ p' q' →
      p.equals p' = q.equals q') : equalItems xs xs' = equalItems ys ys' := by
  induction h generalizing xs' ys' with
  | nil => cases h' <;> simp only [equalItems]
  | cons hhead _ ih =>
    cases h' with
    | nil => simp only [equalItems]
    | cons hhead' htail' =>
      rw [equalItems, equalItems, heq _ List.mem_cons_self _ List.mem_cons_self hhead hhead',
        ih htail' fun p hp p' hp' => heq p (List.mem_cons_of_mem _ hp) p' (List.mem_cons_of_mem _ hp')]

/-- Comparing maps gives the same for alike maps, given that it does for their values. -/
theorem includedIn_eq (h : Entries.Like ρ es fs) (h' : Entries.Like ρ es' fs')
    (heq : ∀ p ∈ es.map (·.2), ∀ p' ∈ es'.map (·.2), ∀ {q q' : Value}, Like ρ p q → Like ρ p' q' →
      p'.equals p = q'.equals q) : includedIn es' es = includedIn fs' fs := by
  induction h with
  | nil => simp only [includedIn]
  | @cons x y _ _ hhead _ ih =>
    obtain ⟨k, v⟩ := x
    obtain ⟨k', w⟩ := y
    obtain ⟨rfl, hlike⟩ := hhead
    dsimp only at hlike
    rw [includedIn_cons, includedIn_cons,
      ih fun p hp p' hp' => heq p (List.mem_cons_of_mem _ hp) p' hp']
    have hget := h'.get? k
    generalize hx : Entries.get? k es' = x, Entries.get? k fs' = y at hget
    cases hget with
    | none => rfl
    | some hlike' =>
      rw [Option.any_some, Option.any_some, heq v List.mem_cons_self _
        (List.mem_map_of_mem (Entries.mem_of_get? hx)) hlike hlike']

end Equals

/-- Equality of alike values is the same, also where it compares buffer numbers. -/
theorem equals_eq (h : Like ρ v w) (h' : Like ρ v' w') : v.equals v' = w.equals w' := by
  induction hsize : sizeOf v + sizeOf v' using Nat.strong_induction_on generalizing v w v' w' with
  | h n ih =>
    -- maps compare their values from the other side, so the parts are compared both ways
    have hparts : ∀ p ∈ v.parts, ∀ p' ∈ v'.parts, ∀ {q q' : Value}, Like ρ p q → Like ρ p' q' →
        p.equals p' = q.equals q' ∧ p'.equals p = q'.equals q := by
      intro p hp p' hp' q q' hpq hpq'
      have hlt := sizeOf_part_lt hp
      have hlt' := sizeOf_part_lt hp'
      exact ⟨ih _ (by omega) hpq hpq' rfl, ih _ (by omega) hpq' hpq rfl⟩
    clear ih hsize
    cases h with
    | atom hid =>
      -- an atom equals only atoms, and those are the same on both sides
      cases h' with
      | atom hid' => rfl
      | _ => cases v <;> first | (cases hid; done) | simp only [equals]
    | str hpair =>
      cases h' with
      | atom hid' => cases v' <;> first | (cases hid'; done) | simp only [equals]
      | str hpair' => exact Matching.short_cut hpair hpair' rfl (by rw [equals]) (by rw [equals])
      | _ => simp only [equals]
    | list hpair items =>
      cases h' with
      | atom hid' => cases v' <;> first | (cases hid'; done) | simp only [equals]
      | list hpair' items' =>
        exact Matching.short_cut hpair hpair'
          (equalItems_eq items items' fun p hp p' hp' _ _ h h' => (hparts p hp p' hp' h h').1)
          (by rw [equals]) (by rw [equals])
      | _ => simp only [equals]
    | map hpair keys values =>
      cases h' with
      | atom hid' => cases v' <;> first | (cases hid'; done) | simp only [equals]
      | map hpair' keys' values' =>
        have hlike := (Like.map hpair keys values).entries
        have hlike' := (Like.map hpair' keys' values').entries
        refine Matching.short_cut hpair hpair' ?_ (by rw [equals]) (by rw [equals])
        rw [hlike.length_eq, hlike'.length_eq,
          includedIn_eq hlike hlike' fun p hp p' hp' _ _ h h' => (hparts p hp p' hp' h h').2]
      | _ => simp only [equals]
    | record hpair fields =>
      cases h' with
      | atom hid' => cases v' <;> first | (cases hid'; done) | simp only [equals]
      | record hpair' fields' =>
        refine Matching.short_cut hpair hpair' ?_ (by rw [equals]) (by rw [equals])
        rw [equalItems_eq fields fields' fun p hp p' hp' _ _ h h' => (hparts p hp p' hp' h h').1]
      | _ => simp only [equals]
    | func hpair bindings =>
      cases h' with
      | atom hid' => cases v' <;> first | (cases hid'; done) | simp only [equals]
      | func hpair' bindings' =>
        refine Matching.short_cut hpair hpair' ?_ (by rw [equals]) (by rw [equals])
        rw [equalItems_eq bindings bindings' fun p hp p' hp' _ _ h h' => (hparts p hp p' hp' h h').1]
      | _ => simp only [equals]

end Value.Like

/-! ### Alike under equal numbers -/

/-- Lists are equal if they are so item by item. -/
theorem Items.forall₂_eq {xs ys : List Value}
    (h : List.Forall₂ (fun v w => ∃ _ : v.Like .same w, v = w) xs ys) : xs = ys := by
  induction h with
  | nil => rfl
  | cons hhead _ ih => rw [hhead.2, ih]

/-- Values whose numbers correspond to themselves are alike only to themselves. -/
theorem Value.like_same {v w : Value} : v.Like .same w ↔ v = w := by
  constructor
  · intro h
    induction h using Like.induct with
    | atom | str => first | rfl | simp_all [Matching.same]
    | list a b xs ys hpair _ ih => rw [show a = b from hpair, Items.forall₂_eq ih]
    | map a b xs ys hpair keys values ih =>
      have hentries : xs = ys := by
        clear hpair keys values
        induction ih with
        | nil => rfl
        | cons hhead _ ih => rw [Prod.ext hhead.1 hhead.2.2, ih]
      rw [show a = b from hpair, hentries]
    | record a b type xs ys hpair _ ih => rw [show a = b from hpair, Items.forall₂_eq ih]
    | func a b block xs ys hpair _ ih => rw [show a = b from hpair, Items.forall₂_eq ih]
  · rintro rfl
    induction v using Value.induction_parts with
    | h v ih =>
      have hitems : ∀ {xs : List Value}, (∀ p ∈ xs, p.Like .same p) → Items.Like .same xs xs :=
        fun h => List.forall₂_same.2 h
      cases v with
      | str id s => exact .str rfl
      | list id items => exact .list rfl (hitems ih)
      | map id entries => exact .map rfl rfl (hitems ih)
      | record id type fields => exact .record rfl (hitems ih)
      | func id block bindings => exact .func rfl (hitems ih)
      | _ => exact .atom rfl

/-- Lists whose numbers correspond to themselves are alike only to themselves. -/
theorem Items.like_same {xs ys : List Value} (h : Items.Like .same xs ys) : xs = ys :=
  forall₂_eq (h.imp fun _ _ hvw => ⟨hvw, Value.like_same.1 hvw⟩)

end BlockMachine

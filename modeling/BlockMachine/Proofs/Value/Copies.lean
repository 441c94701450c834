import BlockMachine.Proofs.Value.Likeness
import BlockMachine.Proofs.Value.Transitivity

namespace BlockMachine

/-!
# Copies

Values that are the same tree may be in different buffers. If they also equal each other, no program can tell
one from the other: a list that holds a NaN is a copy of itself only.

* `Value.Copies` says that two values are the same tree and equal each other, and `Value.Copies.trans` that
  equality is transitive for such values;
* `Matching.copies` is the correspondence between the buffers of a heap that hold copies, and
  **`Value.Copies.like`** says that copies are alike under it;
* `Value.Like.erase_eq`: alike values are the same tree.
-/

/-! ### Values that are the same tree -/

namespace Value

variable {v w : Value}

/-- Two maps that are the same tree have the same keys, and values that are the same trees. -/
theorem erase_entries {a b : BufferId} {xs ys : List (Key × Value)}
    (h : (map a xs).erase = (map b ys).erase) :
    xs.map (·.1) = ys.map (·.1) ∧ (xs.map (·.2)).map erase = (ys.map (·.2)).map erase := by
  simp only [erase, eraseEntries_eq, map.injEq, true_and] at h
  have hfield : ∀ {β : Type} (field : Key × Value → β),
      (xs.map fun e => (e.1, e.2.erase)).map field = (ys.map fun e => (e.1, e.2.erase)).map field :=
    fun field => congrArg (List.map field) h
  have hkeys := hfield Prod.fst
  have hvalues := hfield Prod.snd
  rw [List.map_map, List.map_map] at hkeys hvalues
  rw [List.map_map, List.map_map]
  exact ⟨hkeys, hvalues⟩

/-- Values that are the same tree have the same parts up to numbers. -/
theorem erase_parts (h : v.erase = w.erase) : v.parts.map erase = w.parts.map erase := by
  cases v with
  | map a xs =>
    cases w with
    | map b ys => exact (erase_entries h).2
    | _ => simp [erase] at h
  | _ => cases w <;> simp_all [erase, parts, eraseItems_eq]

/-- Values that are the same tree are alike if their buffers correspond and their parts are alike. -/
theorem Like.of_parts {ρ : Matching} (h : v.erase = w.erase)
    (hpair : ∀ a b, v.id? = some a → w.id? = some b → ρ.pairs a b v w)
    (hparts : Items.Like ρ v.parts w.parts) : v.Like ρ w := by
  cases v with
  | str a s =>
    cases w with
    | str b t =>
      obtain rfl : s = t := by simpa [erase] using h
      exact .str (hpair a b rfl rfl)
    | _ => simp [erase] at h
  | list a xs =>
    cases w with
    | list b ys => exact .list (hpair a b rfl rfl) hparts
    | _ => simp [erase] at h
  | map a xs =>
    cases w with
    | map b ys => exact .map (hpair a b rfl rfl) (erase_entries h).1 hparts
    | _ => simp [erase] at h
  | record a type xs =>
    cases w with
    | record b type' ys =>
      obtain ⟨rfl, -⟩ : type = type' ∧ _ := by simpa [erase] using h
      exact .record (hpair a b rfl rfl) hparts
    | _ => simp [erase] at h
  | func a block xs =>
    cases w with
    | func b block' ys =>
      obtain ⟨rfl, -⟩ : block = block' ∧ _ := by simpa [erase] using h
      exact .func (hpair a b rfl rfl) hparts
    | _ => simp [erase] at h
  | _ =>
    obtain rfl := eq_of_erase rfl h.symm
    exact .atom rfl

/-- Alike values are the same tree. -/
theorem Like.erase_eq {ρ : Matching} (h : v.Like ρ w) : v.erase = w.erase := by
  have hitems : ∀ {xs ys : List Value}, List.Forall₂ (fun v w => ∃ _ : v.Like ρ w, v.erase = w.erase) xs ys →
      eraseItems xs = eraseItems ys := by
    intro xs ys h
    induction h with
    | nil => rfl
    | cons hhead _ ih => rw [eraseItems, eraseItems, hhead.2, ih]
  induction h using Like.induct with
  | atom | str => rfl
  | list _ _ _ _ _ _ ih => rw [erase, erase, hitems ih]
  | map _ _ _ _ _ _ _ ih =>
    have hentries : ∀ {xs ys : List (Key × Value)},
        List.Forall₂ (fun x y => x.1 = y.1 ∧ ∃ _ : x.2.Like ρ y.2, x.2.erase = y.2.erase) xs ys →
        eraseEntries xs = eraseEntries ys := by
      intro xs ys h
      induction h with
      | nil => rfl
      | cons hhead _ ih => rw [eraseEntries, eraseEntries, hhead.1, hhead.2.2, ih]
    rw [erase, erase, hentries ih]
  | record _ _ _ _ _ _ _ ih => rw [erase, erase, hitems ih]
  | func _ _ _ _ _ _ _ ih => rw [erase, erase, hitems ih]

/-! ### Copies -/

/-- Two values are the same tree and equal each other. -/
structure Copies (v w : Value) : Prop where
  erase : v.erase = w.erase
  equals : v.equals w = true

/-- A value in a buffer is a copy of itself. -/
theorem Copies.self {a : BufferId} (h : v.id? = some a) : v.Copies v where
  erase := rfl
  equals := by cases v <;> simp_all [id?, Value.equals]

/-- Lists that are the same up to numbers are so item by item. -/
theorem forall₂_erase {xs ys : List Value} (h : xs.map Value.erase = ys.map Value.erase) :
    List.Forall₂ (fun x y => x.erase = y.erase) xs ys :=
  List.forall₂_map_left_iff.1 (List.forall₂_map_right_iff.1 (by rw [List.forall₂_eq_eq_eq]; exact h))

/-- Items that are the same tree and equal are copies. -/
theorem forall₂_copies {xs ys : List Value} (h : List.Forall₂ (fun x y => x.equals y = true) xs ys)
    (herase : xs.map Value.erase = ys.map Value.erase) : List.Forall₂ Copies xs ys :=
  List.forall₂_iff_zip.2 ⟨h.length_eq, fun hmem =>
    ⟨(List.forall₂_iff_zip.1 (forall₂_erase herase)).2 hmem, (List.forall₂_iff_zip.1 h).2 hmem⟩⟩

/-- Entries are related if their keys are the same and their values are related. -/
theorem forall₂_entries {R : Value → Value → Prop} {xs ys : List (Key × Value)}
    (hkeys : xs.map (·.1) = ys.map (·.1)) (hvalues : List.Forall₂ R (xs.map (·.2)) (ys.map (·.2))) :
    List.Forall₂ (fun x y => x.1 = y.1 ∧ R x.2 y.2) xs ys := by
  have hvalues := List.forall₂_map_right_iff.1 (List.forall₂_map_left_iff.1 hvalues)
  have hkeys : List.Forall₂ (fun x y => x.1 = y.1) xs ys :=
    List.forall₂_map_right_iff.1 (List.forall₂_map_left_iff.1 (by rw [List.forall₂_eq_eq_eq]; exact hkeys))
  exact List.forall₂_iff_zip.2 ⟨hvalues.length_eq, fun hmem =>
    ⟨(List.forall₂_iff_zip.1 hkeys).2 hmem, (List.forall₂_iff_zip.1 hvalues).2 hmem⟩⟩

section Heap

variable {n : BufferId} {val : BufferId → Value} {a b c : Value}

/-- Copies are one value, or their parts are copies. -/
theorem Copies.parts (ha : a.InHeap n val) (hb : b.InHeap n val) (h : a.Copies b) :
    a = b ∨ List.Forall₂ Copies a.parts b.parts := by
  have herase := erase_parts h.erase
  refine (matches_of_equals ha hb h.equals).imp_right fun hmatch => ?_
  cases hmatch with
  | number ha _ =>
    have hparts : a.parts = [] := by cases a <;> first | rfl | cases ha
    rw [hparts] at herase ⊢
    rw [List.map_eq_nil_iff.1 herase.symm]
    exact .nil
  | str | module => exact .nil
  | list i j items => exact forall₂_copies items herase
  | record i j hid fields => exact forall₂_copies fields herase
  | func i j block bindings => exact forall₂_copies bindings herase
  | @map i j xs ys entries =>
    have haligned := forall₂_entries (erase_entries h.erase).1 (forall₂_erase herase)
    refine List.forall₂_map_left_iff.2 (List.forall₂_map_right_iff.2
      (List.forall₂_iff_zip.2 ⟨haligned.length_eq, fun {x y} hmem => ?_⟩))
    obtain ⟨hkey, hvalue⟩ := (List.forall₂_iff_zip.1 haligned).2 hmem
    obtain ⟨hx, hy⟩ := List.of_mem_zip hmem
    -- the partner of an entry has its key, and so its place
    obtain ⟨u, hu, hequals⟩ := entries.forall_left x hx
    have huy : some u = some y.2 := by
      rw [← Entries.get?_of_mem hb.keysOnce.here hu, hkey]
      exact Entries.get?_of_mem hb.keysOnce.here hy
    exact ⟨hvalue, Option.some.inj huy ▸ hequals⟩

/-- Values in buffers are copies if they are the same tree and their parts are copies. -/
theorem Copies.of_parts {i : BufferId} (hi : a.id? = some i) (ha : a.InHeap n val) (hb : b.InHeap n val)
    (herase : a.erase = b.erase) (h : List.Forall₂ Copies a.parts b.parts) : a.Copies b := by
  have hequals : ∀ {xs ys : List Value}, List.Forall₂ Copies xs ys →
      List.Forall₂ (fun x y => x.equals y = true) xs ys := fun h => h.imp fun _ _ h => h.equals
  refine ⟨herase, Matches.equals ha hb ?_⟩
  cases a with
  | str i s =>
    cases b with
    | str j t =>
      obtain rfl : s = t := by simpa [Value.erase] using herase
      exact .str i j s
    | _ => simp [Value.erase] at herase
  | list i xs =>
    cases b with
    | list j ys => exact .list i j (hequals h)
    | _ => simp [Value.erase] at herase
  | map i xs =>
    cases b with
    | map j ys =>
      exact .map i j ⟨ys, forall₂_entries (erase_entries herase).1 (hequals h), .refl ys⟩
    | _ => simp [Value.erase] at herase
  | record i type xs =>
    cases b with
    | record j type' ys =>
      obtain ⟨rfl, -⟩ : type = type' ∧ _ := by simpa [Value.erase] using herase
      exact .record i j rfl (hequals h)
    | _ => simp [Value.erase] at herase
  | func i block xs =>
    cases b with
    | func j block' ys =>
      obtain ⟨rfl, -⟩ : block = block' ∧ _ := by simpa [Value.erase] using herase
      exact .func i j block (hequals h)
    | _ => simp [Value.erase] at herase
  | _ => cases hi

/-- Copies are copies of each other. -/
theorem Copies.symm (ha : a.InHeap n val) (hb : b.InHeap n val) (h : a.Copies b) : b.Copies a :=
  ⟨h.erase.symm, equals_symm ha hb h.equals⟩

/-- **Equality is transitive for copies.** -/
theorem Copies.trans (ha : a.InHeap n val) (hb : b.InHeap n val) (hc : c.InHeap n val) (hab : a.Copies b)
    (hbc : b.Copies c) : a.Copies c := by
  induction a using induction_parts generalizing b c with
  | h a ih =>
    rcases hab.parts ha hb with rfl | hparts
    · exact hbc
    rcases hbc.parts hb hc with rfl | hparts'
    · exact hab
    cases hid : a.id? with
    | none =>
      obtain rfl := eq_of_erase hid hab.erase.symm
      exact hbc
    | some i =>
      refine .of_parts hid ha hc (hab.erase.trans hbc.erase) (forall₂_trans_mem ?_ hparts hparts')
      exact fun p hp q hq r hr => ih p hp (ha.part p hp) (hb.part q hq) (hc.part r hr)

end Heap

end Value

/-- Alike lists are the same up to numbers. -/
theorem Items.Like.erase_eq {ρ : Matching} {xs ys : List Value} (h : Items.Like ρ xs ys) :
    xs.map Value.erase = ys.map Value.erase := by
  induction h with
  | nil => rfl
  | cons hhead _ ih => rw [List.map_cons, List.map_cons, hhead.erase_eq, ih]

/-! ### Buffers that hold copies -/

/-- Buffers of a heap correspond if they hold copies. -/
def Matching.copies (n : BufferId) (val : BufferId → Value) : Matching where
  pairs a b v w := v.id? = some a ∧ w.id? = some b ∧ v.InHeap n val ∧ w.InHeap n val ∧ v.Copies w
  oneToOne := by
    rintro a b a' b' v w v' w' ⟨ha, hb, hv, hw, hvw⟩ ⟨ha', hb', hv', hw', hvw'⟩
    -- what is in one buffer is one value, of which both are copies
    by_cases hsame : a = a'
    · subst hsame
      obtain rfl := hv.eq_of_id hv' ha ha'
      exact .inr ⟨(Value.Copies.self ha).equals, ((hvw.symm hv hw).trans hw hv hw' hvw').equals⟩
    · by_cases hsame' : b = b'
      · subst hsame'
        obtain rfl := hw.eq_of_id hw' hb hb'
        exact .inr ⟨(hvw.trans hv hw hv' (hvw'.symm hv' hw)).equals, (Value.Copies.self hb).equals⟩
      · exact .inl ⟨fun h => absurd h hsame, fun h => absurd h hsame'⟩

section Heap

variable {n : BufferId} {val : BufferId → Value} {v w : Value}

/-- A value is alike itself and its copies. -/
theorem Value.Copies.like_or (hv : v.InHeap n val) (hw : w.InHeap n val) (h : v = w ∨ v.Copies w) :
    v.Like (.copies n val) w := by
  induction v using induction_parts generalizing w with
  | h v ih =>
    have herase : v.erase = w.erase := by
      rcases h with rfl | h
      · rfl
      · exact h.erase
    have hparts : List.Forall₂ (fun p q => p ∈ v.parts ∧ q ∈ w.parts ∧ (p = q ∨ p.Copies q))
        v.parts w.parts := by
      have hor : List.Forall₂ (fun p q => p = q ∨ p.Copies q) v.parts w.parts := by
        rcases h with rfl | h
        · exact List.forall₂_same.2 fun _ _ => .inl rfl
        rcases h.parts hv hw with rfl | hparts
        · exact List.forall₂_same.2 fun _ _ => .inl rfl
        · exact hparts.imp fun _ _ => .inr
      refine List.forall₂_iff_zip.2 ⟨hor.length_eq, fun hmem => ?_⟩
      exact ⟨(List.of_mem_zip hmem).1, (List.of_mem_zip hmem).2, (List.forall₂_iff_zip.1 hor).2 hmem⟩
    refine .of_parts herase (fun a b ha hb => ⟨ha, hb, hv, hw, ?_⟩) (hparts.imp ?_)
    · rcases h with rfl | h
      · exact .self ha
      · exact h
    · rintro p q ⟨hp, hq, hpq⟩
      exact ih p hp (hv.part p hp) (hw.part q hq) hpq

/-- **Copies cannot be told apart.** -/
theorem Value.Copies.like (hv : v.InHeap n val) (hw : w.InHeap n val) (h : v.Copies w) :
    v.Like (.copies n val) w :=
  Copies.like_or hv hw (.inr h)

/-- A value of a heap is alike itself. -/
theorem Value.InHeap.like (h : v.InHeap n val) : v.Like (.copies n val) v :=
  Copies.like_or h h (.inl rfl)

/-- The numbers of a heap are those below its bound. -/
theorem Matching.copies_lt {a b : BufferId} (h : (Matching.copies n val).pairs a b v w) : a < n ∧ b < n := by
  obtain ⟨ha, hb, hv, hw, -⟩ := h
  exact ⟨(hv.named.here a ha).1, (hw.named.here b hb).1⟩

end Heap

end BlockMachine

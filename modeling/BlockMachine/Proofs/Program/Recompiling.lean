import BlockMachine.Proofs.Program.Filing
import BlockMachine.Proofs.Value.KeptAlike

namespace BlockMachine

/-!
# Lowering and buffer numbers

The constants of a body take buffer numbers from the world, and equal constants share an entry of the pool.
Still whether a body can be lowered does not depend on the numbers, so a program that could be compiled once
can be compiled later as well, whatever was compiled in between.

* `GoesAlike` relates two computations that draw from linked supplies;
* `Literal.eval_alike` is about literals, `Draft.apply_alike` about directives, `lower_alike` and
  `lower_isOk` about bodies;
* `World.Compiles` says that there is a program at an index or that one can be made,
  `World.Compiles.program` that this stays so.
-/

/-! ### Computations in step -/

/-- Two computations end alike: with the same error, or with related results. -/
inductive EndAlike {ε α β : Type} (R : α → β → Prop) : Except ε α → Except ε β → Prop where
  | ok {a : α} {b : β} (h : R a b) : EndAlike R (.ok a) (.ok b)
  | error (e : ε) : EndAlike R (.error e) (.error e)

/-- Two computations go alike from related states: they end alike, and in related states under more
    links. -/
def GoesAlike {σ ε α : Type} (S : Matching → σ → σ → Prop) (V : Matching → α → α → Prop) (ρ : Matching)
    (x y : StateT σ (Except ε) α) : Prop :=
  ∀ s₁ s₂, S ρ s₁ s₂ →
    EndAlike (fun r t => ∃ ρ', ρ ≤ ρ' ∧ S ρ' r.2 t.2 ∧ V ρ' r.1 t.1) (x s₁) (y s₂)

/-- The same result on both sides. -/
abbrev Same {α : Type} (_ : Matching) (a b : α) : Prop :=
  a = b

namespace GoesAlike

variable {σ ε α β : Type} {S : Matching → σ → σ → Prop} {V : Matching → α → α → Prop}
  {W : Matching → β → β → Prop} {ρ : Matching}

/-- Related results are given back. -/
theorem pure {a b : α} (h : V ρ a b) :
    GoesAlike S V ρ (pure a : StateT σ (Except ε) α) (pure b) :=
  fun _ _ hs => .ok ⟨ρ, le_rfl, hs, h⟩

/-- Computations that fail at once with one error go alike. -/
theorem throw (e : ε) : GoesAlike S V ρ (throw e : StateT σ (Except ε) α) (throw e) :=
  fun _ _ _ => .error e

/-- Computations that go alike do so one after the other. -/
theorem bind {x y : StateT σ (Except ε) α} {f g : α → StateT σ (Except ε) β}
    (hxy : GoesAlike S V ρ x y)
    (hfg : ∀ ρ', ρ ≤ ρ' → ∀ a b, V ρ' a b → GoesAlike S W ρ' (f a) (g b)) :
    GoesAlike S W ρ (x >>= f) (y >>= g) := by
  intro s₁ s₂ hs
  have hrun := hxy s₁ s₂ hs
  change EndAlike _ ((x s₁).bind fun r => f r.1 r.2) ((y s₂).bind fun r => g r.1 r.2)
  generalize x s₁ = r₁ at hrun
  generalize y s₂ = r₂ at hrun
  cases hrun with
  | error e => exact .error e
  | @ok r t h =>
    obtain ⟨ρ', hle, hs', hv⟩ := h
    have hnext := hfg ρ' hle r.1 t.1 hv r.2 t.2 hs'
    dsimp only [Except.bind]
    generalize f r.1 r.2 = r₁ at hnext
    generalize g t.1 t.2 = r₂ at hnext
    cases hnext with
    | error e => exact .error e
    | ok h =>
      obtain ⟨ρ'', hle', hs'', hw⟩ := h
      exact .ok ⟨ρ'', le_trans hle hle', hs'', hw⟩

end GoesAlike

/-! ### Literals -/

/-- All pairs are of numbers between two given ones and two supplies. -/
structure Matching.Within (start₁ start₂ : BufferId) (ρ : Matching) (n₁ n₂ : BufferId) : Prop where
  first : start₁ ≤ n₁
  second : start₂ ≤ n₂
  pairs : ∀ a b v w, ρ.pairs a b v w → (start₁ ≤ a ∧ a < n₁) ∧ start₂ ≤ b ∧ b < n₂

/-- The next numbers of two supplies can be linked. -/
theorem Matching.Within.link {start₁ start₂ n₁ n₂ : BufferId} {ρ : Matching}
    (h : ρ.Within start₁ start₂ n₁ n₂) : ρ.Apart (.link n₁ n₂) := by
  rintro a b _ _ v w _ _ hab ⟨rfl, rfl⟩
  obtain ⟨⟨-, ha⟩, -, hb⟩ := h.pairs a b v w hab
  exact ⟨Nat.ne_of_lt ha, Nat.ne_of_lt hb⟩

/-- A link between the next numbers is within the numbers given out then. -/
theorem Matching.Within.linked {start₁ start₂ n₁ n₂ : BufferId} {ρ : Matching}
    (h : ρ.Within start₁ start₂ n₁ n₂) :
    (ρ.join (.link n₁ n₂) h.link).Within start₁ start₂ (n₁ + 1) (n₂ + 1) := by
  refine ⟨Nat.le_succ_of_le h.first, Nat.le_succ_of_le h.second, ?_⟩
  rintro a b v w (hab | ⟨rfl, rfl⟩)
  · obtain ⟨⟨hfirst, ha⟩, hsecond, hb⟩ := h.pairs a b v w hab
    exact ⟨⟨hfirst, Nat.lt_succ_of_lt ha⟩, hsecond, Nat.lt_succ_of_lt hb⟩
  · exact ⟨⟨h.first, Nat.lt_succ_self a⟩, h.second, Nat.lt_succ_self b⟩

/-- Matchings of numbers that were given out are a numbering. -/
theorem Matching.numbering_within (start₁ start₂ : BufferId) :
    Numbering (Matching.Within start₁ start₂) :=
  fun _ _ _ h => ⟨_, le_join_left h.link, fun _ _ => .inr ⟨rfl, rfl⟩, h.linked⟩

section Literals

variable {T : Matching → BufferId → BufferId → Prop} {ε : Type} {ρ : Matching}

/-- A value in a new buffer. -/
theorem GoesAlike.node (hT : Numbering T) {f g : BufferId → Value}
    (h : ∀ ρ', ρ ≤ ρ' → ∀ a b, ρ'.links a b → (f a).Like ρ' (g b)) :
    GoesAlike T Value.Like ρ (do return f (← fresh) : StateT BufferId (Except ε) Value)
      (do return g (← fresh)) :=
  fun _ _ hs => .ok (DrawnAlike.node hT hs h)

/-- Casts of alike values give alike values, or are refused for the same reason. -/
theorem GoesAlike.cast (hT : Numbering T) (ty : Ty) {v w : Value} (h : v.Like ρ w) (message : CastError → ε) :
    GoesAlike T Value.Like ρ
      (fun next => match ty.cast v next with
        | .ok result => .ok result
        | .error e => .error (message e))
      (fun next => match ty.cast w next with
        | .ok result => .ok result
        | .error e => .error (message e)) := by
  intro n₁ n₂ hs
  have hcast := ty.cast?_like hT hs h
  dsimp only [Ty.cast]
  generalize ty.cast? v n₁ = r₁ at hcast
  generalize ty.cast? w n₂ = r₂ at hcast
  cases hcast with
  | none =>
    rw [h.typeName_eq]
    exact .error _
  | some h => exact .ok h

/-- Maps that are built from alike entries are alike. -/
theorem Entries.Like.ofList {xs ys : List (Key × Value)} (h : Entries.Like ρ xs ys) :
    Entries.Like ρ (Entries.ofList xs) (Entries.ofList ys) := by
  have hfold : ∀ {xs ys acc acc' : List (Key × Value)}, Entries.Like ρ xs ys → Entries.Like ρ acc acc' →
      Entries.Like ρ (xs.foldl (fun entries e => Entries.insert e.1 e.2 entries) acc)
        (ys.foldl (fun entries e => Entries.insert e.1 e.2 entries) acc') := by
    intro xs ys acc acc' hxs hacc
    induction hxs generalizing acc acc' with
    | nil => exact hacc
    | @cons x y _ _ hhead _ ih =>
      rw [List.foldl_cons, List.foldl_cons, ← hhead.1]
      exact ih (hacc.insert x.1 hhead.2)
  exact hfold h .nil

mutual

/-- The initial values of a type are alike whatever buffer numbers they take. -/
theorem Ty.initial_alike (hT : Numbering T) : ∀ (ty : Ty) {ρ : Matching} {n₁ n₂ : BufferId}, T ρ n₁ n₂ →
    DrawnAlike T ρ Value.Like (ty.initial n₁) (ty.initial n₂)
  | .basic b, ρ, n₁, n₂, h => by
    rw [Ty.initial]
    cases b with
    | string => exact Value.newStr_alike hT h ""
    | list => exact Value.newList_alike hT h .nil
    | map => exact Value.newMap_alike hT h .nil
    | _ => exact .pure h (.atom rfl)
  | .module m, _, _, _, h => by
    rw [Ty.initial]
    exact .pure h (.atom rfl)
  | .record ⟨id, name, decls⟩, ρ, n₁, n₂, h => by
    obtain ⟨ρ', hle, hnext, hfields⟩ := Ty.initialFields_alike hT decls h
    obtain ⟨ρ'', hle', hlast, hrecord⟩ :=
      Value.newRecord_alike hT hnext ⟨id, name, decls⟩ hfields
    rw [Ty.initial]
    exact ⟨ρ'', le_trans hle hle', hlast, hrecord⟩

/-- The initial values of the fields of a record are alike whatever buffer numbers they take. -/
theorem Ty.initialFields_alike (hT : Numbering T) : ∀ (decls : List (String × Ty)) {ρ : Matching}
    {n₁ n₂ : BufferId}, T ρ n₁ n₂ → DrawnAlike T ρ Items.Like (Ty.initialFields decls n₁)
      (Ty.initialFields decls n₂)
  | [], _, _, _, h => by
    rw [Ty.initialFields]
    exact .pure h .nil
  | (_, ty) :: rest, _, _, _, h => by
    obtain ⟨ρ', hle, hnext, hv⟩ := Ty.initial_alike hT ty h
    obtain ⟨ρ'', hle', hlast, hrest⟩ := Ty.initialFields_alike hT rest hnext
    rw [Ty.initialFields]
    exact ⟨ρ'', le_trans hle hle', hlast, .cons (hv.mono hle') hrest⟩

end

mutual

/-- **A literal has alike values** whatever buffer numbers they take. -/
theorem Literal.eval_alike (hT : Numbering T) (scope : Scope) : ∀ (l : Literal) (ρ : Matching),
    GoesAlike T Value.Like ρ (l.eval scope) (l.eval scope)
  | .null, _ | .int _, _ | .float _, _ | .bool _, _ | .error _, _ | .moved, _ | .host _, _ => by
    rw [Literal.eval]
    exact .pure (.atom rfl)
  | .str s, _ => by
    rw [Literal.eval]
    exact .node hT fun _ _ _ _ hlink => .str (hlink _ _)
  | .list items, ρ => by
    rw [Literal.eval]
    exact .bind (Literal.evalItems_alike hT scope items ρ) fun _ _ _ _ hitems =>
      .node hT fun _ hle _ _ hlink => .list (hlink _ _) (hitems.mono hle)
  | .map entries, ρ => by
    rw [Literal.eval]
    exact .bind (Literal.evalEntries_alike hT scope entries ρ) fun _ _ _ _ hentries =>
      .node hT fun _ hle _ _ hlink => .of_entries (hlink _ _) (hentries.ofList.mono hle)
  | .func block bindings, ρ => by
    rw [Literal.eval]
    exact .bind (Literal.evalItems_alike hT scope bindings ρ) fun _ _ _ _ hbindings =>
      .node hT fun _ hle _ _ hlink => .func (hlink _ _) (hbindings.mono hle)
  | .record name fields, ρ => by
    rw [Literal.eval]
    cases scope.type name with
    | error e => exact fun _ _ _ => .error e
    | ok ty =>
      refine .bind (V := fun _ a b => a = ty ∧ b = ty) (.pure ⟨rfl, rfl⟩) fun ρ' _ a b hty => ?_
      obtain ⟨rfl, rfl⟩ := hty
      refine .bind (Literal.evalItems_alike hT scope fields ρ') fun _ _ _ _ hfields => ?_
      refine .bind (V := fun ρ a b => ρ.links a b) (fun n₁ n₂ hs => ?_) fun _ hle _ _ hlink => ?_
      · obtain ⟨ρ₁, hle, hlink, hnext⟩ := hT _ n₁ n₂ hs
        exact .ok ⟨ρ₁, hle, hnext, hlink⟩
      · exact .cast hT _ (.list (hlink _ _) (hfields.mono hle)) CastError.message
  | .module index, _ => by
    rw [Literal.eval]
    cases scope.modules[index]? with
    | none => exact .throw _
    | some m => exact .pure (.atom rfl)
  | .initial name, _ => by
    rw [Literal.eval]
    cases scope.type name with
    | error e => exact fun _ _ _ => .error e
    | ok ty => exact fun _ _ hs => .ok (Ty.initial_alike hT ty hs)

/-- A list of literals has alike values whatever buffer numbers they take. -/
theorem Literal.evalItems_alike (hT : Numbering T) (scope : Scope) : ∀ (ls : List Literal) (ρ : Matching),
    GoesAlike T Items.Like ρ (Literal.evalItems scope ls) (Literal.evalItems scope ls)
  | [], _ => by
    rw [Literal.evalItems]
    exact .pure .nil
  | l :: rest, ρ => by
    rw [Literal.evalItems]
    exact .bind (Literal.eval_alike hT scope l ρ) fun ρ' _ _ _ hv =>
      .bind (Literal.evalItems_alike hT scope rest ρ') fun _ hle _ _ hrest =>
        .pure (.cons (hv.mono hle) hrest)

/-- The entries of a map literal have alike values whatever buffer numbers they take. -/
theorem Literal.evalEntries_alike (hT : Numbering T) (scope : Scope) : ∀ (ls : List (Key × Literal))
    (ρ : Matching), GoesAlike T Entries.Like ρ (Literal.evalEntries scope ls)
      (Literal.evalEntries scope ls)
  | [], _ => by
    rw [Literal.evalEntries]
    exact .pure .nil
  | (_, l) :: rest, ρ => by
    rw [Literal.evalEntries]
    exact .bind (Literal.eval_alike hT scope l ρ) fun ρ' _ _ _ hv =>
      .bind (Literal.evalEntries_alike hT scope rest ρ') fun _ hle _ _ hrest =>
        .pure (.cons ⟨rfl, hv.mono hle⟩ hrest)

end

end Literals

/-! ### Drafts -/

/-- Two drafts differ in buffer numbers only, and their supplies correspond. -/
structure Draft.Like (T : Matching → BufferId → BufferId → Prop) (ρ : Matching) (d₁ d₂ : Draft) :
    Prop where
  assembler : d₁.assembler = d₂.assembler
  constants : Items.Like ρ d₁.constants.toList d₂.constants.toList
  blocks : d₁.blocks = d₂.blocks
  types : d₁.types = d₂.types
  names : d₁.names = d₂.names
  callSites : d₁.callSites = d₂.callSites
  sourceMap : d₁.sourceMap = d₂.sourceMap
  supply : T ρ d₁.supply d₂.supply

/-- Alike values are of one kind. -/
theorem Value.Like.tag_eq {ρ : Matching} {v w : Value} (h : v.Like ρ w) : v.tag = w.tag := by
  cases h <;> rfl

/-- The first of alike constants that is of one kind with a value and equals it. -/
theorem Items.Like.findIdx? {ρ : Matching} {xs ys : List Value} (h : Items.Like ρ xs ys) {v w : Value}
    (hvw : v.Like ρ w) :
    xs.findIdx? (fun c => c.tag == v.tag && c.equals v) =
      ys.findIdx? fun c => c.tag == w.tag && c.equals w := by
  induction h with
  | nil => rfl
  | cons hhead _ ih =>
    rw [List.findIdx?_cons, List.findIdx?_cons, ih, hhead.tag_eq, hvw.tag_eq, hhead.equals_eq hvw]

namespace Draft

variable {T : Matching → BufferId → BufferId → Prop} {ctx : LoweringContext} {ρ : Matching}

/-- Changing both drafts the same way. -/
theorem modify_alike {f g : Draft → Draft}
    (h : ∀ ρ d₁ d₂, Like T ρ d₁ d₂ → Like T ρ (f d₁) (g d₂)) :
    GoesAlike (Like T) Same ρ (modify f : Lowering Unit) (modify g) :=
  fun d₁ d₂ hd => .ok ⟨ρ, le_rfl, h ρ d₁ d₂ hd, rfl⟩

/-- A pool overflows for both drafts or for none. -/
theorem poolIndex_alike (pool : Pool) (n : Nat) :
    GoesAlike (Like T) Same ρ (poolIndex ctx pool n) (poolIndex ctx pool n) := by
  rw [poolIndex]
  split
  · exact .pure rfl
  · exact .throw _

/-- What is found in one pool is found in the other, and what is new is entered into both. -/
theorem pooled_alike (pool : Pool) {find₁ find₂ : Draft → Option Nat} {size : Draft → Nat}
    {push₁ push₂ : Draft → Draft} (hfind : ∀ d₁ d₂, Like T ρ d₁ d₂ → find₁ d₁ = find₂ d₂)
    (hsize : ∀ d₁ d₂, Like T ρ d₁ d₂ → size d₁ = size d₂)
    (hpush : ∀ d₁ d₂, Like T ρ d₁ d₂ → Like T ρ (push₁ d₁) (push₂ d₂)) :
    GoesAlike (Like T) Same ρ
      (do
        let d ← get
        match find₁ d with
        | some i => poolIndex ctx pool i
        | none =>
          let i ← poolIndex ctx pool (size d)
          set (push₁ d)
          return i)
      (do
        let d ← get
        match find₂ d with
        | some i => poolIndex ctx pool i
        | none =>
          let i ← poolIndex ctx pool (size d)
          set (push₂ d)
          return i) := by
  intro d₁ d₂ hd
  change EndAlike _
    ((match find₁ d₁ with
      | some i => poolIndex ctx pool i
      | none => do
        let i ← poolIndex ctx pool (size d₁)
        set (push₁ d₁)
        return i : Lowering UInt16) d₁)
    ((match find₂ d₂ with
      | some i => poolIndex ctx pool i
      | none => do
        let i ← poolIndex ctx pool (size d₂)
        set (push₂ d₂)
        return i : Lowering UInt16) d₂)
  rw [hfind d₁ d₂ hd, hsize d₁ d₂ hd]
  cases find₂ d₂ with
  | some i => exact poolIndex_alike pool i d₁ d₂ hd
  | none =>
    dsimp only
    rw [poolIndex]
    split
    · exact .ok ⟨ρ, le_rfl, hpush d₁ d₂ hd, rfl⟩
    · exact .error _

/-- Alike constants get the same index. -/
theorem constant_alike {v w : Value} (hvw : v.Like ρ w) :
    GoesAlike (Like T) Same ρ (constant ctx v) (constant ctx w) := by
  refine pooled_alike .constant (fun d₁ d₂ hd => ?_) (fun d₁ d₂ hd => ?_) (fun d₁ d₂ hd => ?_)
  · rw [← d₁.constants.toArray_toList, ← d₂.constants.toArray_toList, List.findIdx?_toArray,
      List.findIdx?_toArray]
    exact hd.constants.findIdx? hvw
  · simpa using hd.constants.length_eq
  · refine { hd with constants := ?_ }
    rw [Array.toList_push, Array.toList_push]
    exact List.rel_append hd.constants (.cons hvw .nil)

/-- A block gets the same index in both drafts. -/
theorem blockRef_alike (block : BlockId) :
    GoesAlike (Like T) Same ρ (blockRef ctx block) (blockRef ctx block) := by
  refine pooled_alike .block (fun d₁ d₂ hd => ?_) (fun d₁ d₂ hd => ?_) (fun d₁ d₂ hd => ?_)
  · rw [hd.blocks]
  · rw [hd.blocks]
  · exact { hd with blocks := congrArg (·.push block) hd.blocks }

/-- A type gets the same index in both drafts. -/
theorem typeRef_alike (ty : Ty) : GoesAlike (Like T) Same ρ (typeRef ctx ty) (typeRef ctx ty) := by
  refine pooled_alike .type (fun d₁ d₂ hd => ?_) (fun d₁ d₂ hd => ?_) (fun d₁ d₂ hd => ?_)
  · rw [hd.types]
  · rw [hd.types]
  · exact { hd with types := congrArg (·.push ty) hd.types }

/-- A name gets the same index in both drafts. -/
theorem nameRef_alike (name : String) :
    GoesAlike (Like T) Same ρ (nameRef ctx name) (nameRef ctx name) := by
  refine pooled_alike .name (fun d₁ d₂ hd => ?_) (fun d₁ d₂ hd => ?_) (fun d₁ d₂ hd => ?_)
  · rw [hd.names]
  · rw [hd.names]
  · exact { hd with names := congrArg (·.push name) hd.names }

/-- A call site gets the same number in both drafts. -/
theorem callSite_alike : GoesAlike (Like T) Same ρ (callSite ctx) (callSite ctx) := by
  intro d₁ d₂ hd
  rw [callSite_eq, callSite_eq, hd.callSites]
  split
  · exact .ok ⟨ρ, le_rfl, { hd with callSites := rfl }, rfl⟩
  · exact .error _

/-- What fails in one draft fails in the other one. -/
theorem orFail_alike {α : Type} (r : Except String α) :
    GoesAlike (Like T) Same ρ (orFail ctx r) (orFail ctx r) := by
  cases r with
  | ok a => exact .pure rfl
  | error why => exact .throw _

/-- The value of a literal is alike in both drafts. -/
theorem literal_alike (hT : Numbering T) (l : Literal) :
    GoesAlike (Like T) Value.Like ρ (literal ctx l) (literal ctx l) := by
  intro d₁ d₂ hd
  have heval := l.eval_alike hT ctx.scope ρ d₁.supply d₂.supply hd.supply
  have hrun : ∀ d, literal ctx l d = match l.eval ctx.scope d.supply with
      | .ok r => .ok (r.1, { d with supply := r.2 })
      | .error why => .error (.lowering ctx.block ("bad body: " ++ why)) := by
    intro d
    change (orFail ctx (l.eval ctx.scope d.supply) d).bind _ = _
    cases l.eval ctx.scope d.supply <;> rfl
  rw [hrun, hrun]
  generalize l.eval ctx.scope d₁.supply = r₁ at heval
  generalize l.eval ctx.scope d₂.supply = r₂ at heval
  cases heval with
  | error e => exact .error _
  | ok h =>
    obtain ⟨ρ', hle, hsupply, hv⟩ := h
    exact .ok ⟨ρ', hle, { hd with constants := hd.constants.mono hle, supply := hsupply }, hv⟩

/-- The same instruction is emitted in both drafts. -/
theorem emit_alike (i : Instruction) : GoesAlike (Like T) Same ρ (emit i) (emit i) :=
  modify_alike fun _ _ _ hd => { hd with assembler := congrArg (·.emit i) hd.assembler }

/-- Emits an instruction with an index that was found. -/
theorem emit_index_alike {x : Lowering UInt16} (hx : GoesAlike (Like T) Same ρ x x)
    (i : UInt16 → Instruction) :
    GoesAlike (Like T) Same ρ (do emit (i (← x))) (do emit (i (← x))) := by
  refine .bind hx fun _ _ _ _ h => ?_
  subst h
  exact emit_alike _

/-- A load emits the same instruction for alike values. -/
theorem load_alike (dst : Reg) {v w : Value} (hvw : v.Like ρ w) :
    GoesAlike (Like T) Same ρ (load ctx dst v) (load ctx dst w) := by
  have hconst : ∀ {v w : Value}, v.Like ρ w → GoesAlike (Like T) Same ρ
      (do emit (.loadConst dst (← constant ctx v))) (do emit (.loadConst dst (← constant ctx w))) := by
    intro v w hvw
    refine .bind (constant_alike hvw) fun _ _ _ _ h => ?_
    subst h
    exact emit_alike _
  cases hvw with
  | @atom v hid =>
    cases v with
    | null => exact emit_alike _
    | int i =>
      simp only [load]
      split
      · exact emit_alike _
      · exact hconst (.atom rfl)
    | float | bool | module | host | error | moved => exact hconst (.atom rfl)
    | _ => cases hid
  | str hpair => exact hconst (.str hpair)
  | list hpair items => exact hconst (.list hpair items)
  | map hpair keys values => exact hconst (.map hpair keys values)
  | record hpair fields => exact hconst (.record hpair fields)
  | func hpair bindings => exact hconst (.func hpair bindings)

/-- Constants that only fill the pool are entered alike. -/
theorem fillConstants_alike (count i : Nat) :
    GoesAlike (Like T) Same ρ (fillConstants ctx count i) (fillConstants ctx count i) := by
  induction count generalizing i ρ with
  | zero => exact .pure rfl
  | succ count ih => exact .bind (constant_alike (.atom rfl)) fun _ _ _ _ _ => ih (i + 1)

/-- **A directive goes alike** whatever buffer numbers there are. -/
theorem apply_alike (hT : Numbering T) (step : Directive) :
    GoesAlike (Like T) Same ρ (apply ctx step) (apply ctx step) := by
  have hdrop : ∀ {ρ : Matching} {x y : Lowering UInt16}, GoesAlike (Like T) Same ρ x y →
      GoesAlike (Like T) Same ρ (do let _ ← x) (do let _ ← y) :=
    fun h => .bind h fun _ _ _ _ _ => .pure rfl
  cases step with
  | code c => exact modify_alike fun _ _ _ hd => { hd with assembler := congrArg (·.apply c) hd.assembler }
  | load dst l => exact .bind (literal_alike hT l) fun _ _ _ _ hv => load_alike dst hv
  | constant l => exact .bind (literal_alike hT l) fun _ _ _ _ hv => hdrop (constant_alike hv)
  | blockRef block => exact hdrop (blockRef_alike block)
  | typeRef type =>
    refine .bind (orFail_alike _) fun _ _ _ _ h => ?_
    subst h
    exact hdrop (typeRef_alike _)
  | nameRef name => exact hdrop (nameRef_alike name)
  | call block base argc out => exact emit_index_alike (blockRef_alike block) fun i => .call i base argc out
  | callKeyed block base argc out key =>
    exact emit_index_alike (blockRef_alike block) fun i => .callKeyed i base argc out key
  | send name base argc out =>
    refine .bind (nameRef_alike name) fun _ _ _ _ h => ?_
    subst h
    exact emit_index_alike callSite_alike fun site => .callMethod _ base argc out site
  | makeFunc dst block first count =>
    exact emit_index_alike (blockRef_alike block) fun i => .makeFunc dst i first count
  | cast dst src type =>
    refine .bind (orFail_alike _) fun _ _ _ _ h => ?_
    subst h
    exact emit_index_alike (typeRef_alike _) fun i => .cast dst src i
  | getState dst name => exact emit_index_alike (nameRef_alike name) fun i => .getState dst i
  | saveState name src => exact emit_index_alike (nameRef_alike name) fun i => .saveState i src
  | native name =>
    simp only [apply]
    split
    · exact emit_alike _
    · exact .throw _
  | node n =>
    refine modify_alike fun _ d₁ d₂ hd => { hd with sourceMap := ?_ }
    rw [hd.sourceMap, hd.assembler]
  | fail message => exact .throw _
  | selfName dst => exact .bind (literal_alike hT _) fun _ _ _ _ hv => load_alike dst hv
  | fillConstants n => exact fillConstants_alike n 0

end Draft

/-- **A body is lowered alike** whatever buffer numbers are taken: the same code comes of it, with
    constants that differ in the numbers that were taken only. -/
theorem lower_alike (ctx : LoweringContext) (body : List Directive) (n₁ n₂ : BufferId) :
    EndAlike (fun d₁ d₂ => ∃ ρ, Draft.Like (Matching.Within n₁ n₂) ρ d₁ d₂) (lower ctx body n₁)
      (lower ctx body n₂) := by
  have hsteps : ∀ (body : List Directive) (ρ : Matching), GoesAlike
      (Draft.Like (Matching.Within n₁ n₂)) Same ρ (body.forM (Draft.apply ctx))
      (body.forM (Draft.apply ctx)) := by
    intro body
    induction body with
    | nil => exact fun _ => .pure rfl
    | cons step rest ih =>
      exact fun _ => .bind (Draft.apply_alike (Matching.numbering_within n₁ n₂) step) fun ρ' _ _ _ _ => ih ρ'
  have hstart : Draft.Like (Matching.Within n₁ n₂) .none { supply := n₁ } { supply := n₂ } :=
    ⟨rfl, .nil, rfl, rfl, rfl, rfl, rfl, ⟨Nat.le_refl _, Nat.le_refl _, nofun⟩⟩
  have hrun := hsteps body _ _ _ hstart
  rw [lower, lower]
  generalize body.forM (Draft.apply ctx) { supply := n₁ } = r₁ at hrun
  generalize body.forM (Draft.apply ctx) { supply := n₂ } = r₂ at hrun
  cases hrun with
  | error e => exact .error e
  | ok h =>
    obtain ⟨ρ, -, hlike, -⟩ := h
    exact .ok ⟨ρ, hlike⟩

/-- **Whether a body can be lowered** does not depend on buffer numbers. -/
theorem lower_isOk {ctx : LoweringContext} {body : List Directive} {supply : BufferId} {d : Draft}
    (h : lower ctx body supply = .ok d) (supply' : BufferId) : ∃ d', lower ctx body supply' = .ok d' := by
  have halike := lower_alike ctx body supply supply'
  rw [h] at halike
  generalize lower ctx body supply' = r at halike
  cases halike with
  | ok _ => exact ⟨_, rfl⟩

/-! ### Programs -/

namespace World

variable {w w' w'' : World} {index : Nat}

/-- Slots are filled or added, and nothing else changes but the supply. -/
structure Fills (w w' : World) : Prop where
  only : OnlyPrograms w w'
  indices : ∀ (id : BlockId) (i : Nat), w.programs.indices[id]? = some i → w'.programs.indices[id]? = some i
  slots : ∀ (i : Nat) (slot : ProgramSlot), w.programs.slots[i]? = some slot →
    ∃ slot', w'.programs.slots[i]? = some slot' ∧ slot'.block = slot.block ∧
      (slot.program.isSome = true → slot'.program.isSome = true)

/-- Nothing is filled. -/
theorem Fills.refl (w : World) : Fills w w :=
  ⟨.refl w, fun _ _ h => h, fun _ slot h => ⟨slot, h, rfl, id⟩⟩

/-- Slots are filled one after the other. -/
theorem Fills.trans (h : Fills w w') (h' : Fills w' w'') : Fills w w'' := by
  refine ⟨h.only.trans h'.only, fun id i hi => h'.indices id i (h.indices id i hi), fun i slot hslot => ?_⟩
  obtain ⟨slot', hslot', hblock, hfilled⟩ := h.slots i slot hslot
  obtain ⟨slot'', hslot'', hblock', hfilled'⟩ := h'.slots i slot' hslot'
  exact ⟨slot'', hslot'', hblock'.trans hblock, hfilled' ∘ hfilled⟩

/-- Giving out an index adds a slot at most. -/
theorem programIndex_fills (id : BlockId) (w : World) : Fills w (programIndex id w).2 := by
  cases hi : w.programs.indices[id]? with
  | some i =>
    rw [programIndex_of_some hi]
    exact .refl w
  | none =>
    have honly := programIndex_only id w
    rw [programIndex_of_none hi] at honly ⊢
    refine ⟨honly, fun id' i hi' => ?_, fun i slot hslot => ?_⟩
    · have hne : (id == id') = false := by
        refine beq_false_of_ne fun heq => ?_
        rw [heq, hi'] at hi
        exact nomatch hi
      rw [Std.HashMap.getElem?_insert, hne]
      exact hi'
    · exact ⟨slot, getElem?_push_of_some hslot _, rfl, fun h => h⟩

/-- Lowering a body fills a slot at most. -/
theorem lowered_fills (b : Block) (i : Nat) (w : World) : Fills w (lowered b i w).2 := by
  have honly := lowered_only b i w
  rw [lowered] at honly ⊢
  split
  · exact .refl w
  next d hd =>
    rw [hd] at honly
    refine ⟨honly, fun _ _ h => h, fun j slot hslot => ?_⟩
    refine ⟨_, modify_slot_of_some hslot i _, rfl, fun hfilled => ?_⟩
    dsimp only
    split
    · rfl
    · exact hfilled

/-- Compiling a block fills a slot at most. -/
theorem compile_fills (id : BlockId) (w : World) : Fills w (compile id w).2 := by
  have hindex := programIndex_fills id w
  have hlowered : ∀ b, Fills w (lowered b (programIndex id w).1 (programIndex id w).2).2 :=
    fun b => hindex.trans (lowered_fills b _ _)
  rw [compile_eq]
  split
  · exact .refl w
  · split
    · split
      · exact hindex
      · exact hlowered _
    · exact hlowered _

/-- Fetching a program fills a slot at most. -/
theorem program_fills (index : Nat) (w : World) : Fills w (program index w).2 := by
  rw [program_eq]
  split
  · exact .refl w
  next slot _ =>
    split
    · exact .refl w
    · have hcompile := compile_fills slot.block w
      generalize World.compile slot.block w = r at hcompile
      obtain ⟨_ | _, w'⟩ := r
      · exact hcompile
      · dsimp only
        split <;> exact hcompile

/-- There is a program at an index, or one can be made. -/
def Compiles (w : World) (index : Nat) : Prop :=
  ∃ slot, w.programs.slots[index]? = some slot ∧
    (slot.program.isSome = true ∨ w.programs.indices[slot.block]? = some index ∧
      ∃ b d, w.blocks[slot.block]? = some b ∧
        lower ⟨b.signature.name, w.scope, w.natives⟩ b.body w.supply = .ok d)

/-- **What can be compiled stays so**, whatever else is compiled before. -/
theorem Compiles.fills (h : w.Compiles index) (hw : Fills w w') : w'.Compiles index := by
  obtain ⟨slot, hslot, hmade⟩ := h
  obtain ⟨slot', hslot', hblock, hfilled⟩ := hw.slots index slot hslot
  refine ⟨slot', hslot', ?_⟩
  rcases hmade with hprogram | ⟨hindex, b, d, hb, hd⟩
  · exact .inl (hfilled hprogram)
  · obtain ⟨d', hd'⟩ := lower_isOk hd w'.supply
    refine .inr ⟨?_, b, d', ?_, ?_⟩
    · rw [hblock]
      exact hw.indices _ _ hindex
    · rw [hblock, hw.only.blocks]
      exact hb
    · rw [scope, hw.only.registry, hw.only.modules, hw.only.natives]
      exact hd'

/-- What is compiled is fetched. -/
theorem Compiles.program (h : w.Compiles index) :
    ∃ p w', World.program index w = (.ok p, w') ∧ w'.slotProgram? index = some p := by
  obtain ⟨slot, hslot, hmade⟩ := h
  cases hprogram : slot.program with
  | some p =>
    have hp := (slotProgram?_of_slot hslot).trans hprogram
    exact ⟨p, w, program_of_slot hp, hp⟩
  | none =>
    rw [hprogram] at hmade
    obtain ⟨hindex, b, d, hb, hd⟩ := hmade.resolve_left Bool.false_ne_true
    -- the slot is empty, so the body is lowered into it
    have hcompile : World.compile slot.block w = lowered b index w :=
      compile_unfiled hb hindex ((slotProgram?_of_slot hslot).trans hprogram)
    rw [program_eq, hslot]
    dsimp only
    rw [hprogram, hcompile, lowered, hd]
    have hfilled : ∀ (slots : Array ProgramSlot) (q : Program) (w : World), slots[index]? = some slot →
        slotProgram? { w with programs := { w.programs with
          slots := slots.modify index fun slot => { slot with program := some q } } } index = some q := by
      intro slots q w hslots
      rw [slotProgram?, modify_slot_of_some hslots, if_pos rfl]
      rfl
    have hslot' := hfilled w.programs.slots (finish b index d) { w with supply := d.supply } hslot
    dsimp only at hslot' ⊢
    rw [hslot']
    exact ⟨_, _, rfl, hslot'⟩

/-- Lowering fills no slot but its own. -/
theorem lowered_filled {b : Block} {k i : Nat} {slot : ProgramSlot} {p : Program}
    (hslot : w.programs.slots[i]? = some slot) (hempty : slot.program = none)
    (h : (lowered b k w).2.slotProgram? i = some p) :
    k = i ∧ ∃ d, lower ⟨b.signature.name, w.scope, w.natives⟩ b.body w.supply = .ok d := by
  rw [lowered] at h
  split at h
  next e he =>
    rw [slotProgram?_of_slot hslot, hempty] at h
    cases h
  next d hd =>
    refine ⟨Decidable.byContradiction fun hk => ?_, d, hd⟩
    rw [slotProgram?, modify_slot_of_some hslot, if_neg hk, hempty] at h
    cases h

/-- A slot that compiling a block fills is the one that the block has its index from. -/
theorem compile_filled {id : BlockId} {i : Nat} {slot : ProgramSlot} {p : Program}
    (hslot : w.programs.slots[i]? = some slot) (hempty : slot.program = none)
    (h : (compile id w).2.slotProgram? i = some p) :
    w.programs.indices[id]? = some i ∧ ∃ b d, w.blocks[id]? = some b ∧
      lower ⟨b.signature.name, w.scope, w.natives⟩ b.body w.supply = .ok d := by
  have hstays : ∀ {w₁ : World}, w₁.programs.slots[i]? = some slot → w₁.slotProgram? i ≠ some p := by
    intro w₁ hslot₁ hp
    rw [slotProgram?_of_slot hslot₁, hempty] at hp
    exact nomatch hp
  rw [compile_eq] at h
  cases hb : w.blocks[id]? with
  | none =>
    rw [hb] at h
    exact absurd h (hstays hslot)
  | some b =>
    rw [hb] at h
    dsimp only at h
    have hslot₁ : (programIndex id w).2.programs.slots[i]? = some slot := by
      cases hindex : w.programs.indices[id]? with
      | none =>
        rw [programIndex_of_none hindex]
        exact getElem?_push_of_some hslot _
      | some k =>
        rw [programIndex_of_some hindex]
        exact hslot
    have hlowered : (lowered b (programIndex id w).1 (programIndex id w).2).2.slotProgram? i = some p := by
      split at h
      · split at h
        · exact absurd h (hstays hslot₁)
        · exact h
      · exact h
    obtain ⟨hk, d, hd⟩ := lowered_filled hslot₁ hempty hlowered
    cases hindex : w.programs.indices[id]? with
    | none =>
      -- a block without index would get a slot of its own
      rw [programIndex_of_none hindex] at hk
      obtain ⟨hlt, -⟩ := Array.getElem?_eq_some_iff.1 hslot
      exact absurd hk (Nat.ne_of_gt hlt)
    | some k =>
      rw [programIndex_of_some hindex] at hk hd
      exact ⟨congrArg some hk, b, d, rfl, hd⟩

/-- A program that can be fetched is compiled or can be. -/
theorem compiles_of_ok {p : Program} (h : (World.program index w).1 = .ok p) : w.Compiles index := by
  rw [program_eq] at h
  cases hslot : w.programs.slots[index]? with
  | none =>
    rw [hslot] at h
    exact nomatch h
  | some slot =>
    refine ⟨slot, hslot, ?_⟩
    rw [hslot] at h
    dsimp only at h
    cases hprogram : slot.program with
    | some p => exact .inl rfl
    | none =>
      rw [hprogram] at h
      have hfilled : ∀ p, (compile slot.block w).2.slotProgram? index = some p → _ :=
        fun p => compile_filled hslot hprogram
      generalize compile slot.block w = r at h hfilled
      obtain ⟨e | _, w'⟩ := r
      · exact nomatch h
      · dsimp only at h
        cases hp : w'.slotProgram? index with
        | none =>
          rw [hp] at h
          exact nomatch h
        | some p => exact .inr (hfilled p hp)

end World

end BlockMachine

import BlockMachine.Proofs.Program.Alongside
import BlockMachine.Proofs.Program.Constants
import BlockMachine.Proofs.Value.Copies
import BlockMachine.Proofs.Value.Literals

namespace BlockMachine

/-!
# Wrappers

A wrapper is a block that only calls another one: it loads arguments and a key, calls the block under the key,
and returns what it receives.

* `Draft.Loading` are loads one after the other, and **`Draft.loads_ok`** says what they leave in registers;
* `Draft.Faithful` is what values must be like to be loaded as they are;
* `Wrapper` are the blocks, `Wrapper.Loads` is what they load, in any order, `Wrapper.Lowered` is what their
  bodies are lowered to, and **`Wrapper.lower_ok`** says that they can be;
* **`World.Derived.beside_new`** puts a world next to one where a wrapper was defined and compiled.
-/

/-! ### Loads one after the other -/

/-- Whether a value was moved away has nothing to do with buffer numbers. -/
theorem Value.isMoved_erase (v : Value) : v.erase.isMoved = v.isMoved := by
  cases v <;> rfl

/-- Which key a value is has nothing to do with buffer numbers. -/
theorem Value.key?_erase (v : Value) : v.erase.key? = v.key? := by
  cases v <;> rfl

namespace Draft

variable {ctx : LoweringContext} {d d' : Draft}

/-- There is room for a constant in a pool that is not full. -/
theorem constant_isOk (ctx : LoweringContext) (hroom : d.constants.size < 65536) (v : Value) :
    ∃ index constants, constant ctx v d = .ok (index, { d with constants := constants }) ∧
      constants.size ≤ d.constants.size + 1 := by
  rw [constant_apply]
  cases hfound : d.constants.toList.findIdx? fun c => c.tag == v.tag && c.equals v with
  | some i =>
    obtain ⟨hlt, -⟩ := List.findIdx?_eq_some_iff_getElem.1 hfound
    rw [Array.length_toList] at hlt
    exact ⟨_, d.constants, if_pos (Nat.lt_trans hlt hroom), Nat.le_succ _⟩
  | none =>
    exact ⟨_, d.constants.push v, if_pos hroom, Nat.le_of_eq (Array.size_push ..)⟩

/-- A load goes through as long as the pool has room, and adds one constant at most. -/
theorem load_isOk (ctx : LoweringContext) (hroom : d.constants.size < 65536) (dst : Reg) (v : Value) :
    ∃ assembler constants, load ctx dst v d =
        .ok ((), { d with assembler := assembler, constants := constants }) ∧
      constants.size ≤ d.constants.size + 1 := by
  have hconst : ∃ assembler constants, (do emit (.loadConst dst (← constant ctx v)) : Lowering Unit) d =
        .ok ((), { d with assembler := assembler, constants := constants }) ∧
      constants.size ≤ d.constants.size + 1 := by
    obtain ⟨index, constants, hconstant, hsize⟩ := constant_isOk ctx hroom v
    exact ⟨d.assembler.emit (.loadConst dst index), constants, state_bind_apply hconstant, hsize⟩
  cases v with
  | null => exact ⟨d.assembler.emit (.setNull dst), d.constants, rfl, Nat.le_succ _⟩
  | int i =>
    simp only [load]
    split
    · exact ⟨d.assembler.emit (.loadInt dst i.toInt32), d.constants, rfl, Nat.le_succ _⟩
    · exact hconst
  | _ => exact hconst

/-- The directives that load literals into registers. -/
def loads (ls : List (Reg × Literal)) : List Directive :=
  ls.map fun l => .load l.1 l.2

/-- Loads that leave values in registers make one draft out of another. -/
inductive Loading : Draft → List (Reg × Value) → Draft → Prop where
  | nil (d : Draft) : Loading d [] d
  | cons {d d₁ d' : Draft} {dst : Reg} {v : Value} {i : Instruction} {rest : List (Reg × Value)}
    (h : Loaded dst v d d₁ i) (more : Loading d₁ rest d') : Loading d ((dst, d.entered v) :: rest) d'

/-- What is entered later is behind what was there. -/
theorem Loading.prefixes {rs : List (Reg × Value)} (h : Loading d rs d') :
    d.assembler.code.toList <+: d'.assembler.code.toList ∧ d.constants.toList <+: d'.constants.toList := by
  induction h with
  | nil => exact ⟨List.prefix_rfl, List.prefix_rfl⟩
  | cons h _ ih => exact ⟨h.extends_.code.trans ih.1, h.extends_.pool.trans ih.2⟩

/-- A constant stands for a value if it is the value itself, or a copy among others. -/
def StandsFor (pool : List Value) (c v : Value) : Prop :=
  c = v ∨ c ∈ pool ∧ c.Copies v

/-- A constant is the same tree as a value that it would be taken for. -/
def Faithful (c v : Value) : Prop :=
  c.tag = v.tag → c.equals v = true → c.erase = v.erase

section Heap

variable {n : BufferId} {val : BufferId → Value} {pool cs vs : List Value} {c v : Value}

/-- What stands for a value cannot be told from it. -/
theorem StandsFor.like (hpool : ∀ v ∈ pool, v.InHeap n val) (hv : v.InHeap n val) (h : StandsFor pool c v) :
    v.Like (.copies n val) c := by
  rcases h with rfl | ⟨hc, hcopies⟩
  · exact hv.like
  · exact (hcopies.symm (hpool c hc) hv).like hv (hpool c hc)

/-- Constants that stand for values are alike them, up to which copies they are. -/
theorem standsFor_like (hpool : ∀ v ∈ pool, v.InHeap n val) (hvs : ∀ v ∈ vs, v.InHeap n val)
    (h : List.Forall₂ (StandsFor pool) cs vs) : Items.Like (.copies n val) vs cs := by
  induction h with
  | nil => exact .nil
  | cons hhead _ ih =>
    obtain ⟨hv, hvs⟩ := List.forall_mem_cons.1 hvs
    exact .cons (hhead.like hpool hv) (ih hvs)

/-- A constant that stands for a value is the same up to buffer numbers. -/
theorem StandsFor.erase_eq (h : StandsFor pool c v) : c.erase = v.erase := by
  rcases h with rfl | ⟨-, hcopies⟩
  · rfl
  · exact hcopies.erase

/-- Constants that stand for values were not moved away, if the values were not. -/
theorem standsFor_settled (hvs : ∀ v ∈ vs, v.isMoved = false) (h : List.Forall₂ (StandsFor pool) cs vs) :
    ∀ c ∈ cs, c.isMoved = false := by
  induction h with
  | nil => exact List.forall_mem_nil _
  | cons hhead _ ih =>
    obtain ⟨hv, hvs⟩ := List.forall_mem_cons.1 hvs
    refine List.forall_mem_cons.2 ⟨?_, ih hvs⟩
    rw [← Value.isMoved_erase, hhead.erase_eq, Value.isMoved_erase, hv]

end Heap

/-- **Literals can be loaded one after the other**, as long as there is room for their values. If those are
    not taken for others, then each register has its value or a copy. -/
theorem loads_ok {ls : List (Reg × Literal)} {vs : List Value} {n : BufferId}
    (heval : Literal.evalItems ctx.scope (ls.map (·.2)) d.supply = .ok (vs, n))
    (hroom : d.constants.size + ls.length ≤ 65536)
    (hpool : ∀ c ∈ d.constants.toList, ∀ v ∈ vs, Faithful c v) (hvalues : vs.Pairwise Faithful) :
    ∃ assembler constants cs,
      (loads ls).forM (apply ctx) d =
        .ok ((), { d with assembler := assembler, constants := constants, supply := n }) ∧
      Loading d ((ls.map (·.1)).zip cs)
        { d with assembler := assembler, constants := constants, supply := n } ∧
      constants.size ≤ d.constants.size + ls.length ∧ (∀ c ∈ constants.toList, c ∈ d.constants.toList ++ vs) ∧
      List.Forall₂ (StandsFor (d.constants.toList ++ vs)) cs vs := by
  induction ls generalizing d vs with
  | nil =>
    obtain ⟨rfl, rfl⟩ := Prod.mk.inj (Except.ok.inj heval)
    exact ⟨d.assembler, d.constants, [], rfl, .nil d, Nat.le_refl _,
      fun c hc => List.mem_append_left _ hc, .nil⟩
  | cons l ls ih =>
    rw [List.map_cons, Literal.evalItems] at heval
    obtain ⟨v, s, hv, heval⟩ := state_bind_ok heval
    obtain ⟨vs', s', hrest, heval⟩ := state_bind_ok heval
    obtain ⟨rfl, rfl⟩ := Prod.mk.inj (Except.ok.inj heval)
    rw [List.length_cons] at hroom
    -- there is room for one more constant, so the first load succeeds
    obtain ⟨assembler, constants, hload, hsize⟩ :=
      load_isOk (d := { d with supply := s }) ctx (by dsimp only; omega) l.1 v
    obtain ⟨i, hloaded⟩ := load_ok hload
    have hliteral : literal ctx l.2 d = .ok (v, { d with supply := s }) := by
      change (orFail ctx (l.2.eval ctx.scope d.supply) >>= fun r => (do
        set { d with supply := r.2 }
        return r.1 : Lowering Value)) d = _
      rw [hv]
      rfl
    have happly : apply ctx (.load l.1 l.2) d =
        .ok ((), { d with assembler := assembler, constants := constants, supply := s }) := by
      rw [apply, state_bind_apply hliteral]
      exact hload
    -- the pool grows by the value at most, so what holds of the pool and the value holds of it
    obtain ⟨fresh, hfresh, hmem⟩ := hloaded.extends_.constants
    obtain ⟨hhead, htail⟩ := List.pairwise_cons.1 hvalues
    have hpool' : ∀ c ∈ constants.toList, ∀ v' ∈ vs', Faithful c v' := by
      intro c hc v' hv'
      rw [hfresh] at hc
      rcases List.mem_append.1 hc with hc | hc
      · exact hpool c hc v' (List.mem_cons_of_mem _ hv')
      · obtain rfl := List.mem_singleton.1 (hmem c hc)
        exact hhead v' hv'
    have hmore : ∀ c ∈ constants.toList ++ vs', c ∈ d.constants.toList ++ v :: vs' := by
      intro c hc
      rw [hfresh, List.append_assoc] at hc
      rcases List.mem_append.1 hc with hc | hc
      · exact List.mem_append_left _ hc
      refine List.mem_append_right _ ?_
      rcases List.mem_append.1 hc with hc | hc
      · rw [List.mem_singleton.1 (hmem c hc)]
        exact List.mem_cons_self
      · exact List.mem_cons_of_mem _ hc
    obtain ⟨assembler', constants', cs, hloads, hloading, hsize', hconstants, hstands⟩ :=
      ih (d := { d with assembler := assembler, constants := constants, supply := s }) hrest
        (by dsimp only at hsize ⊢; omega) hpool' htail
    -- the first register gets what was entered for its value: the value or an equal constant
    refine ⟨assembler', constants', d.entered v :: cs, ?_, ?_, ?_, fun c hc => hmore c (hconstants c hc), ?_⟩
    · rw [loads, List.map_cons, List.forM_eq_forM, List.forM_cons, state_bind_apply happly]
      exact hloads
    · exact .cons ⟨hloaded.loads, ⟨hloaded.extends_.code, hloaded.extends_.constants⟩, hloaded.code⟩ hloading
    · rw [List.length_cons]
      dsimp only at hsize hsize'
      omega
    · refine .cons ?_ (hstands.imp fun c v' => .imp_right (.imp_left (hmore c)))
      rcases d.entered_cases v with hsame | ⟨hc, htag, hequals⟩
      · exact .inl hsame
      · exact .inr ⟨List.mem_append_left _ hc, hpool _ hc v List.mem_cons_self htag hequals, hequals⟩

/-- The first block that is referred to. -/
theorem blockRef_first (ctx : LoweringContext) (hd : d.blocks = #[]) (block : BlockId) :
    blockRef ctx block d = .ok (0, { d with blocks := #[block] }) := by
  have hnone : d.blocks.findIdx? (· == block) = none := by rw [hd]; exact Array.findIdx?_empty
  have hget : (get : Lowering Draft) d = .ok (d, d) := rfl
  rw [blockRef, state_bind_apply hget, hnone, hd]
  rfl

end Draft

/-! ### Wrappers -/

/-- Strings, integers and booleans are keys. -/
theorem Value.isSome_key? (v : Value) : v.key?.isSome = (v.tag == 1 || v.tag == 3 || v.tag == 4) := by
  cases v <;> rfl

/-- Keys that equal each other are the same tree, so that no other value is loaded in place of a key or the
    other way round. -/
theorem Draft.faithful_of_key? {n : BufferId} {val : BufferId → Value} {c v : Value} (hc : c.InHeap n val)
    (hv : v.InHeap n val) (h : c.key?.isSome = true ∨ v.key?.isSome = true) : Faithful c v := by
  intro htag hequals
  have hkey : c.key?.isSome = true := by
    rw [Value.isSome_key?, Value.isSome_key?, htag, or_self] at h
    rw [Value.isSome_key?, htag, h]
  cases c with
  | str i s =>
    cases v with
    | str j t =>
      rw [Value.equals] at hequals
      rcases Bool.or_eq_true_iff.1 hequals with hid | htext
      · rw [hc.eq_of_id hv rfl (congrArg some (beq_iff_eq.1 hid).symm)]
      · rw [beq_iff_eq.1 htext]
        rfl
    | _ => cases htag
  | int i =>
    cases v with
    | int j =>
      rw [Value.equals] at hequals
      rw [beq_iff_eq.1 hequals]
    | _ => cases htag
  | bool b =>
    cases v with
    | bool b' =>
      rw [Value.equals] at hequals
      rw [beq_iff_eq.1 hequals]
    | _ => cases htag
  | _ => cases hkey

/-- A block that loads arguments and a key, calls another block with them, and returns what it receives. The
    arguments are in the registers from `base` on, and what is received from `out` on. -/
structure Wrapper where
  block : BlockId
  key : Key
  loads : List (Reg × Literal)
  argc : Nat
  base : Reg
  keyAt : Reg
  out : Reg

namespace Wrapper

variable (W : Wrapper)

/-- The instruction that calls the block. -/
def call : Instruction :=
  .callKeyed 0 W.base (.ofNat W.argc) W.out W.keyAt

def body : List Directive :=
  Draft.loads W.loads ++
    [.callKeyed W.block W.base (.ofNat W.argc) W.out W.keyAt, .code (.emit .ret)]

/-- The signature of the block: it has no inputs, and as many outputs of any type as values are received, in
    the registers that these are in. There are registers for what is loaded. -/
structure Declares (s : Signature) (count : Nat) : Prop where
  inputs : s.inputs = []
  outputs : s.outputs.map (·.register.toNat) = List.range' W.out.toNat count
  any : ∀ o ∈ s.outputs, o.placeholder.type = .basic .any
  few : W.argc ≤ 255
  room : W.base.toNat + W.argc ≤ s.registerCount
  keyRoom : W.keyAt.toNat < s.registerCount
  apart : W.keyAt.toNat < W.base.toNat ∨ W.base.toNat + W.argc ≤ W.keyAt.toNat

/-- Arguments and a key in their registers. -/
def placed (args : List Value) (k : Value) : List (Reg × Value) :=
  args.mapIdx (fun i v => (.ofNat (W.base.toNat + i), v)) ++ [(W.keyAt, k)]

/-- What is loaded, in any order, are the arguments and the key. -/
structure Loads (scope : Scope) (supply : BufferId) (args vs : List Value) (k : Value) (n : BufferId) :
    Prop where
  values : Literal.evalItems scope (W.loads.map (·.2)) supply = .ok (vs, n)
  placed : ((W.loads.map (·.1)).zip vs).Perm (W.placed args k)
  argc : args.length = W.argc
  key : k.key? = some W.key

/-- What the body is lowered to, when `cs` stand for the values that are loaded. -/
structure Lowered (supply : BufferId) (vs cs : List Value) (d₁ d : Draft) : Prop where
  loading : Draft.Loading { supply := supply } ((W.loads.map (·.1)).zip cs) d₁
  code : d.assembler.code.toList = d₁.assembler.code.toList ++ (W.call.encode ++ Instruction.ret.encode)
  constants : d.constants = d₁.constants
  blocks : d.blocks = #[W.block]
  stands : List.Forall₂ (Draft.StandsFor vs) cs vs

/-- **The body of a wrapper can be lowered** if what it loads has values, and none is taken for another. -/
theorem lower_ok {ctx : LoweringContext} {supply n : BufferId} {vs : List Value} (hfew : W.loads.length ≤ 65536)
    (heval : Literal.evalItems ctx.scope (W.loads.map (·.2)) supply = .ok (vs, n))
    (hvalues : vs.Pairwise Draft.Faithful) :
    ∃ cs d₁ d, lower ctx W.body supply = .ok d ∧ d.supply = n ∧ W.Lowered supply vs cs d₁ d := by
  obtain ⟨assembler, constants, cs, hloads, hloading, -, -, hstands⟩ :=
    Draft.loads_ok (d := { supply := supply }) heval (by simpa using hfew)
      (List.forall_mem_nil _) hvalues
  refine ⟨cs, _,
    { assembler := (assembler.emit W.call).emit .ret
      constants := constants
      blocks := #[W.block]
      supply := n },
    ?_, rfl, hloading, ?_, rfl, rfl, hstands⟩
  · rw [List.forM_eq_forM] at hloads
    change (W.body.forM (Draft.apply ctx) { supply := supply }).bind (fun r => .ok r.2) = _
    rw [body, List.forM_eq_forM, List.forM_append, state_bind_apply hloads, List.forM_cons, Draft.apply,
      bind_assoc, state_bind_apply (Draft.blockRef_first ctx rfl W.block)]
    rfl
  · rw [Assembler.toList_emit, Assembler.toList_emit, List.append_assoc]

section Loads

variable {W} {scope : Scope} {supply n : BufferId} {args vs : List Value} {k : Value}

/-- What is placed in registers are the arguments, one after the other, and the key. -/
theorem mem_placed {r : Reg} {v : Value} : (r, v) ∈ W.placed args k ↔
    (∃ i, ∃ hi : i < args.length, r = .ofNat (W.base.toNat + i) ∧ v = args[i]) ∨ r = W.keyAt ∧ v = k := by
  simp only [placed, List.mem_append, List.mem_mapIdx, List.mem_singleton, Prod.mk.injEq]
  refine or_congr_left (exists₂_congr fun i hi => and_congr ?_ ?_) <;> exact eq_comm

namespace Loads

variable (h : W.Loads scope supply args vs k n)
include h

/-- There is a value for every load. -/
theorem length_eq : vs.length = W.loads.length := by
  rw [Literal.length_evalItems h.values, List.length_map]

/-- The registers of the loads are those that are asked for. -/
theorem map_fst_zip {cs : List Value} (hcs : cs.length = vs.length) :
    ((W.loads.map (·.1)).zip cs).map (·.1) = W.loads.map (·.1) :=
  List.map_fst_zip (by rw [List.length_map, hcs, h.length_eq])

/-- There is one load for every argument and one for the key. -/
theorem length_loads : W.loads.length = W.argc + 1 := by
  have hlength := h.placed.length_eq
  rw [List.length_zip, List.length_map, h.length_eq, Nat.min_self] at hlength
  rw [hlength, Wrapper.placed, List.length_append, List.length_mapIdx, h.argc, List.length_singleton]

/-- All arguments are loaded. -/
theorem mem_values {v : Value} (hv : v ∈ args) : v ∈ vs := by
  obtain ⟨i, hi, rfl⟩ := List.mem_iff_getElem.1 hv
  exact (List.of_mem_zip (h.placed.mem_iff.2 (mem_placed.2 (.inl ⟨i, hi, rfl, rfl⟩)))).2

/-- Values that are loaded are arguments or the key. -/
theorem mem_args {v : Value} (hv : v ∈ vs) : v ∈ args ∨ v = k := by
  have hvs : ((W.loads.map (·.1)).zip vs).map (·.2) = vs :=
    List.map_snd_zip (by rw [List.length_map, h.length_eq])
  rw [← hvs] at hv
  obtain ⟨⟨r, v⟩, hmem, rfl⟩ := List.mem_map.1 hv
  rcases mem_placed.1 (h.placed.mem_iff.1 hmem) with ⟨i, hi, -, rfl⟩ | ⟨-, rfl⟩
  · exact .inl (List.getElem_mem hi)
  · exact .inr rfl

/-- If no argument is taken for another, then no value that is loaded is. -/
theorem pairwise_faithful {val : BufferId → Value} (hvalues : ∀ v ∈ vs, v.InHeap n val)
    (hargs : ∀ v ∈ args, ∀ u ∈ args, Draft.Faithful v u) : vs.Pairwise Draft.Faithful := by
  have hkeyed : k.key?.isSome = true := by rw [h.key]; rfl
  refine List.pairwise_of_forall_mem_list fun v hv u hu => ?_
  by_cases hkey : v = k ∨ u = k
  · refine Draft.faithful_of_key? (hvalues v hv) (hvalues u hu) (hkey.imp ?_ ?_) <;>
      exact fun heq => heq ▸ hkeyed
  · obtain ⟨hv', hu'⟩ := not_or.1 hkey
    exact hargs v ((h.mem_args hv).resolve_right hv') u ((h.mem_args hu).resolve_right hu')

end Loads

/-- What stands for the arguments and the key is in their registers. -/
theorem Lowered.exists_placed {cs : List Value} {d₁ d : Draft} (h : W.Lowered supply vs cs d₁ d)
    (hloads : W.Loads scope supply args vs k n) :
    ∃ as k', List.Forall₂ (Draft.StandsFor vs) as args ∧ k'.key? = some W.key ∧
      ∀ x ∈ W.placed as k', x ∈ (W.loads.map (·.1)).zip cs := by
  have hzip : ∀ {rs : List Reg} {cs vs' : List Value} {r : Reg} {v : Value},
      List.Forall₂ (Draft.StandsFor vs) cs vs' → (r, v) ∈ rs.zip vs' →
      ∃ c, (r, c) ∈ rs.zip cs ∧ Draft.StandsFor vs c v := by
    intro rs cs vs' r v hstands hmem
    obtain ⟨i, hi, hget⟩ := List.mem_iff_getElem.1 hmem
    rw [List.length_zip] at hi
    obtain ⟨hlength, hstands⟩ := List.forall₂_iff_get.1 hstands
    obtain ⟨hr, hv⟩ := Prod.mk.inj (List.getElem_zip.symm.trans hget)
    have hcs : i < cs.length := by omega
    refine ⟨cs[i], List.mem_iff_getElem.2 ⟨i, by rw [List.length_zip]; omega, ?_⟩, ?_⟩
    · rw [List.getElem_zip, hr]
    · rw [← hv]
      exact hstands i hcs (by omega)
  have hargument : ∀ i (hi : i < args.length), ∃ c,
      (UInt16.ofNat (W.base.toNat + i), c) ∈ (W.loads.map (·.1)).zip cs ∧ Draft.StandsFor vs c args[i] :=
    fun i hi => hzip h.stands (hloads.placed.mem_iff.2 (mem_placed.2 (.inl ⟨i, hi, rfl, rfl⟩)))
  obtain ⟨k', hk', hkey⟩ := hzip h.stands (hloads.placed.mem_iff.2 (mem_placed.2 (.inr ⟨rfl, rfl⟩)))
  choose a ha hstands using hargument
  refine ⟨List.ofFn fun i : Fin args.length => a i i.2, k', ?_, ?_, ?_⟩
  · refine List.forall₂_iff_get.2 ⟨List.length_ofFn, fun i hi hi' => ?_⟩
    rw [List.get_ofFn]
    exact hstands i hi'
  · rw [← Value.key?_erase, hkey.erase_eq, Value.key?_erase, hloads.key]
  · rintro ⟨r, c⟩ hx
    rcases mem_placed.1 hx with ⟨i, hi, rfl, rfl⟩ | ⟨rfl, rfl⟩
    · rw [List.getElem_ofFn]
      exact ha i _
    · exact hk'

end Loads

end Wrapper

/-! ### Worlds with one more block -/

namespace World

variable {w w' : World} {s : Signature} {body : List Directive} {i : Nat} {d : Draft}

/-- The values that a world holds are in a heap. -/
structure InHeap (n : BufferId) (val : BufferId → Value) (w : World) : Prop where
  constants : ∀ (id : BlockId) (i : Nat) (p : Program), w.Files id i p →
    ∀ v ∈ p.constants.toList, v.InHeap n val
  members : ∀ m ∈ w.modules, ∀ (name : String) (v : Value), m.member? name = some (.value v) →
    v.InHeap n val

/-- A world stays in its heap when there are more numbers. -/
theorem InHeap.mono {n n' : BufferId} {val val' : BufferId → Value} (h : w.InHeap n val) (hn : n ≤ n')
    (hval : ∀ j < n, val' j = val j) : w.InHeap n' val' where
  constants id i p hp v hv := (h.constants id i p hp v hv).mono hn hval
  members m hm name v hv := (h.members m hm name v hv).mono hn hval

/-- Only blocks that are there have programs. -/
theorem Derived.files_lt (h : w.Derived) {id : BlockId} {p : Program} (hp : w.Files id i p) :
    id < w.blocks.size := by
  obtain ⟨-, b, hb, -⟩ := h.files_block hp
  exact (Array.getElem?_eq_some_iff.1 hb).1

/-- A new block compiles if its body can be lowered. -/
theorem Derived.compile_new (h : w.Derived)
    (hd : lower ⟨s.name, w.scope, w.natives⟩ body w.supply = .ok d) :
    ∃ i w', World.compile w.blocks.size (w.addBlock s body).2 = (.ok i, w') ∧
      HasCompiled w.blocks.size i ⟨w.blocks.size, 0, s, body⟩ d (w.addBlock s body).2 w' :=
  (h.addBlock s body).compile_first Array.getElem?_push_size
    (fun _ _ hp => Nat.lt_irrefl _ (h.files_lt hp)) hd

/-- **A world next to one where a further block was defined and compiled**, once both drew the numbers of
    a heap. -/
theorem Derived.beside_new (h : w.Derived) {n : BufferId} {val : BufferId → Value} (hheap : w.InHeap n val)
    {b : Block} (hcompiled : HasCompiled w.blocks.size i b d (w.addBlock s body).2 w') (hn : n ≤ w'.supply) :
    Beside (fun _ => none) (.copies n val) { w with supply := n } w' := by
  have hothers : ∀ {id : BlockId} {j : Nat} {p : Program}, id < w.blocks.size →
      (w'.Files id j p ↔ w.Files id j p) := fun hid => hcompiled.others _ _ _ (Nat.ne_of_lt hid)
  have honly := hcompiled.only
  refine {
    derived₁ := h.congr rfl rfl
    derived₂ := hcompiled.derived
    blocks := fun id b' hb => ?_
    natives := honly.natives
    registry := honly.registry
    modules := honly.modules
    epoch := honly.epoch
    members := fun m hm name v hv => (hheap.members m hm name v hv).like
    numbers := ⟨Nat.zero_le _, Nat.zero_le _, fun a c v u hpair => ?_⟩
    filed := fun id j p hp => ⟨j, p, (hothers (h.files_lt hp)).2 hp, ?_⟩
    ahead := fun id b' j q hb hq => .inl ⟨j, q, (hothers (Array.getElem?_eq_some_iff.1 hb).1).1 hq⟩
    owned := fun a c v u id hpair howner => by cases howner
    unowned := fun _ _ => rfl }
  · rw [honly.blocks]
    exact getElem?_push_of_some hb _
  · obtain ⟨ha, hc⟩ := Matching.copies_lt hpair
    exact ⟨⟨Nat.zero_le _, ha⟩, Nat.zero_le _, Nat.lt_of_lt_of_le hc hn⟩
  · exact {
      version := rfl
      signature := rfl
      code := rfl
      constants := Registers.Like.of_items
        (List.forall₂_same.2 fun v hv => (hheap.constants id j p hp v hv).like)
      blocks := rfl
      types := rfl
      names := rfl
      registers := rfl
      sourceMap := rfl }

end World

end BlockMachine

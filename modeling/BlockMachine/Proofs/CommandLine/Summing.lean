import BlockMachine.Proofs.CommandLine.Counter
import BlockMachine.Proofs.Machine.Entry
import BlockMachine.Proofs.Machine.FailedRuns
import Mathlib.Algebra.Group.Nat.Defs
import Mathlib.Algebra.Ring.Int.Defs

namespace BlockMachine

/-!
# The sum of a list

A call of the block that sums a list, instruction by instruction. It comes to an end for every list: with the
sum, or at the addition of the first item that is no integer.

* `Summing.Sums` says which blocks sum a list, and `Summing.Compiled` what their programs share;
* `Summing.looping` are the machines in the loop, `Summing.execute_round` is one round of it, and
  `Summing.execute_rounds` are the rounds over integers that follow each other;
* `Summing.execute_total` and `Summing.execute_refused` are the two ways in which the loop ends;
* `Summing.call_sums` is the call.
-/

namespace Summing

open Machine

/-! ### The program -/

/-- The instructions of the block, as they are assembled. -/
def calls : List Assembler.Call :=
  [.emit (.loadInt 1 0), .emit (.loadInt 2 0), .mark "top", .jump (.ifDone 1 0) "done",
    .emit (.getIndex 3 0 1), .emit (.binary .addInt 2 2 3), .emit (.increment 1),
    .jumpBack .always (.mark "top"), .bind "done", .emit .ret]

/-- A directive that only says which graph node instructions belong to. -/
def isNode : Directive → Bool
  | .node _ => true
  | _ => false

/-- A block that sums a list. Its instructions may belong to any graph nodes. -/
structure Sums (b : Block) : Prop where
  signature : b.signature = Demo.sumSignature
  body : b.body.filter (!isNode ·) = calls.map .code

/-- Graph nodes do not change the code that a body is lowered to. -/
theorem forM_apply_marked (ctx : LoweringContext) {body : List Directive} {cs : List Assembler.Call}
    (h : body.filter (!isNode ·) = cs.map .code) (d : Draft) :
    ∃ nodes, body.forM (Draft.apply ctx) d =
      .ok ((), { d with assembler := cs.foldl Assembler.apply d.assembler, sourceMap := nodes }) := by
  induction body generalizing cs d with
  | nil =>
    obtain rfl := List.map_eq_nil_iff.1 h.symm
    exact ⟨d.sourceMap, rfl⟩
  | cons x rest ih =>
    cases x with
    | node n => exact ih h { d with sourceMap := d.sourceMap.add (UInt32.ofNat d.assembler.position) n }
    | code c =>
      obtain ⟨c', cs', rfl, hc, hrest⟩ := List.map_eq_cons_iff.1 h.symm
      obtain rfl := Directive.code.inj hc
      exact ih hrest.symm { d with assembler := d.assembler.apply c' }
    | _ =>
      obtain ⟨_, _, -, hc, -⟩ := List.map_eq_cons_iff.1 h.symm
      cases hc

/-- A program of a block that sums a list. -/
structure Compiled (p : Program) : Prop where
  code : p.code = assemble calls
  signature : p.signature = Demo.sumSignature
  registers : p.registers = 4

/-- A block that sums can be lowered, to the same code. -/
theorem Sums.lower_ok {b : Block} (h : Sums b) (ctx : LoweringContext) (supply : BufferId) :
    ∃ d, lower ctx b.body supply = .ok d ∧ d.assembler.code = assemble calls := by
  obtain ⟨nodes, hdraft⟩ := forM_apply_marked ctx h.body { supply := supply }
  exact ⟨_, by rw [lower, hdraft]; rfl, rfl⟩

/-- Its program is compiled from that code. -/
theorem Sums.compiled {b : Block} (h : Sums b) {ctx : LoweringContext} {supply : BufferId} {d : Draft}
    (hd : lower ctx b.body supply = .ok d) (i : Nat) : Compiled (World.finish b i d) := by
  obtain ⟨d', hd', hcode⟩ := h.lower_ok ctx supply
  obtain rfl := Except.ok.inj (hd.symm.trans hd')
  refine ⟨hcode, h.signature, ?_⟩
  rw [World.finish, h.signature]
  rfl

/-- What is decoded in the code is an instruction of the program. -/
theorem Compiled.instructionAt {p : Program} (hp : Compiled p) (pc : Nat) (j : Instruction) (next : Nat)
    (h : (decodeAt (assemble calls) pc).toOption = some (j, next)) :
    p.instructionAt pc = .ok (j, next) := by
  rw [Program.instructionAt, hp.code]
  exact Counter.eq_ok_of_toOption h

/-! ### Single instructions -/

/-- A machine whose only frame is at an offset and holds values. -/
def summing (m : Machine) (f : Frame) (pc : Nat) (registers : Array Value) : Machine :=
  m.withFrames [{ f with registers := registers, pc := { f.pc with offset := pc } }]

/-- A machine in the loop: `k` items are added up to `t`, and the item in `x` was read last. -/
def looping (m : Machine) (f : Frame) (id : BufferId) (items : List Value) (pc k : Nat) (t : Int64)
    (x : Value) : Machine :=
  summing m f pc #[.list id items, .int (Int64.ofNat k), .int t, x]

section

variable {host : Embedder} {m : Machine} {f : Frame} {p : Program} {id : BufferId} {items : List Value}

/-- One instruction is taken, and the loop goes on. -/
theorem sum_next {fuel pc pc' : Nat} {registers registers' : Array Value} (hp : Compiled p)
    (hm : m.stack.cancelled = false) (j : Instruction) (next : Nat)
    (hj : (decodeAt (assemble calls) pc).toOption = some (j, next))
    (hstep : ∀ resume, step host resume p next j (summing m f next registers) =
      (.ok .next, summing m f pc' registers')) :
    execute host (fuel + 1) p (summing m f pc registers) =
      execute host fuel p (summing m f pc' registers') :=
  execute_next (m := summing m f pc registers) hm rfl (hp.instructionAt pc j next hj) (hstep _)

/-- An index that fits into 64 bits is what it counts. -/
theorem toInt_index {k : Nat} (hk : k < 2 ^ 63) : (Int64.ofNat k).toInt = k :=
  Int64.toInt_ofNat_of_lt hk

/-- The loop is left when the counter is at the length of the list. -/
theorem step_test (resume : Action Outcome) {k : Nat} (hk : k < 2 ^ 63) (t : Int64) (x : Value) :
    step host resume p 11 (.jump (.ifDone 1 0) 13) (looping m f id items 11 k t x) =
      (.ok .next, looping m f id items (if items.length ≤ k then 24 else 11) k t x) := by
  have htaken : isTaken (.ifDone 1 0) (looping m f id items 11 k t x) =
      (.ok (decide ((items.length : Int) ≤ (Int64.ofNat k).toInt)), looping m f id items 11 k t x) :=
    rfl
  rw [toInt_index hk] at htaken
  rw [step.eq_3 _ _ _ _ _ (by simp) (by simp), Failing.bind_apply, perform, Failing.bind_apply, htaken]
  by_cases hdone : items.length ≤ k
  · rw [decide_eq_true (Int.ofNat_le.2 hdone), if_pos hdone]
    rfl
  · rw [decide_eq_false (mt Int.ofNat_le.1 hdone), if_neg hdone]
    rfl

/-- The item at the counter is read. -/
theorem step_item (resume : Action Outcome) {k : Nat} (hk : k < 2 ^ 63) {v : Value}
    (hv : items[k]? = some v) (t : Int64) (x : Value) :
    step host resume p 15 (.getIndex 3 0 1) (looping m f id items 15 k t x) =
      (.ok .next, looping m f id items 15 k t v) := by
  have hnonneg : ¬Int64.ofNat k < 0 := by
    rw [Int64.lt_iff_toInt_lt, toInt_index hk]
    exact Int.not_lt.2 (Int.natCast_nonneg k)
  have hitem : (Value.list id items).item? (Int64.ofNat k).toInt.toNat = pure (some v) := by
    rw [Value.item?, toInt_index hk, Int.toNat_natCast, hv]
  have hread : readIndex 0 1 (looping m f id items 15 k t x) = (.ok v, looping m f id items 15 k t x) := by
    show (if Int64.ofNat k < 0 then (pure .null : Action Value) else do
      return (← allocate ((Value.list id items).item? (Int64.ofNat k).toInt.toNat)).getD .null) _ = _
    rw [if_neg hnonneg, hitem]
    rfl
  rw [step.eq_3 _ _ _ _ _ (by simp) (by simp), Failing.bind_apply, perform, Failing.bind_apply, hread]
  rfl

/-- Only integers are added. -/
theorem step_refused (resume : Action Outcome) (k : Nat) (t : Int64) {v : Value}
    (hmoved : v.isMoved = false) (hv : v.int? = none) :
    step host resume p 19 (.binary .addInt 2 2 3) (looping m f id items 19 k t v) =
      (.error (.raised (.typeMismatch "int" v.typeName)), looping m f id items 19 k t v) := by
  cases v with
  | moved => exact nomatch hmoved
  | int => exact nomatch hv
  | _ => rfl

/-! ### Rounds of the loop -/

/-- The sum of integers, wrapped around to 64 bits. -/
def total (ints : List Int64) : Int64 :=
  Int64.ofInt (ints.map Int64.toInt).sum

/-- Without items the sum is zero. -/
theorem total_nil : total [] = 0 :=
  rfl

/-- One item more is added. -/
theorem total_cons (c : Int64) (ints : List Int64) : total (c :: ints) = c + total ints := by
  rw [total, List.map_cons, List.sum_cons, Int64.ofInt_add, Int64.ofInt_toInt, total]

/-- Before the loop the counter and the sum are zero. -/
theorem execute_start (hp : Compiled p) (hm : m.stack.cancelled = false) (fuel : Nat) :
    execute host (fuel + 2) p (summing m f 0 #[.list id items, .null, .null, .null]) =
      execute host fuel p (looping m f id items 6 0 0 .null) :=
  calc execute host (fuel + 2) p (summing m f 0 #[.list id items, .null, .null, .null])
    _ = execute host (fuel + 1) p (summing m f 3 #[.list id items, .int 0, .null, .null]) :=
      sum_next hp hm (.loadInt 1 0) 3 (by decide +kernel) fun _ => rfl
    _ = execute host fuel p (looping m f id items 6 0 0 .null) :=
      sum_next hp hm (.loadInt 2 0) 6 (by decide +kernel) fun _ => rfl

/-- While there are items the next one is read. -/
theorem execute_item (hp : Compiled p) (hm : m.stack.cancelled = false) {k : Nat} (hk : k < 2 ^ 63)
    {v : Value} (hv : items[k]? = some v) (t : Int64) (x : Value) (fuel : Nat) :
    execute host (fuel + 2) p (looping m f id items 6 k t x) =
      execute host fuel p (looping m f id items 15 k t v) := by
  have hmore : ¬items.length ≤ k := Nat.not_le.2 (List.getElem?_eq_some_iff.1 hv).1
  have htest : ∀ resume, step host resume p 11 (.jump (.ifDone 1 0) 13) (looping m f id items 11 k t x) =
      (.ok .next, looping m f id items 11 k t x) := fun resume => by
    rw [step_test resume hk, if_neg hmore]
  calc execute host (fuel + 2) p (looping m f id items 6 k t x)
    _ = execute host (fuel + 1) p (looping m f id items 11 k t x) :=
      sum_next hp hm (.jump (.ifDone 1 0) 13) 11 (by decide +kernel) htest
    _ = execute host fuel p (looping m f id items 15 k t v) :=
      sum_next hp hm (.getIndex 3 0 1) 15 (by decide +kernel) (step_item · hk hv t x)

/-- A round of the loop adds an integer. -/
theorem execute_round (hp : Compiled p) (hm : m.stack.cancelled = false) {k : Nat} (hk : k < 2 ^ 63)
    {c : Int64} (hc : items[k]? = some (.int c)) (t : Int64) (x : Value) (fuel : Nat) :
    execute host (fuel + 5) p (looping m f id items 6 k t x) =
      execute host fuel p (looping m f id items 6 (k + 1) (t + c) (.int c)) :=
  calc execute host (fuel + 5) p (looping m f id items 6 k t x)
    _ = execute host (fuel + 3) p (looping m f id items 15 k t (.int c)) :=
      execute_item hp hm hk hc t x (fuel + 3)
    _ = execute host (fuel + 2) p (looping m f id items 19 k (t + c) (.int c)) :=
      sum_next hp hm (.binary .addInt 2 2 3) 19 (by decide +kernel) fun _ => rfl
    _ = execute host (fuel + 1) p (looping m f id items 21 (k + 1) (t + c) (.int c)) :=
      sum_next hp hm (.increment 1) 21 (by decide +kernel) fun _ => by
        rw [Int64.ofNat_add]
        rfl
    _ = execute host fuel p (looping m f id items 6 (k + 1) (t + c) (.int c)) :=
      sum_next hp hm (.jump .always (-18)) 24 (by decide +kernel) fun _ => rfl

/-- As many rounds as integers follow each other add them all. -/
theorem execute_rounds (id : BufferId) (hp : Compiled p) (hm : m.stack.cancelled = false)
    (hlength : items.length < 2 ^ 63) (before : List Value) {ints : List Int64} {rest : List Value}
    (hitems : items = before ++ (ints.map .int ++ rest)) (t : Int64) (x : Value) (fuel : Nat) :
    ∃ y, execute host (fuel + 5 * ints.length) p (looping m f id items 6 before.length t x) =
      execute host fuel p (looping m f id items 6 (before.length + ints.length) (t + total ints) y) := by
  -- the counter is the number of items before those that are left
  induction ints generalizing before t x with
  | nil => exact ⟨x, by rw [total_nil, Int64.add_zero]; rfl⟩
  | cons c ints ih =>
    have hc : items[before.length]? = some (.int c) := by
      rw [hitems, List.getElem?_append_right (Nat.le_refl _), Nat.sub_self]
      rfl
    have hk : before.length < 2 ^ 63 := Nat.lt_trans (List.getElem?_eq_some_iff.1 hc).1 hlength
    obtain ⟨y, hy⟩ := ih (before ++ [.int c]) (by simp [hitems]) (t + c) (.int c)
    refine ⟨y, ?_⟩
    rw [List.length_append, List.length_singleton] at hy
    rw [List.length_cons, Nat.mul_succ, ← Nat.add_assoc, execute_round hp hm hk hc t x, hy, total_cons,
      ← Int64.add_assoc, Nat.add_assoc, Nat.add_comm 1]

/-! ### The end of the loop -/

/-- The machine after the block returned. -/
def returned (m : Machine) (f : Frame) (id : BufferId) (items : List Value) (t : Int64) (x : Value) :
    Machine :=
  let left := looping m f id items 25 items.length t x
  { left with stack := { left.stack with state := .null } }

/-- A sum is cast to what it is. -/
theorem leave_total (hp : Compiled p) (hparent : f.parent = none) (houtgoing : f.outgoing = []) (t : Int64)
    (x : Value) : leave p (looping m f id items 25 items.length t x) =
      (.ok true, returned m f id items t x) := by
  obtain ⟨⟩ := f
  obtain rfl := hparent
  obtain rfl := houtgoing
  rw [leave, hp.signature]
  rfl

/-- At the end of the list the block returns. -/
theorem execute_total (hp : Compiled p) (hm : m.stack.cancelled = false) (hparent : f.parent = none)
    (houtgoing : f.outgoing = []) (hlength : items.length < 2 ^ 63) (t : Int64) (x : Value) (fuel : Nat) :
    execute host (fuel + 2) p (looping m f id items 6 items.length t x) =
      (.ok .finished, returned m f id items t x) := by
  have htest : ∀ resume, step host resume p 11 (.jump (.ifDone 1 0) 13)
      (looping m f id items 11 items.length t x) = (.ok .next, looping m f id items 24 items.length t x) :=
    fun resume => by rw [step_test resume hlength, if_pos (Nat.le_refl _)]
  calc execute host (fuel + 2) p (looping m f id items 6 items.length t x)
    _ = execute host (fuel + 1) p (looping m f id items 24 items.length t x) :=
      sum_next hp hm (.jump (.ifDone 1 0) 13) 11 (by decide +kernel) htest
    _ = _ := execute_finish (m := looping _ _ _ _ _ _ _ _) hm rfl
        (hp.instructionAt 24 .ret 25 (by decide +kernel)) (leave_total hp hparent houtgoing t x)

/-- The machine whose frame is left at the addition. -/
def refused (m : Machine) (f : Frame) (p : Program) (id : BufferId) (items : List Value) (k : Nat) (t : Int64)
    (v : Value) : Machine :=
  m.withFrames [{ f with
    registers := #[.list id items, .int (Int64.ofNat k), .int t, v]
    pc := ⟨15, p.nodeAt 15⟩ }]

/-- At an item that is no integer the addition fails. -/
theorem execute_refused (hp : Compiled p) (hm : m.stack.cancelled = false) {k : Nat} (hk : k < 2 ^ 63)
    {v : Value} (hv : items[k]? = some v) (hmoved : v.isMoved = false) (hint : v.int? = none) (t : Int64)
    (x : Value) (fuel : Nat) :
    execute host (fuel + 3) p (looping m f id items 6 k t x) =
      (.error (.raised (.typeMismatch "int" v.typeName)), refused m f p id items k t v) :=
  calc execute host (fuel + 3) p (looping m f id items 6 k t x)
    _ = execute host (fuel + 1) p (looping m f id items 15 k t v) :=
      execute_item hp hm hk hv t x (fuel + 1)
    _ = _ := execute_raised (m := looping _ _ _ _ _ _ _ _) hm rfl
        (hp.instructionAt 15 (.binary .addInt 2 2 3) 19 (by decide +kernel))
        (step_refused _ _ t hmoved hint)

/-- What the block outputs is its sum. -/
theorem outputs_returned {outcome : Outcome} {b : Block} (hb : m.world.blocks[f.block]? = some b)
    (hsum : Sums b) (t : Int64) (x : Value) :
    outputs { returned m f id items t x with
      stack := conclude outcome (returned m f id items t x).stack } = [.int t] := by
  simp only [outputs, returned, conclude, looping, summing, withFrames, hb, hsum.signature]
  rfl

/-! ### The whole program -/

/-- The program finishes with the sum of a list of integers. -/
theorem execute_ints (id : BufferId) (hp : Compiled p) (hm : m.stack.cancelled = false)
    (hparent : f.parent = none) (houtgoing : f.outgoing = []) {ints : List Int64}
    (hitems : items = ints.map .int) (hlength : items.length < 2 ^ 63) {fuel : Nat}
    (hfuel : 5 * items.length + 4 ≤ fuel) :
    ∃ y, execute host fuel p (summing m f 0 #[.list id items, .null, .null, .null]) =
      (.ok .finished, returned m f id items (total ints) y) := by
  have hcount : items.length = ints.length := by rw [hitems, List.length_map]
  obtain ⟨extra, rfl⟩ : ∃ extra, fuel = extra + 2 + 5 * ints.length + 2 :=
    ⟨fuel - (5 * items.length + 4), by omega⟩
  obtain ⟨y, hy⟩ := execute_rounds (m := m) (f := f) id hp hm hlength []
    (hitems.trans (List.append_nil _).symm) 0 .null (extra + 2)
  refine ⟨y, ?_⟩
  rw [List.length_nil, Nat.zero_add, ← hcount, Int64.zero_add] at hy
  rw [← hcount, execute_start hp hm, hy, execute_total hp hm hparent houtgoing hlength]

variable (host) in
/-- The program fails at the first item that is no integer. -/
theorem execute_other (id : BufferId) (hp : Compiled p) (hm : m.stack.cancelled = false)
    {ints : List Int64} {v : Value} {rest : List Value} (hitems : items = ints.map .int ++ v :: rest)
    (hmoved : v.isMoved = false) (hint : v.int? = none) (hlength : items.length < 2 ^ 63) {fuel : Nat}
    (hfuel : 5 * items.length + 4 ≤ fuel) :
    execute host fuel p (summing m f 0 #[.list id items, .null, .null, .null]) =
      (.error (.raised (.typeMismatch "int" v.typeName)),
        refused m f p id items ints.length (total ints) v) := by
  have hcount : items.length = ints.length + (rest.length + 1) := by
    rw [hitems, List.length_append, List.length_map, List.length_cons]
  have hv : items[ints.length]? = some v := by
    rw [hitems, List.getElem?_append_right (by rw [List.length_map]), List.length_map, Nat.sub_self]
    rfl
  obtain ⟨extra, rfl⟩ : ∃ extra, fuel = extra + 3 + 5 * ints.length + 2 :=
    ⟨fuel - (5 * ints.length + 5), by omega⟩
  obtain ⟨y, hy⟩ := execute_rounds (m := m) (f := f) id hp hm hlength [] hitems 0 .null (extra + 3)
  rw [List.length_nil, Nat.zero_add, Int64.zero_add] at hy
  rw [execute_start hp hm, hy, execute_refused hp hm (by omega) hv hmoved hint]

end

/-! ### Calls -/

/-- Where all items are integers, dropping the others drops nothing. -/
theorem eq_ints {items : List Value} (h : ∀ v ∈ items, v.int?.isNone = false) :
    items = (items.filterMap Value.int?).map .int := by
  induction items with
  | nil => rfl
  | cons v rest ih =>
    obtain ⟨hv, hrest⟩ := List.forall_mem_cons.1 h
    cases v with
    | int c => exact congrArg (Value.int c :: ·) (ih hrest)
    | _ => cases hv

/-- Any list is an argument of the block. -/
theorem admits_list (id : BufferId) (items : List Value) :
    Demo.sumSignature.Admits [.list id items] := by
  refine ⟨(by decide : Demo.sumSignature.mandatory.length ≤ 1), fun _ => Nat.le_refl 1, ?_⟩
  rintro x hx
  obtain rfl := List.mem_singleton.1 hx
  rintro _ ⟨⟩
  exact .inr ⟨0, .list id items, 0, rfl⟩

/-- A list is not changed when it is cast. -/
theorem eq_of_takes {id : BufferId} {items ws : List Value}
    (h : List.Forall₂ (fun x w => Demo.sumSignature.Takes x.2 x.1 w) [Value.list id items].zipIdx ws) :
    ws = [.list id items] := by
  obtain _ | ⟨⟨_, _, h₀⟩, _ | _⟩ := h
  obtain ⟨rfl, -⟩ := Prod.mk.inj (Except.ok.inj h₀)
  rfl

section

variable {w : World} {config : StackConfig} {block : BlockId} {b : Block}

/-- A machine with a new stack. -/
def blank (w : World) (config : StackConfig) (printed : String) : Machine :=
  ⟨w, .new config, printed⟩

/-- The block is pushed with its list. -/
theorem push_sum (hworld : w.Derived) (hb : w.blocks[block]? = some b) (hsum : Sums b)
    (hmax : 0 < config.maxFrames) (id : BufferId) (items : List Value) (printed : String) :
    ∃ i p w', Compiled p ∧ w'.blocks = w.blocks ∧ w'.programs.indices[block]? = some i ∧
      w'.slotProgram? i = some p ∧ push block [.list id items] (blank w config printed) =
        (.ok (), summing (blank w' config printed) (rootFrame block i p [.list id items] .null) 0
          #[.list id items, .null, .null, .null]) := by
  obtain ⟨i, w', ctx, supply, d, hcompile, hindex, hd, hslot⟩ := hworld.compile_ok hb
    fun ctx supply => (hsum.lower_ok ctx supply).imp fun _ h => h.1
  have honly := World.compile_only block w
  rw [hcompile] at honly
  have hp := hsum.compiled hd i
  generalize World.finish b i d = p at hslot hp
  obtain ⟨-, ws, supply', htakes, henter⟩ | ⟨hnot, -⟩ :=
    enter_compiled_cases (m := blank w config printed) hmax hcompile (World.program_of_slot hslot)
      [.list id items] {}
  · rw [hp.signature] at htakes
    obtain rfl := eq_of_takes htakes
    refine ⟨i, p, { w' with supply := supply' }, hp, honly.blocks, hindex, hslot, ?_⟩
    have hregisters : (enteredFrame block i p (blank w config printed).stack {} [.list id items]).registers =
        #[.list id items, .null, .null, .null] := by
      rw [enteredFrame, hp.registers]
      rfl
    rw [push_of_ready rfl, henter, summing, ← hregisters]
    rfl
  · rw [hp.signature] at hnot
    exact absurd (admits_list id items) hnot

/-- **The counted loop sums every list.** A new stack with room for a frame calls a block that sums a list,
    compiled or not, with a list that has no moved items and, as every list that fits into memory, less than
    `2 ^ 63` of them. The call ends, after at most five instructions for each item and four more. If all items
    are integers its only output is their sum, which may wrap around. Otherwise it fails with a type mismatch
    that names the type of the first item that is no integer, and the error is located at the addition. -/
theorem call_sums (libraries : Libraries) (hworld : w.Derived) (hb : w.blocks[block]? = some b)
    (hsum : Sums b) (hmax : 0 < config.maxFrames) (items : List Value) (hmoved : ∀ v ∈ items, v.isMoved = false)
    (hlength : items.length < 2 ^ 63) (fuel : Nat) (hfuel : 5 * items.length + 4 ≤ fuel) (id : BufferId)
    (printed : String) :
    match items.find? (·.int?.isNone) with
    | none => ∃ m', call fuel block [.list id items] libraries (blank w config printed) =
        (.ok [.int (total (items.filterMap Value.int?))], m') ∧
      m'.stack.frames = [] ∧ m'.stack.phase = .ready
    | some v => ∃ i p m', call fuel block [.list id items] libraries (blank w config printed) =
        (.error (.raised (.typeMismatch "int" v.typeName)), m') ∧
      m'.world.programs.indices[block]? = some i ∧ m'.world.slotProgram? i = some p ∧
      p.instructionAt 15 = .ok (.binary .addInt 2 2 3, 19) ∧
      m'.stack.error = some ⟨.typeMismatch "int" v.typeName, 0, some block, ⟨15, p.nodeAt 15⟩⟩ := by
  obtain ⟨i, p, w', hp, hblocks, hindex, hslot, hpush⟩ :=
    push_sum hworld hb hsum hmax id items printed
  have hheld : (rootFrame block i p [.list id items] .null).Held w' := ⟨p, hslot, rfl⟩
  have hrun := run_of_held libraries (p := p) fuel
    (m := summing (blank w' config printed) (rootFrame block i p [.list id items] .null) 0
      #[.list id items, .null, .null, .null])
    rfl (List.forall_mem_singleton.2 hheld) ⟨_, _, rfl, hslot, rfl⟩
  cases hfound : items.find? (·.int?.isNone) with
  | none =>
    have hitems := eq_ints fun v hv => Bool.eq_false_iff.2 (List.find?_eq_none.1 hfound v hv)
    obtain ⟨y, hexecute⟩ := execute_ints (m := (blank w' config printed).started)
      (f := rootFrame block i p [.list id items] .null) id hp rfl rfl rfl hitems hlength hfuel
    have hcall := call_finished hpush (hrun.trans (congrArg ended hexecute))
    have hb' : w'.blocks[block]? = some b := by rw [hblocks, hb]
    rw [outputs_returned hb' hsum] at hcall
    exact ⟨_, hcall, rfl, rfl⟩
  | some v =>
    obtain ⟨hint, before, rest, hitems, hbefore⟩ := List.find?_eq_some_iff_append.1 hfound
    have hints := eq_ints fun u hu => by simpa using hbefore u hu
    have hexecute := execute_other (.idle libraries) (m := (blank w' config printed).started)
      (f := rootFrame block i p [.list id items] .null) id hp rfl (hints ▸ hitems)
      (hmoved v (by simp [hitems])) (Option.isNone_iff_eq_none.1 hint) hlength hfuel
    have hfailed := hrun.trans (congrArg ended hexecute)
    rw [ended, Failing.bind_apply, recordError_apply _ rfl hslot] at hfailed
    exact ⟨i, p, _, call_failed hpush hfailed, hindex, hslot,
      hp.instructionAt 15 _ 19 (by decide +kernel), rfl⟩

end

/-- A world with a block that sums a list. -/
def world (body : List Directive) : World :=
  (World.addBlock {} Demo.sumSignature body).2

def block (body : List Directive) : Block :=
  ⟨0, 0, Demo.sumSignature, body⟩

/-- The block of the demo sums. -/
theorem sums_marked : Sums (block Demo.sumBody) :=
  ⟨rfl, rfl⟩

/-- A block with the same instructions, given one by one, sums as well. -/
theorem sums_plain : Sums (block (calls.map .code)) :=
  ⟨rfl, rfl⟩

/-- A sum that wraps around, and a list with an item that cannot be added. -/
theorem call_sums_wrapped_and_refused :
    ((world (calls.map .code)).Derived ∧ Sums (block (calls.map .code)) ∧
      ∃ m', call 14 0 [.list 0 [.int Int64.maxValue, .int 1]] .simple
        (blank (world (calls.map .code)) {} "") = (.ok [.int Int64.minValue], m')) ∧
    ((world Demo.sumBody).Derived ∧ Sums (block Demo.sumBody) ∧
      ∃ i p m', call 24 0 [.list 0 [.int 5, .str 1 "6", .int 7, .null]] .simple
          (blank (world Demo.sumBody) {} "") = (.error (.raised (.typeMismatch "int" "string")), m') ∧
        m'.world.programs.indices[0]? = some i ∧ m'.world.slotProgram? i = some p ∧
        p.instructionAt 15 = .ok (.binary .addInt 2 2 3, 19) ∧
        m'.stack.error = some ⟨.typeMismatch "int" "string", 0, some 0, ⟨15, some 2⟩⟩) := by
  have hderived : ∀ body, (world body).Derived := fun _ => .of_empty rfl
  have hblock : ∀ body, (world body).blocks[0]? = some (block body) := fun _ => rfl
  have hroom : 0 < ({} : StackConfig).maxFrames := by decide
  refine ⟨⟨hderived _, sums_plain, ?_⟩, hderived _, sums_marked, ?_⟩
  · obtain ⟨m', hcall, -⟩ := call_sums .simple (hderived _) (hblock _) sums_plain hroom
      [.int Int64.maxValue, .int 1] (by decide) (by decide) 14 (by decide) 0 ""
    exact ⟨m', hcall⟩
  · have herror : (call 24 0 [.list 0 [.int 5, .str 1 "6", .int 7, .null]] .simple
        (blank (world Demo.sumBody) {} "")).2.stack.error =
          some ⟨.typeMismatch "int" "string", 0, some 0, ⟨15, some 2⟩⟩ := by
      decide +kernel
    obtain ⟨i, p, m', hcall, hindex, hslot, hadd, -⟩ := call_sums .simple (hderived _) (hblock _) sums_marked hroom
      [.int 5, .str 1 "6", .int 7, .null] (by decide) (by decide) 24 (by decide) 0 ""
    rw [hcall] at herror
    exact ⟨i, p, m', hcall, hindex, hslot, hadd, herror⟩

end Summing

end BlockMachine

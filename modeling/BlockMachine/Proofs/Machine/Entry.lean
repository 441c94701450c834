import BlockMachine.Proofs.Machine.Calls
import BlockMachine.Proofs.Machine.Patience
import Mathlib.Data.List.DropRight

namespace BlockMachine

/-!
# Entering a block

A block is entered with the arguments that its signature admits, and the new frame holds them in its first
registers.

* `Signature.Admits` says which arguments these are, and `Signature.Takes` what becomes of each of them;
* `Frame.recycled` are registers in a vector that another frame had before, and `Frame.recycled_eq` says
  that nothing of it is left;
* `Machine.enter_accepts` is about entering any block with any arguments.
-/

/-! ### Which arguments a signature admits -/

/-- A type has a value for this one. -/
def Ty.Admits (ty : Ty) (v : Value) : Prop :=
  ∃ n w n', ty.cast v n = .ok (w, n')

/-- Whether a value can be cast does not depend on the buffer numbers in use. -/
theorem Ty.Admits.cast_ok {ty : Ty} {v : Value} (h : ty.Admits v) (n : BufferId) :
    ∃ w n', ty.cast v n = .ok (w, n') := by
  obtain ⟨n₀, w₀, n₀', h₀⟩ := h
  -- both casts are compared with a cast of the value without numbers
  obtain ⟨-, e₀, -, herror⟩ | ⟨w, -, supply, -, herased, -⟩ := ty.cast_cases v 0 n₀
  · exact nomatch h₀.symm.trans herror
  obtain ⟨e, -, herror, -⟩ | ⟨-, w', -, n', -, hok, -⟩ := ty.cast_cases v 0 n
  · exact nomatch herased.symm.trans herror
  · exact ⟨w', n', hok⟩

namespace Signature

/-- The inputs that a call must supply: the repeated input of a variadic block may be left out, and then all
    optional inputs at the end. -/
def mandatory (s : Signature) : List Placeholder :=
  (if s.isVariadic then s.inputs.dropLast else s.inputs).rdropWhile (·.isOptional)

/-- The input that argument `i` is for. The last input of a variadic block repeats. -/
def inputFor (s : Signature) (i : Nat) : Option Placeholder :=
  s.inputs[if s.isVariadic then min i (s.inputs.length - 1) else i]?

/-- An argument fits an input if it is null and the input is optional, or if it can be cast. -/
def Fits (s : Signature) (i : Nat) (v : Value) : Prop :=
  ∀ p, s.inputFor i = some p → (v.isNull ∧ p.isOptional) ∨ p.type.Admits v

/-- What argument `i` becomes: null stays for an optional input, and where there is no input, everything
    stays; other arguments are cast. -/
def Takes (s : Signature) (i : Nat) (v w : Value) : Prop :=
  match s.inputFor i with
  | none => w = v
  | some p => if v.isNull && p.isOptional then w = .null else ∃ n n', p.type.cast v n = .ok (w, n')

/-- The arguments of a call are as many as the signature says, and each fits its input. -/
structure Admits (s : Signature) (args : List Value) : Prop where
  enough : s.mandatory.length ≤ args.length
  room : s.isVariadic = false → args.length ≤ s.inputs.length
  fits : ∀ x ∈ args.zipIdx, s.Fits x.2 x.1

theorem requiredInputs_eq (s : Signature) : s.requiredInputs = s.mandatory.length := by
  simp only [requiredInputs, mandatory, List.rdropWhile, List.length_reverse]

/-- Arguments are refused for their number if they are fewer than the mandatory inputs, or more than all
    inputs. -/
theorem miscounted_iff (s : Signature) {n : Nat} :
    (n < s.requiredInputs || (s.inputs.length < n && !s.isVariadic)) = true ↔
      ¬(s.mandatory.length ≤ n ∧ (s.isVariadic = false → n ≤ s.inputs.length)) := by
  rw [s.requiredInputs_eq]
  cases s.isVariadic with
  | true => simp
  | false =>
    simp
    omega

theorem placeholder?_eq (s : Signature) (i : Nat) : s.placeholder? i = s.inputFor i := by
  rw [placeholder?, inputFor]
  cases hi : s.inputs[i]? with
  | some p =>
    have hlt := (List.getElem?_eq_some_iff.1 hi).1
    have hindex : (if s.isVariadic then min i (s.inputs.length - 1) else i) = i := by
      split <;> omega
    rw [hindex, hi]
  | none =>
    have hle := List.getElem?_eq_none_iff.1 hi
    cases s.isVariadic with
    | true =>
      have hlast : min i (s.inputs.length - 1) = s.inputs.length - 1 := by omega
      simp [hlast, List.getLast?_eq_getElem?]
    | false => simp [hi]

/-- All inputs have registers. -/
theorem length_inputs_le (s : Signature) : s.inputs.length ≤ s.registerCount := by
  have hfold : ∀ (outputs : List Output) (n : Nat),
      n ≤ outputs.foldl (fun n o => max n (o.register.toNat + 1)) n := by
    intro outputs
    induction outputs with
    | nil => exact fun n => Nat.le_refl n
    | cons o rest ih => exact fun n => Nat.le_trans (Nat.le_max_left ..) (ih _)
  exact Nat.le_trans (Nat.le_max_right ..) (hfold s.outputs _)

/-- All registers of a block without inputs can be addressed. -/
theorem registerCount_le {s : Signature} (h : s.inputs = []) : s.registerCount ≤ 65536 := by
  have hfold : ∀ (outputs : List Output) (n : Nat), n ≤ 65536 →
      outputs.foldl (fun n o => max n (o.register.toNat + 1)) n ≤ 65536 := by
    intro outputs
    induction outputs with
    | nil => exact fun n hn => hn
    | cons o outputs ih => exact fun n hn => ih _ (Nat.max_le.2 ⟨hn, o.register.toNat_lt⟩)
  refine hfold _ _ ?_
  rw [h]
  exact Nat.max_le.2 ⟨Nat.le_of_lt s.locals.toNat_lt, Nat.zero_le _⟩

end Signature

/-- The program of a block that was compiled is fetched, and declares what the block does. -/
theorem World.Derived.compiled {w w' : World} (h : w.Derived) {block : BlockId} {index : Nat} {b : Block}
    (hb : w.blocks[block]? = some b) (hcompile : World.compile block w = (.ok index, w')) :
    ∃ p, World.program index w' = (.ok p, w') ∧ p.signature = b.signature ∧
      p.registers = b.signature.registerCount := by
  obtain ⟨p, hp⟩ := (h.filed.compile block).2 index (by rw [hcompile])
  have hderived := h.compile block
  have honly := World.compile_only block w
  rw [hcompile] at hp hderived honly
  have hprogram := World.program_of_slot hp
  obtain ⟨-, -, hindex, -⟩ := h.filed.fetched hcompile hprogram
  obtain ⟨slot, hslot, rfl⟩ := (hderived.indexed block index).1 hindex
  have hfiled : slot.program = some p := (World.slotProgram?_of_slot hslot).symm.trans hp
  obtain ⟨b', -, -, d, hb', -, rfl⟩ := hderived.lowered index slot p hslot hfiled
  obtain rfl := Option.some.inj (hb.symm.trans (honly.blocks ▸ hb'))
  exact ⟨_, hprogram, rfl, rfl⟩

/-! ### Registers that were used before -/

namespace Frame

/-- The registers of a new frame in a vector that was used before: it is emptied and filled with null, and
    the values are written to its front. -/
def recycled (used : Array Value) (values : List Value) (count : Nat) : Array Value :=
  values.zipIdx.foldl (fun rs (v, i) => rs.setIfInBounds i v) (resized (used.take 0) count)

/-- The registers of a new frame are its inputs, and null behind them. -/
theorem resized_inputs {values : List Value} {count : Nat} (h : values.length ≤ count) :
    resized values.toArray count = (values ++ List.replicate (count - values.length) Value.null).toArray := by
  apply Array.toList_inj.1
  simp only [resized, Array.toList_append, Array.take_eq_extract, Array.toList_extract, List.size_toArray,
    List.extract_eq_take_drop, List.drop_zero, Nat.sub_zero, Array.toList_replicate]
  rw [List.take_of_length_le h]

/-- The inputs of a new frame from one on are the values from it on. -/
theorem extract_inputs {values : List Value} {count first : Nat} (h : values.length ≤ count) :
    ((resized values.toArray count).extract first (max values.length first)).toList =
      values.drop first := by
  rw [resized_inputs h, Array.toList_extract, List.extract_eq_take_drop]
  by_cases hfirst : first ≤ values.length
  · have hlength : max values.length first - first = (values.drop first).length := by
      rw [List.length_drop]
      omega
    rw [List.drop_append_of_le_length hfirst, hlength, List.take_left]
  · have hnone : max values.length first - first = 0 := by omega
    rw [hnone, List.take_zero, List.drop_of_length_le (by omega)]

/-- Nothing is left of what was in the vector. -/
theorem recycled_eq (used : Array Value) {values : List Value} {count : Nat} (h : values.length ≤ count) :
    recycled used values count = resized values.toArray count := by
  have hempty : used.take 0 = #[] := by simp
  apply Array.ext_getElem?
  intro j
  rw [recycled, hempty, Machine.getElem?_written _ _ _ _ (by simpa [size_resized] using h),
    Machine.getElem?_resized, Machine.getElem?_resized]
  by_cases hj : j < values.length
  · have hcount : j < count := by omega
    simp [hj, hcount]
  · simp [hj]

end Frame

namespace Machine

variable {m : Machine}

/-! ### Casting the arguments -/

theorem cast_apply (ty : Ty) (v : Value) (m : Machine) : cast ty v m =
    match ty.cast v m.world.supply with
    | .ok (w, supply) => (.ok w, m.withSupply supply)
    | .error e => (.error (.raised (.ofCast e)), m) := by
  rw [cast, Failing.bind_apply, tryCast_apply]
  rcases ty.cast v m.world.supply with _ | ⟨_, _⟩ <;> rfl

/-- The cast of one argument. -/
def castArgument (s : Signature) (i : Nat) (v : Value) : Action Value :=
  match s.inputFor i with
  | some p => if v.isNull && p.isOptional then pure v else cast p.type v
  | none => pure v

theorem castArguments_cons (s : Signature) (i : Nat) (v : Value) (rest : List Value) :
    castArguments s i (v :: rest) = (do
      let w ← castArgument s i v
      return w :: (← castArguments s (i + 1) rest)) := by
  rw [castArguments, s.placeholder?_eq]
  unfold castArgument
  cases s.inputFor i with
  | none => rfl
  | some p =>
    dsimp only
    split <;> rfl

/-- An argument fits and is cast, or it does not fit. -/
theorem castArgument_cases (s : Signature) (i : Nat) (v : Value) (m : Machine) :
    (∃ w supply, castArgument s i v m = (.ok w, m.withSupply supply) ∧ s.Fits i v ∧ s.Takes i v w) ∨
    ∃ e, castArgument s i v m = (.error e, m) ∧ ¬s.Fits i v := by
  unfold castArgument Signature.Fits Signature.Takes
  cases s.inputFor i with
  | none => exact .inl ⟨v, m.world.supply, rfl, nofun, rfl⟩
  | some p =>
    by_cases hnull : (v.isNull && p.isOptional) = true
    · have hv : v = .null := by
        cases v <;> first | rfl | exact nomatch hnull
      simp only [if_pos hnull]
      refine .inl ⟨v, m.world.supply, rfl, ?_, hv⟩
      rintro _ ⟨⟩
      exact .inl (by simpa using hnull)
    · simp only [if_neg hnull, cast_apply]
      cases hcast : p.type.cast v m.world.supply with
      | ok result =>
        refine .inl ⟨_, _, rfl, ?_, _, _, hcast⟩
        rintro _ ⟨⟩
        exact .inr ⟨_, _, _, hcast⟩
      | error e =>
        refine .inr ⟨_, rfl, fun hfits => ?_⟩
        obtain hkept | hadmits := hfits p rfl
        · simp [hkept] at hnull
        · obtain ⟨w, n, hok⟩ := hadmits.cast_ok m.world.supply
          exact nomatch hok.symm.trans hcast

/-- All arguments fit and are cast, or one of them does not fit. -/
theorem castArguments_cases (s : Signature) (i : Nat) (args : List Value) (m : Machine) :
    (∃ ws supply, castArguments s i args m = (.ok ws, m.withSupply supply) ∧
      (∀ x ∈ args.zipIdx i, s.Fits x.2 x.1) ∧
      List.Forall₂ (fun x w => s.Takes x.2 x.1 w) (args.zipIdx i) ws) ∨
    ∃ e m', castArguments s i args m = (.error e, m') ∧ ¬∀ x ∈ args.zipIdx i, s.Fits x.2 x.1 := by
  induction args generalizing i m with
  | nil => exact .inl ⟨[], m.world.supply, rfl, List.forall_mem_nil _, .nil⟩
  | cons v rest ih =>
    simp only [castArguments_cons, Failing.bind_apply, List.zipIdx_cons, List.forall_mem_cons]
    obtain ⟨w, supply, hw, hfits, htakes⟩ | ⟨e, he, hfits⟩ := castArgument_cases s i v m
    · rw [hw]
      dsimp only
      obtain ⟨ws, supply', hws, hall, hforall⟩ | ⟨e, m', he, hnot⟩ := ih (i + 1) (m.withSupply supply)
      · rw [hws]
        exact .inl ⟨w :: ws, supply', rfl, ⟨hfits, hall⟩, .cons htakes hforall⟩
      · rw [he]
        exact .inr ⟨e, m', rfl, fun h => hnot h.2⟩
    · rw [he]
      exact .inr ⟨e, m, rfl, fun h => hfits h.1⟩

/-! ### Entering -/

/-- The frame of a block that is entered, once its arguments are cast. -/
def enteredFrame (block : BlockId) (index : Nat) (p : Program) (s : Stack) (link : Link)
    (values : List Value) : Frame where
  block := block
  program := index
  version := p.version
  registers := Frame.resized values.toArray (max p.registers values.length)
  pc := ⟨0, p.nodeAt 0⟩
  parent := if s.depth = 0 then none else some (s.depth - 1)
  key := link.key
  incoming := incomingFor s link.key
  bindings := link.bindings
  inputCount := values.length
  returnTo := link.returnTo

/-- Entering a block that is compiled: its arguments are counted and cast, and its frame is pushed. -/
theorem enter_compiled {block : BlockId} {index : Nat} {p : Program} {w : World}
    (hroom : m.stack.depth < m.stack.config.maxFrames)
    (hcompile : World.compile block m.world = (.ok index, w)) (hprogram : World.program index w = (.ok p, w))
    (args : List Value) (link : Link) : enter block args link m =
      (do
        if args.length < p.signature.requiredInputs ||
            (p.signature.inputs.length < args.length && !p.signature.isVariadic) then
          raise (.arityMismatch p.signature.name p.signature.inputs.length args.length)
        let ws ← castArguments p.signature 0 args
        let f := { enteredFrame block index p m.stack link args with
          registers := Frame.resized ws.toArray (max p.registers args.length) }
        modifyStack fun s => { s with frames := f :: s.frames }) { m with world := w } := by
  simp only [enter, getStack, Failing.bind_apply, Failing.get_apply, Failing.pure_apply,
    if_neg (Nat.not_le.2 hroom), onWorld_apply, hcompile, hprogram]
  rfl

/-- A block is entered as if it had been compiled before. -/
theorem enter_of_compile {block : BlockId} {args : List Value} {link : Link} {i : Nat} {w : World}
    (hroom : m.stack.depth < m.stack.config.maxFrames) (hcompile : World.compile block m.world = (.ok i, w))
    (hagain : World.compile block w = (.ok i, w)) :
    enter block args link m = enter block args link { m with world := w } := by
  simp only [enter, getStack, Failing.bind_apply, Failing.get_apply, Failing.pure_apply,
    if_neg (Nat.not_le.2 hroom), onWorld_apply, hcompile, hagain]

/-- A block that is compiled is entered with the arguments that its program's signature admits, and with
    no others. -/
theorem enter_compiled_cases {block : BlockId} {index : Nat} {p : Program} {w : World}
    (hroom : m.stack.depth < m.stack.config.maxFrames)
    (hcompile : World.compile block m.world = (.ok index, w)) (hprogram : World.program index w = (.ok p, w))
    (args : List Value) (link : Link) :
    (p.signature.Admits args ∧ ∃ ws supply,
      List.Forall₂ (fun x w => p.signature.Takes x.2 x.1 w) args.zipIdx ws ∧
      enter block args link m = (.ok (), ({ m with world := w }.withSupply supply).withFrames
        (enteredFrame block index p m.stack link ws :: m.stack.frames))) ∨
    (¬p.signature.Admits args ∧ ∃ e m', enter block args link m = (.error e, m')) := by
  rw [enter_compiled hroom hcompile hprogram]
  split
  next hrefused => exact .inr ⟨fun h => p.signature.miscounted_iff.1 hrefused ⟨h.enough, h.room⟩, _, _, rfl⟩
  next hnot =>
    obtain ⟨henough, hall⟩ := not_not.1 (mt p.signature.miscounted_iff.2 hnot)
    simp only [Failing.bind_apply]
    obtain ⟨ws, supply, hws, hfits, htakes⟩ | ⟨e, m', he, hfits⟩ :=
      castArguments_cases p.signature 0 args { m with world := w }
    · have hlength : ws.length = args.length := by
        simpa using htakes.length_eq.symm
      rw [hws]
      refine .inl ⟨⟨henough, hall, hfits⟩, ws, supply, htakes, ?_⟩
      simp only [enteredFrame, hlength]
      rfl
    · rw [he]
      exact .inr ⟨fun h => hfits h.fits, e, m', rfl⟩

/-! ### Collecting the repeated inputs -/

/-- Registers whose values from `first` on, up to where inputs were, are in a list. -/
def collected (f : Frame) (first : Nat) (list : Value) : Array Value :=
  (f.registers.mapIdx fun i v => if first ≤ i && i < max f.inputCount first then .null else v).setIfInBounds
    first list

theorem collectVarargs_apply {f : Frame} {rest : List Frame} {first : Reg}
    (hframes : m.stack.frames = f :: rest) (hfirst : first.toNat < f.registers.size)
    (hinputs : f.inputCount ≤ f.registers.size) :
    collectVarargs first m = (.ok (), (m.withSupply (m.world.supply + 1)).withFrames
      ({ f with registers := collected f first.toNat (.list m.world.supply
        (f.registers.extract first.toNat (max f.inputCount first.toNat)).toList) } :: rest)) := by
  have hstop : ¬f.registers.size < max f.inputCount first.toNat := by omega
  rw [collectVarargs, Failing.bind_apply, active_apply hframes]
  dsimp only
  rw [if_neg (Nat.not_le.2 hfirst), if_neg hstop]
  have hframes' : (m.withSupply (m.world.supply + 1)).stack.frames = f :: rest := hframes
  exact setActive_apply hframes' _

/-- The list takes the place of the first register, null that of the others. -/
theorem getElem?_collected (f : Frame) {first : Nat} (list : Value) (hfirst : first < f.registers.size)
    (hinputs : f.inputCount ≤ f.registers.size) (j : Nat) :
    (collected f first list)[j]? =
      if j = first then some list
      else if first < j ∧ j < f.inputCount then some .null else f.registers[j]? := by
  rw [collected]
  by_cases hj : j = first
  · subst hj
    rw [if_pos rfl, Array.getElem?_setIfInBounds_self_of_lt (by simpa using hfirst)]
  · rw [if_neg hj, Array.getElem?_setIfInBounds_ne (Ne.symm hj), Array.getElem?_mapIdx]
    have hcleared : (decide (first ≤ j) && decide (j < max f.inputCount first)) = true ↔
        first < j ∧ j < f.inputCount := by
      rw [Bool.and_eq_true, decide_eq_true_eq, decide_eq_true_eq]
      omega
    simp only [hcleared]
    split
    next hinput =>
      rw [Array.getElem?_eq_getElem (Nat.lt_of_lt_of_le hinput.2 hinputs)]
      rfl
    next => rw [Option.map_id']

/-- The instruction that collects inputs, in a frame that was entered with values: the list of the values
    from `first` on gets into `first`, and null into the registers of the others. -/
theorem step_varargsToList {f : Frame} {ws : List Value} {count : Nat} {first : Reg}
    (hregisters : f.registers = Frame.resized ws.toArray count) (hinputs : f.inputCount = ws.length)
    (hall : ws.length ≤ count) (hfirst : first.toNat < count) (rest : List Frame) (host : Embedder)
    (resume : Action Outcome) (program : Program) (next : Nat) :
    ∃ m' rs id, step host resume program next (.varargsToList first) (m.advanced f rest next) =
        (.ok .next, m') ∧
      m'.stack.frames = { f with registers := rs, pc := { f.pc with offset := next } } :: rest ∧
      rs[first.toNat]? = some (.list id (ws.drop first.toNat)) ∧
      ∀ j, j ≠ first.toNat → rs[j]? =
        if first.toNat < j ∧ j < ws.length then some .null else f.registers[j]? := by
  let g : Frame := { f with pc := { f.pc with offset := next } }
  have hsize : g.registers.size = count := by
    rw [show g.registers = f.registers from rfl, hregisters, Frame.size_resized]
  have hcount : g.inputCount = ws.length := hinputs
  have hroom : first.toNat < g.registers.size := hsize ▸ hfirst
  have hbound : g.inputCount ≤ g.registers.size := by
    rw [hsize, hcount]
    exact hall
  have hlist : (g.registers.extract first.toNat (max g.inputCount first.toNat)).toList =
      ws.drop first.toNat := by
    rw [hcount, show g.registers = f.registers from rfl, hregisters, Frame.extract_inputs hall]
  have hcollect := collectVarargs_apply (m := m.advanced f rest next) (f := g) rfl hroom hbound
  rw [hlist] at hcollect
  rw [step.eq_3 _ _ _ _ _ (by simp) (by simp), Failing.bind_apply, perform, hcollect]
  refine ⟨_, _, m.world.supply, rfl, rfl, ?_, fun j hj => ?_⟩
  · exact (getElem?_collected g _ hroom hbound _).trans (if_pos rfl)
  · rw [← hcount]
    exact (getElem?_collected g _ hroom hbound j).trans (if_neg hj)

/-- **A block is entered with what its signature admits.** On a stack that has room, a block that compiles
    is entered just with the arguments that its signature admits; with others nothing is pushed. The frame
    that is pushed holds the arguments, each cast for its input, in its first registers, and null in all
    others, no matter what was in the vector of the registers before. If the first instruction collects the
    arguments from the last input on, then they are in a list in the register of the last input, and null is
    in the registers of the others. -/
theorem enter_accepts {block : BlockId} {b : Block} {index : Nat} {w : World} (hworld : m.world.Derived)
    (hroom : m.stack.depth < m.stack.config.maxFrames) (hb : m.world.blocks[block]? = some b)
    (hcompile : World.compile block m.world = (.ok index, w)) (args : List Value) (link : Link) :
    ((enter block args link m).1 = .ok () ↔ b.signature.Admits args) ∧
    ((enter block args link m).1 ≠ .ok () → (enter block args link m).2.stack = m.stack) ∧
    ((enter block args link m).1 = .ok () → ∃ f ws,
      (enter block args link m).2.stack = { m.stack with frames := f :: m.stack.frames } ∧
      f.block = block ∧ f.pc.offset = 0 ∧ f.HangsOff m.stack.depth link ∧ f.inputCount = args.length ∧
      List.Forall₂ (fun x w => b.signature.Takes x.2 x.1 w) args.zipIdx ws ∧
      f.registers =
        (ws ++ List.replicate (max b.signature.registerCount args.length - args.length) Value.null).toArray ∧
      (∀ used, Frame.recycled used ws (max b.signature.registerCount args.length) = f.registers) ∧
      ∀ (last : Reg), b.signature.inputs.length = last.toNat + 1 →
        ∀ (host : Embedder) (resume : Action Outcome) (program : Program) (next : Nat), ∃ m' rs id,
          step host resume program next (.varargsToList last)
            ((enter block args link m).2.advanced f m.stack.frames next) = (.ok .next, m') ∧
          m'.stack.frames =
            { f with registers := rs, pc := { f.pc with offset := next } } :: m.stack.frames ∧
          rs[last.toNat]? = some (.list id (ws.drop last.toNat)) ∧
          ∀ j, j ≠ last.toNat → rs[j]? =
            if last.toNat < j ∧ j < args.length then some .null else f.registers[j]?) := by
  obtain ⟨p, hprogram, hsignature, hregisters⟩ := hworld.compiled hb hcompile
  have hpushes := enter_pushes block args link m
  -- the arguments are admitted and a frame is entered, or they are not and nothing is pushed
  obtain ⟨hadmits, ws, supply, htakes, hentered⟩ | ⟨hadmits, e, m', he⟩ :=
    enter_compiled_cases hroom hcompile hprogram args link
  · rw [hsignature] at hadmits htakes
    rw [hentered] at hpushes ⊢
    refine ⟨iff_of_true rfl hadmits, fun h => absurd rfl h, fun _ => ?_⟩
    have hlength : ws.length = args.length := by
      simpa using htakes.length_eq.symm
    have hall : ws.length ≤ max b.signature.registerCount ws.length := Nat.le_max_right ..
    -- the registers are the arguments as they were cast, followed by nulls
    have hfilled : (enteredFrame block index p m.stack link ws).registers =
        Frame.resized ws.toArray (max b.signature.registerCount ws.length) := by
      rw [enteredFrame, hregisters]
    have hinputs : ws.length ≤ (enteredFrame block index p m.stack link ws).registers.size := by
      rw [hfilled, Frame.size_resized]
      exact hall
    rw [← hlength]
    refine ⟨enteredFrame block index p m.stack link ws, ws, rfl, rfl, rfl, ⟨rfl, rfl, rfl, rfl, rfl, hinputs⟩,
      rfl, htakes, ?_, fun used => ?_, fun last hlast host resume program next => ?_⟩
    · rw [hfilled, Frame.resized_inputs hall]
    · rw [hfilled, Frame.recycled_eq used hall]
    · have hregister := b.signature.length_inputs_le
      exact step_varargsToList hfilled rfl hall (by omega) m.stack.frames host resume program next
  · rw [hsignature] at hadmits
    rw [he] at hpushes ⊢
    refine ⟨iff_of_false nofun hadmits, fun _ => ?_, nofun⟩
    cases hpushes with
    | refused h => exact h

end Machine

/-! ### A block with a repeated input -/

namespace Repeated

open Machine

def signature : Signature where
  name := "total"
  inputs := [⟨"first", .basic .int, false⟩, ⟨"rest", .basic .int, true⟩]
  isVariadic := true
  outputs := [⟨⟨"rest", .basic .list, false⟩, 1⟩]

def block : Block :=
  ⟨0, 0, signature, [.code (.emit (.varargsToList 1)), .code (.emit .ret)]⟩

/-- What the body of the block is lowered to. -/
def draft (supply : BufferId) : Draft :=
  { assembler := (Assembler.emit {} (.varargsToList 1)).emit .ret, supply := supply }

def machine : Machine :=
  ⟨{ blocks := #[block], natives := {} }, .new {}, ""⟩

/-- Three arguments, of which one is left out. -/
def arguments : List Value :=
  [.int 1, .null, .int 4]

theorem admits_arguments : signature.Admits arguments := by
  refine ⟨by decide, nofun, ?_⟩
  have hint : ∀ i, (Ty.basic .int).Admits (.int i) := fun i => ⟨0, .int i, 0, rfl⟩
  simp [arguments, signature, Signature.Fits, Signature.inputFor, hint, Value.isNull]

/-- The arguments stay as they are. -/
theorem eq_of_takes {ws : List Value}
    (h : List.Forall₂ (fun x w => signature.Takes x.2 x.1 w) arguments.zipIdx ws) : ws = arguments := by
  obtain _ | ⟨⟨_, _, h₀⟩, _ | ⟨h₁, _ | ⟨⟨_, _, h₂⟩, _ | _⟩⟩⟩ := h
  obtain ⟨rfl, -⟩ := Prod.mk.inj (Except.ok.inj h₀)
  obtain rfl := h₁
  obtain ⟨rfl, -⟩ := Prod.mk.inj (Except.ok.inj h₂)
  rfl

/-- The block is entered with three arguments, but not without any, and the last two are collected. -/
theorem enter_accepts_repeated :
    machine.world.Derived ∧ machine.stack.depth < machine.stack.config.maxFrames ∧
    ∃ index w, World.compile 0 machine.world = (.ok index, w) ∧
      (enter 0 [] {} machine).2.stack = machine.stack ∧
      ∃ f, (enter 0 arguments {} machine).2.stack.frames = [f] ∧ f.inputCount = 3 ∧
        f.registers = #[.int 1, .null, .int 4] ∧
        ∃ m' rs id, step .idle (pure .paused) (World.finish block 0 (draft 0)) 2 (.varargsToList 1)
            ((enter 0 arguments {} machine).2.advanced f [] 2) = (.ok .next, m') ∧
          m'.stack.frames = [{ f with registers := rs, pc := { f.pc with offset := 2 } }] ∧
          rs[1]? = some (.list id [.null, .int 4]) ∧ rs[2]? = some .null := by
  have hderived : machine.world.Derived := .of_empty rfl
  have hroom : machine.stack.depth < machine.stack.config.maxFrames := by decide
  have hlower : ∀ ctx supply, ∃ d, lower ctx block.body supply = .ok d := fun _ supply => ⟨draft supply, rfl⟩
  have hblock : machine.world.blocks[0]? = some block := rfl
  obtain ⟨index, w, -, -, -, hcompile, -⟩ := hderived.compile_ok hblock hlower
  obtain ⟨hadmitted, hrefused, -⟩ := enter_accepts hderived hroom rfl hcompile [] {}
  obtain ⟨hok, -, hpushed⟩ := enter_accepts hderived hroom rfl hcompile arguments {}
  obtain ⟨f, ws, hstack, -, -, -, hcount, htakes, hregisters, -, hcollect⟩ :=
    hpushed (hok.2 admits_arguments)
  obtain rfl := eq_of_takes htakes
  obtain ⟨m', rs, id, hstep, hframes, hlist, hothers⟩ :=
    hcollect 1 rfl .idle (pure .paused) (World.finish block 0 (draft 0)) 2
  refine ⟨hderived, hroom, index, w, hcompile, ?_, f, congrArg Stack.frames hstack, hcount, hregisters, m', rs,
    id, hstep, hframes, hlist, hothers 2 (by decide)⟩
  -- one argument is mandatory
  exact hrefused fun h => absurd (hadmitted.1 h).enough (by decide)

end Repeated

end BlockMachine

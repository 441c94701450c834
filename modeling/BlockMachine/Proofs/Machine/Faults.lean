import BlockMachine.Proofs.Machine.Footing

namespace BlockMachine

/-!
# Computations that do not crash

Almost everything that goes wrong in a machine is an error of the program, which a host can look at. Only
one instruction reaches for registers without looking whether they are there.

* `Machine.Gentle` holds of computations that never crash;
* `Machine.step_crashed` says when an instruction does: it collects inputs in a frame that has fewer
  registers than it was entered with inputs.
-/

namespace Machine

variable {α β : Type} {a b : Action α} {f : α → Action β}

/-- A computation does not crash, whatever machine it starts from. -/
def Gentle (a : Action α) : Prop :=
  ∀ m, (a m).1 ≠ .error .crashed

namespace Gentle

/-- What always comes back with a value does not crash. -/
theorem of_ok {x : Machine → α} (h : ∀ m, (a m).1 = .ok (x m)) : Gentle a :=
  fun m hm => nomatch (h m).symm.trans hm

/-- A value is given back as it is. -/
@[simp]
theorem pure (x : α) : Gentle (pure x) :=
  of_ok fun _ => rfl

/-- An error of the program is no crash. -/
@[simp]
theorem raise (e : RuntimeError) : Gentle (raise e : Action α) := by
  intro m h
  have hraised : ((Machine.raise e : Action α) m).1 = .error (.raised e) := rfl
  exact nomatch hraised.symm.trans h

/-- A rule that the program broke is no crash. -/
@[simp]
theorem violate (v : Violation) : Gentle (violate v : Action α) :=
  raise _

/-- A value of another type than expected is no crash. -/
@[simp]
theorem mismatch (expected : String) (v : Value) : Gentle (mismatch expected v : Action α) :=
  raise _

/-- One computation after the other crashes only if one of them does. -/
@[simp]
theorem bind (ha : Gentle a) (hf : ∀ x, Gentle (f x)) : Gentle (a >>= f) := by
  intro m
  have hm := ha m
  rw [Failing.bind_apply]
  generalize a m = r at hm
  obtain ⟨e | x, m'⟩ := r
  · simpa using hm
  · exact hf x m'

/-- A value that is changed afterwards makes no difference. -/
@[simp]
theorem map (ha : Gentle a) (g : α → β) : Gentle (g <$> a) := by
  rw [map_eq_pure_bind]
  exact bind ha fun x => pure (g x)

/-- Whichever branch is taken, it does not crash. -/
@[simp]
theorem ite {c : Prop} [Decidable c] (ha : Gentle a) (hb : Gentle b) : Gentle (if c then a else b) := by
  split
  · exact ha
  · exact hb

/-- Looking at the machine cannot fail. -/
@[simp]
theorem get : Gentle get :=
  of_ok fun _ => rfl

/-- Looking at the stack cannot fail. -/
@[simp]
theorem getStack : Gentle getStack :=
  of_ok fun _ => rfl

/-- A change of the machine cannot fail. -/
@[simp]
theorem modify (g : Machine → Machine) : Gentle (modify g) :=
  of_ok fun _ => rfl

/-- A change of the stack cannot fail. -/
@[simp]
theorem modifyStack (g : Stack → Stack) : Gentle (modifyStack g) :=
  of_ok fun _ => rfl

/-- A change of the stack that has an answer cannot fail. -/
@[simp]
theorem onStack (g : Stack → α × Stack) : Gentle (onStack g) :=
  of_ok fun _ => rfl

/-- A change of the world that always has an answer does not fail. -/
@[simp]
theorem changeWorld (g : World → α × World) : Gentle (changeWorld g) :=
  of_ok fun _ => rfl

/-- Handles do not run out. -/
@[simp]
theorem allocate (g : Fresh α) : Gentle (allocate g) :=
  of_ok fun _ => rfl

/-- Errors of the world are given back here, as values. -/
@[simp]
theorem tryWorld (g : World.Action α) : Gentle (tryWorld g) :=
  of_ok fun _ => rfl

/-- Errors of the world are raised here, as errors of the program. -/
@[simp]
theorem onWorld (g : World.Action α) : Gentle (onWorld g) := by
  intro m
  simp only [Machine.onWorld, Failing.bind_apply, Failing.get_apply]
  rcases g m.world with ⟨e | x, w⟩
  · exact raise _ _
  · exact pure x _

/-- A cast that fails is given back as a value. -/
@[simp]
theorem tryCast (ty : Ty) (v : Value) : Gentle (tryCast ty v) := by
  intro m
  simp only [Machine.tryCast, Failing.bind_apply, Failing.get_apply]
  rcases ty.cast v m.world.supply with e | ⟨w, supply⟩
  · exact pure _ m
  · exact bind (of_ok fun _ => rfl) (fun _ => pure _) m

end Gentle

/-! ### Registers -/

/-- A cast that fails raises an error. -/
@[simp]
theorem cast_gentle (ty : Ty) (v : Value) : Gentle (cast ty v) :=
  .bind (.tryCast ty v) fun r => by cases r <;> simp

/-- Without an active frame there is an error. -/
@[simp]
theorem active_gentle : Gentle active :=
  .bind .getStack fun s => by split <;> simp

/-- Without an active frame nothing is changed. -/
@[simp]
theorem setActive_gentle (f : Frame) : Gentle (setActive f) := .modifyStack _

/-- A change of the active frame needs one, and raises an error otherwise. -/
@[simp]
theorem modifyActive_gentle (change : Frame → Frame) : Gentle (modifyActive change) := by
  simp [modifyActive]

/-- Registers beyond the last one are reported. -/
@[simp]
theorem rawRegister_gentle (r : Reg) : Gentle (rawRegister r) :=
  .bind active_gentle fun f => by split <;> simp

/-- Registers whose value was moved away are reported as well. -/
@[simp]
theorem register_gentle (r : Reg) : Gentle (register r) := by
  simp [register]

/-- Writing beyond the last register is reported. -/
@[simp]
theorem setRegister_gentle (r : Reg) (v : Value) : Gentle (setRegister r v) := by
  simp [setRegister]

/-- A register whose number would be too large is reported. -/
@[simp]
theorem offsetRegister_gentle (base : Reg) (n : Nat) : Gentle (offsetRegister base n) := by
  simp [offsetRegister]

/-- Arguments are read one after the other, as registers are. -/
@[simp]
theorem argumentsFrom_gentle (base : Reg) (start count : Nat) :
    Gentle (argumentsFrom base start count) := by
  induction count generalizing start with
  | zero => exact .pure _
  | succ count ih =>
    exact .bind (offsetRegister_gentle base start) fun r => .bind (register_gentle r) fun v =>
      .bind (ih (start + 1)) fun vs => .pure _

/-- Reading the arguments of a call reports what is missing. -/
@[simp]
theorem arguments_gentle (base : Reg) (count : Nat) : Gentle (arguments base count) :=
  argumentsFrom_gentle base 0 count

/-! ### Operands and results -/

/-- A register that should hold an integer and does not is reported. -/
@[simp]
theorem intRegister_gentle (r : Reg) : Gentle (intRegister r) :=
  .bind (register_gentle r) fun v => by split <;> simp

/-- What is no number is reported. -/
@[simp]
theorem asFloat_gentle (v : Value) : Gentle (asFloat v) := by
  rw [asFloat]
  split <;> simp

/-- A register that should hold a number and does not is reported. -/
@[simp]
theorem floatRegister_gentle (r : Reg) : Gentle (floatRegister r) :=
  .bind (register_gentle r) asFloat_gentle

/-- A register that should hold a truth value and does not is reported. -/
@[simp]
theorem boolRegister_gentle (r : Reg) : Gentle (boolRegister r) :=
  .bind (register_gentle r) fun v => by split <;> simp

/-- What has no length is reported. -/
@[simp]
theorem lengthOf_gentle (r : Reg) : Gentle (lengthOf r) :=
  .bind (register_gentle r) fun v => by split <;> simp

/-- What is no key of a map is reported. -/
@[simp]
theorem keyRegister_gentle (r : Reg) : Gentle (keyRegister r) :=
  .bind (register_gentle r) fun v => by split <;> simp

/-- What cannot be called is reported. -/
@[simp]
theorem funcRegister_gentle (r : Reg) : Gentle (funcRegister r) :=
  .bind (register_gentle r) fun v => by split <;> simp

/-- Values that cannot be compared are reported. -/
@[simp]
theorem isLess_gentle (v w : Value) : Gentle (isLess v w) := by
  unfold isLess
  split
  · exact .pure _
  · exact .pure _
  · exact .bind (asFloat_gentle v) fun x => .bind (asFloat_gentle w) fun y => .pure _

/-- An index out of range, negative ones included, is reported. -/
@[simp]
theorem position_gentle (index : Value) (length : Nat) : Gentle (position index length) := by
  unfold position
  split <;> simp

/-- A condition reads registers, and is reported if they do not fit it. -/
@[simp]
theorem isTaken_gentle (cond : Condition) : Gentle (isTaken cond) := by
  cases cond with
  | always => exact .pure _
  | ifTrue cond => exact boolRegister_gentle cond
  | ifFalse cond => exact .bind (boolRegister_gentle cond) fun _ => .pure _
  | ifDone index container =>
    exact .bind (intRegister_gentle index) fun _ => .bind (lengthOf_gentle container) fun _ => .pure _

/-- An index beyond a pool is reported. -/
@[simp]
theorem entry_gentle (pool : Pool) (entries : Array α) (index : UInt16) :
    Gentle (entry pool entries index) := by
  rw [entry]
  split <;> simp

/-- Operators report operands that do not fit, division by zero included. -/
@[simp]
theorem combine_gentle (op : BinaryOp) (lhs rhs : Reg) : Gentle (combine op lhs rhs) := by
  have hints : ∀ f, Gentle (onInts f lhs rhs) := fun f =>
    .bind (intRegister_gentle lhs) fun _ => .bind (intRegister_gentle rhs) fun _ => .pure _
  have hfloats : ∀ f, Gentle (onFloats f lhs rhs) := fun f =>
    .bind (floatRegister_gentle lhs) fun _ => .bind (floatRegister_gentle rhs) fun _ => .pure _
  cases op with
  | addInt | subInt | mulInt => exact hints _
  | addFloat | subFloat | mulFloat => exact hfloats _
  | divInt =>
    exact .bind (intRegister_gentle lhs) fun _ => .bind (intRegister_gentle rhs) fun _ => by simp
  | divFloat =>
    exact .bind (floatRegister_gentle lhs) fun _ => .bind (floatRegister_gentle rhs) fun _ => by simp
  | equals => exact .bind (register_gentle lhs) fun _ => .bind (register_gentle rhs) fun _ => .pure _
  | lessThan =>
    exact .bind (register_gentle lhs) fun _ => .bind (register_gentle rhs) fun _ =>
      .bind (isLess_gentle _ _) fun _ => .pure _

/-- Reading from a container reports positions and keys that are not there. -/
@[simp]
theorem readIndex_gentle (container index : Reg) : Gentle (readIndex container index) := by
  refine .bind (register_gentle container) fun target => .bind (register_gentle index) fun i => ?_
  split
  · exact .pure _
  · split
    · exact .ite (.pure _) (.bind (.allocate _) fun _ => .pure _)
    · exact .mismatch _ _
  · split
    · exact .ite (.pure _) (.bind (.allocate _) fun _ => .pure _)
    · exact .mismatch _ _
  · split
    · exact .ite (.pure _) (.bind (.allocate _) fun _ => .pure _)
    · exact .mismatch _ _
  · exact .mismatch _ _

/-- Reading state only needs an active frame. -/
@[simp]
theorem readState_gentle (name : String) : Gentle (readState name) :=
  .bind active_gentle fun _ => .pure _

/-! ### Instructions inside a frame -/

/-- Only numbers can be incremented, and integers wrap around. -/
theorem increment_gentle (r : Reg) : Gentle (increment r) :=
  .bind (rawRegister_gentle r) fun v => by split <;> simp

/-- Writing to a container reports positions that are not there. -/
theorem writeIndex_gentle (container index src : Reg) : Gentle (writeIndex container index src) := by
  have hwrite : ∀ g : Fresh Value, Gentle (allocate g >>= setRegister container) :=
    fun g => .bind (.allocate g) fun v => setRegister_gentle container v
  refine .bind (register_gentle src) fun item => .bind (register_gentle index) fun i =>
    .bind (rawRegister_gentle container) fun target => ?_
  split
  · split
    · exact hwrite _
    · exact .mismatch _ _
  · exact .bind (position_gentle i _) fun j => hwrite _
  · refine .bind (position_gentle i _) fun j => ?_
    split
    · exact .bind (cast_gentle _ item) fun w => hwrite _
    · exact .raise _
  · exact .mismatch _ _

/-- Only lists can be appended to. -/
theorem append_gentle (list src : Reg) : Gentle (append list src) := by
  refine .bind (register_gentle src) fun item => .bind (rawRegister_gentle list) fun target => ?_
  split
  · exact .bind (.allocate _) fun v => setRegister_gentle list v
  · exact .mismatch _ _

/-- Moving a value reads one register and writes another one. -/
theorem move_gentle (dst src : Reg) : Gentle (move dst src) :=
  .ite (.bind (register_gentle src) fun v => .bind (setRegister_gentle src .moved) fun _ =>
    setRegister_gentle dst v) (.pure _)

/-- An exchange with a register that is not there is reported. -/
theorem swap_gentle (a b : Reg) : Gentle (swap a b) :=
  .bind active_gentle fun f => by split <;> simp

/-- Bindings are written to registers as long as these last, and reported from there on. -/
theorem spread_gentle (first : Reg) (i : Nat) (vs : List Value) : Gentle (spread first i vs) := by
  induction vs generalizing i with
  | nil => exact .pure _
  | cons v rest ih =>
    exact .bind (offsetRegister_gentle first i) fun r => .bind (setRegister_gentle r v) fun _ =>
      ih (i + 1)

/-- A frame with another number of bindings than expected is reported. -/
theorem splatBindings_gentle (first : Reg) (count : UInt8) : Gentle (splatBindings first count) :=
  .bind active_gentle fun _ => .ite (spread_gentle first 0 _) (.violate _)

/-- A jump to before the start of the code is reported. -/
theorem jump_gentle (next : Nat) (offset : Int16) : Gentle (jump next offset) :=
  .ite (.violate _) (modifyActive_gentle _)

/-- Inputs are collected where the frame was entered with them, so a frame that has no such registers
    any more is let down. -/
theorem collectVarargs_crashed {first : Reg} {m : Machine}
    (h : (collectVarargs first m).1 = .error .crashed) :
    ∃ f rest, m.stack.frames = f :: rest ∧ f.registers.size < f.inputCount := by
  cases hframes : m.stack.frames with
  | nil =>
    rw [collectVarargs, Failing.bind_apply, active_apply_nil hframes] at h
    exact nomatch h
  | cons f rest =>
    rw [collectVarargs, Failing.bind_apply, active_apply hframes] at h
    dsimp only at h
    split at h
    · exact absurd h (Gentle.violate _ m)
    next hstart =>
      split at h
      -- the first register is there, so it is the inputs that reach too far
      · exact ⟨f, rest, rfl, by omega⟩
      · exact absurd h (Gentle.bind (.allocate _) (fun list => setActive_gentle _) m)

/-! ### Calls and returns -/

/-- An argument that its type refuses is reported. -/
theorem castArguments_gentle (s : Signature) (i : Nat) (args : List Value) :
    Gentle (castArguments s i args) := by
  induction args generalizing i with
  | nil => exact .pure _
  | cons v rest ih =>
    have hdone : ∀ w, Gentle (do return w :: (← castArguments s (i + 1) rest)) :=
      fun w => .bind (ih (i + 1)) fun _ => .pure _
    rw [castArguments]
    split
    · split
      · exact .bind (.pure v) hdone
      · exact .bind (cast_gentle _ v) hdone
    · exact .bind (.pure v) hdone

/-- A block that cannot be entered is reported: one call too deep, no program, arguments that do not fit. -/
theorem enter_gentle (block : BlockId) (args : List Value) (link : Link) :
    Gentle (enter block args link) := by
  refine .bind .getStack fun s => ?_
  dsimp only
  split
  · exact .raise _
  refine .bind (.onWorld _) fun index => .bind (.onWorld _) fun program => ?_
  split
  · exact .raise _
  · exact .bind (castArguments_gentle _ 0 args) fun vs => .modifyStack _

/-- An output that its type refuses is reported. -/
theorem castOutputs_gentle (program : Program) (registers : Array Value) (i : Nat)
    (outputs : List Output) : Gentle (castOutputs program registers i outputs) := by
  induction outputs generalizing i with
  | nil => exact .pure _
  | cons o rest ih =>
    have hdone : ∀ w, Gentle (do return w :: (← castOutputs program registers (i + 1) rest)) :=
      fun w => .bind (ih (i + 1)) fun _ => .pure _
    rw [castOutputs]
    split
    · dsimp only
      split
      · exact .bind (.pure _) hdone
      · exact .bind (.tryCast _ _) fun r => by
          cases r with
          | ok w => exact .bind (.pure w) hdone
          | error e => exact .bind (.raise _) hdone
    · exact .violate _

/-- A return reports outputs that do not fit, and hands them over otherwise. -/
theorem leave_gentle (program : Program) : Gentle (leave program) := by
  have hdeliver : ∀ child outputs, Gentle (deliver child outputs) := by
    intro child outputs
    refine .bind active_gentle fun parent => ?_
    dsimp only
    cases child.key with
    | some k => exact .bind (.allocate _) fun _ => setActive_gentle _
    | none => exact .bind (.pure _) fun _ => setActive_gentle _
  refine .bind active_gentle fun f => .bind (castOutputs_gentle program _ 0 _) fun outputs => ?_
  -- the outputs of the root stay in it, those of another frame go to its caller
  split
  · exact .bind (.bind (.allocate _) fun _ => .bind (setActive_gentle _) fun _ => .modifyStack _)
      fun _ => .pure _
  · exact .bind (.onStack _) fun _ => .bind (hdeliver f outputs) fun _ => .pure _

/-- A method that nobody knows is reported. -/
theorem send_gentle (s : Send) : Gentle (send s) := by
  have hread : ∀ receiver : Value, Gentle (sendHeld s.name s.out receiver) :=
    fun receiver => .bind .get fun m => by split <;> simp
  refine .bind (register_gentle s.base) fun receiver => .bind ?_ fun line => ?_
  · exact .bind .get fun m => .ite (.bind (.modifyStack _) fun _ => .pure _) (.pure _)
  split
  · exact .bind (arguments_gentle _ _) fun args => enter_gentle _ args _
  · exact .bind (offsetRegister_gentle _ 1) fun first => .bind (arguments_gentle _ _) fun args =>
      enter_gentle _ args _
  · exact hread receiver
  · exact hread receiver
  · exact .raise _

/-- **Only collecting inputs can crash**, natives aside. -/
theorem perform_gentle {host : Embedder} {resume : Action Outcome} {program : Program} {next : Nat}
    {i : Instruction} (hnative : ∀ index, i ≠ .native index) (hvarargs : ∀ first, i ≠ .varargsToList first) :
    Gentle (perform host resume program next i) := by
  cases i with
  | native index => exact absurd rfl (hnative index)
  | varargsToList first => exact absurd rfl (hvarargs first)
  | loadConst dst idx => exact .bind (entry_gentle _ _ _) fun v => setRegister_gentle dst v
  | loadInt dst value => exact setRegister_gentle dst _
  | setNull dst => exact setRegister_gentle dst _
  | setEmptyList dst => exact .bind (.allocate _) fun v => setRegister_gentle dst v
  | copy dst src => exact .bind (register_gentle src) fun v => setRegister_gentle dst v
  | move dst src => exact move_gentle dst src
  | swap a b => exact swap_gentle a b
  | cast dst src type =>
    exact .bind (entry_gentle _ _ _) fun ty => .bind (register_gentle src) fun v =>
      .bind (cast_gentle ty v) fun w => setRegister_gentle dst w
  | binary op dst lhs rhs => exact .bind (combine_gentle op lhs rhs) fun v => setRegister_gentle dst v
  | increment r => exact increment_gentle r
  | getIndex dst container index =>
    exact .bind (readIndex_gentle container index) fun v => setRegister_gentle dst v
  | setIndex container index src => exact writeIndex_gentle container index src
  | append list src => exact append_gentle list src
  | length dst container => exact .bind (lengthOf_gentle container) fun n => setRegister_gentle dst _
  | jump cond offset =>
    exact .bind (isTaken_gentle cond) fun taken => .ite (jump_gentle next offset) (.pure _)
  | call block base argc out =>
    exact .bind (entry_gentle _ _ _) fun b => .bind (arguments_gentle base _) fun args =>
      enter_gentle b args _
  | callKeyed block base argc out key =>
    exact .bind (entry_gentle _ _ _) fun b => .bind (keyRegister_gentle key) fun k =>
      .bind (arguments_gentle base _) fun args => enter_gentle b args _
  | callFunc base argc out =>
    exact .bind (funcRegister_gentle base) fun c => .bind (offsetRegister_gentle base 1) fun first =>
      .bind (arguments_gentle first _) fun args => enter_gentle _ args _
  | callFuncApply func args out =>
    exact .bind (funcRegister_gentle func) fun c => .bind (register_gentle args) fun list => by
      split
      · exact enter_gentle _ _ _
      · exact .mismatch _ _
  | callMethod name base argc out site =>
    exact .bind (entry_gentle _ _ _) fun s => send_gentle _
  | makeFunc dst block first count =>
    exact .bind (entry_gentle _ _ _) fun b => .bind (arguments_gentle first _) fun bindings =>
      .bind (.allocate _) fun v => setRegister_gentle dst v
  | splatBindings first count => exact splatBindings_gentle first count
  | growFrame size => exact modifyActive_gentle _
  | getState dst name =>
    exact .bind (entry_gentle _ _ _) fun s => .bind (readState_gentle s) fun v => setRegister_gentle dst v
  | saveState name src =>
    exact .bind (entry_gentle _ _ _) fun s => .bind (register_gentle src) fun v => modifyActive_gentle _
  | retainFrame => exact modifyActive_gentle _
  | pause | ret => exact .pure _

/-- **An instruction that crashes** collects inputs in a frame that lost the registers for them. -/
theorem step_crashed {host : Embedder} {resume : Action Outcome} {program : Program} {next : Nat}
    {i : Instruction} {m : Machine} (hi : ∀ index, i ≠ .native index)
    (h : (step host resume program next i m).1 = .error .crashed) :
    ∃ f rest, m.stack.frames = f :: rest ∧ f.registers.size < f.inputCount := by
  by_cases hpause : i = .pause
  · subst hpause
    exact absurd h (Gentle.pure _ m)
  by_cases hret : i = .ret
  · subst hret
    exact absurd h (Gentle.bind (leave_gentle program) (fun _ => .pure _) m)
  rw [step.eq_3 _ _ _ _ _ hpause hret] at h
  by_cases hvarargs : ∃ first, i = .varargsToList first
  · obtain ⟨first, rfl⟩ := hvarargs
    rw [Failing.bind_apply] at h
    have hcollect : (collectVarargs first m).1 = .error .crashed := by
      rw [perform] at h
      generalize collectVarargs first m = r at h ⊢
      obtain ⟨fault | _, m'⟩ := r
      · simpa using h
      · exact absurd h (Gentle.pure _ m')
    exact collectVarargs_crashed hcollect
  -- nothing else looks at registers without checking that they are there
  · have hgentle : Gentle (perform host resume program next i) :=
      perform_gentle hi fun first h => hvarargs ⟨first, h⟩
    exact absurd h (Gentle.bind hgentle (fun _ => .pure _) m)

/-! ### Natives, hosts and runs -/

/-- An output that the block does not declare is reported. -/
@[simp]
theorem setOutput_gentle (index : Nat) (v : Value) : Gentle (setOutput index v) := by
  refine .bind .get fun m => ?_
  split
  · exact .violate _
  · exact .bind active_gentle fun f => setActive_gentle _

/-- Setting an input is setting a register. -/
@[simp]
theorem setInput_gentle (index : Nat) (v : Value) : Gentle (setInput index v) :=
  .bind active_gentle fun _ => .ite (setActive_gentle _) (.violate _)

/-- Noting an error cannot fail itself. -/
theorem recordError_gentle (e : RuntimeError) : Gentle (recordError e) :=
  .of_ok fun m => (recordError_fails e m).1

/-- A native that raises an error notes it and comes back. -/
@[simp]
theorem raiseError_gentle (message : String) : Gentle (raiseError message) := by
  refine .bind .get fun m => ?_
  split
  · exact .bind (setOutput_gentle 0 _) fun _ => .bind (recordError_gentle _) fun _ => .pure _
  · exact .bind (recordError_gentle _) fun _ => .pure _

/-- A native that is missing an argument reports it. -/
@[simp]
theorem argument_gentle (index : Nat) : Gentle (argument index) :=
  .bind .get fun m => by split <;> simp

/-- An argument that should be an integer and is not is reported. -/
@[simp]
theorem intArgument_gentle (index : Nat) : Gentle (intArgument index) :=
  .bind (argument_gentle index) fun v => by split <;> simp

/-- An argument that should be a key and is not is reported. -/
@[simp]
theorem keyArgument_gentle (index : Nat) (what : String) : Gentle (keyArgument index what) :=
  .bind (argument_gentle index) fun v => by split <;> simp

/-- A number can be drawn whatever the state of the generator. -/
theorem drawRandom_gentle (l : Libraries) : Gentle (drawRandom l) := by
  refine .bind .get fun m => ?_
  split
  · exact .bind (.onStack _) fun x => setOutput_gentle 0 _
  · refine .bind (intArgument_gentle 0) fun lo => .bind (intArgument_gentle 1) fun hi => ?_
    split
    · exact .bind (.onStack _) fun n => setOutput_gentle 0 _
    · exact .bind (raiseError_gentle _) fun e => .raise e

/-- **Default natives do not crash.** -/
theorem invoke_default_gentle (host : Embedder) (resume : Action Outcome) {f : Native}
    (hf : f.isDefault = true) : Gentle (invoke host resume f) := by
  cases f with
  | print => exact .bind .get fun m => .of_ok fun _ => rfl
  | toText =>
    exact .bind (argument_gentle 0) fun v => .bind (.allocate _) fun w => setOutput_gentle 0 w
  | length => exact .bind (argument_gentle 0) fun v => by split <;> simp
  | random => exact drawRandom_gentle _
  | env => exact .bind (keyArgument_gentle 0 _) fun k => .bind .getStack fun s => setOutput_gentle 0 _
  | error =>
    exact .bind (argument_gentle 0) fun v => .bind (raiseError_gentle _) fun e => .raise e
  | hash => exact .bind (argument_gentle 0) fun v => setOutput_gentle 0 _
  | emit =>
    exact .bind (keyArgument_gentle 0 _) fun channel => .bind (argument_gentle 1) fun message =>
      .bind (.onStack _) fun _ => .pure _
  | host g => exact nomatch hf
  | installed code => exact nomatch hf

/-- A push reports a block that cannot be entered. -/
theorem push_gentle (block : BlockId) (inputs : List Value) : Gentle (push block inputs) := by
  refine .bind .getStack fun s => ?_
  split
  · exact .bind (.modifyStack _) fun _ => enter_gentle block inputs {}
  · exact enter_gentle block inputs {}

/-- Another root is entered as any block is. -/
theorem changeMain_gentle (block : BlockId) (inputs bindings : List Value) :
    Gentle (changeMain block inputs bindings) :=
  .bind (.modifyStack _) fun _ => enter_gentle block inputs _

/-- A migration rebinds values, and enters the new block if it is the root's. -/
theorem migrate_gentle (old new : BlockId) : Gentle (migrate old new) := by
  refine .bind .getStack fun s => .bind (.allocate _) fun state => .bind (.modifyStack _) fun _ =>
    .bind .getStack fun s' => ?_
  split
  · exact .ite (changeMain_gentle new _ _) (.pure _)
  · exact .pure _

/-- Frames can be listed even where their programs do not compile. -/
theorem frameList_gentle : Gentle frameList := by
  have hframe : ∀ depth f, Gentle (frameInfo depth f) := fun depth f =>
    .bind (.tryWorld _) fun r => by split <;> exact .pure _
  refine .bind .getStack fun s => ?_
  -- a frame whose program is gone is listed without a name, so any frames will do
  generalize s.frames.reverse.zipIdx = frames
  induction frames with
  | nil => exact .pure _
  | cons entry rest ih =>
    rw [List.mapM_cons]
    exact .bind (hframe _ _) fun info => .bind ih fun infos => .pure _

/-- **Operations do not crash**, runs aside. -/
theorem HostOp.gentle (resume : Action Outcome) {o : HostOp β} (ho : o.isRun = false) :
    Gentle (o.perform resume) := by
  cases o with
  | run => exact nomatch ho
  | call => exact nomatch ho
  | push block inputs => exact push_gentle block inputs
  | migrateTo block inputs => exact changeMain_gentle block inputs []
  | migrateToFunc func inputs =>
    rw [HostOp.perform, migrateToFunc]
    split
    · exact changeMain_gentle _ inputs _
    · exact .mismatch _ _
  | migrate old new => exact migrate_gentle old new
  | loadState text =>
    rw [HostOp.perform, loadState]
    refine .bind .get fun m => ?_
    split
    · exact .bind (.of_ok fun _ => rfl) fun _ => .pure _
    · exact .pure _
  | consume channel =>
    rw [HostOp.perform, consume]
    exact .bind (.onStack _) fun r => by split <;> simp
  | frameList => exact frameList_gentle
  | resize count => exact modifyActive_gentle _
  | reset discardState => exact .modifyStack _
  | _ => simp [HostOp.perform, pop, cancel, setState]

/-- A frame whose program is not there any more is reported. -/
theorem currentProgram_gentle : Gentle currentProgram :=
  .bind active_gentle fun _ => .bind (.onWorld _) fun _ => .ite (.pure _) (.violate _)

/-- The check for new versions reports programs that it does not find. -/
theorem restartIfStale_gentle : Gentle restartIfStale := by
  have hcurrent : ∀ f, Gentle (isCurrent f) := fun f =>
    .bind (.tryWorld _) fun r => by split <;> exact .pure _
  have hall : ∀ frames, Gentle (allCurrent frames) := by
    intro frames
    induction frames with
    | nil => exact .pure _
    | cons f rest ih => exact .bind (hcurrent f) fun _ => .ite ih (.pure _)
  refine .bind .getStack fun s => .bind (hall _) fun current => ?_
  split
  · exact .pure _
  · refine .bind (.modifyStack unwindToRoot) fun _ => .bind active_gentle fun f => ?_
    refine .bind (.onWorld (World.program f.program)) fun p => .bind .getStack fun s => ?_
    exact modifyActive_gentle _

end Machine

end BlockMachine

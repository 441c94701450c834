import BlockMachine.Proofs.Machine.Calls

namespace BlockMachine

/-!
# Instructions that fail

Almost every instruction looks at all that it needs before it changes anything. When it fails, the stack is
as it was before, but for what a cache may have learnt. Moves and writes of bindings are the exceptions:
they change one register after the other.

* `Machine.FailsCleanly` holds of computations that leave the stack alone when they fail;
* `Preserves.of_reads`: operands and results are found without touching the stack;
* `Machine.enter_failsCleanly`, `Machine.leave_failed` and `Machine.perform_failsCleanly` are about
  calls, returns and all other instructions, **`Machine.step_failed`** about all of them together.
-/

namespace Instruction

/-- Whether an instruction changes registers one after the other, and can fail in between. -/
def isGradual : Instruction → Bool
  | move .. | splatBindings .. => true
  | _ => false

end Instruction

namespace Machine

variable {α β : Type} {m m' : Machine}

/-- A computation leaves the stack alone when it fails, caches apart. -/
def FailsCleanly (a : Action α) : Prop :=
  ∀ m e m', a m = (.error e, m') → m'.stack.uncached = m.stack.uncached

namespace FailsCleanly

variable {a : Action α} {f : α → Action β}

/-- What leaves the stack alone does so when it fails. -/
theorem of_preserves (h : Preserves (·.stack.uncached) a) : FailsCleanly a := by
  intro m e m' he
  have hm := h m
  rwa [he] at hm

/-- What cannot fail. -/
theorem of_ok {x : Machine → α} (h : ∀ m, (a m).1 = .ok (x m)) : FailsCleanly a := by
  intro m e m' he
  have hm := h m
  rw [he] at hm
  exact nomatch hm

/-- What fails at once has changed nothing. -/
theorem throw (e : Fault) : FailsCleanly (throw e : Action α) :=
  of_preserves (.throw e)

/-- An error of the program that is raised at once has changed nothing. -/
theorem raise (e : RuntimeError) : FailsCleanly (raise e : Action α) :=
  throw _

/-- A rule that the program broke at once has changed nothing. -/
theorem violate (v : Violation) : FailsCleanly (violate v : Action α) :=
  throw _

/-- A value of another type than expected has changed nothing. -/
theorem mismatch (expected : String) (v : Value) : FailsCleanly (mismatch expected v : Action α) :=
  throw _

/-- What gives a value back does not fail. -/
theorem pure (x : α) : FailsCleanly (pure x) :=
  of_preserves (.pure x)

/-- What comes before the last part may touch caches. -/
theorem bind_uncached (ha : Preserves (·.stack.uncached) a) (hf : ∀ x, FailsCleanly (f x)) :
    FailsCleanly (a >>= f) := by
  intro m e m' h
  have hm := ha m
  rw [Failing.bind_apply] at h
  rcases hr : a m with ⟨_ | x, n⟩ <;> rw [hr] at h hm
  · obtain rfl : n = m' := congrArg Prod.snd h
    exact hm
  · exact (hf x n e m' h).trans hm

/-- All that comes before the last part leaves the stack alone. -/
theorem bind (ha : Preserves (·.stack) a) (hf : ∀ x, FailsCleanly (f x)) : FailsCleanly (a >>= f) :=
  bind_uncached (ha.part Stack.uncached) hf

/-- What looks at the machine first has not changed anything yet. -/
theorem get_bind {f : Machine → Action β} (hf : ∀ m, FailsCleanly (f m)) :
    FailsCleanly (get >>= f) :=
  fun m => hf m m

end FailsCleanly

/-! ### Operands and results -/

/-- A machine may be read next to itself. -/
theorem reading_still (o : Stack) : Reading (Still (·.stack) o) where
  fresh := by
    rintro ρ m₁ m₂ ⟨rfl, rfl, hm⟩
    exact ⟨.same, le_rfl, fun _ _ => rfl, rfl, rfl, hm⟩
  frames := by
    rintro ρ m₁ m₂ ⟨rfl, rfl, -⟩
    cases hframes : m₁.stack.frames with
    | nil => exact .inl ⟨rfl, rfl⟩
    | cons f rest => exact .inr ⟨f, rest, f, rest, rfl, rfl, .refl f⟩

/-- A computation that only reads leaves the stack alone. -/
theorem Preserves.of_reads {a : Action α} {V : Matching → α → α → Prop}
    (h : ∀ {S : Matching → Machine → Machine → Prop}, Reading S → Mirrors Strict S .same a a V) :
    Preserves (·.stack) a :=
  .of_mirrors fun o => h (reading_still o)

/-- Reading a register leaves the stack alone. -/
theorem rawRegister_stack (r : Reg) : Preserves (·.stack) (rawRegister r) :=
  .of_reads fun hS => rawRegister_mirrors hS r

/-- Reading a register whose value was not moved away leaves the stack alone. -/
theorem register_stack (r : Reg) : Preserves (·.stack) (register r) :=
  .of_reads fun hS => register_mirrors hS r

/-- Reading the arguments of a call leaves the stack alone. -/
theorem arguments_stack (base : Reg) (count : Nat) : Preserves (·.stack) (arguments base count) :=
  .of_reads fun hS => arguments_mirrors hS base count

/-- Counting registers leaves the stack alone. -/
theorem offsetRegister_stack (base : Reg) (n : Nat) : Preserves (·.stack) (offsetRegister base n) :=
  .of_reads fun _ => offsetRegister_mirrors base n

/-- Reading a closure leaves the stack alone. -/
theorem funcRegister_stack (r : Reg) : Preserves (·.stack) (funcRegister r) :=
  .of_reads fun hS => funcRegister_mirrors hS r

/-- Looking into a pool leaves the stack alone. -/
theorem entry_stack (pool : Pool) (entries : Array α) (index : UInt16) :
    Preserves (·.stack) (entry pool entries index) :=
  .of_reads fun _ => entry_mirrors pool entries index

/-- A cast takes buffer numbers, and leaves the stack alone. -/
theorem cast_stack (ty : Ty) (v : Value) : Preserves (·.stack) (cast ty v) :=
  .of_reads fun hS => cast_mirrors hS.toDrawing ty (Value.like_same.2 rfl)

/-- Taking buffer numbers leaves the stack alone. -/
theorem allocate_stack (g : Fresh α) : Preserves (·.stack) (allocate g) :=
  fun _ => rfl

/-! ### Changes of the active frame -/

/-- A frame that is there can be replaced. -/
theorem setActive_failsCleanly (f : Frame) : FailsCleanly (setActive f) :=
  .of_ok fun _ => rfl

/-- The active frame is changed, or there is none. -/
theorem modifyActive_failsCleanly (change : Frame → Frame) : FailsCleanly (modifyActive change) :=
  .bind active_stack fun f => setActive_failsCleanly (change f)

/-- A register is written, or it is not there. -/
theorem setRegister_failsCleanly (r : Reg) (v : Value) : FailsCleanly (setRegister r v) := by
  refine .bind active_stack fun f => ?_
  split
  · exact setActive_failsCleanly _
  · exact .violate _

/-- A value that was found is written. -/
theorem write_failsCleanly {a : Action Value} (h : Preserves (·.stack) a) (dst : Reg) :
    FailsCleanly (a >>= setRegister dst) :=
  .bind h fun v => setRegister_failsCleanly dst v

/-- Both registers are looked at before they are exchanged. -/
theorem swap_failsCleanly (a b : Reg) : FailsCleanly (swap a b) := by
  refine .bind active_stack fun f => ?_
  split
  · exact setActive_failsCleanly _
  · exact .violate _

/-- The number is looked at before it is written. -/
theorem increment_failsCleanly (r : Reg) : FailsCleanly (increment r) := by
  refine .bind (rawRegister_stack r) fun v => ?_
  split
  · exact setRegister_failsCleanly r _
  · exact setRegister_failsCleanly r _
  · exact .mismatch _ _

/-- Finding a position leaves the stack alone. -/
theorem position_stack (index : Value) (length : Nat) : Preserves (·.stack) (position index length) :=
  .of_reads fun _ => position_mirrors (Value.like_same.2 rfl) length

/-- Container, position and value are looked at before anything is written. -/
theorem writeIndex_failsCleanly (container index src : Reg) :
    FailsCleanly (writeIndex container index src) := by
  have hstore : ∀ g : Fresh Value, FailsCleanly (allocate g >>= setRegister container) :=
    fun g => write_failsCleanly (allocate_stack g) container
  refine .bind (register_stack src) fun item => .bind (register_stack index) fun i =>
    .bind (rawRegister_stack container) fun target => ?_
  split
  · split
    · exact hstore _
    · exact .mismatch _ _
  · exact .bind (position_stack i _) fun n => hstore _
  · refine .bind (position_stack i _) fun n => ?_
    split
    · exact .bind (cast_stack _ item) fun w => hstore _
    · exact .raise _
  · exact .mismatch _ _

/-- List and value are looked at before the list is written. -/
theorem append_failsCleanly (list src : Reg) : FailsCleanly (append list src) := by
  refine .bind (register_stack src) fun item => .bind (rawRegister_stack list) fun target => ?_
  split
  · exact write_failsCleanly (allocate_stack _) list
  · exact .mismatch _ _

/-- The target is looked at before the pc is set. -/
theorem jump_failsCleanly (next : Nat) (offset : Int16) : FailsCleanly (jump next offset) := by
  rw [jump]
  dsimp only
  split
  · exact .violate _
  · exact modifyActive_failsCleanly _

/-- The registers are counted before the inputs are collected. -/
theorem collectVarargs_failsCleanly (first : Reg) : FailsCleanly (collectVarargs first) := by
  refine .bind active_stack fun f => ?_
  dsimp only
  split
  · exact .violate _
  split
  · exact .throw _
  · exact .bind (allocate_stack _) fun list => setActive_failsCleanly _

/-! ### Calls -/

/-- A block that refuses to be entered leaves its caller as it was. -/
theorem enter_failsCleanly (block : BlockId) (args : List Value) (link : Link) :
    FailsCleanly (enter block args link) := by
  intro m e m' h
  have hpushes := enter_pushes block args link m
  rw [h] at hpushes
  cases hpushes with
  | refused hstack => exact congrArg Stack.uncached hstack

/-- Looking a name up can change caches at most. -/
theorem sendLine_uncached (s : Send) (receiver : Value) :
    Preserves (·.stack.uncached) (sendLine s receiver) := by
  intro m
  rw [sendLine_apply]
  split <;> rfl

/-- A send finds out what it means before it calls or writes. -/
theorem send_failsCleanly (s : Send) : FailsCleanly (send s) := by
  have hheld : ∀ receiver, FailsCleanly (sendHeld s.name s.out receiver) := by
    refine fun receiver => .get_bind fun m => ?_
    split
    · exact setRegister_failsCleanly s.out _
    · exact .raise _
  refine .bind (register_stack s.base) fun receiver =>
    .bind_uncached (sendLine_uncached s receiver) fun line => ?_
  split
  · exact .bind (arguments_stack s.base _) fun args => enter_failsCleanly _ args _
  · exact .bind (offsetRegister_stack s.base 1) fun first => .bind (arguments_stack first _)
      fun args => enter_failsCleanly _ args _
  · exact hheld receiver
  · exact hheld receiver
  · exact .raise _

/-- A closure is entered only once it was found to be one, and its arguments a list. -/
theorem applyFunc_failsCleanly (func args out : Reg) : FailsCleanly (applyFunc func args out) := by
  refine .bind (funcRegister_stack func) fun closure => .bind (register_stack args) fun list => ?_
  split
  · exact enter_failsCleanly _ _ _
  · exact .mismatch _ _

/-! ### Returns -/

/-- **A return that fails** has changed nothing, if a frame without caller is the last one. -/
theorem leave_failed {program : Program} {e : Fault}
    (hroot : ∀ f, m.stack.frames = [f] → f.parent.isNone = true)
    (h : leave program m = (.error e, m')) : m'.stack.uncached = m.stack.uncached := by
  cases hframes : m.stack.frames with
  | nil =>
    rw [leave, Failing.bind_apply, active_apply_nil hframes] at h
    exact congrArg (fun n => n.stack.uncached) (congrArg Prod.snd h).symm
  | cons f rest =>
    have hreturned := leave_returned program hframes
    rw [h] at hreturned
    cases hreturned with
    | refused hstack => exact congrArg Stack.uncached hstack
    | orphaned hrest =>
      -- the root is no orphan: once its outputs are cast, it is left
      subst hrest
      have hcast : Preserves (·.stack.uncached)
          (castOutputs program f.registers 0 program.signature.outputs) :=
        castOutputs_preserves (fun _ _ => rfl) _ _ _ _
      replace hcast := hcast m
      rw [leave, Failing.bind_apply, active_apply hframes] at h
      dsimp only at h
      rw [Failing.bind_apply] at h
      rcases hr : castOutputs program f.registers 0 program.signature.outputs m with ⟨_ | outputs, n⟩ <;>
        rw [hr] at h hcast
      · obtain rfl : n = m' := congrArg Prod.snd h
        exact hcast
      · dsimp only at h
        rw [if_pos (hroot f hframes)] at h
        cases congrArg Prod.fst h

/-! ### All instructions -/

/-- **Instructions fail cleanly**, calls of natives and gradual ones aside. -/
theorem perform_failsCleanly {host : Embedder} {resume : Action Outcome} {program : Program} {next : Nat}
    {i : Instruction} (hnative : ∀ index, i ≠ .native index) (hi : i.isGradual = false) :
    FailsCleanly (perform host resume program next i) := by
  cases i with
  | native index => exact absurd rfl (hnative index)
  | move | splatBindings => exact nomatch hi
  -- instructions with one write do all that can fail before it or in it
  | loadConst dst index => exact write_failsCleanly (entry_stack _ _ index) dst
  | loadInt dst value => exact setRegister_failsCleanly dst _
  | setNull dst => exact setRegister_failsCleanly dst _
  | setEmptyList dst => exact write_failsCleanly (allocate_stack _) dst
  | copy dst src => exact write_failsCleanly (register_stack src) dst
  | swap a b => exact swap_failsCleanly a b
  | cast dst src type =>
    exact .bind (entry_stack _ _ type) fun ty => .bind (register_stack src) fun v =>
      write_failsCleanly (cast_stack ty v) dst
  | binary op dst lhs rhs =>
    exact write_failsCleanly (.of_reads fun hS => combine_mirrors hS op lhs rhs) dst
  | increment r => exact increment_failsCleanly r
  | getIndex dst container index =>
    exact write_failsCleanly (.of_reads fun hS => readIndex_mirrors hS container index) dst
  | setIndex container index src => exact writeIndex_failsCleanly container index src
  | append list src => exact append_failsCleanly list src
  | length dst container =>
    exact .bind (.of_reads fun hS => lengthOf_mirrors hS container) fun n =>
      setRegister_failsCleanly dst _
  | jump cond offset =>
    refine .bind (.of_reads fun hS => isTaken_mirrors hS cond) fun taken => ?_
    split
    · exact jump_failsCleanly next offset
    · exact .pure _
  -- calls read their operands, and entering a block pushes a frame only when it succeeds
  | call block base argc out =>
    exact .bind (entry_stack _ _ block) fun b => .bind (arguments_stack base _) fun args =>
      enter_failsCleanly b args _
  | callKeyed block base argc out key =>
    exact .bind (entry_stack _ _ block) fun b =>
      .bind (.of_reads fun hS => keyRegister_mirrors hS key) fun k =>
        .bind (arguments_stack base _) fun args => enter_failsCleanly b args _
  | callFunc base argc out =>
    exact .bind (funcRegister_stack base) fun closure => .bind (offsetRegister_stack base 1) fun first =>
      .bind (arguments_stack first _) fun args => enter_failsCleanly _ args _
  | callFuncApply func args out => exact applyFunc_failsCleanly func args out
  | callMethod name base argc out site =>
    exact .bind (entry_stack _ _ name) fun s => send_failsCleanly _
  | makeFunc dst block first count =>
    exact .bind (entry_stack _ _ block) fun b => .bind (arguments_stack first _) fun bindings =>
      write_failsCleanly (allocate_stack _) dst
  | varargsToList first => exact collectVarargs_failsCleanly first
  | growFrame size => exact modifyActive_failsCleanly _
  | getState dst name =>
    exact .bind (entry_stack _ _ name) fun s =>
      write_failsCleanly (.of_reads fun hS => readState_mirrors hS s) dst
  | saveState name src =>
    exact .bind (entry_stack _ _ name) fun s => .bind (register_stack src) fun v =>
      modifyActive_failsCleanly _
  | retainFrame => exact modifyActive_failsCleanly _
  | pause | ret => exact .pure _

/-- **A step that fails** leaves the stack as it was, but for what a cache may have learnt. -/
theorem step_failed {host : Embedder} {resume : Action Outcome} {program : Program} {next : Nat}
    {i : Instruction} {e : Fault} (hnative : ∀ index, i ≠ .native index) (hi : i.isGradual = false)
    (hroot : ∀ f, m.stack.frames = [f] → f.parent.isNone = true)
    (h : step host resume program next i m = (.error e, m')) :
    m'.stack.uncached = m.stack.uncached := by
  by_cases hpause : i = .pause
  · subst hpause
    cases congrArg Prod.fst h
  by_cases hret : i = .ret
  · subst hret
    rw [step, Failing.bind_apply] at h
    rcases hr : leave program m with ⟨e' | last, n⟩ <;> rw [hr] at h
    · obtain rfl : n = m' := congrArg Prod.snd h
      exact leave_failed hroot hr
    · cases congrArg Prod.fst h
  rw [step.eq_3 _ _ _ _ _ hpause hret, Failing.bind_apply] at h
  rcases hr : perform host resume program next i m with ⟨e' | _, n⟩ <;> rw [hr] at h
  · obtain rfl : n = m' := congrArg Prod.snd h
    exact perform_failsCleanly hnative hi m e' n hr
  · cases congrArg Prod.fst h

end Machine

end BlockMachine

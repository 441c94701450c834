import BlockMachine.Proofs.Machine.Loop
import BlockMachine.Proofs.Machine.MirrorSteps
import BlockMachine.Proofs.Value.Hereditary

namespace BlockMachine

/-!
# Computing within a set of machines

Instructions that stay inside a frame read registers, make values out of what they read, and write
registers. A set of machines that allows this is not left by them.

* `Machine.Ensures` holds of computations that stay in a set however they end;
* `Machine.Closed` says what a set has to allow;
* `Machine.perform_inside_ensures` is about instructions inside a frame, `Machine.perform_call_leads`
  reduces calls of every kind to entering a block.
-/

/-- Resizing leaves as many registers as asked for. -/
theorem Frame.size_resized (registers : Array Value) (count : Nat) :
    (Frame.resized registers count).size = count := by
  rw [Frame.resized, Array.size_append, Array.size_replicate, Array.take_eq_extract, Array.size_extract]
  omega

/-- Registers that are resized where there are too few do not get fewer. -/
theorem Frame.size_le_grown (registers : Array Value) {least count : Nat} (h : least ≤ count) :
    registers.size ≤
      (if registers.size ≤ least then Frame.resized registers count else registers).size := by
  split
  next hle => exact (Frame.size_resized registers count).symm ▸ Nat.le_trans hle h
  next => exact Nat.le_refl _

namespace Machine

variable {α β : Type} {P : Value → Prop} {S T : Machine → Prop} {m : Machine}

/-- A computation that starts in a machine ends in a set of machines, and its answer satisfies `Q`. -/
def Meets (a : Action α) (m : Machine) (T : Machine → Prop) (Q : α → Prop) : Prop :=
  T (a m).2 ∧ ∀ x, (a m).1 = .ok x → Q x

/-- A computation stays in a set of machines however it ends, and its answers satisfy `Q`. -/
def Ensures (S : Machine → Prop) (a : Action α) (Q : α → Prop) : Prop :=
  ∀ m, S m → Meets a m S Q

/-- A computation leads from one set of machines to another however it ends. -/
def Leads (S T : Machine → Prop) (a : Action α) : Prop :=
  ∀ m, S m → T (a m).2

section

variable {a : Action α} {f : α → Action β} {Q Q' : α → Prop} {R : β → Prop}

namespace Meets

/-- A value is given back, and the machine is where it was. -/
theorem pure (hm : T m) {x : α} (h : Q x) : Meets (pure x) m T Q :=
  ⟨hm, fun _ hx => Except.ok.inj hx ▸ h⟩

/-- A computation that fails at once leaves the machine where it was. -/
theorem throw (hm : T m) (e : Fault) : Meets (throw e : Action α) m T Q :=
  ⟨hm, nofun⟩

/-- The rest of a computation goes on from where the first part ended. -/
theorem bind (ha : Meets a m S Q) (hT : ∀ n, S n → T n)
    (hf : ∀ x n, Q x → S n → Meets (f x) n T R) : Meets (a >>= f) m T R := by
  obtain ⟨hend, hanswer⟩ := ha
  rw [Meets, Failing.bind_apply]
  generalize a m = r at hend hanswer
  obtain ⟨_ | x, n⟩ := r
  · exact ⟨hT n hend, nofun⟩
  · exact hf x n (hanswer x rfl) hend

end Meets

namespace Ensures

/-- A value that satisfies `Q` is an answer that does. -/
theorem pure {x : α} (h : Q x) : Ensures S (pure x) Q :=
  fun _ hm => .pure hm h

/-- Nothing is asked of an answer that is not given. -/
theorem throw (e : Fault) : Ensures S (throw e : Action α) Q :=
  fun _ hm => .throw hm e

/-- An error of the program leaves the machine where it was. -/
theorem raise (e : RuntimeError) : Ensures S (raise e : Action α) Q :=
  .throw _

/-- A rule that the program broke leaves the machine where it was. -/
theorem violate (e : Violation) : Ensures S (violate e : Action α) Q :=
  .throw _

/-- A value of another type than expected leaves the machine where it was. -/
theorem mismatch (expected : String) (v : Value) : Ensures S (mismatch expected v : Action α) Q :=
  .throw _

/-- Answers may be known to satisfy less. -/
theorem mono (h : Ensures S a Q) (hQ : ∀ x, Q x → Q' x) : Ensures S a Q' :=
  fun m hm => ⟨(h m hm).1, fun x hx => hQ x ((h m hm).2 x hx)⟩

/-- Computations that stay in a set stay there one after the other. -/
theorem bind (ha : Ensures S a Q) (hf : ∀ x, Q x → Ensures S (f x) R) : Ensures S (a >>= f) R :=
  fun m hm => .bind (ha m hm) (fun _ h => h) fun x n hx hn => hf x hx n hn

/-- What looks at the machine first may use that it is in the set. -/
theorem get_bind {f : Machine → Action β} (h : ∀ m, S m → Meets (f m) m S R) :
    Ensures S (get >>= f) R :=
  h

/-- What looks at the stack first may stay in the set whatever the stack. -/
theorem getStack_bind {f : Stack → Action β} (h : ∀ s, Ensures S (f s) R) :
    Ensures S (getStack >>= f) R :=
  fun m hm => h m.stack m hm

/-- What stays in a set leads from the set into it. -/
theorem leads (h : Ensures S a Q) : Leads S S a :=
  fun m hm => (h m hm).1

/-- The last part of a computation may leave the set. -/
theorem bind_leads (ha : Ensures S a Q) (hT : ∀ m, S m → T m) (hf : ∀ x, Q x → Leads S T (f x)) :
    Leads S T (a >>= f) :=
  fun m hm => (Meets.bind (R := fun _ => True) (ha m hm) hT
    fun x n hx hn => ⟨hf x hx n hn, fun _ _ => trivial⟩).1

end Ensures

end

/-- A set of machines is not left by computing in the active frame with values that have a property.
    No registers are taken away. -/
structure Closed (P : Value → Prop) (S : Machine → Prop) : Prop where
  supply : ∀ {m}, S m → ∀ supply, S (m.withSupply supply)
  cells : ∀ {m f rest}, S m → m.stack.frames = f :: rest → ∀ v ∈ f.registers, v.Cell P
  incoming : ∀ {m f rest}, S m → m.stack.frames = f :: rest → P f.incoming
  bindings : ∀ {m f rest}, S m → m.stack.frames = f :: rest → ∀ v ∈ f.bindings, P v
  update : ∀ {m f rest registers} (retain : Bool), S m → m.stack.frames = f :: rest →
    (∀ v ∈ registers, v.Cell P) → f.registers.size ≤ registers.size →
    S (m.withFrames ({ f with registers := registers, retain := retain } :: rest))

/-! ### Registers -/

/-- New registers hold null, and those that remain hold what they held. -/
theorem resized_cells {registers : Array Value} (hP : Value.Hereditary P)
    (h : ∀ v ∈ registers, v.Cell P) (count : Nat) : ∀ v ∈ Frame.resized registers count, v.Cell P := by
  intro v hv
  rcases Array.mem_append.1 hv with hold | hnew
  · rw [Array.take_eq_extract] at hold
    obtain ⟨i, hi, rfl⟩ := Array.mem_extract_iff_getElem.1 hold
    exact h _ (Array.getElem_mem _)
  · exact Array.eq_of_mem_replicate hnew ▸ .inr hP.null

/-- One register gets a new value, and the others keep theirs. -/
theorem setIfInBounds_cells {registers : Array Value} (h : ∀ v ∈ registers, v.Cell P) (i : Nat)
    {w : Value} (hw : w.Cell P) : ∀ v ∈ registers.setIfInBounds i w, v.Cell P := by
  intro v hv
  rcases Array.mem_or_eq_of_mem_setIfInBounds hv with hold | rfl
  · exact h v hold
  · exact hw

section

variable (hP : Value.Hereditary P) (hS : Closed P S)
include hS

/-- A fresh handle is not in anyone's way. -/
theorem allocate_ensures {g : Fresh α} {Q : α → Prop} (h : ∀ n, Q (g n).1) :
    Ensures S (allocate g) Q :=
  fun m hm => ⟨hS.supply hm _, fun _ hx => Except.ok.inj hx ▸ h m.world.supply⟩

omit hS in

/-- Without a frame nothing happens. -/
theorem active_bind_meets (hm : S m) {k : Frame → Action β} {R : β → Prop}
    (h : ∀ f rest, m.stack.frames = f :: rest → Meets (k f) m S R) :
    Meets (active >>= k) m S R := by
  cases hframes : m.stack.frames with
  | nil =>
    rw [Meets, Failing.bind_apply, active_apply_nil hframes]
    exact ⟨hm, nofun⟩
  | cons f rest =>
    rw [Meets, Failing.bind_apply, active_apply hframes]
    exact h f rest hframes

omit hS in
/-- What a computation does with the active frame is asked only where there is one. -/
theorem active_bind_ensures {k : Frame → Action β} {R : β → Prop}
    (h : ∀ m f rest, S m → m.stack.frames = f :: rest → Meets (k f) m S R) :
    Ensures S (active >>= k) R :=
  fun m hm => active_bind_meets hm fun f rest => h m f rest hm

/-- New contents of the active frame. -/
theorem Closed.setRegisters (hm : S m) {f : Frame} {rest : List Frame} {registers : Array Value}
    (hframes : m.stack.frames = f :: rest) (hregisters : ∀ v ∈ registers, v.Cell P)
    (hsize : f.registers.size ≤ registers.size) :
    Meets (setActive { f with registers := registers }) m S fun _ => True := by
  rw [Meets, setActive_apply hframes]
  exact ⟨hS.update f.retain hm hframes hregisters hsize, fun _ _ => trivial⟩

/-- What is read from a register has the property, or was moved away. -/
theorem rawRegister_ensures (r : Reg) : Ensures S (rawRegister r) (Value.Cell P) := by
  refine active_bind_ensures fun m f rest hm hframes => ?_
  cases hv : f.registers[r.toNat]? with
  | none => exact .throw hm _
  | some v => exact .pure hm (hS.cells hm hframes v (Array.mem_of_getElem? hv))

/-- What is read was not moved away. -/
theorem register_ensures (r : Reg) : Ensures S (register r) P := by
  refine .bind (rawRegister_ensures hS r) fun v hv => ?_
  split
  · exact .violate _
  next hmoved => exact .pure (hv.of_not_moved (Bool.eq_false_iff.2 hmoved))

/-- A value with the property can be written. -/
theorem setRegister_ensures (r : Reg) {v : Value} (hv : v.Cell P) :
    Ensures S (setRegister r v) fun _ => True := by
  refine active_bind_ensures fun m f rest hm hframes => ?_
  split
  · exact hS.setRegisters hm hframes (setIfInBounds_cells (hS.cells hm hframes) _ hv)
      (Nat.le_of_eq (Array.size_setIfInBounds ..).symm)
  · exact .throw hm _

omit hS in
/-- Counting registers changes nothing. -/
theorem offsetRegister_ensures (base : Reg) (n : Nat) :
    Ensures S (offsetRegister base n) fun _ => True := by
  rw [offsetRegister]
  split
  · exact .pure trivial
  · exact .violate _

/-- Arguments have the property, since moved values are refused. -/
theorem argumentsFrom_ensures (base : Reg) (count start : Nat) :
    Ensures S (argumentsFrom base start count) fun vs => ∀ v ∈ vs, P v := by
  induction count generalizing start with
  | zero => exact .pure (List.forall_mem_nil _)
  | succ count ih =>
    exact .bind (offsetRegister_ensures base start) fun r _ => .bind (register_ensures hS r)
      fun v hv => .bind (ih (start + 1)) fun vs hvs => .pure (List.forall_mem_cons.2 ⟨hv, hvs⟩)

/-- All arguments of a call have the property. -/
theorem arguments_ensures (base : Reg) (count : Nat) :
    Ensures S (arguments base count) fun vs => ∀ v ∈ vs, P v :=
  argumentsFrom_ensures hS base count 0

include hP in

/-- A cast refuses what was moved away, and the type takes what it gives as it is. -/
theorem tryCast_ensures (ty : Ty) {v : Value} (hv : v.Cell P) :
    Ensures S (tryCast ty v) fun r => ∀ w, r = .ok w → P w ∧ ty.Leaves w := by
  refine .get_bind fun m hm => ?_
  cases hcast : ty.cast v m.world.supply with
  | error e => exact .pure hm nofun
  | ok r =>
    obtain ⟨w, supply⟩ := r
    refine ⟨hS.supply hm supply, fun r hr w' hw' => ?_⟩
    obtain rfl := Except.ok.inj hr
    obtain rfl := Except.ok.inj hw'
    exact ⟨hP.cast hv hcast, Ty.cast_leaves hcast⟩

include hP in
/-- A cast that fails raises an error, so its answer is a value that the type takes as it is. -/
theorem cast_ensures (ty : Ty) {v : Value} (hv : v.Cell P) :
    Ensures S (cast ty v) fun w => P w ∧ ty.Leaves w := by
  refine .bind (tryCast_ensures hP hS ty hv) fun r hr => ?_
  cases r with
  | ok w => exact .pure (hr w rfl)
  | error e => exact .raise _

/-! ### Operands and results -/

/-- Reading an integer changes nothing. -/
theorem intRegister_ensures (r : Reg) : Ensures S (intRegister r) fun _ => True := by
  refine .bind (register_ensures hS r) fun v _ => ?_
  split
  · exact .pure trivial
  · exact .mismatch _ _

omit hS in
/-- Taking a value for a number changes nothing. -/
theorem asFloat_ensures (v : Value) : Ensures S (asFloat v) fun _ => True := by
  rw [asFloat]
  split
  · exact .pure trivial
  · exact .mismatch _ _

/-- Reading a number changes nothing. -/
theorem floatRegister_ensures (r : Reg) : Ensures S (floatRegister r) fun _ => True :=
  .bind (register_ensures hS r) fun v _ => asFloat_ensures v

/-- Reading a truth value changes nothing. -/
theorem boolRegister_ensures (r : Reg) : Ensures S (boolRegister r) fun _ => True := by
  refine .bind (register_ensures hS r) fun v _ => ?_
  split
  · exact .pure trivial
  · exact .mismatch _ _

/-- Asking for a length changes nothing. -/
theorem lengthOf_ensures (r : Reg) : Ensures S (lengthOf r) fun _ => True := by
  refine .bind (register_ensures hS r) fun v _ => ?_
  split
  · exact .pure trivial
  · exact .mismatch _ _

/-- Reading a key changes nothing. -/
theorem keyRegister_ensures (r : Reg) : Ensures S (keyRegister r) fun _ => True := by
  refine .bind (register_ensures hS r) fun v _ => ?_
  split
  · exact .pure trivial
  · exact .mismatch _ _

include hP in
/-- The values that a closure is bound to have the property, as the closure has. -/
theorem funcRegister_ensures (r : Reg) :
    Ensures S (funcRegister r) fun closure => ∀ v ∈ closure.2, P v := by
  refine .bind (register_ensures hS r) fun v hv => ?_
  cases v with
  | func id block bindings => exact .pure (hP.parts hv)
  | _ => exact .mismatch _ _

omit hS in
/-- Comparing changes nothing. -/
theorem isLess_ensures (a b : Value) : Ensures S (isLess a b) fun _ => True := by
  have hfloats : Ensures S (do let x ← asFloat a; return decide (x < (← asFloat b)))
      fun _ => True :=
    .bind (asFloat_ensures a) fun x _ => .bind (asFloat_ensures b) fun y _ => .pure trivial
  unfold isLess
  split
  · exact .pure trivial
  · exact .pure trivial
  · exact hfloats

omit hS in
/-- Finding a position changes nothing. -/
theorem position_ensures (index : Value) (length : Nat) :
    Ensures S (position index length) fun _ => True := by
  unfold position
  split
  · split
    · exact .pure trivial
    · exact .raise _
  · exact .mismatch _ _

/-- Looking at a condition changes nothing. -/
theorem isTaken_ensures (cond : Condition) : Ensures S (isTaken cond) fun _ => True := by
  cases cond with
  | always => exact .pure trivial
  | ifTrue cond => exact boolRegister_ensures hS cond
  | ifFalse cond => exact .bind (boolRegister_ensures hS cond) fun _ _ => .pure trivial
  | ifDone index container =>
    exact .bind (intRegister_ensures hS index) fun _ _ =>
      .bind (lengthOf_ensures hS container) fun _ _ => .pure trivial

omit hS in
/-- What is found in a pool is one of its entries. -/
theorem entry_ensures (pool : Pool) (entries : Array α) (index : UInt16) :
    Ensures S (entry pool entries index) (· ∈ entries) := by
  rw [entry]
  split
  next a ha => exact .pure (Array.mem_of_getElem? ha)
  next => exact .violate _

include hP

/-- What operators compute has no parts, so it has the property. -/
theorem combine_ensures (op : BinaryOp) (lhs rhs : Reg) : Ensures S (combine op lhs rhs) P := by
  have hints : ∀ f, Ensures S (onInts f lhs rhs) P := fun f =>
    .bind (intRegister_ensures hS lhs) fun _ _ => .bind (intRegister_ensures hS rhs) fun _ _ =>
      .pure (hP.atom rfl rfl rfl)
  have hfloats : ∀ f, Ensures S (onFloats f lhs rhs) P := fun f =>
    .bind (floatRegister_ensures hS lhs) fun _ _ => .bind (floatRegister_ensures hS rhs)
      fun _ _ => .pure (hP.atom rfl rfl rfl)
  cases op with
  | addInt | subInt | mulInt => exact hints _
  | addFloat | subFloat | mulFloat => exact hfloats _
  | divInt =>
    refine .bind (intRegister_ensures hS lhs) fun a _ =>
      .bind (intRegister_ensures hS rhs) fun b _ => ?_
    split
    · exact .raise _
    · exact .pure (hP.atom rfl rfl rfl)
  | divFloat =>
    refine .bind (floatRegister_ensures hS lhs) fun a _ =>
      .bind (floatRegister_ensures hS rhs) fun b _ => ?_
    split
    · exact .raise _
    · exact .pure (hP.atom rfl rfl rfl)
  | equals =>
    exact .bind (register_ensures hS lhs) fun a _ => .bind (register_ensures hS rhs) fun b _ =>
      .pure (hP.atom rfl rfl rfl)
  | lessThan =>
    exact .bind (register_ensures hS lhs) fun a _ => .bind (register_ensures hS rhs) fun b _ =>
      .bind (isLess_ensures a b) fun _ _ => .pure (hP.atom rfl rfl rfl)

/-- The parts of a container have the property. -/
theorem readIndex_ensures (container index : Reg) :
    Ensures S (readIndex container index) P := by
  refine .bind (register_ensures hS container) fun target htarget =>
    .bind (register_ensures hS index) fun i _ => ?_
  cases target with
  | map id entries =>
    refine .pure (hP.getD fun v hv => ?_)
    obtain ⟨k, _, hget⟩ := Option.bind_eq_some_iff.1 hv
    exact (hP.entries htarget).get? hget
  | list | str | record =>
    dsimp only
    split
    next n =>
      split
      · exact .pure hP.null
      · exact .bind (allocate_ensures hS (Q := fun v? => P (v?.getD .null))
          fun supply => hP.item? htarget _ supply) fun _ hv => .pure hv
    next => exact .mismatch _ _
  | _ => exact .mismatch _ _

/-- What is read from the state has the property, or is null. -/
theorem readState_ensures (name : String) : Ensures S (readState name) P := by
  refine active_bind_ensures fun m f rest hm hframes => .pure hm ?_
  split
  · exact hP.child (hS.incoming hm hframes) _
  · exact hP.null

/-! ### Instructions inside a frame -/

/-- A number is written back, which has no parts. -/
theorem increment_ensures (r : Reg) : Ensures S (increment r) fun _ => True := by
  refine .bind (rawRegister_ensures hS r) fun v _ => ?_
  split
  · exact setRegister_ensures hS r (.inr (hP.atom rfl rfl rfl))
  · exact setRegister_ensures hS r (.inr (hP.atom rfl rfl rfl))
  · exact .mismatch _ _

/-- A container with a part exchanged is written back. -/
theorem writeIndex_ensures (container index src : Reg) :
    Ensures S (writeIndex container index src) fun _ => True := by
  refine .bind (register_ensures hS src) fun item hitem => .bind (register_ensures hS index)
    fun i _ => .bind (rawRegister_ensures hS container) fun target htarget => ?_
  have hwrite : ∀ {g : Fresh Value}, (∀ n, P (g n).1) →
      Ensures S (allocate g >>= setRegister container) fun _ => True :=
    fun hg => .bind (allocate_ensures hS hg) fun _ hv => setRegister_ensures hS container (.inr hv)
  have hset : ∀ {items : List Value} {w : Value} (j : Nat), (∀ v ∈ items, P v) → P w →
      ∀ v ∈ items.set j w, P v := by
    intro items w j hitems hw v hv
    rcases List.mem_or_eq_of_mem_set hv with hold | rfl
    · exact hitems v hold
    · exact hw
  cases target with
  | map id entries =>
    dsimp only
    split
    next k _ =>
      exact hwrite fun n => hP.map ((hP.entries (htarget.of_not_moved rfl)).insert hitem) n
    next => exact .mismatch _ _
  | list id items =>
    exact .bind (position_ensures i _) fun j _ =>
      hwrite fun n => hP.list (hset j (hP.parts (htarget.of_not_moved rfl)) hitem) n
  | record id type fields =>
    -- a field keeps its declared type: the item is cast to it first
    refine .bind (position_ensures i _) fun j _ => ?_
    split
    next name ty hty =>
      exact .bind (cast_ensures hP hS ty (.inr hitem)) fun w hw => hwrite fun n =>
        hP.write (htarget.of_not_moved rfl) hty hw.2 hw.1
    next => exact .raise _
  | _ => exact .mismatch _ _

/-- A list with a value more is written back. -/
theorem append_ensures (list src : Reg) : Ensures S (append list src) fun _ => True := by
  refine .bind (register_ensures hS src) fun item hitem =>
    .bind (rawRegister_ensures hS list) fun target htarget => ?_
  cases target with
  | list id items =>
    have hitems : ∀ v ∈ items ++ [item], P v := List.forall_mem_append.2
      ⟨hP.parts (htarget.of_not_moved rfl), List.forall_mem_singleton.2 hitem⟩
    exact .bind (allocate_ensures hS fun n => hP.list hitems n) fun v hv =>
      setRegister_ensures hS list (.inr hv)
  | _ => exact .mismatch _ _

omit hP in
/-- The value goes to another register, and its own is marked. -/
theorem move_ensures (dst src : Reg) : Ensures S (move dst src) fun _ => True := by
  rw [move]
  split
  · exact .bind (register_ensures hS src) fun v hv =>
      .bind (setRegister_ensures hS src .moved) fun _ _ => setRegister_ensures hS dst (.inr hv)
  · exact .pure trivial

omit hP in
/-- Registers exchange what they hold, moved values included. -/
theorem swap_ensures (a b : Reg) : Ensures S (swap a b) fun _ => True := by
  refine active_bind_ensures fun m f rest hm hframes => ?_
  have hcells := hS.cells hm hframes
  split
  next x y hx hy =>
    exact hS.setRegisters hm hframes (setIfInBounds_cells
      (setIfInBounds_cells hcells _ (hcells y (Array.mem_of_getElem? hy))) _
      (hcells x (Array.mem_of_getElem? hx))) (by simp)
  next => exact .throw hm _

omit hP in
/-- Values are written to registers one after the other. -/
theorem spread_ensures (first : Reg) (i : Nat) {vs : List Value} (hvs : ∀ v ∈ vs, P v) :
    Ensures S (spread first i vs) fun _ => True := by
  induction vs generalizing i with
  | nil => exact .pure trivial
  | cons v rest ih =>
    obtain ⟨hv, hrest⟩ := List.forall_mem_cons.1 hvs
    exact .bind (offsetRegister_ensures first i) fun r _ =>
      .bind (setRegister_ensures hS r (.inr hv)) fun _ _ => ih (i + 1) hrest

omit hP in
/-- Bindings have the property, and so they may be written to registers. -/
theorem splatBindings_ensures (first : Reg) (count : UInt8) :
    Ensures S (splatBindings first count) fun _ => True := by
  refine active_bind_ensures fun m f rest hm hframes => ?_
  dsimp only
  split
  · exact spread_ensures hS first 0 (hS.bindings hm hframes) m hm
  · exact .throw hm _

/-- Collected inputs go into a list, so they must not have been moved away. -/
theorem collectVarargs_meets (first : Reg) (hm : S m)
    (hinputs : ∀ f rest, m.stack.frames = f :: rest →
      ∀ v ∈ f.registers.extract first.toNat (max f.inputCount first.toNat), P v) :
    Meets (collectVarargs first) m S fun _ => True := by
  refine active_bind_meets hm fun f rest hframes => ?_
  dsimp only
  split
  · exact .throw hm _
  split
  · exact .throw hm _
  have hlist : Meets (allocate (Value.newList (f.registers.extract first.toNat
      (max f.inputCount first.toNat)).toList)) m (fun n => S n ∧ n.stack.frames = f :: rest) P :=
    ⟨⟨hS.supply hm _, hframes⟩, fun v hv => Except.ok.inj hv ▸ hP.list
      (fun w hw => hinputs f rest hframes w (Array.mem_toList_iff.1 hw)) _⟩
  refine .bind hlist (fun n hn => hn.1) fun list n hv hn => ?_
  refine hS.setRegisters hn.1 hn.2 (setIfInBounds_cells (fun v hv => ?_) _ (.inr hv)) (by simp)
  -- the registers whose values went into the list hold null now
  obtain ⟨i, hi, rfl⟩ := Array.mem_mapIdx.1 hv
  split
  · exact .inr hP.null
  · exact hS.cells hm hframes _ (Array.getElem_mem hi)

omit hP in

/-- The registers of the active frame or its wish to be retained are changed. -/
theorem modifyActive_ensures (registers : Array Value → Array Value) (retain : Bool → Bool)
    {change : Frame → Frame}
    (hchange : ∀ f, change f = { f with registers := registers f.registers, retain := retain f.retain })
    (hregisters : ∀ rs, (∀ v ∈ rs, v.Cell P) → ∀ v ∈ registers rs, v.Cell P)
    (hsize : ∀ rs, rs.size ≤ (registers rs).size) :
    Ensures S (modifyActive change) fun _ => True := by
  refine active_bind_ensures fun m f rest hm hframes => ?_
  rw [Meets, setActive_apply hframes, hchange]
  exact ⟨hS.update _ hm hframes (hregisters _ (hS.cells hm hframes)) (hsize _), fun _ _ => trivial⟩

/-- **Instructions inside a frame stay in a closed set**, saves and jumps aside. -/
theorem perform_inside_ensures {host : Embedder} {resume : Action Outcome} {program : Program}
    (hconstants : ∀ c ∈ program.constants, P c) (next : Nat) {i : Instruction}
    (hi : i.staysInside = true) (hjump : i.isJump = false)
    (hinputs : ∀ first, i = .varargsToList first → ∀ m f rest, S m → m.stack.frames = f :: rest →
      ∀ v ∈ f.registers.extract first.toNat (max f.inputCount first.toNat), P v) :
    Ensures S (perform host resume program next i) fun _ => True := by
  -- most instructions compute a value with the property and write it to a register
  have hset : ∀ {a : Action Value} (dst : Reg), Ensures S a P →
      Ensures S (a >>= setRegister dst) fun _ => True :=
    fun dst ha => .bind ha fun v hv => setRegister_ensures hS dst (.inr hv)
  cases i with
  | loadConst dst idx => exact hset dst ((entry_ensures _ _ idx).mono hconstants)
  | loadInt dst value => exact setRegister_ensures hS dst (.inr (hP.atom rfl rfl rfl))
  | setNull dst => exact setRegister_ensures hS dst (.inr hP.null)
  | setEmptyList dst =>
    exact hset dst (allocate_ensures hS fun n => hP.list (List.forall_mem_nil _) n)
  | copy dst src => exact hset dst (register_ensures hS src)
  | move dst src => exact move_ensures hS dst src
  | swap a b => exact swap_ensures hS a b
  | cast dst src type =>
    exact .bind (entry_ensures _ _ type) fun ty _ => .bind (register_ensures hS src) fun v hv =>
      hset dst ((cast_ensures hP hS ty (.inr hv)).mono fun _ hw => hw.1)
  | binary op dst lhs rhs => exact hset dst (combine_ensures hP hS op lhs rhs)
  | increment r => exact increment_ensures hP hS r
  | getIndex dst container index => exact hset dst (readIndex_ensures hP hS container index)
  | setIndex container index src => exact writeIndex_ensures hP hS container index src
  | append list src => exact append_ensures hP hS list src
  | length dst container =>
    exact .bind (lengthOf_ensures hS container) fun n _ =>
      setRegister_ensures hS dst (.inr (hP.atom rfl rfl rfl))
  | makeFunc dst block first count =>
    exact .bind (entry_ensures _ _ block) fun b _ => .bind (arguments_ensures hS first _)
      fun bindings hbindings => hset dst (allocate_ensures hS fun n => hP.func hbindings n b)
  | splatBindings first count => exact splatBindings_ensures hS first count
  | varargsToList first =>
    exact fun m hm => collectVarargs_meets hP hS first hm fun f rest => hinputs first rfl m f rest hm
  -- a frame only grows, and what it grows by is null
  | growFrame size =>
    refine modifyActive_ensures hS (fun rs =>
      if rs.size < size.toNat then Frame.resized rs size.toNat else rs) id (fun f => ?_)
      (fun rs hrs => ?_) fun rs => ?_
    · split <;> rfl
    · split
      · exact resized_cells hP hrs _
      · exact hrs
    · split
      next hlt => exact (Frame.size_resized rs _).symm ▸ Nat.le_of_lt hlt
      next => exact Nat.le_refl _
  | getState dst name =>
    exact .bind (entry_ensures _ _ name) fun s _ => hset dst (readState_ensures hP hS s)
  | retainFrame =>
    exact modifyActive_ensures hS id (fun _ => true) (fun _ => rfl) (fun _ h => h) fun _ => Nat.le_refl _
  | jump => exact nomatch hjump
  | call | callKeyed | callFunc | callFuncApply | callMethod | native | saveState | pause | ret =>
    exact nomatch hi

/-! ### Calls -/

/-- Arguments keep the property when they are cast. -/
theorem castArguments_ensures (s : Signature) (i : Nat) {args : List Value} (hargs : ∀ v ∈ args, P v) :
    Ensures S (castArguments s i args) fun vs => ∀ v ∈ vs, P v := by
  induction args generalizing i with
  | nil => exact .pure (List.forall_mem_nil _)
  | cons v rest ih =>
    obtain ⟨hv, hrest⟩ := List.forall_mem_cons.1 hargs
    have hdone : ∀ w, P w → Ensures S (do return w :: (← castArguments s (i + 1) rest))
        fun vs => ∀ v ∈ vs, P v :=
      fun w hw => .bind (ih (i + 1) hrest) fun vs hvs => .pure (List.forall_mem_cons.2 ⟨hw, hvs⟩)
    rw [castArguments]
    split
    next p _ =>
      split
      · exact .bind (.pure hv) hdone
      · exact .bind (cast_ensures hP hS p.type (.inr hv)) fun w hw => hdone w hw.1
    next => exact .bind (.pure hv) hdone

/-- Outputs are cast before anything changes, and a cast refuses what was moved away. -/
theorem castOutputs_ensures (program : Program) {registers : Array Value}
    (hregisters : ∀ v ∈ registers, v.Cell P) (i : Nat) (outputs : List Output) :
    Ensures S (castOutputs program registers i outputs) fun vs => ∀ v ∈ vs, P v := by
  induction outputs generalizing i with
  | nil => exact .pure (List.forall_mem_nil _)
  | cons o rest ih =>
    have hdone : ∀ w, P w → Ensures S (do return w :: (← castOutputs program registers (i + 1) rest))
        fun vs => ∀ v ∈ vs, P v :=
      fun w hw => .bind (ih (i + 1)) fun vs hvs => .pure (List.forall_mem_cons.2 ⟨hw, hvs⟩)
    rw [castOutputs]
    split
    next v hv =>
      dsimp only
      split
      · exact .bind (.pure hP.null) hdone
      · refine .bind (tryCast_ensures hP hS _ (hregisters v (Array.mem_of_getElem? hv))) fun r hr => ?_
        cases r with
        | ok w => exact .bind (.pure (hr w rfl).1) hdone
        | error e => exact .bind (Q := P) (.raise _) hdone
    next => exact .violate _

omit hP hS in

/-- A send looks a name up, which may be remembered. -/
theorem sendLine_ensures (hcaches : ∀ {m}, S m → ∀ caches,
      S { m with stack := { m.stack with caches := caches } }) (send : Send) (receiver : Value) :
    Ensures S (sendLine send receiver) fun _ => True := by
  refine .get_bind fun m hm => ?_
  dsimp only
  split
  · exact ⟨hcaches hm _, fun _ _ => trivial⟩
  · exact .pure hm trivial

/-- **Calls of every kind lead where entering blocks does.** -/
theorem perform_call_leads (hcaches : ∀ {m}, S m → ∀ caches,
      S { m with stack := { m.stack with caches := caches } })
    (hheld : ∀ {m}, S m → ∀ {receiver name v}, P receiver →
      heldValue? m.world receiver name = some v → P v)
    (hT : ∀ m, S m → T m)
    (henter : ∀ block args link, (∀ v ∈ args, P v) → (∀ v ∈ link.bindings, P v) →
      Leads S T (enter block args link))
    {host : Embedder} {resume : Action Outcome} {program : Program} (next : Nat) {i : Instruction}
    (hi : i.isCall = true) : Leads S T (perform host resume program next i) := by
  cases i with
  | call block base argc out =>
    exact (entry_ensures _ _ block).bind_leads hT fun b _ => (arguments_ensures hS base _).bind_leads
      hT fun args hargs => henter b args _ hargs (List.forall_mem_nil _)
  | callKeyed block base argc out key =>
    exact (entry_ensures _ _ block).bind_leads hT fun b _ => (keyRegister_ensures hS key).bind_leads
      hT fun k _ => (arguments_ensures hS base _).bind_leads hT fun args hargs =>
        henter b args _ hargs (List.forall_mem_nil _)
  | callFunc base argc out =>
    exact (funcRegister_ensures hP hS base).bind_leads hT fun closure hclosure =>
      (offsetRegister_ensures base 1).bind_leads hT fun first _ =>
        (arguments_ensures hS first _).bind_leads hT fun args hargs =>
          henter closure.1 args _ hargs hclosure
  -- the arguments are the items of a list, which have the property as its parts
  | callFuncApply func args out =>
    refine (funcRegister_ensures hP hS func).bind_leads hT fun closure hclosure =>
      (register_ensures hS args).bind_leads hT fun list hlist => ?_
    cases list with
    | list id items => exact henter closure.1 items _ (hP.parts hlist) hclosure
    | _ => exact fun m hm => hT m hm
  | callMethod name base argc out site =>
    refine (entry_ensures _ _ name).bind_leads hT fun s _ =>
      (register_ensures hS base).bind_leads hT fun receiver hreceiver =>
        (sendLine_ensures hcaches _ receiver).bind_leads hT fun line _ => ?_
    have hfail : ∀ e, Leads S T (raise e : Action Unit) := fun e m hm => hT m hm
    -- a send may also find a value that a module holds, and then no block is entered
    have hread : Leads S T (sendHeld s out receiver) := by
      intro m hm
      rw [sendHeld_apply]
      cases hv : heldValue? m.world receiver s with
      | none => exact hT m hm
      | some v => exact hT _ (setRegister_ensures hS out (.inr (hheld hm hreceiver hv)) m hm).1
    split
    · exact (arguments_ensures hS base _).bind_leads hT fun args hargs =>
        henter _ args _ hargs (List.forall_mem_nil _)
    · exact (offsetRegister_ensures base 1).bind_leads hT fun first _ =>
        (arguments_ensures hS first _).bind_leads hT fun args hargs =>
          henter _ args _ hargs (List.forall_mem_nil _)
    · exact hread
    · exact hread
    · exact hfail _
  | _ => exact nomatch hi

end

end Machine

end BlockMachine

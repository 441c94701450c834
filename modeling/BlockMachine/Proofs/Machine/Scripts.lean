import BlockMachine.Machine.Natives
import BlockMachine.Proofs.Failing

namespace BlockMachine

/-!
# Functions of the embedder as scripts

The functions that an embedder installs do nothing that a script could not do, so what is proved of
scripts holds of them.

* `HostFunction.script` is the script of a function;
* `Machine.invokeHost_eq` says that the function follows it;
* `NativeTable.Only` holds of tables with natives of one kind.
-/

namespace Script

variable {α : Type}

/-- Looks at the machine and goes on. -/
def looking (next : Machine → Script α) : Script α :=
  .op .look fun
    | .ok m => next m
    | .error e => .done (.error e)

/-- Performs one operation and reports what went wrong with it. -/
def only {β : Type} (o : HostOp β) : Script Unit :=
  .op o fun r => .done (r.map fun _ => ())

end Script

open Machine Script in
/-- What a function of the embedder does. -/
def HostFunction.script : HostFunction → Script Unit
  | .one => only (.setOutput 0 (.int 1))
  | .two => only (.setOutput 0 (.int 2))
  | .softFail => only (.raise "soft")
  | .hardFail => .done (.error (.hostRaised "hard"))
  | .countInputs => looking fun m => only (.setOutput 0 (.int (Int64.ofNat m.inputCount)))
  | .cross => looking fun m =>
    .op (.setOutput 0 ((m.input? 1).getD .null)) fun
      | .ok _ => only (.setOutput 1 ((m.input? 0).getD .null))
      | .error e => .done (.error e)
  | .cancel => only .cancel
  | .shrink => only (.resize 1)
  | .grow => only (.resize 10)
  | .poke => only (.setInput 0 (.int 77))
  | .pokeFar => only (.setInput 1000 .null)
  | .pop => only .pop
  | .reset => only (.reset false)
  | .run => only .run
  | .enter => withBlock fun b => only (.push b [])
  | .call => withBlock fun b => only (.call b [])
  | .migrate => withBlock fun b => only (.migrateTo b [])
  | .replace => withBlock fun b =>
    .op (.replaceBlock b { name := "swapped" } [.code (.emit .ret)]) fun
      | .ok (.ok _) => .done (.ok ())
      | .ok (.error e) => .done (.error (.compile e))
      | .error e => .done (.error e)
  | .setState => looking fun m => only (.setState ((m.input? 0).getD .null))
  | .envBump => looking fun m =>
    let hits := ((Entries.get? (.name "hits") m.stack.env).bind (·.int?)).getD 0
    only (.setEnv (.name "hits") (.int (hits + 1)))
where
  /-- Goes on with the block that input 0 numbers. -/
  withBlock (next : BlockId → Script Unit) : Script Unit :=
    looking fun m =>
      match (m.input? 0).bind (·.int?) with
      | some i => next i.toUInt64.toUInt32.toNat
      | none => .done (.error (.hostRaised "no block input"))

/-! ### Tables of natives -/

/-- All natives in a table are of a kind. -/
def NativeTable.Only (p : Native → Bool) (t : NativeTable) : Prop :=
  ∀ entry ∈ t.entries, p entry.2 = true

namespace NativeTable.Only

variable {p : Native → Bool} {t : NativeTable} {f : Native}

/-- An empty table has no natives at all. -/
theorem empty : Only p {} :=
  fun _ h => absurd h (Array.not_mem_empty _)

/-- A native of the kind may take the place of another. -/
theorem set (h : t.Only p) (hf : p f = true) (name : String) (i : Nat) :
    Only p { t with entries := t.entries.setIfInBounds i (name, f) } := by
  intro entry hentry
  rcases Array.mem_or_eq_of_mem_setIfInBounds hentry with hold | rfl
  · exact h entry hold
  · exact hf

/-- A native of the kind may be registered. -/
theorem register (h : t.Only p) (hf : p f = true) (name : String) :
    (t.register name f).2.Only p := by
  rw [NativeTable.register]
  split
  · exact h.set hf name _
  · split
    · intro entry hentry
      rcases Array.mem_push.1 hentry with hold | rfl
      · exact h entry hold
      · exact hf
    · exact h

/-- A native of the kind may be patched in. -/
theorem patch (h : t.Only p) (hf : p f = true) (name : String) : (t.patch name f).2.Only p := by
  rw [NativeTable.patch]
  split
  · exact h.set hf name _
  · exact h

/-- Several natives of the kind may be registered, one after the other. -/
theorem registerAll (h : t.Only p) {natives : List (String × Native)}
    (hnatives : ∀ entry ∈ natives, p entry.2 = true) : (t.registerAll natives).Only p := by
  induction natives generalizing t with
  | nil => exact h
  | cons entry natives ih =>
    obtain ⟨hentry, hrest⟩ := List.forall_mem_cons.1 hnatives
    exact ih (h.register hentry entry.1) hrest

end NativeTable.Only

/-- What the table is after a registration. -/
theorem World.registerNative_table (name : String) (f : Native) (w : World) :
    (registerNative name f w).2 = { w with natives := (w.natives.register name f).2 } := by
  simp only [registerNative, Failing.bind_apply, Failing.get_apply, Failing.set_apply]
  cases (w.natives.register name f).1 <;> rfl

/-- What the table is after a native was patched. -/
theorem World.patchNative_table (name : String) (f : Native) (w : World) :
    (patchNative name f w).2 = { w with natives := (w.natives.patch name f).2 } := by
  simp only [patchNative, Failing.bind_apply, Failing.get_apply, Failing.set_apply]
  cases (w.natives.patch name f).1 <;> rfl

/-! ### Functions of the embedder -/

namespace Machine

variable {α : Type}

/-- A script that looks at the machine first sees no caches. -/
theorem perform_looking (resume : Action Outcome) (next : Machine → Script α) :
    (Script.looking next).perform resume = get >>= fun m => (next m.uncached).perform resume := by
  rw [Script.looking, Script.perform]
  rfl

/-- A script of one operation performs the operation. -/
theorem perform_only (resume : Action Outcome) {β : Type} (o : HostOp β) :
    (Script.only o).perform resume = o.perform resume >>= fun _ => pure () := by
  funext m
  simp only [Script.only, Script.perform, Failing.bind_apply, attempt]
  rcases o.perform resume m with ⟨_ | _, m'⟩
  next fault => cases fault <;> rfl
  next => rfl

/-- A script that finds out its block first reads the input that names it. -/
theorem perform_withBlock (resume : Action Outcome) (next : BlockId → Script Unit) :
    (HostFunction.script.withBlock next).perform resume =
      blockInput >>= fun b => (next b).perform resume := by
  funext m
  rw [HostFunction.script.withBlock, perform_looking]
  simp only [blockInput, Failing.bind_apply, Failing.get_apply]
  change (match (m.input? 0).bind (·.int?) with
    | some i => next i.toUInt64.toUInt32.toNat
    | none => .done (.error (.hostRaised "no block input"))).perform resume m = _
  cases (m.input? 0).bind (·.int?) <;> rfl

/-- Nothing is done behind a computation without a result. -/
theorem bind_unit (a : Action Unit) : (a >>= fun _ => pure ()) = a := by
  funext m
  rw [Failing.bind_apply]
  rcases a m with ⟨_ | _, m'⟩ <;> rfl

/-- **Functions of the embedder are scripts.** -/
theorem invokeHost_eq (resume : Action Outcome) (f : HostFunction) :
    invokeHost resume f = f.script.perform resume := by
  have hunit : ∀ o : HostOp Unit, (Script.only o).perform resume = o.perform resume :=
    fun o => (perform_only resume o).trans (bind_unit _)
  cases f with
  | one | two | cancel | shrink | grow | poke | pokeFar | reset =>
    rw [HostFunction.script, hunit]
    rfl
  | softFail | pop | run =>
    rw [HostFunction.script, perform_only]
    rfl
  | hardFail =>
    rw [HostFunction.script, Script.perform]
    rfl
  | countInputs | setState | envBump =>
    rw [HostFunction.script, perform_looking]
    simp only [hunit]
    rfl
  | cross =>
    funext m
    rw [HostFunction.script, perform_looking]
    simp only [invokeHost, Script.perform, HostOp.perform, Failing.bind_apply, Failing.get_apply,
      attempt]
    have hinput : ∀ i, m.uncached.input? i = m.input? i := fun _ => rfl
    simp only [hinput]
    rcases setOutput 0 ((m.input? 1).getD .null) m with ⟨_ | _, m'⟩
    next fault => cases fault <;> rfl
    next =>
      dsimp only
      rw [hunit]
      rfl
  | enter | migrate =>
    rw [HostFunction.script, perform_withBlock]
    simp only [hunit]
    rfl
  | call =>
    rw [HostFunction.script, perform_withBlock]
    simp only [perform_only]
    rfl
  | replace =>
    funext m
    rw [HostFunction.script, perform_withBlock]
    simp only [invokeHost, Failing.bind_apply]
    rcases blockInput m with ⟨_ | b, m'⟩
    · rfl
    · simp only [onWorld, Script.perform, HostOp.perform, tryWorld, attempt, Failing.bind_apply,
        Failing.get_apply, Failing.pure_apply]
      rcases World.replaceBlock b { name := "swapped" } [.code (.emit .ret)] m'.world with
        ⟨_ | _, w⟩ <;> rfl

end Machine

end BlockMachine

import BlockMachine.Machine.Natives
import BlockMachine.Proofs.Machine.MirrorSteps

namespace BlockMachine

/-!
# Default natives side by side

Two machines whose active frames are alike call the same default native in step, as long as they
agree in what natives use besides frames: random numbers, the environment and channels.

* `Machine.Serving` says what a relation has to allow;
* `Machine.invoke_default_mirrors` is about all default natives.
-/

/-- Whether a native comes with every world. -/
def Native.isDefault : Native → Bool
  | .host _ | .installed _ => false
  | _ => true

namespace Machine

variable {α : Type} {lax : Fault → Prop} {S : Matching → Machine → Machine → Prop} {ρ : Matching}

/-! ### Arguments -/

section Reading

variable (hS : Reading S)
include hS

/-- The inputs of the active frames are alike. -/
theorem Reading.input? {m₁ m₂ : Machine} (hm : S ρ m₁ m₂) (i : Nat) :
    Option.Rel (Value.Like ρ) (m₁.input? i) (m₂.input? i) := by
  rcases hS.frames hm with ⟨h₁, h₂⟩ | ⟨f₁, rest₁, f₂, rest₂, h₁, h₂, hf⟩
  · rw [Machine.input?, Machine.input?, h₁, h₂]
    exact .none
  · rw [Machine.input?, Machine.input?, h₁, h₂]
    exact hf.registers i

/-- There are as many on both sides. -/
theorem Reading.inputCount {m₁ m₂ : Machine} (hm : S ρ m₁ m₂) : m₁.inputCount = m₂.inputCount := by
  rcases hS.frames hm with ⟨h₁, h₂⟩ | ⟨f₁, rest₁, f₂, rest₂, h₁, h₂, hf⟩
  · rw [Machine.inputCount, Machine.inputCount, h₁, h₂]
  · rw [Machine.inputCount, Machine.inputCount, h₁, h₂]
    exact hf.inputCount

/-- Natives find alike arguments. -/
theorem argument_mirrors (index : Nat) :
    Mirrors lax S ρ (argument index) (argument index) Value.Like := by
  refine .get_bind fun m₁ m₂ hm => ?_
  have hread := hS.input? hm index
  generalize m₁.input? index = x at hread
  generalize m₂.input? index = y at hread
  cases hread with
  | none => exact .error le_rfl hm
  | some hvw => exact .ok le_rfl hm hvw

/-- Natives read the same integer. -/
theorem intArgument_mirrors (index : Nat) :
    Mirrors lax S ρ (intArgument index) (intArgument index) Equally := by
  refine .bind (argument_mirrors hS index) fun ρ' _ v w hvw => ?_
  rw [hvw.int?_eq]
  split
  · exact .pure rfl
  · exact .mismatch _ hvw

/-- Natives read the same key. -/
theorem keyArgument_mirrors (index : Nat) (what : String) :
    Mirrors lax S ρ (keyArgument index what) (keyArgument index what) Equally := by
  refine .bind (argument_mirrors hS index) fun ρ' _ v w hvw => ?_
  rw [hvw.key?_eq]
  split
  · exact .pure rfl
  · exact .mismatch _ hvw

/-- What is printed of the inputs is the same. -/
theorem Reading.inputTexts {m₁ m₂ : Machine} (hm : S ρ m₁ m₂) :
    ((List.range m₁.inputCount).filterMap m₁.input?).map (·.text) =
      ((List.range m₂.inputCount).filterMap m₂.input?).map (·.text) := by
  rw [hS.inputCount hm]
  induction List.range m₂.inputCount with
  | nil => rfl
  | cons i is ih =>
    have hread := hS.input? hm i
    rw [List.filterMap_cons, List.filterMap_cons]
    generalize m₁.input? i = x at hread
    generalize m₂.input? i = y at hread
    cases hread with
    | none => exact ih
    | some hvw =>
      dsimp only
      rw [List.map_cons, List.map_cons, hvw.text_eq, ih]

end Reading

/-! ### What natives use -/

/-- Natives find the same outputs, random numbers and channels and the like on two machines. -/
structure Serving (lax : Fault → Prop) (S : Matching → Machine → Machine → Prop) : Prop extends
    Mirroring S where
  outputs : ∀ {ρ m₁ m₂}, S ρ m₁ m₂ → ∀ i, m₁.outputRegister? i = m₂.outputRegister? i
  prints : ∀ {ρ m₁ m₂}, S ρ m₁ m₂ → ∀ text : String, S ρ
    { m₁ with printed := m₁.printed ++ text } { m₂ with printed := m₂.printed ++ text }
  draws : ∀ {ρ m₁ m₂}, S ρ m₁ m₂ → m₁.stack.random = m₂.stack.random ∧ ∀ random, S ρ
    { m₁ with stack := { m₁.stack with random := random } }
    { m₂ with stack := { m₂.stack with random := random } }
  env : ∀ {ρ m₁ m₂}, S ρ m₁ m₂ → ∀ k, Option.Rel (Value.Like ρ)
    (Entries.get? k m₁.stack.env) (Entries.get? k m₂.stack.env)
  emits : ∀ {ρ v w} (channel : Key), Value.Like ρ v w →
    Mirrors lax S ρ (onStack (·.emit channel v)) (onStack (·.emit channel w)) Equally
  raises : ∀ {ρ} (message : String),
    Mirrors lax S ρ (raiseError message) (raiseError message) Equally

section Serving

variable (hS : Serving lax S)
include hS

/-- Natives set alike outputs. -/
theorem Serving.setOutput (index : Nat) {v w : Value} (hvw : v.Like ρ w) :
    Mirrors lax S ρ (setOutput index v) (setOutput index w) Anyhow :=
  setOutput_mirrors hS.toMirroring hS.outputs index hvw

/-- Natives print the same text, since alike values have one. -/
theorem printInputs_mirrors : Mirrors lax S ρ printInputs printInputs Anyhow := by
  refine .get_bind fun m₁ m₂ hm => ?_
  rw [hS.toReading.inputTexts hm]
  exact .ok le_rfl (hS.prints (hS.prints hm _) "\n") trivial

/-- A random draw gives the same on both machines. -/
theorem draw_mirrors (draw : Random → α × Random) :
    Mirrors lax S ρ (onStack fun s => ((draw s.random).1, { s with random := (draw s.random).2 }))
      (onStack fun s => ((draw s.random).1, { s with random := (draw s.random).2 })) Equally := by
  intro m₁ m₂ hm
  obtain ⟨hrandom, hdrawn⟩ := hS.draws hm
  have hsame : (draw m₁.stack.random).1 = (draw m₂.stack.random).1 := by rw [hrandom]
  refine .ok le_rfl ?_ hsame
  rw [hrandom]
  exact hdrawn _

/-- Natives draw the same number. -/
theorem drawRandom_mirrors (l : Libraries) :
    Mirrors lax S ρ (drawRandom l) (drawRandom l) Anyhow := by
  have hR := hS.toReading
  refine .get_bind fun m₁ m₂ hm => ?_
  dsimp only
  rw [hR.inputCount hm]
  split
  · refine Mirrors.bind (draw_mirrors hS l.float) (fun ρ' _ x y hxy => ?_) m₁ m₂ hm
    rw [show x = y from hxy]
    exact hS.setOutput 0 (.atom rfl)
  · refine Mirrors.bind (intArgument_mirrors hR 0) (fun ρ₁ _ lo lo' hlo => ?_) m₁ m₂ hm
    refine .bind (intArgument_mirrors hR 1) fun ρ₂ _ hi hi' hhi => ?_
    rw [show lo = lo' from hlo, show hi = hi' from hhi]
    split
    · refine .bind (draw_mirrors hS (l.int lo' hi')) fun ρ₃ _ n n' hn => ?_
      rw [show n = n' from hn]
      exact hS.setOutput 0 (.atom rfl)
    · refine .bind (hS.raises _) fun ρ₃ _ e e' he => ?_
      rw [show e = e' from he]
      exact .raise e'

/-- **Default natives go in step.** -/
theorem invoke_default_mirrors (host : Embedder) {resume₁ resume₂ : Action Outcome} {f : Native}
    (hf : f.isDefault = true) :
    Mirrors lax S ρ (invoke host resume₁ f) (invoke host resume₂ f) Anyhow := by
  have hR := hS.toReading
  cases f with
  | print => exact printInputs_mirrors hS
  | toText =>
    refine .bind (argument_mirrors hR 0) fun ρ₁ _ v w hvw => ?_
    rw [hvw.text_eq]
    exact .bind (allocate_mirrors hR.toDrawing fun hT h => Value.newStr_alike hT h w.text)
      fun _ _ _ _ h => hS.setOutput 0 h
  | length =>
    refine .bind (argument_mirrors hR 0) fun ρ₁ _ v w hvw => ?_
    rw [hvw.length?_eq]
    split
    · exact hS.setOutput 0 (.atom rfl)
    · exact .mismatch _ hvw
  | random => exact drawRandom_mirrors hS _
  | env =>
    refine .bind (keyArgument_mirrors hR 0 _) fun ρ₁ _ k k' hk => .getStack_bind fun m₁ m₂ hm => ?_
    rw [show k = k' from hk]
    exact hS.setOutput 0 (Value.Like.getD (hS.env hm k')) m₁ m₂ hm
  | error =>
    refine .bind (argument_mirrors hR 0) fun ρ₁ _ v w hvw => ?_
    rw [hvw.text_eq]
    refine .bind (hS.raises _) fun ρ₂ _ e e' he => ?_
    rw [show e = e' from he]
    exact .raise e'
  | hash =>
    refine .bind (argument_mirrors hR 0) fun ρ₁ _ v w hvw => ?_
    have hhash : host.libraries.hash v = host.libraries.hash w :=
      congrArg host.libraries.valueHash (hvw.fingerprintBy_eq host.libraries.entryHash)
    rw [hhash]
    exact hS.setOutput 0 (.atom rfl)
  | emit =>
    refine .bind (keyArgument_mirrors hR 0 _) fun ρ₁ _ k k' hk => ?_
    refine .bind (argument_mirrors hR 1) fun ρ₂ _ v w hvw => ?_
    rw [show k = k' from hk]
    exact .bind (hS.emits k' hvw) fun _ _ _ _ _ => .pure trivial
  | host g => exact nomatch hf
  | installed code => exact nomatch hf

end Serving

end Machine

end BlockMachine

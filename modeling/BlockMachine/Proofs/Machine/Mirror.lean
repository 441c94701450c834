import BlockMachine.Proofs.Machine.Frames
import BlockMachine.Proofs.Value.KeptAlike

namespace BlockMachine

/-!
# Two machines side by side

Two machines go through the same computation in step when each operation either gives alike
results on both or fails with the same fault on both. The relation between the two machines is a
parameter: which of their parts correspond is up to the result that is to be proved.

* `Machine.Mirrored` relates how two computations ended, `Machine.Mirrors` two computations that
  keep a relation between machines;
* `Machine.Drawing`, `Machine.Reading` and `Machine.Mirroring` say what a relation allows: taking
  buffer numbers, reading the active frame, and changing what it computes with;
* the rules that follow are one for each operation on the active frame.
-/

/-- Two programs differ in where they are filed and in the buffer numbers of their constants only. -/
structure Program.Like (ρ : Matching) (p q : Program) : Prop where
  version : p.version = q.version
  signature : p.signature = q.signature
  code : p.code = q.code
  constants : Registers.Like ρ p.constants q.constants
  blocks : p.blocks = q.blocks
  types : p.types = q.types
  names : p.names = q.names
  registers : p.registers = q.registers
  sourceMap : p.sourceMap = q.sourceMap

/-- Two frames compute with the same things. Where they hang in their stacks is left open, but for
    whether they carry state, and so is where their programs are filed and whether they ask for a
    snapshot. -/
structure Frame.Like (ρ : Matching) (f g : Frame) : Prop where
  block : f.block = g.block
  registers : Registers.Like ρ f.registers g.registers
  offset : f.pc.offset = g.pc.offset
  incoming : f.incoming.Like ρ g.incoming
  outgoing : Entries.Like ρ f.outgoing g.outgoing
  bindings : Items.Like ρ f.bindings g.bindings
  inputCount : f.inputCount = g.inputCount
  stateful : f.isStateful = g.isStateful

/-- What a frame keeps while it computes: all but its registers, its offset and whether it asks for
    a snapshot. -/
def Frame.role (f : Frame) : Frame :=
  { f with registers := #[], pc := { f.pc with offset := 0 }, retain := false }

/-- Frames stay alike under more links. -/
theorem Frame.Like.mono {ρ ρ' : Matching} {f g : Frame} (h : f.Like ρ g) (hle : ρ ≤ ρ') :
    f.Like ρ' g :=
  { h with
    registers := h.registers.mono hle
    incoming := h.incoming.mono hle
    outgoing := h.outgoing.mono hle
    bindings := h.bindings.mono hle }

/-- Registers are alike themselves. -/
theorem Registers.Like.refl (xs : Array Value) : Registers.Like .same xs xs := by
  intro i
  cases xs[i]? with
  | none => exact .none
  | some v => exact .some (Value.like_same.2 rfl)

/-- A program is alike itself. -/
theorem Program.Like.refl (p : Program) : p.Like .same p :=
  ⟨rfl, rfl, rfl, .refl p.constants, rfl, rfl, rfl, rfl, rfl⟩

/-- Programs stay alike under more links. -/
theorem Program.Like.mono {ρ ρ' : Matching} {p q : Program} (h : p.Like ρ q) (hle : ρ ≤ ρ') :
    p.Like ρ' q :=
  { h with constants := h.constants.mono hle }

/-- A frame is alike itself. -/
theorem Frame.Like.refl (f : Frame) : f.Like .same f where
  block := rfl
  registers := .refl f.registers
  offset := rfl
  incoming := Value.like_same.2 rfl
  outgoing := List.forall₂_same.2 fun _ _ => ⟨rfl, Value.like_same.2 rfl⟩
  bindings := List.forall₂_same.2 fun _ _ => Value.like_same.2 rfl
  inputCount := rfl
  stateful := rfl

/-- Registers that are alike under equal numbers are equal. -/
theorem Registers.like_same {xs ys : Array Value} (h : Registers.Like .same xs ys) : xs = ys := by
  apply Array.ext_getElem?
  intro i
  have hi := h i
  generalize xs[i]? = x at hi ⊢
  generalize ys[i]? = y at hi ⊢
  cases hi with
  | none => rfl
  | some hvw => rw [Value.like_same.1 hvw]

/-- A frame is its role and what it computes with. -/
theorem Frame.eq_of_role {f g : Frame} (hrole : f.role = g.role) (hregisters : f.registers = g.registers)
    (hoffset : f.pc.offset = g.pc.offset) (hretain : f.retain = g.retain) : f = g := by
  obtain ⟨_, _, _, _, ⟨_, _⟩, _, _, _, _, _, _, _, _⟩ := f
  obtain ⟨_, _, _, _, ⟨_, _⟩, _, _, _, _, _, _, _, _⟩ := g
  simp only [Frame.role, Frame.mk.injEq, Pc.mk.injEq] at *
  simp_all

namespace Machine

variable {α β γ δ : Type}

/-! ### The judgement -/

/-- How two computations ended: both with results, both with the same fault, or the first with a
    fault that is let pass. The links between buffer numbers have grown meanwhile. -/
inductive Mirrored (lax : Fault → Prop) (T E : Matching → Machine → Machine → Prop) (ρ : Matching)
    (V : Matching → α → β → Prop) : Except Fault α × Machine → Except Fault β × Machine → Prop where
  | ok {ρ' : Matching} {x : α} {y : β} {m₁ m₂ : Machine} (hle : ρ ≤ ρ') (machines : T ρ' m₁ m₂)
    (values : V ρ' x y) : Mirrored lax T E ρ V (.ok x, m₁) (.ok y, m₂)
  | error {ρ' : Matching} {e : Fault} {m₁ m₂ : Machine} (hle : ρ ≤ ρ') (machines : E ρ' m₁ m₂) :
    Mirrored lax T E ρ V (.error e, m₁) (.error e, m₂)
  | pass {e : Fault} {m₁ : Machine} {r : Except Fault β × Machine} (h : lax e) :
    Mirrored lax T E ρ V (.error e, m₁) r

/-- From any two machines in a relation, two computations end alike and in the relation. -/
def Mirrors (lax : Fault → Prop) (S : Matching → Machine → Machine → Prop) (ρ : Matching)
    (a : Action α) (b : Action β) (V : Matching → α → β → Prop) : Prop :=
  ∀ m₁ m₂, S ρ m₁ m₂ → Mirrored lax S S ρ V (a m₁) (b m₂)

/-- Nothing is asked of two results. -/
abbrev Anyhow : Matching → α → β → Prop :=
  fun _ _ _ => True

/-- Two results are the same. -/
abbrev Equally : Matching → α → α → Prop :=
  fun _ x y => x = y

variable {lax : Fault → Prop} {S T T' E E' : Matching → Machine → Machine → Prop}
  {ρ ρ' : Matching} {V : Matching → α → β → Prop} {W : Matching → γ → δ → Prop}

namespace Mirrored

variable {r₁ : Except Fault α × Machine} {r₂ : Except Fault β × Machine}

/-- What is known of how two computations ended may be passed on as less. -/
theorem imp {V' : Matching → α → β → Prop} (h : Mirrored lax T E ρ V r₁ r₂)
    (hT : ∀ ρ' m₁ m₂, ρ ≤ ρ' → T ρ' m₁ m₂ → T' ρ' m₁ m₂)
    (hE : ∀ ρ' m₁ m₂, ρ ≤ ρ' → E ρ' m₁ m₂ → E' ρ' m₁ m₂)
    (hV : ∀ ρ' x y, ρ ≤ ρ' → V ρ' x y → V' ρ' x y) : Mirrored lax T' E' ρ V' r₁ r₂ := by
  cases h with
  | ok hle machines values => exact .ok hle (hT _ _ _ hle machines) (hV _ _ _ hle values)
  | error hle machines => exact .error hle (hE _ _ _ hle machines)
  | pass h => exact .pass h

/-- Fewer links to start with. -/
theorem weaken (h : Mirrored lax T E ρ' V r₁ r₂) (hle : ρ ≤ ρ') : Mirrored lax T E ρ V r₁ r₂ := by
  cases h with
  | ok hle' machines values => exact .ok (le_trans hle hle') machines values
  | error hle' machines => exact .error (le_trans hle hle') machines
  | pass h => exact .pass h

/-- What goes on from two ends that match ends alike, too. -/
theorem bind {a : Action α} {b : Action β} {f : α → Action γ} {g : β → Action δ} {m₁ m₂ : Machine}
    (h : Mirrored lax T E ρ V (a m₁) (b m₂))
    (hnext : ∀ ρ' m₁' m₂' x y, ρ ≤ ρ' → T ρ' m₁' m₂' → V ρ' x y →
      Mirrored lax T' E ρ' W (f x m₁') (g y m₂')) :
    Mirrored lax T' E ρ W ((a >>= f) m₁) ((b >>= g) m₂) := by
  rw [Failing.bind_apply, Failing.bind_apply]
  generalize a m₁ = r₁ at h
  generalize b m₂ = r₂ at h
  cases h with
  | ok hle machines values => exact (hnext _ _ _ _ _ hle machines values).weaken hle
  | error hle machines => exact .error hle machines
  | pass h => exact .pass h

/-- A reported failure is a result; one that is let pass must be let pass again. -/
theorem attempt_bind {a : Action α} {b : Action β} {f : Except Fault α → Action γ}
    {g : Except Fault β → Action δ} {m₁ m₂ : Machine} (h : Mirrored lax T E' ρ V (a m₁) (b m₂))
    (hok : ∀ ρ' m₁' m₂' x y, ρ ≤ ρ' → T ρ' m₁' m₂' → V ρ' x y →
      Mirrored lax T' E ρ' W (f (.ok x) m₁') (g (.ok y) m₂'))
    (herror : ∀ ρ' m₁' m₂' e, ρ ≤ ρ' → E' ρ' m₁' m₂' →
      Mirrored lax T' E ρ' W (f (.error e) m₁') (g (.error e) m₂'))
    (hpass : ∀ m₁' e r, lax e → Mirrored lax T' E ρ W (f (.error e) m₁') r) :
    Mirrored lax T' E ρ W ((attempt a >>= f) m₁) ((attempt b >>= g) m₂) := by
  rw [Failing.bind_apply, Failing.bind_apply, attempt, attempt]
  generalize a m₁ = r₁ at h
  generalize b m₂ = r₂ at h
  cases h with
  | ok hle machines values => exact (hok _ _ _ _ _ hle machines values).weaken hle
  | error hle machines => exact (herror _ _ _ _ hle machines).weaken hle
  | pass h => exact hpass _ _ _ h

end Mirrored

namespace Mirrors

variable {a : Action α} {b : Action β} {f : α → Action γ} {g : β → Action δ}

/-- Less may be asked of the two results. -/
theorem imp {V' : Matching → α → β → Prop} (h : Mirrors lax S ρ a b V)
    (hV : ∀ ρ' x y, ρ ≤ ρ' → V ρ' x y → V' ρ' x y) : Mirrors lax S ρ a b V' :=
  fun m₁ m₂ hm => (h m₁ m₂ hm).imp (fun _ _ _ _ h => h) (fun _ _ _ _ h => h) hV

/-- Two results that match are given back, and the machines are where they were. -/
theorem pure {x : α} {y : β} (h : V ρ x y) : Mirrors lax S ρ (pure x) (pure y) V :=
  fun _ _ hm => .ok le_rfl hm h

/-- Computations that fail at once with one fault go in step. -/
theorem throw (e : Fault) : Mirrors lax S ρ (throw e : Action α) (throw e : Action β) V :=
  fun _ _ hm => .error le_rfl hm

/-- Computations that raise one error go in step. -/
theorem raise (e : RuntimeError) :
    Mirrors lax S ρ (raise e : Action α) (Machine.raise e : Action β) V :=
  throw _

/-- Computations that break one rule go in step. -/
theorem violate (v : Violation) :
    Mirrors lax S ρ (violate v : Action α) (Machine.violate v : Action β) V :=
  throw _

/-- Alike values are of one type, so the same type is missed. -/
theorem mismatch (expected : String) {v w : Value} (h : v.Like ρ w) :
    Mirrors lax S ρ (mismatch expected v : Action α) (Machine.mismatch expected w : Action β) V := by
  rw [Machine.mismatch, Machine.mismatch, h.typeName_eq]
  exact raise _

/-- Computations go in step one after the other. -/
theorem bind (h : Mirrors lax S ρ a b V)
    (hnext : ∀ ρ', ρ ≤ ρ' → ∀ x y, V ρ' x y → Mirrors lax S ρ' (f x) (g y) W) :
    Mirrors lax S ρ (a >>= f) (b >>= g) W :=
  fun m₁ m₂ hm => (h m₁ m₂ hm).bind fun ρ' m₁' m₂' x y hle hm' hxy => hnext ρ' hle x y hxy m₁' m₂' hm'

/-- After an error nothing goes on, on both sides. -/
theorem raise_bind (e : RuntimeError) {f : α → Action γ} {g : β → Action δ} :
    Mirrors lax S ρ (Machine.raise e >>= f) (Machine.raise e >>= g) W :=
  fun _ _ hm => .error le_rfl hm

/-- What looks at the machines first may use how they are related. -/
theorem get_bind {f : Machine → Action γ} {g : Machine → Action δ}
    (h : ∀ m₁ m₂, S ρ m₁ m₂ → Mirrored lax S S ρ W (f m₁ m₁) (g m₂ m₂)) :
    Mirrors lax S ρ (get >>= f) (get >>= g) W :=
  h

/-- What looks at the stacks first may use how the machines are related. -/
theorem getStack_bind {f : Stack → Action γ} {g : Stack → Action δ}
    (h : ∀ m₁ m₂, S ρ m₁ m₂ → Mirrored lax S S ρ W (f m₁.stack m₁) (g m₂.stack m₂)) :
    Mirrors lax S ρ (getStack >>= f) (getStack >>= g) W :=
  h

end Mirrors

/-! ### Relations -/

/-- The machines draw buffer numbers in step. -/
structure Drawing (S : Matching → Machine → Machine → Prop) : Prop where
  fresh : ∀ {ρ m₁ m₂}, S ρ m₁ m₂ → ∃ ρ', ρ ≤ ρ' ∧ ρ'.links m₁.world.supply m₂.world.supply ∧
    S ρ' (m₁.withSupply (m₁.world.supply + 1)) (m₂.withSupply (m₂.world.supply + 1))

/-- The active frames of the machines are alike, if there are any. -/
structure Reading (S : Matching → Machine → Machine → Prop) : Prop extends Drawing S where
  frames : ∀ {ρ m₁ m₂}, S ρ m₁ m₂ → (m₁.stack.frames = [] ∧ m₂.stack.frames = []) ∨
    ∃ f₁ rest₁ f₂ rest₂, m₁.stack.frames = f₁ :: rest₁ ∧ m₂.stack.frames = f₂ :: rest₂ ∧
      f₁.Like ρ f₂

/-- The active frames may compute. -/
structure Mirroring (S : Matching → Machine → Machine → Prop) : Prop extends Reading S where
  update : ∀ {ρ m₁ m₂ f₁ f₂ f₁' f₂' rest₁ rest₂}, S ρ m₁ m₂ → m₁.stack.frames = f₁ :: rest₁ →
    m₂.stack.frames = f₂ :: rest₂ → f₁'.role = f₁.role → f₂'.role = f₂.role →
    Registers.Like ρ f₁'.registers f₂'.registers → f₁'.pc.offset = f₂'.pc.offset →
    (f₁.retain = f₂.retain → f₁'.retain = f₂'.retain) →
    S ρ (m₁.withFrames (f₁' :: rest₁)) (m₂.withFrames (f₂' :: rest₂))

/-- A relation between machines that still have the stacks of two given ones. -/
def Holding (S : Matching → Machine → Machine → Prop) (m₁ m₂ : Machine) :
    Matching → Machine → Machine → Prop :=
  fun ρ n₁ n₂ => S ρ n₁ n₂ ∧ n₁.stack = m₁.stack ∧ n₂.stack = m₂.stack

/-- Drawing numbers leaves the stacks as they are. -/
theorem Drawing.holding (hS : Drawing S) (m₁ m₂ : Machine) : Drawing (Holding S m₁ m₂) where
  fresh := by
    rintro ρ n₁ n₂ ⟨hn, h₁, h₂⟩
    obtain ⟨ρ', hle, hlink, hnext⟩ := hS.fresh hn
    exact ⟨ρ', hle, hlink, hnext, h₁, h₂⟩

/-- The next numbers of two such machines are a numbering. -/
theorem Drawing.numbering (hS : Drawing S) (m₁ m₂ : Machine) :
    Numbering fun ρ n₁ n₂ => S ρ (m₁.withSupply n₁) (m₂.withSupply n₂) :=
  fun _ _ _ h => hS.fresh h

/-! ### Buffer numbers and casts -/

section Drawing

variable (hS : Drawing S)
include hS

/-- Values that are made with numbers drawn in step are alike. -/
theorem allocate_mirrors {g₁ g₂ : Fresh α} {V : Matching → α → α → Prop}
    (hg : ∀ {T : Matching → BufferId → BufferId → Prop} {n₁ n₂ : BufferId}, Numbering T →
      T ρ n₁ n₂ → DrawnAlike T ρ V (g₁ n₁) (g₂ n₂)) :
    Mirrors lax S ρ (allocate g₁) (allocate g₂) V := by
  intro m₁ m₂ hm
  obtain ⟨ρ', hle, hnext, hlike⟩ := hg (hS.numbering m₁ m₂) hm
  exact .ok hle hnext hlike

/-- Two reported casts: both refused in the same words, or both done. -/
def CastResult (ρ : Matching) : Except CastError Value → Except CastError Value → Prop
  | .ok v, .ok w => v.Like ρ w
  | .error e, .error e' => e = e'
  | _, _ => False

/-- Casts of alike values give alike results, or are both refused. -/
theorem tryCast_mirrors (ty : Ty) {v w : Value} (hvw : v.Like ρ w) :
    Mirrors lax S ρ (tryCast ty v) (tryCast ty w) CastResult := by
  intro m₁ m₂ hm
  have hcast := ty.cast?_like (hS.numbering m₁ m₂) hm hvw
  simp only [tryCast, Failing.bind_apply, Failing.get_apply, Ty.cast]
  generalize ty.cast? v m₁.world.supply = r₁ at hcast
  generalize ty.cast? w m₂.world.supply = r₂ at hcast
  cases hcast with
  | none =>
    have hsame : CastResult ρ (.error ⟨v.typeName, ty.name⟩) (.error ⟨w.typeName, ty.name⟩) := by
      rw [CastResult, hvw.typeName_eq]
    exact .ok le_rfl hm hsame
  | some hdrawn =>
    obtain ⟨ρ', hle, hnext, hlike⟩ := hdrawn
    exact .ok hle hnext hlike

/-- Casts of alike values give alike values, or raise the same error. -/
theorem cast_mirrors (ty : Ty) {v w : Value} (hvw : v.Like ρ w) :
    Mirrors lax S ρ (cast ty v) (cast ty w) Value.Like := by
  refine .bind (tryCast_mirrors hS ty hvw) fun ρ' _ r₁ r₂ hr => ?_
  match r₁, r₂, hr with
  | .ok _, .ok _, hr => exact .pure hr
  | .error e, .error _, rfl => exact .raise _

/-- Alike arguments are cast to alike ones. -/
theorem castArguments_mirrors (s : Signature) (i : Nat) {vs ws : List Value}
    (hvs : Items.Like ρ vs ws) :
    Mirrors lax S ρ (castArguments s i vs) (castArguments s i ws) Items.Like := by
  induction vs generalizing ρ ws i with
  | nil =>
    cases hvs
    exact .pure .nil
  | cons v vs ih =>
    cases hvs with
    | cons hhead htail =>
      have hdone : ∀ ρ', ρ ≤ ρ' → ∀ v' w', Value.Like ρ' v' w' → Mirrors lax S ρ'
          (do return v' :: (← castArguments s (i + 1) vs))
          (do return w' :: (← castArguments s (i + 1) _)) Items.Like :=
        fun ρ' hle v' w' hvw => .bind (ih (i + 1) (Items.Like.mono htail hle))
          fun ρ'' hle' xs ys hxs => .pure (.cons (hvw.mono hle') hxs)
      rw [castArguments, castArguments]
      split
      next p hp =>
        rw [hhead.isNull_eq]
        split
        · exact .bind (.pure hhead) hdone
        · exact .bind (cast_mirrors hS p.type hhead) hdone
      next => exact .bind (.pure hhead) hdone

/-- Outputs in alike registers are cast to alike values. -/
theorem castOutputs_mirrors {p q : Program} (hname : p.name = q.name) {rs rs' : Array Value}
    (hrs : Registers.Like ρ rs rs') (i : Nat) (outputs : List Output) :
    Mirrors lax S ρ (castOutputs p rs i outputs) (castOutputs q rs' i outputs) Items.Like := by
  induction outputs generalizing ρ i with
  | nil => exact .pure .nil
  | cons o outputs ih =>
    have hdone : ∀ ρ', ρ ≤ ρ' → ∀ v w, Value.Like ρ' v w → Mirrors lax S ρ'
        (do return v :: (← castOutputs p rs (i + 1) outputs))
        (do return w :: (← castOutputs q rs' (i + 1) outputs)) Items.Like :=
      fun ρ' hle v w hvw => .bind (ih (hrs.mono hle) (i + 1))
        fun ρ'' hle' xs ys hxs => .pure (.cons (hvw.mono hle') hxs)
    have hread := hrs o.register.toNat
    rw [castOutputs, castOutputs, hname]
    generalize rs[o.register.toNat]? = x at hread
    generalize rs'[o.register.toNat]? = y at hread
    cases hread with
    | none => exact .violate _
    | @some v w hvw =>
      dsimp only
      rw [hvw.isNull_eq]
      split
      · exact .bind (.pure (.atom rfl)) hdone
      · refine .bind (tryCast_mirrors hS _ hvw) fun ρ' hle r₁ r₂ hr => ?_
        match r₁, r₂, hr with
        | .ok _, .ok _, hr =>
          exact .bind (.pure hr) fun ρ'' hle' => hdone ρ'' (le_trans hle hle')
        | .error e, .error _, rfl => exact .raise_bind _

end Drawing

/-! ### Registers -/

section Reading

variable (hS : Reading S)
include hS

/-- What goes on with the active frames may use that they are alike. -/
theorem active_bind_mirrors {k₁ : Frame → Action γ} {k₂ : Frame → Action δ}
    (h : ∀ m₁ m₂ f₁ f₂ rest₁ rest₂, S ρ m₁ m₂ → m₁.stack.frames = f₁ :: rest₁ →
      m₂.stack.frames = f₂ :: rest₂ → f₁.Like ρ f₂ →
      Mirrored lax S S ρ W (k₁ f₁ m₁) (k₂ f₂ m₂)) :
    Mirrors lax S ρ (active >>= k₁) (active >>= k₂) W := by
  intro m₁ m₂ hm
  simp only [active, getStack, Failing.bind_apply, Failing.get_apply, Failing.pure_apply]
  rcases hS.frames hm with ⟨h₁, h₂⟩ | ⟨f₁, rest₁, f₂, rest₂, h₁, h₂, hlike⟩
  · rw [h₁, h₂]
    exact .error le_rfl hm
  · rw [h₁, h₂]
    exact h m₁ m₂ f₁ f₂ rest₁ rest₂ hm h₁ h₂ hlike

/-- The active frames are alike. -/
theorem active_mirrors : Mirrors lax S ρ active active Frame.Like := by
  have h : Mirrors lax S ρ (active >>= Pure.pure) (active >>= Pure.pure) Frame.Like :=
    active_bind_mirrors hS fun _ _ _ _ _ _ hm _ _ hf => .ok le_rfl hm hf
  rwa [bind_pure] at h

/-- Registers hold alike values. -/
theorem rawRegister_mirrors (r : Reg) :
    Mirrors lax S ρ (rawRegister r) (rawRegister r) Value.Like := by
  refine .bind (active_mirrors hS) fun ρ' _ f₁ f₂ hf => ?_
  have hread := hf.registers r.toNat
  generalize f₁.registers[r.toNat]? = x at hread
  generalize f₂.registers[r.toNat]? = y at hread
  cases hread with
  | none => exact .violate _
  | some hvw => exact .pure hvw

/-- Registers whose values were not moved away hold alike values. -/
theorem register_mirrors (r : Reg) : Mirrors lax S ρ (register r) (register r) Value.Like := by
  refine .bind (rawRegister_mirrors hS r) fun ρ' _ v w hvw => ?_
  rw [hvw.isMoved_eq]
  split
  · exact .violate _
  · exact .pure hvw

omit hS in
/-- Registers are counted the same. -/
theorem offsetRegister_mirrors (base : Reg) (n : Nat) :
    Mirrors lax S ρ (offsetRegister base n) (offsetRegister base n) Equally := by
  unfold offsetRegister
  split
  · exact .pure rfl
  · exact .violate _

/-- Arguments are alike, one after the other. -/
theorem argumentsFrom_mirrors (base : Reg) (count start : Nat) :
    Mirrors lax S ρ (argumentsFrom base start count) (argumentsFrom base start count)
      Items.Like := by
  induction count generalizing ρ start with
  | zero => exact .pure .nil
  | succ count ih =>
    refine .bind (offsetRegister_mirrors base start) fun ρ₁ _ r r' hr => ?_
    obtain rfl := hr
    refine .bind (register_mirrors hS r) fun ρ₂ _ v w hvw => ?_
    exact .bind (ih (start + 1)) fun ρ₃ hle vs ws hvs => .pure (.cons (hvw.mono hle) hvs)

/-- All arguments of a call are alike. -/
theorem arguments_mirrors (base : Reg) (count : Nat) :
    Mirrors lax S ρ (arguments base count) (arguments base count) Items.Like :=
  argumentsFrom_mirrors hS base count 0

end Reading

section Mirroring

variable (hS : Mirroring S)
include hS

/-- The active frames may get other contents that are alike. -/
theorem Mirroring.setActive {m₁ m₂ : Machine} {f₁ f₂ f₁' f₂' : Frame} {rest₁ rest₂ : List Frame}
    (hm : S ρ m₁ m₂) (h₁ : m₁.stack.frames = f₁ :: rest₁) (h₂ : m₂.stack.frames = f₂ :: rest₂)
    (hrole₁ : f₁'.role = f₁.role) (hrole₂ : f₂'.role = f₂.role)
    (hregisters : Registers.Like ρ f₁'.registers f₂'.registers)
    (hoffset : f₁'.pc.offset = f₂'.pc.offset)
    (hretain : f₁.retain = f₂.retain → f₁'.retain = f₂'.retain) :
    Mirrored lax S S ρ Anyhow (Machine.setActive f₁' m₁) (Machine.setActive f₂' m₂) := by
  rw [setActive_apply h₁, setActive_apply h₂]
  exact .ok le_rfl (hS.update hm h₁ h₂ hrole₁ hrole₂ hregisters hoffset hretain) trivial

/-- The active frames may get other registers that are alike. -/
theorem Mirroring.setRegisters {m₁ m₂ : Machine} {f₁ f₂ : Frame} {rest₁ rest₂ : List Frame}
    {rs₁ rs₂ : Array Value} (hm : S ρ m₁ m₂) (h₁ : m₁.stack.frames = f₁ :: rest₁)
    (h₂ : m₂.stack.frames = f₂ :: rest₂) (hf : f₁.Like ρ f₂) (hregisters : Registers.Like ρ rs₁ rs₂) :
    Mirrored lax S S ρ Anyhow (Machine.setActive { f₁ with registers := rs₁ } m₁)
      (Machine.setActive { f₂ with registers := rs₂ } m₂) :=
  hS.setActive hm h₁ h₂ rfl rfl hregisters hf.offset id

/-- A change of the active frames has to keep their roles and to make alike what they compute with. -/
theorem modifyActive_mirrors {change : Frame → Frame} (hrole : ∀ f, (change f).role = f.role)
    (hchange : ∀ ρ f₁ f₂, Frame.Like ρ f₁ f₂ →
      Registers.Like ρ (change f₁).registers (change f₂).registers ∧
      (change f₁).pc.offset = (change f₂).pc.offset ∧
      (f₁.retain = f₂.retain → (change f₁).retain = (change f₂).retain)) :
    Mirrors lax S ρ (modifyActive change) (modifyActive change) Anyhow :=
  active_bind_mirrors hS.toReading fun _ _ f₁ f₂ _ _ hm h₁ h₂ hf =>
    have ⟨hregisters, hoffset, hretain⟩ := hchange ρ f₁ f₂ hf
    hS.setActive hm h₁ h₂ (hrole f₁) (hrole f₂) hregisters hoffset hretain

/-- Alike values are written to the same register. -/
theorem setRegister_mirrors (r : Reg) {v w : Value} (hvw : v.Like ρ w) :
    Mirrors lax S ρ (setRegister r v) (setRegister r w) Anyhow := by
  refine active_bind_mirrors hS.toReading fun m₁ m₂ f₁ f₂ rest₁ rest₂ hm h₁ h₂ hf => ?_
  rw [hf.registers.size_eq]
  split
  · exact hS.setRegisters hm h₁ h₂ hf (hf.registers.set _ hvw)
  · exact .error le_rfl hm

/-- Alike inputs are set. -/
theorem setInput_mirrors (index : Nat) {v w : Value} (hvw : v.Like ρ w) :
    Mirrors lax S ρ (setInput index v) (setInput index w) Anyhow := by
  refine active_bind_mirrors hS.toReading fun m₁ m₂ f₁ f₂ rest₁ rest₂ hm h₁ h₂ hf => ?_
  rw [hf.registers.size_eq]
  split
  · exact hS.setRegisters hm h₁ h₂ hf (hf.registers.set _ hvw)
  · exact .error le_rfl hm

/-- Outputs are written to the same register when the two machines declare the same ones. -/
theorem setOutput_mirrors (houtput : ∀ {ρ m₁ m₂}, S ρ m₁ m₂ → ∀ i,
      m₁.outputRegister? i = m₂.outputRegister? i) (index : Nat) {v w : Value} (hvw : v.Like ρ w) :
    Mirrors lax S ρ (setOutput index v) (setOutput index w) Anyhow := by
  refine .get_bind fun m₁ m₂ hm => ?_
  rw [houtput hm index]
  cases m₂.outputRegister? index with
  | none => exact .error le_rfl hm
  | some r =>
    refine active_bind_mirrors hS.toReading
      (fun m₁ m₂ f₁ f₂ rest₁ rest₂ hm h₁ h₂ hf => ?_) m₁ m₂ hm
    refine hS.setRegisters hm h₁ h₂ hf (Registers.Like.set ?_ _ hvw)
    rw [hf.registers.size_eq]
    split
    · exact hf.registers.resized _
    · exact hf.registers

end Mirroring

end Machine

end BlockMachine

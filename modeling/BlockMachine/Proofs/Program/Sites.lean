import BlockMachine.World
import BlockMachine.Proofs.Value.Known

namespace BlockMachine

/-!
# Call sites and pools of programs

What a run can meet in a program: the offsets that it can stand at, the names that it can send at
a call site, and the values and types in the pools.

* `Program.Reaches` are the offsets that control flow leads to;
* `Program.OneNamed` programs send one name at each call site, and bodies with
  `OneNamePerSite` are lowered to such programs;
* `Program.Known` programs have known constants, types and signatures; `lower_known` says that
  lowering fills the pools with known values and types.
-/

/-! ### Call sites -/

/-- The call site of a send. -/
def Instruction.site? : Instruction → Option UInt16
  | .callMethod _ _ _ _ site => some site
  | _ => none

namespace Program

/-- Control flow from the start of the program leads to an offset. -/
inductive Reaches (p : Program) : Nat → Prop where
  | start : Reaches p 0
  | next {pc next : Nat} {i : Instruction} (h : Reaches p pc)
    (hi : p.instructionAt pc = .ok (i, next)) : Reaches p next
  | jump {pc next : Nat} {cond : Condition} {offset : Int16} (h : Reaches p pc)
    (hi : p.instructionAt pc = .ok (.jump cond offset, next)) :
    Reaches p (next + offset.toInt).toNat

/-- Control flow leads to a send of a name at a call site. -/
def Sends (p : Program) (site : UInt16) (name : String) : Prop :=
  ∃ pc next index base argc out, p.Reaches pc ∧
    p.instructionAt pc = .ok (.callMethod index base argc out site, next) ∧
    p.names[index.toNat]? = some name

/-- One name is sent at each call site. -/
def OneNamed (p : Program) : Prop :=
  ∀ site name name', p.Sends site name → p.Sends site name' → name = name'

/-- Offsets that are closed under control flow include all that it leads to. -/
theorem Reaches.of_closed {p : Program} {T : Nat → Prop} (hstart : T 0)
    (hnext : ∀ pc i next, T pc → p.instructionAt pc = .ok (i, next) → T next)
    (hjump : ∀ pc cond offset next, T pc → p.instructionAt pc = .ok (.jump cond offset, next) →
      T (next + offset.toInt).toNat) {pc : Nat} (h : p.Reaches pc) : T pc := by
  induction h with
  | start => exact hstart
  | next _ hi ih => exact hnext _ _ _ ih hi
  | jump _ hi ih => exact hjump _ _ _ _ ih hi

end Program

/-- Every program that a body is lowered to sends one name at each call site. -/
def OneNamePerSite (body : List Directive) : Prop :=
  ∀ ctx supply d, lower ctx body supply = .ok d → ∀ b index, (World.finish b index d).OneNamed

/-! ### Pools -/

/-- The types of a signature are declared. -/
structure Signature.Known (reg : Registry) (s : Signature) : Prop where
  inputs : ∀ p ∈ s.inputs, p.type.Known reg
  outputs : ∀ o ∈ s.outputs, o.placeholder.type.Known reg

/-- The pools and the signature of a program are known. -/
structure Program.Known (reg : Registry) (p : Program) : Prop where
  constants : ∀ v ∈ p.constants, v.Known reg
  types : ∀ ty ∈ p.types, ty.Known reg
  signature : p.signature.Known reg

/-- A signature stays known while a registry grows. -/
theorem Signature.Known.mono {reg reg' : Registry} {s : Signature} (h : s.Known reg)
    (hreg : reg.Within reg') : s.Known reg' :=
  ⟨fun p hp => (h.inputs p hp).mono hreg, fun o ho => (h.outputs o ho).mono hreg⟩

/-- A program stays known while a registry grows. -/
theorem Program.Known.mono {reg reg' : Registry} {p : Program} (h : p.Known reg)
    (hreg : reg.Within reg') : p.Known reg' :=
  ⟨fun v hv => (h.constants v hv).mono hreg, fun ty hty => (h.types ty hty).mono hreg,
    h.signature.mono hreg⟩

/-- The pools of a program under construction are known. -/
structure Draft.Known (reg : Registry) (d : Draft) : Prop where
  constants : ∀ v ∈ d.constants, v.Known reg
  types : ∀ ty ∈ d.types, ty.Known reg

/-- A computation keeps a property of drafts, and its result satisfies `Q`. -/
def Lowers {α : Type} (P : Draft → Prop) (x : Lowering α) (Q : α → Prop) : Prop :=
  ∀ d a d', P d → x d = .ok (a, d') → P d' ∧ Q a

namespace Lowers

variable {α β : Type} {P : Draft → Prop} {Q : α → Prop} {R : β → Prop}

/-- A result is given back, and the draft is as it was. -/
theorem pure {a : α} (h : Q a) : Lowers P (pure a) Q := by
  rintro d _ _ hd ⟨⟩
  exact ⟨hd, h⟩

/-- What fails leaves no draft. -/
theorem throw (e : CompileError) : Lowers P (throw e : Lowering α) Q :=
  nofun

/-- Computations keep a property of drafts one after the other. -/
theorem bind {x : Lowering α} {f : α → Lowering β} (hx : Lowers P x Q)
    (hf : ∀ a, Q a → Lowers P (f a) R) : Lowers P (x >>= f) R := by
  intro d b d' hd h
  cases hrun : x d with
  | error e =>
    change (x d).bind _ = _ at h
    rw [hrun] at h
    exact nomatch h
  | ok r =>
    change (x d).bind _ = _ at h
    rw [hrun] at h
    obtain ⟨hd₁, ha⟩ := hx d r.1 r.2 hd hrun
    exact hf r.1 ha r.2 b d' hd₁ h

/-- Reading the draft gives one with the property. -/
theorem get : Lowers P get P := by
  rintro d _ _ hd ⟨⟩
  exact ⟨hd, hd⟩

/-- Another draft has to have the property. -/
theorem set {d' : Draft} (h : P d') : Lowers P (set d') fun _ => True := by
  rintro d _ _ hd ⟨⟩
  exact ⟨h, trivial⟩

/-- A change of drafts has to keep the property. -/
theorem modify {f : Draft → Draft} (h : ∀ d, P d → P (f d)) :
    Lowers P (modify f) fun _ => True := by
  rintro d _ _ hd ⟨⟩
  exact ⟨h d hd, trivial⟩

/-- A body keeps what each of its directives keeps. -/
theorem forM {steps : List Directive} {f : Directive → Lowering Unit}
    (h : ∀ step ∈ steps, Lowers P (f step) fun _ => True) :
    Lowers P (steps.forM f) fun _ => True := by
  induction steps with
  | nil => exact .pure trivial
  | cons step rest ih =>
    obtain ⟨hstep, hrest⟩ := List.forall_mem_cons.1 h
    exact .bind hstep fun _ _ => ih hrest

end Lowers

/-- A property of drafts that all directives but raw code keep, as long as the values that enter
    the pools satisfy `V` and the types satisfy `T`. -/
structure Draft.Stable (ctx : LoweringContext) (P : Draft → Prop) (V : Value → Prop)
    (T : Ty → Prop) : Prop where
  constant : ∀ {d v}, P d → V v → P { d with constants := d.constants.push v }
  type : ∀ {d ty}, P d → T ty → P { d with types := d.types.push ty }
  block : ∀ {d block}, P d → P { d with blocks := d.blocks.push block }
  name : ∀ {d name}, P d → P { d with names := d.names.push name }
  node : ∀ {d map}, P d → P { d with sourceMap := map }
  supply : ∀ {d n}, P d → P { d with supply := n }
  emit : ∀ {d i}, P d → i.isJump = false → i.site? = none →
    P { d with assembler := d.assembler.emit i }
  send : ∀ {d name base argc out}, P d → d.callSites < 65535 → P { d with
    callSites := d.callSites + 1
    assembler := d.assembler.emit (.callMethod name base argc out (UInt16.ofNat d.callSites)) }
  literal : ∀ {l n r}, Literal.eval ctx.scope l n = .ok r → V r.1
  named : ∀ {name ty}, ctx.scope.type name = .ok ty → T ty
  int : ∀ i, V (.int i)

namespace Draft

variable {ctx : LoweringContext} {P : Draft → Prop} {V : Value → Prop} {T : Ty → Prop}

/-- Finding out the next index of a pool leaves the draft alone. -/
theorem poolIndex_lowers (pool : Pool) (n : Nat) :
    Lowers P (poolIndex ctx pool n) fun _ => True := by
  rw [poolIndex]
  split
  · exact .pure trivial
  · exact .throw _

/-- What is new to a pool is entered at its end. -/
theorem pooled_lowers (pool : Pool) (find : Draft → Option Nat) (size : Draft → Nat)
    (push : Draft → Draft) (h : ∀ d, P d → P (push d)) :
    Lowers P (do
      let d ← get
      match find d with
      | some i => poolIndex ctx pool i
      | none =>
        let i ← poolIndex ctx pool (size d)
        set (push d)
        return i) fun _ => True := by
  refine .bind .get fun d hd => ?_
  split
  · exact poolIndex_lowers _ _
  · exact .bind (poolIndex_lowers _ _) fun _ _ => .bind (.set (h d hd)) fun _ _ => .pure trivial

/-- What may fail leaves the draft alone. -/
theorem orFail_lowers {α : Type} {r : Except String α} {Q : α → Prop}
    (h : ∀ a, r = .ok a → Q a) : Lowers P (orFail ctx r) Q := by
  cases r with
  | ok a => exact .pure (h a rfl)
  | error why => exact .throw _

/-- Call sites are numbered one by one, as long as numbers last. -/
theorem callSite_eq (d : Draft) :
    callSite ctx d = if d.callSites < 65535 then
        .ok (UInt16.ofNat d.callSites, { d with callSites := d.callSites + 1 })
      else .error (.poolOverflow ctx.block .callSite) := by
  change (if d.callSites < 65535 then _ else _ : Lowering UInt16) d = _
  split <;> rfl

section Stable

variable (hP : Stable ctx P V T)
include hP

/-- An instruction that neither jumps nor sends may be emitted. -/
theorem emit_lowers {i : Instruction} (hjump : i.isJump = false) (hsite : i.site? = none) :
    Lowers P (emit i) fun _ => True :=
  .modify fun _ hd => hP.emit hd hjump hsite

/-- A constant may be entered into its pool. -/
theorem constant_lowers {v : Value} (hv : V v) : Lowers P (constant ctx v) fun _ => True :=
  pooled_lowers .constant _ _ (fun d => { d with constants := d.constants.push v })
    fun _ hd => hP.constant hd hv

/-- A block may be entered into its pool. -/
theorem blockRef_lowers (block : BlockId) : Lowers P (blockRef ctx block) fun _ => True :=
  pooled_lowers .block _ _ (fun d => { d with blocks := d.blocks.push block })
    fun _ hd => hP.block hd

/-- A name may be entered into its pool. -/
theorem nameRef_lowers (name : String) : Lowers P (nameRef ctx name) fun _ => True :=
  pooled_lowers .name _ _ (fun d => { d with names := d.names.push name })
    fun _ hd => hP.name hd

/-- A type may be entered into its pool. -/
theorem typeRef_lowers {ty : Ty} (hty : T ty) : Lowers P (typeRef ctx ty) fun _ => True :=
  pooled_lowers .type _ _ (fun d => { d with types := d.types.push ty })
    fun _ hd => hP.type hd hty

/-- A type is found by its name. -/
theorem namedType_lowers (name : String) : Lowers P (namedType ctx name) T :=
  orFail_lowers fun _ hty => hP.named hty

/-- A literal has a value that may be entered. -/
theorem literal_lowers (l : Literal) : Lowers P (literal ctx l) V := by
  refine .bind .get fun d hd => ?_
  have heval : Lowers P (orFail ctx (l.eval ctx.scope d.supply)) fun r => V r.1 :=
    orFail_lowers fun r hr => hP.literal hr
  exact .bind heval fun r hr => .bind (.set (hP.supply hd)) fun _ _ => .pure hr

/-- A load emits an instruction, and may enter a constant. -/
theorem load_lowers (dst : Reg) {v : Value} (hv : V v) :
    Lowers P (load ctx dst v) fun _ => True := by
  have hconst : Lowers P (do emit (.loadConst dst (← constant ctx v))) fun _ => True :=
    .bind (constant_lowers hP hv) fun _ _ => emit_lowers hP rfl rfl
  cases v with
  | null => exact emit_lowers hP rfl rfl
  | int i =>
    simp only [load]
    -- small integers are part of the instruction, others go to the pool
    split
    · exact emit_lowers hP rfl rfl
    · exact hconst
  | _ => exact hconst

/-- Integers may be entered as constants. -/
theorem fillConstants_lowers (count i : Nat) :
    Lowers P (fillConstants ctx count i) fun _ => True := by
  induction count generalizing i with
  | zero => exact .pure trivial
  | succ count ih => exact .bind (constant_lowers hP (hP.int _)) fun _ _ => ih (i + 1)

/-- A send takes a call site and is emitted with it. -/
theorem send_lowers (name base : UInt16) (argc : UInt8) (out : Reg) :
    Lowers P (do emit (.callMethod name base argc out (← callSite ctx))) fun _ => True := by
  -- Taking a site and emitting the send cannot be told apart: only together are they stable.
  intro d a d' hd h
  change (callSite ctx d).bind _ = _ at h
  rw [callSite_eq] at h
  split at h
  next hroom =>
    obtain ⟨_, rfl⟩ := Prod.mk.inj (Except.ok.inj h)
    exact ⟨hP.send hd hroom, trivial⟩
  next => exact nomatch h

/-- One directive keeps a stable property, if raw code does. -/
theorem apply_lowers {step : Directive} (hcode : ∀ c, step = .code c →
    ∀ d, P d → P { d with assembler := d.assembler.apply c }) :
    Lowers P (apply ctx step) fun _ => True := by
  cases step with
  | code c => exact .modify (hcode c rfl)
  | load dst l => exact .bind (literal_lowers hP l) fun _ hv => load_lowers hP dst hv
  | constant l =>
    exact .bind (literal_lowers hP l) fun _ hv =>
      .bind (constant_lowers hP hv) fun _ _ => .pure trivial
  | blockRef block => exact .bind (blockRef_lowers hP block) fun _ _ => .pure trivial
  | typeRef type =>
    exact .bind (namedType_lowers hP type) fun _ hty =>
      .bind (typeRef_lowers hP hty) fun _ _ => .pure trivial
  | nameRef name => exact .bind (nameRef_lowers hP name) fun _ _ => .pure trivial
  | call block base argc out =>
    exact .bind (blockRef_lowers hP block) fun _ _ => emit_lowers hP rfl rfl
  | callKeyed block base argc out key =>
    exact .bind (blockRef_lowers hP block) fun _ _ => emit_lowers hP rfl rfl
  | send name base argc out =>
    exact .bind (nameRef_lowers hP name) fun _ _ => send_lowers hP _ base argc out
  | makeFunc dst block first count =>
    exact .bind (blockRef_lowers hP block) fun _ _ => emit_lowers hP rfl rfl
  | cast dst src type =>
    exact .bind (namedType_lowers hP type) fun _ hty =>
      .bind (typeRef_lowers hP hty) fun _ _ => emit_lowers hP rfl rfl
  | getState dst name => exact .bind (nameRef_lowers hP name) fun _ _ => emit_lowers hP rfl rfl
  | saveState name src => exact .bind (nameRef_lowers hP name) fun _ _ => emit_lowers hP rfl rfl
  | native name =>
    simp only [apply]
    split
    · exact emit_lowers hP rfl rfl
    · exact .throw _
  | node n => exact .modify fun _ hd => hP.node hd
  | fail message => exact .throw _
  | selfName dst => exact .bind (literal_lowers hP _) fun _ hv => load_lowers hP dst hv
  | fillConstants n => exact fillConstants_lowers hP n 0

end Stable

end Draft

/-- What holds of an empty draft and is stable holds of the draft of a body. -/
theorem lower_stable {ctx : LoweringContext} {P : Draft → Prop} {V : Value → Prop} {T : Ty → Prop}
    (hP : Draft.Stable ctx P V T) {body : List Directive} {supply : BufferId}
    (hstart : P { supply := supply })
    (hcode : ∀ c, .code c ∈ body → ∀ d, P d → P { d with assembler := d.assembler.apply c })
    {d : Draft} (hd : lower ctx body supply = .ok d) : P d := by
  have hsteps : Lowers P (body.forM (Draft.apply ctx)) fun _ => True :=
    .forM fun step hstep => Draft.apply_lowers hP fun c hc => hcode c (hc ▸ hstep)
  rw [lower] at hd
  cases hrun : body.forM (Draft.apply ctx) { supply := supply } with
  | error e =>
    rw [hrun] at hd
    exact nomatch hd
  | ok r =>
    rw [hrun] at hd
    cases hd
    exact (hsteps _ r.1 r.2 hstart hrun).1

/-- **Drafts with known pools stay such** when known values and types are entered. -/
theorem Draft.stable_known {ctx : LoweringContext} (hctx : ctx.scope.Sound) :
    Stable ctx (Known ctx.scope.registry) (Value.Known ctx.scope.registry)
      (Ty.Known ctx.scope.registry) where
  constant := fun hd hv =>
    ⟨fun w hw => (Array.mem_push.1 hw).elim (hd.constants w) (· ▸ hv), hd.types⟩
  type := fun hd hty =>
    ⟨hd.constants, fun ty' hmem => (Array.mem_push.1 hmem).elim (hd.types ty') (· ▸ hty)⟩
  block := fun hd => ⟨hd.constants, hd.types⟩
  name := fun hd => ⟨hd.constants, hd.types⟩
  node := fun hd => ⟨hd.constants, hd.types⟩
  supply := fun hd => ⟨hd.constants, hd.types⟩
  emit := fun hd _ _ => ⟨hd.constants, hd.types⟩
  send := fun hd _ => ⟨hd.constants, hd.types⟩
  literal := fun {l n r} hr => Literal.eval_known hctx l n r.1 r.2 hr
  named := fun hty => hctx.type hty
  int := fun _ => Value.known_atom rfl rfl

/-- Lowering fills the pools with known values and types. -/
theorem lower_known {ctx : LoweringContext} (hctx : ctx.scope.Sound) {body : List Directive}
    {supply : BufferId} {d : Draft} (h : lower ctx body supply = .ok d) :
    d.Known ctx.scope.registry :=
  lower_stable (Draft.stable_known hctx) ⟨by simp, by simp⟩
    (fun _ _ _ hd => ⟨hd.constants, hd.types⟩) h

/-- The program that is made of a draft with known pools is known. -/
theorem World.finish_known {reg : Registry} {b : Block} {d : Draft} (index : Nat)
    (hd : d.Known reg) (hb : b.signature.Known reg) : (World.finish b index d).Known reg :=
  ⟨hd.constants, hd.types, hb⟩

end BlockMachine

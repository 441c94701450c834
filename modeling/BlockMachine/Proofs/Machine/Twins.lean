import BlockMachine.Proofs.Machine.Loop
import BlockMachine.Proofs.Machine.MirrorNatives
import BlockMachine.Proofs.Machine.Scripts
import BlockMachine.Proofs.Program.Filing

namespace BlockMachine

/-!
# Machines that differ in what they noted

Frames note the graph node at their pc now and then, and a stack notes how its last run ended. Nothing
a program does depends on that: two machines that differ in their notes stay so.

* `Machine.Anchored` holds of machines whose frames run the programs that are filed for their blocks;
* `Machine.Twinned` relates an anchored machine to one that differs from it in notes only;
* `Machine.twinned_sending` and `Machine.twinned_serving` say that instructions and natives do not tell
  the two apart, `Machine.enter_twins` and `Machine.leave_twins` are about calls and returns.
-/

/-! ### Notes -/

/-- A frame with a graph node noted at its pc. -/
def Frame.noting (f : Frame) (node : Option UInt32) : Frame :=
  { f with pc := ⟨f.pc.offset, node⟩ }

/-- A frame without the graph node that was noted at its pc. -/
def Frame.blurred (f : Frame) : Frame :=
  f.noting none

/-- What differs is the node. -/
theorem Frame.exists_noting {f g : Frame} (h : f.blurred = g.blurred) :
    ∃ node, g = f.noting node := by
  refine ⟨g.pc.node, ?_⟩
  obtain ⟨_, _, _, _, ⟨_, _⟩, _, _, _, _, _, _, _, _⟩ := f
  obtain ⟨_, _, _, _, ⟨_, _⟩, _, _, _, _, _, _, _, _⟩ := g
  simp only [blurred, noting, Frame.mk.injEq, Pc.mk.injEq] at *
  simp_all

/-- Two frames that differ in their notes compute with the same things. -/
theorem Frame.like_of_blurred {f g : Frame} (h : f.blurred = g.blurred) : f.Like .same g := by
  have hlike : Frame.Like .same f.blurred g.blurred := h ▸ .refl f.blurred
  exact ⟨hlike.block, hlike.registers, hlike.offset, hlike.incoming,
    hlike.outgoing, hlike.bindings, hlike.inputCount, hlike.stateful⟩

/-- Only notes differ when the same things are computed in frames that differ in notes. -/
theorem Frame.blurred_update {f g f' g' : Frame} (h : f.blurred = g.blurred) (hf : f'.role = f.role)
    (hg : g'.role = g.role) (hregisters : Registers.Like .same f'.registers g'.registers)
    (hoffset : f'.pc.offset = g'.pc.offset) (hretain : f'.retain = g'.retain) :
    f'.blurred = g'.blurred := by
  have hrole : f'.role.blurred = g'.role.blurred := by
    rw [hf, hg]
    exact congrArg Frame.role h
  exact Frame.eq_of_role (f := f'.blurred) (g := g'.blurred) hrole
    (Registers.like_same hregisters) hoffset hretain

/-- Frames that differ in notes still do when those at one position are changed alike. -/
theorem Frame.blurred_modify {fs gs : List Frame} (h : fs.map blurred = gs.map blurred) (i : Nat)
    {c d : Frame → Frame} (hcd : ∀ f g, blurred f = blurred g → (c f).blurred = (d g).blurred) :
    (fs.modify i c).map blurred = (gs.modify i d).map blurred := by
  induction fs generalizing gs i with
  | nil =>
    obtain rfl := List.map_eq_nil_iff.1 h.symm
    cases i <;> rfl
  | cons f fs ih =>
    obtain ⟨g, gs, rfl, hg, hgs⟩ := List.map_eq_cons_iff.1 h.symm
    cases i with
    | zero =>
      rw [List.modify_zero_cons, List.modify_zero_cons, List.map_cons, List.map_cons,
        hcd f g hg.symm, hgs]
    | succ i =>
      rw [List.modify_succ_cons, List.modify_succ_cons, List.map_cons, List.map_cons, hg,
        ih hgs.symm i]

/-- Snapshots do not show notes. -/
theorem Frame.snapshots_blurred {fs gs : List Frame} (h : fs.map blurred = gs.map blurred) :
    (fs.filter (·.retain)).map snapshot = (gs.filter (·.retain)).map snapshot := by
  have hsnapshots : ∀ fs : List Frame, (fs.filter (·.retain)).map snapshot =
      ((fs.map blurred).filter (·.retain)).map snapshot := by
    intro fs
    rw [List.filter_map, List.map_map]
    rfl
  rw [hsnapshots fs, hsnapshots gs, h]

/-! ### Anchored machines -/

/-- Whether a function of the embedder leaves the definitions of blocks alone. -/
def HostFunction.keepsBlocks : HostFunction → Bool
  | .replace => false
  | _ => true

/-- Whether a native does, given that all installed ones do. -/
def Native.keepsBlocks : Native → Bool
  | .host f => f.keepsBlocks
  | _ => true

/-- A frame runs the program that is filed for its block. -/
def Frame.Held (w : World) (f : Frame) : Prop :=
  ∃ p, w.slotProgram? f.program = some p ∧ p.version = f.version

/-- A frame still runs what is filed for its block when the world keeps that. -/
theorem Frame.Held.mono {w w' : World} {f : Frame} (h : f.Held w) (hw : w.Retains w') : f.Held w' := by
  obtain ⟨p, hp, hversion⟩ := h
  exact ⟨p, hw _ p hp, hversion⟩

namespace Machine

variable {α β γ δ : Type} {lax : Fault → Prop} {ρ : Matching} {m m₁ m₂ : Machine}

/-- Programs are in order, all frames run what is filed for their blocks, and no native changes
    that. -/
structure Anchored (m : Machine) : Prop where
  filed : m.world.Filed
  natives : m.world.natives.Only Native.keepsBlocks
  held : ∀ f ∈ m.stack.frames, f.Held m.world

/-- An anchored machine may get another world that keeps what is filed. -/
theorem Anchored.world (h : m.Anchored) {w : World} (hw : m.world.Kept w)
    (hnatives : w.natives.Only Native.keepsBlocks) : Anchored { m with world := w } :=
  ⟨hw.filed, hnatives, fun f hf => (h.held f hf).mono hw.retains⟩

/-- An anchored machine may get another stack whose frames run what is filed. -/
theorem Anchored.stack (h : m.Anchored) {s : Stack} (hs : ∀ f ∈ s.frames, f.Held m.world) :
    Anchored { m with stack := s } :=
  ⟨h.filed, h.natives, hs⟩

/-- Buffer numbers do not matter. -/
theorem Anchored.withSupply (h : m.Anchored) (supply : BufferId) : (m.withSupply supply).Anchored :=
  h.world (h.filed.kept rfl rfl) h.natives

/-- The machine with other frames, and with another note about its last run. -/
def noted (m : Machine) (frames : List Frame) (outcome : Option Outcome) : Machine :=
  { m with stack := { m.stack with frames := frames, lastOutcome := outcome } }

/-- Two machines differ in notes only. How the last run ended is no mere note while a finished stack
    without error reports it. -/
inductive Twinned : Matching → Machine → Machine → Prop where
  | mk {m : Machine} {frames : List Frame} {outcome : Option Outcome} (anchored : m.Anchored)
    (blurred : m.stack.frames.map Frame.blurred = frames.map Frame.blurred)
    (ended : m.stack.phase = .finished → m.stack.error = none → m.stack.lastOutcome = outcome) :
    Twinned .same m (m.noted frames outcome)

/-- An anchored machine is a twin of itself. -/
theorem Anchored.twinned (h : m.Anchored) : Twinned .same m m :=
  .mk h rfl fun _ _ => rfl

/-- A machine that has a twin is anchored. -/
theorem Twinned.anchored (h : Twinned ρ m₁ m₂) : m₁.Anchored := by
  obtain ⟨h, -, -⟩ := h
  exact h

/-- Twins share their world. -/
theorem Twinned.world (h : Twinned ρ m₁ m₂) : m₂.world = m₁.world := by
  obtain ⟨-, -, -⟩ := h
  rfl

/-- Twins have as many frames. -/
theorem Twinned.depth (h : Twinned ρ m₁ m₂) : m₂.stack.depth = m₁.stack.depth := by
  obtain ⟨-, hframes, -⟩ := h
  have hlength := congrArg List.length hframes
  rw [List.length_map, List.length_map] at hlength
  exact hlength.symm

/-- Both stacks are empty, or their active frames differ in notes only. -/
theorem Twinned.frames_cases (h : Twinned ρ m₁ m₂) :
    (m₁.stack.frames = [] ∧ m₂.stack.frames = []) ∨
      ∃ f₁ rest₁ f₂ rest₂, m₁.stack.frames = f₁ :: rest₁ ∧ m₂.stack.frames = f₂ :: rest₂ ∧
        f₁.blurred = f₂.blurred ∧ rest₁.map Frame.blurred = rest₂.map Frame.blurred := by
  obtain ⟨-, hframes, -⟩ := h
  rcases hcases : m₁.stack.frames with _ | ⟨f₁, rest₁⟩
  · rw [hcases] at hframes
    exact .inl ⟨rfl, List.map_eq_nil_iff.1 hframes.symm⟩
  · rw [hcases] at hframes
    obtain ⟨f₂, rest₂, rfl, hf, hrest⟩ := List.map_eq_cons_iff.1 hframes.symm
    exact .inr ⟨f₁, rest₁, f₂, rest₂, rfl, rfl, hf.symm, hrest.symm⟩

/-- Other frames, which run what is filed. -/
theorem Twinned.withFrames (h : Twinned ρ m₁ m₂) {fs gs : List Frame}
    (hframes : fs.map Frame.blurred = gs.map Frame.blurred) (hheld : ∀ f ∈ fs, f.Held m₁.world) :
    Twinned ρ (m₁.withFrames fs) (m₂.withFrames gs) := by
  obtain ⟨hanchored, -, hended⟩ := h
  exact .mk (m := m₁.withFrames fs) (hanchored.stack hheld) hframes hended

/-- Another world that keeps what is filed. -/
theorem Twinned.withWorld (h : Twinned ρ m₁ m₂) {w : World} (hw : m₁.world.Kept w)
    (hnatives : w.natives.Only Native.keepsBlocks) :
    Twinned ρ { m₁ with world := w } { m₂ with world := w } := by
  obtain ⟨hanchored, hframes, hended⟩ := h
  exact .mk (m := { m₁ with world := w }) (hanchored.world hw hnatives) hframes hended

/-- A new active frame. -/
theorem Twinned.setFrame (h : Twinned ρ m₁ m₂) {f₁ f₂ f₁' f₂' : Frame} {rest₁ rest₂ : List Frame}
    (h₁ : m₁.stack.frames = f₁ :: rest₁) (h₂ : m₂.stack.frames = f₂ :: rest₂)
    (hblurred : f₁'.blurred = f₂'.blurred) (hprogram : f₁'.program = f₁.program)
    (hversion : f₁'.version = f₁.version) :
    Twinned ρ (m₁.withFrames (f₁' :: rest₁)) (m₂.withFrames (f₂' :: rest₂)) := by
  have hheld := h.anchored.held
  rw [h₁] at hheld
  obtain ⟨hf, hrest⟩ := List.forall_mem_cons.1 hheld
  rcases h.frames_cases with ⟨hnil, -⟩ | ⟨_, _, _, _, h₁', h₂', -, hblurred'⟩
  · rw [h₁] at hnil
    exact nomatch hnil
  obtain ⟨rfl, rfl⟩ := List.cons.inj (h₁.symm.trans h₁')
  obtain ⟨rfl, rfl⟩ := List.cons.inj (h₂.symm.trans h₂')
  refine h.withFrames ?_ (List.forall_mem_cons.2 ⟨?_, hrest⟩)
  · rw [List.map_cons, List.map_cons, hblurred, hblurred']
  · rw [Frame.Held, hprogram, hversion]
    exact hf

/-- **The active frames of twins may compute.** -/
theorem twinned_mirroring : Mirroring Twinned where
  fresh := by
    rintro ρ m₁ m₂ ⟨hanchored, hframes, hended⟩
    exact ⟨.same, le_rfl, fun _ _ => rfl,
      .mk (m := m₁.withSupply (m₁.world.supply + 1)) (hanchored.withSupply _) hframes hended⟩
  frames := by
    intro ρ m₁ m₂ h
    rcases h.frames_cases with hnil | ⟨f₁, rest₁, f₂, rest₂, h₁, h₂, hf, -⟩
    · exact .inl hnil
    · obtain ⟨-, -, -⟩ := h
      exact .inr ⟨f₁, rest₁, f₂, rest₂, h₁, h₂, Frame.like_of_blurred hf⟩
  update := by
    intro ρ m₁ m₂ f₁ f₂ f₁' f₂' rest₁ rest₂ h h₁ h₂ hrole₁ hrole₂ hregisters hoffset hretain
    rcases h.frames_cases with ⟨hnil, -⟩ | ⟨_, _, _, _, h₁', h₂', hf, -⟩
    · rw [h₁] at hnil
      exact nomatch hnil
    obtain ⟨rfl, rfl⟩ := List.cons.inj (h₁.symm.trans h₁')
    obtain ⟨rfl, rfl⟩ := List.cons.inj (h₂.symm.trans h₂')
    obtain ⟨-, -, -⟩ := id h
    have hwish : f₁.blurred.retain = f₂.blurred.retain := congrArg Frame.retain hf
    exact h.setFrame h₁ h₂ (Frame.blurred_update hf hrole₁ hrole₂ hregisters hoffset (hretain hwish))
      (show f₁'.role.program = f₁.role.program from congrArg Frame.program hrole₁)
      (show f₁'.role.version = f₁.role.version from congrArg Frame.version hrole₁)

/-! ### Operations that do not see notes -/

/-- A change of the stack that has nothing to do with notes. -/
theorem onStack_twins {g : Stack → α × Stack}
    (hnotes : ∀ s frames outcome, g { s with frames := frames, lastOutcome := outcome } =
      ((g s).1, { (g s).2 with frames := frames, lastOutcome := outcome }))
    (hended : ∀ s, (g s).2.phase = .finished → (g s).2.error = none →
      s.phase = .finished ∧ s.error = none) :
    Mirrors lax Twinned ρ (onStack g) (onStack g) Equally := by
  rintro m₁ m₂ ⟨hanchored, hblurred, hkept⟩
  rename_i frames outcome
  have hrun : ∀ m : Machine, onStack g m = (.ok (g m.stack).1, { m with stack := (g m.stack).2 }) :=
    fun _ => rfl
  -- in particular frames and notes stay as they are
  have hframes : (g m₁.stack).2 = { (g m₁.stack).2 with
      frames := m₁.stack.frames, lastOutcome := m₁.stack.lastOutcome } :=
    congrArg Prod.snd (hnotes m₁.stack m₁.stack.frames m₁.stack.lastOutcome)
  have hsame : (g (m₁.noted frames outcome).stack) =
      ((g m₁.stack).1, { (g m₁.stack).2 with frames := frames, lastOutcome := outcome }) :=
    hnotes m₁.stack frames outcome
  rw [hrun, hrun, hsame]
  refine .ok le_rfl (.mk (m := { m₁ with stack := (g m₁.stack).2 }) (hanchored.stack ?_) ?_ ?_) rfl
  · rw [hframes]
    exact hanchored.held
  · rw [hframes]
    exact hblurred
  · intro hphase herror
    obtain ⟨hphase', herror'⟩ := hended _ hphase herror
    rw [hframes]
    exact hkept hphase' herror'

/-- A change of the stack that has no answer and nothing to do with notes. -/
theorem modifyStack_twins {g : Stack → Stack}
    (hnotes : ∀ s frames outcome, g { s with frames := frames, lastOutcome := outcome } =
      { g s with frames := frames, lastOutcome := outcome })
    (hended : ∀ s, (g s).phase = .finished → (g s).error = none →
      s.phase = .finished ∧ s.error = none) :
    Mirrors lax Twinned ρ (modifyStack g) (modifyStack g) Anyhow :=
  (onStack_twins (g := fun s => ((), g s)) (fun s frames outcome => by rw [hnotes]) hended).imp
    fun _ _ _ _ _ => trivial

/-- A computation on the world that keeps programs where they are filed. -/
structure Filing (g : World → World) : Prop where
  kept : ∀ w : World, w.Filed → w.Kept (g w)
  natives : ∀ w : World, w.natives.Only Native.keepsBlocks → (g w).natives.Only Native.keepsBlocks

/-- What changes only programs keeps the natives, so it has to keep what is filed. -/
theorem Filing.of_only {g : World → World} (hkept : ∀ w : World, w.Filed → w.Kept (g w))
    (honly : ∀ w : World, w.OnlyPrograms (g w)) : Filing g :=
  ⟨hkept, fun w h => (honly w).natives ▸ h⟩

/-- Compiling a block files its program. -/
theorem filing_compile (block : BlockId) : Filing fun w => (World.compile block w).2 :=
  .of_only (fun _ h => (h.compile block).1) (World.compile_only block)

/-- Fetching a program may do so, too. -/
theorem filing_program (index : Nat) : Filing fun w => (World.program index w).2 :=
  .of_only (fun _ h => (h.program index).1) (World.program_only index)

/-- Twins see the same of a world that keeps what is filed. -/
theorem changeWorld_twins {g : World → α × World} (hg : Filing fun w => (g w).2) :
    Mirrors lax Twinned ρ (changeWorld g) (changeWorld g) Equally := by
  intro m₁ m₂ hm
  have hrun : ∀ m : Machine, changeWorld g m =
      (.ok (g m.world).1, { m with world := (g m.world).2 }) := fun _ => rfl
  rw [hrun, hrun, hm.world]
  exact .ok le_rfl (hm.withWorld (hg.kept _ hm.anchored.filed) (hg.natives _ hm.anchored.natives)) rfl

/-- Twins see the same of the world where errors are answers. -/
theorem tryWorld_twins {g : World.Action α} (hg : Filing fun w => (g w).2) :
    Mirrors lax Twinned ρ (tryWorld g) (tryWorld g) Equally :=
  changeWorld_twins hg

/-- Errors of the world are raised after they were answered. -/
theorem onWorld_eq (g : World.Action α) : onWorld g = tryWorld g >>= fun r =>
    match r with
    | .ok a => pure a
    | .error e => raise (.compile e) :=
  rfl

/-- Twins see the same of the world where errors are raised. -/
theorem onWorld_twins {g : World.Action α} (hg : Filing fun w => (g w).2) :
    Mirrors lax Twinned ρ (onWorld g) (onWorld g) Equally := by
  rw [onWorld_eq]
  refine .bind (tryWorld_twins hg) fun ρ' _ r r' hr => ?_
  obtain rfl := hr
  cases r with
  | ok a => exact .pure rfl
  | error e => exact .raise _

/-- The program that is fetched is filed afterwards. -/
theorem program_bind_twins {index : Nat} {k₁ : Program → Action γ} {k₂ : Program → Action δ}
    {W : Matching → γ → δ → Prop}
    (h : ∀ ρ p m₁ m₂, Twinned ρ m₁ m₂ → m₁.world.slotProgram? index = some p →
      Mirrored lax Twinned Twinned ρ W (k₁ p m₁) (k₂ p m₂)) :
    Mirrors lax Twinned ρ (onWorld (World.program index) >>= k₁)
      (onWorld (World.program index) >>= k₂) W := by
  intro m₁ m₂ hm
  have hfetched := hm.withWorld ((filing_program index).kept _ hm.anchored.filed)
    ((filing_program index).natives _ hm.anchored.natives)
  obtain ⟨-, hslot⟩ := hm.anchored.filed.program index
  have hrun : ∀ m : Machine, onWorld (World.program index) m =
      (Except.mapError (.raised ∘ .compile) (World.program index m.world).1,
        { m with world := (World.program index m.world).2 }) := by
    intro m
    simp only [onWorld, Failing.bind_apply, Failing.get_apply]
    rcases World.program index m.world with ⟨_ | _, _⟩ <;> rfl
  rw [Failing.bind_apply, Failing.bind_apply, hrun, hrun, hm.world]
  cases hr : (World.program index m₁.world).1 with
  | error e => exact .error le_rfl hfetched
  | ok p => exact h _ p _ _ hfetched (hslot p hr)

/-- Twins declare the same outputs. -/
theorem Twinned.outputRegister? (h : Twinned ρ m₁ m₂) (i : Nat) :
    m₁.outputRegister? i = m₂.outputRegister? i := by
  have hworld := h.world
  rcases h.frames_cases with ⟨h₁, h₂⟩ | ⟨f₁, rest₁, f₂, rest₂, h₁, h₂, hf, -⟩
  · simp only [Machine.outputRegister?, h₁, h₂, List.head?_nil, Option.bind_eq_bind,
      Option.bind_none]
  · have hblock : f₁.block = f₂.block := (Frame.like_of_blurred hf).block
    simp only [Machine.outputRegister?, h₁, h₂, hworld, hblock, List.head?_cons,
      Option.bind_eq_bind, Option.bind_some]

/-- The same output is set in both twins. -/
theorem setOutput_twins (index : Nat) (v : Value) :
    Mirrors lax Twinned ρ (setOutput index v) (setOutput index v) Anyhow := by
  intro m₁ m₂ hm
  obtain ⟨-, -, -⟩ := id hm
  exact setOutput_mirrors twinned_mirroring (fun h => h.outputRegister?) index
    (Value.like_same.2 rfl) _ _ hm

/-- An error is recorded with the same place. -/
theorem recordError_twins (e : RuntimeError) :
    Mirrors lax Twinned ρ (recordError e) (recordError e) Anyhow := by
  have hnote : ∀ (ρ : Matching) (place place' : Option BlockId × Pc), place = place' →
      Mirrors lax Twinned ρ
        (modifyStack fun s => { s with
          error := some ⟨e, s.depth - 1, place.1, place.2⟩, phase := .finished })
        (modifyStack fun s => { s with
          error := some ⟨e, s.depth - 1, place'.1, place'.2⟩, phase := .finished }) Anyhow := by
    rintro ρ place _ rfl m₁ m₂ hm
    have hdepth := hm.depth
    obtain ⟨hanchored, hblurred, -⟩ := hm
    have hrun : ∀ (m : Machine) (d : Nat), m.stack.depth = d →
        (modifyStack fun s => { s with
          error := some ⟨e, s.depth - 1, place.1, place.2⟩, phase := .finished }) m =
        (.ok (), { m with stack := { m.stack with
          error := some ⟨e, d - 1, place.1, place.2⟩, phase := .finished } }) := by
      rintro m _ rfl
      rfl
    rw [hrun m₁ _ rfl, hrun _ _ hdepth]
    exact .ok le_rfl (.mk (m := { m₁ with stack := { m₁.stack with
      error := some ⟨e, m₁.stack.depth - 1, place.1, place.2⟩, phase := .finished } })
      (hanchored.stack hanchored.held) hblurred nofun) trivial
  refine .getStack_bind fun m₁ m₂ hm => ?_
  rcases hm.frames_cases with ⟨h₁, h₂⟩ | ⟨f₁, rest₁, f₂, rest₂, h₁, h₂, hf, -⟩
  · rw [h₁, h₂]
    exact hnote ρ (none, {}) _ rfl m₁ m₂ hm
  · have hlike := Frame.like_of_blurred hf
    rw [h₁, h₂]
    dsimp only
    have hprogram : f₁.program = f₂.program :=
      show f₁.blurred.program = f₂.blurred.program from congrArg Frame.program hf
    rw [hlike.block, hprogram, hlike.offset]
    refine Mirrors.bind (tryWorld_twins (filing_program _)) (fun ρ₁ _ r r' hr => ?_) m₁ m₂ hm
    obtain rfl := hr
    exact .bind (V := Equally) (.pure rfl) fun ρ₂ _ place place' h => hnote ρ₂ place place' h

/-- The same error is raised in both twins, at the same place. -/
theorem raiseError_twins (message : String) :
    Mirrors lax Twinned ρ (raiseError message) (raiseError message) Equally := by
  have hdone : ∀ ρ, Mirrors lax Twinned ρ
      (do recordError (.hostRaised message); return RuntimeError.hostRaised message)
      (do recordError (.hostRaised message); return RuntimeError.hostRaised message) Equally :=
    fun ρ => .bind (recordError_twins _) fun _ _ _ _ _ => .pure rfl
  refine .get_bind fun m₁ m₂ hm => ?_
  rw [hm.outputRegister? 0]
  split
  · exact Mirrors.bind (setOutput_twins 0 _) (fun ρ' _ _ _ _ => hdone ρ') m₁ m₂ hm
  · exact hdone ρ m₁ m₂ hm

/-- The same message is put into the same channel of both twins. -/
theorem emit_twins (channel : Key) (message : Value) :
    Mirrors lax Twinned ρ (onStack (·.emit channel message)) (onStack (·.emit channel message))
      Equally := by
  refine onStack_twins (fun s frames outcome => ?_) fun s => ?_
  · simp only [Stack.emit]
    cases Entries.get? channel s.messages <;> rfl
  · rw [Stack.emit]
    cases Entries.get? channel s.messages <;> exact fun hphase herror => ⟨hphase, herror⟩

/-- Looking a name up may ask the cache of its site. -/
theorem sendLine_apply (s : Send) (v : Value) (m : Machine) : sendLine s v m =
    if m.stack.config.inlineCache then
      onStack (fun s' =>
        let r := s'.caches.consult s.program s.site.toNat (m.world.resolvedLine v s.name)
        (r.1, { s' with caches := r.2 })) m
    else (.ok (m.world.resolvedLine v s.name), m) := by
  simp only [sendLine, Failing.bind_apply, Failing.get_apply]
  split <;> rfl

/-- Sends mean the same. -/
theorem twinned_sending (i : Nat) : Sending lax Twinned i i where
  toMirroring := twinned_mirroring
  line := by
    rintro ρ v w s rfl hvw m₁ m₂ hm
    obtain ⟨-, -, -⟩ := id hm
    obtain rfl := Value.like_same.1 hvw
    rw [sendLine_apply, sendLine_apply]
    show Mirrored _ _ _ _ _ _ (if m₁.stack.config.inlineCache then _ else _)
    split
    · exact onStack_twins (fun _ _ _ => rfl) (fun _ hphase herror => ⟨hphase, herror⟩) _ _ hm
    · exact .ok le_rfl hm rfl
  held := by
    intro ρ m₁ m₂ v w name hm hvw
    obtain ⟨-, -, -⟩ := id hm
    obtain rfl := Value.like_same.1 hvw
    show Option.Rel _ (heldValue? m₁.world v name) (heldValue? m₁.world v name)
    cases heldValue? m₁.world v name with
    | none => exact .none
    | some u => exact .some (Value.like_same.2 rfl)

/-- Default natives find the same things. -/
theorem twinned_serving : Serving lax Twinned where
  toMirroring := twinned_mirroring
  outputs := fun h => h.outputRegister?
  prints := by
    rintro ρ m₁ m₂ ⟨hanchored, hblurred, hended⟩ text
    exact .mk (m := { m₁ with printed := m₁.printed ++ text })
      ⟨hanchored.filed, hanchored.natives, hanchored.held⟩ hblurred hended
  draws := by
    rintro ρ m₁ m₂ ⟨hanchored, hblurred, hended⟩
    exact ⟨rfl, fun random => .mk (m := { m₁ with stack := { m₁.stack with random := random } })
      (hanchored.stack hanchored.held) hblurred hended⟩
  env := by
    rintro ρ m₁ m₂ ⟨-, -, -⟩ k
    show Option.Rel _ (Entries.get? k m₁.stack.env) (Entries.get? k m₁.stack.env)
    cases Entries.get? k m₁.stack.env with
    | none => exact .none
    | some v => exact .some (Value.like_same.2 rfl)
  emits := by
    intro ρ v w channel hvw m₁ m₂ hm
    obtain ⟨-, -, -⟩ := id hm
    obtain rfl := Value.like_same.1 hvw
    exact emit_twins channel v _ _ hm
  raises := raiseError_twins

/-! ### Calls and returns -/

/-- Machines that differ in notes only, and in which a program is filed. -/
def Finding (index : Nat) (p : Program) : Matching → Machine → Machine → Prop :=
  fun ρ m₁ m₂ => Twinned ρ m₁ m₂ ∧ m₁.world.slotProgram? index = some p

/-- Twins take buffer numbers in step, and find the program still. -/
theorem drawing_finding (index : Nat) (p : Program) : Drawing (Finding index p) where
  fresh := by
    rintro ρ m₁ m₂ ⟨hm, hslot⟩
    obtain ⟨ρ', hle, hlink, hnext⟩ := twinned_mirroring.fresh hm
    exact ⟨ρ', hle, hlink, hnext, hslot⟩

/-- A child of either twin finds the same state. -/
theorem Twinned.incomingFor (h : Twinned ρ m₁ m₂) (key : Option Key) :
    incomingFor m₂.stack key = incomingFor m₁.stack key := by
  rcases h.frames_cases with ⟨h₁, h₂⟩ | ⟨f₁, rest₁, f₂, rest₂, h₁, h₂, hf, -⟩
  · obtain ⟨-, -, -⟩ := h
    simp only [Machine.incomingFor, h₁, h₂]
    rfl
  · have hincoming : f₂.incoming = f₁.incoming :=
      show f₂.blurred.incoming = f₁.blurred.incoming from congrArg Frame.incoming hf.symm
    cases key with
    | none => simp only [Machine.incomingFor, h₁, h₂]
    | some k => simp only [Machine.incomingFor, h₁, h₂, hincoming]

/-- **Calls do not see notes.** The frame that is pushed runs what is filed for its block. -/
theorem enter_twins (block : BlockId) {args args' : List Value} (hargs : Items.Like ρ args args')
    {link link' : Link} (hlink : Link.Like ρ link link') :
    Mirrors lax Twinned ρ (enter block args link) (enter block args' link') Anyhow := by
  intro m₁ m₂ hm
  obtain ⟨-, -, -⟩ := id hm
  obtain rfl := Items.like_same hargs
  obtain rfl := Link.like_same hlink
  refine Mirrors.getStack_bind (fun n₁ n₂ hn => ?_) _ _ hm
  have hconfig : n₂.stack.config = n₁.stack.config := by
    obtain ⟨-, -, -⟩ := hn
    rfl
  rw [hn.depth, hn.incomingFor, hconfig]
  split
  · exact .error le_rfl hn
  refine Mirrors.bind (onWorld_twins (filing_compile block)) (fun ρ₁ _ index index' hindex => ?_)
    n₁ n₂ hn
  obtain rfl := hindex
  refine program_bind_twins fun ρ₂ p k₁ k₂ hk hslot => ?_
  dsimp only
  split
  · exact .error le_rfl hk
  have hcast : Mirrors lax (Finding index p) ρ₂ (castArguments p.signature 0 args)
      (castArguments p.signature 0 args) Items.Like := by
    obtain ⟨-, -, -⟩ := id hk
    exact castArguments_mirrors (drawing_finding index p) _ _
      (List.forall₂_same.2 fun _ _ => Value.like_same.2 rfl)
  refine ((hcast k₁ k₂ ⟨hk, hslot⟩).imp (fun _ _ _ _ h => h) (fun _ _ _ _ h => h.1)
    fun _ _ _ _ h => h).bind fun ρ₃ k₁ k₂ vs ws _ hk hvs => ?_
  obtain ⟨hk, hslot⟩ := hk
  have hpush : ∀ (frame : Frame), frame.program = index → frame.version = p.version →
      Twinned ρ₃ (k₁.withFrames (frame :: k₁.stack.frames))
        (k₂.withFrames (frame :: k₂.stack.frames)) := by
    intro frame hprogram hversion
    obtain ⟨hanchored, hblurred, -⟩ := id hk
    refine hk.withFrames ?_ (List.forall_mem_cons.2 ⟨⟨p, ?_, hversion.symm⟩, hanchored.held⟩)
    · rw [List.map_cons, List.map_cons, hblurred]
      rfl
    · rw [hprogram]
      exact hslot
  obtain ⟨-, -, -⟩ := id hk
  obtain rfl := Items.like_same hvs
  exact .ok le_rfl (hpush _ rfl rfl) trivial

/-- What is popped differs in notes only, and snapshots are the same. -/
theorem popFrame_twins : Mirrors lax Twinned ρ (onStack Stack.popFrame) (onStack Stack.popFrame)
    fun _ x y => x.map Frame.blurred = y.map Frame.blurred := by
  intro m₁ m₂ hm
  have hrun : ∀ m : Machine, onStack Stack.popFrame m =
      (.ok m.stack.popFrame.1, { m with stack := m.stack.popFrame.2 }) := fun _ => rfl
  rw [hrun, hrun]
  rcases hm.frames_cases with ⟨h₁, h₂⟩ | ⟨f₁, rest₁, f₂, rest₂, h₁, h₂, hf, hrest⟩
  · simp only [Stack.popFrame, h₁, h₂]
    exact .ok le_rfl hm rfl
  · obtain ⟨node, rfl⟩ := Frame.exists_noting hf
    obtain ⟨hanchored, -, hended⟩ := hm
    have hheld := hanchored.held
    rw [h₁] at hheld
    simp only [Stack.popFrame, h₁, h₂]
    exact .ok le_rfl (.mk (m := { m₁ with stack := { m₁.stack with
        frames := rest₁
        retained := if f₁.retain then m₁.stack.retained ++ [f₁.snapshot] else m₁.stack.retained } })
      (hanchored.stack fun f hf => hheld f (List.mem_cons_of_mem _ hf)) hrest hended) rfl

/-- What goes on with the active frames may use that they differ in notes only. -/
theorem active_bind_twins {k₁ : Frame → Action γ} {k₂ : Frame → Action δ}
    {W : Matching → γ → δ → Prop}
    (h : ∀ m₁ m₂ f rest₁ node rest₂, Twinned ρ m₁ m₂ → m₁.stack.frames = f :: rest₁ →
      m₂.stack.frames = f.noting node :: rest₂ →
      Mirrored lax Twinned Twinned ρ W (k₁ f m₁) (k₂ (f.noting node) m₂)) :
    Mirrors lax Twinned ρ (active >>= k₁) (active >>= k₂) W := by
  intro m₁ m₂ hm
  simp only [active, getStack, Failing.bind_apply, Failing.get_apply, Failing.pure_apply]
  rcases hm.frames_cases with ⟨h₁, h₂⟩ | ⟨f₁, rest₁, f₂, rest₂, h₁, h₂, hf, -⟩
  · rw [h₁, h₂]
    exact .error le_rfl hm
  · obtain ⟨node, rfl⟩ := Frame.exists_noting hf
    rw [h₁, h₂]
    exact h m₁ m₂ f₁ rest₁ node rest₂ hm h₁ h₂

/-- The active frame may change in all but the program that it runs. -/
theorem Twinned.setActive (h : Twinned ρ m₁ m₂) {f₁ f₂ f₁' f₂' : Frame} {rest₁ rest₂ : List Frame}
    (h₁ : m₁.stack.frames = f₁ :: rest₁) (h₂ : m₂.stack.frames = f₂ :: rest₂)
    (hblurred : f₁'.blurred = f₂'.blurred) (hprogram : f₁'.program = f₁.program)
    (hversion : f₁'.version = f₁.version) :
    Mirrored lax Twinned Twinned ρ Anyhow (setActive f₁' m₁) (setActive f₂' m₂) := by
  rw [setActive_apply h₁, setActive_apply h₂]
  exact .ok le_rfl (h.setFrame h₁ h₂ hblurred hprogram hversion) trivial

/-- The same value is saved in both twins. -/
theorem saveState_twins (name : String) (v : Value) :
    Mirrors lax Twinned ρ (saveState name v) (saveState name v) Anyhow := by
  refine active_bind_twins fun m₁ m₂ f rest₁ node rest₂ hm h₁ h₂ => ?_
  have hstateful : (f.noting node).isStateful = f.isStateful := rfl
  dsimp only
  rw [hstateful]
  split
  · exact hm.setActive h₁ h₂ rfl rfl rfl
  · exact hm.setActive h₁ h₂ rfl rfl rfl

/-- Buffer numbers are drawn in step, and nothing else changes meanwhile. -/
theorem Twinned.allocate_bind (h : Twinned ρ m₁ m₂) {g : Fresh α} {k₁ : α → Action γ}
    {k₂ : α → Action δ} {W : Matching → γ → δ → Prop}
    (hnext : ∀ a supply, Twinned ρ (m₁.withSupply supply) (m₂.withSupply supply) →
      Mirrored lax Twinned Twinned ρ W (k₁ a (m₁.withSupply supply)) (k₂ a (m₂.withSupply supply))) :
    Mirrored lax Twinned Twinned ρ W ((allocate g >>= k₁) m₁) ((allocate g >>= k₂) m₂) := by
  obtain ⟨hanchored, hblurred, hended⟩ := h
  exact hnext (g m₁.world.supply).1 (g m₁.world.supply).2
    (.mk (m := m₁.withSupply _) (hanchored.withSupply _) hblurred hended)

/-- The same buffer numbers are taken in both twins. -/
theorem allocate_twins {g : Fresh α} :
    Mirrors lax Twinned ρ (allocate g) (allocate g) Equally := by
  rintro m₁ m₂ ⟨hanchored, hblurred, hended⟩
  exact .ok le_rfl (.mk (m := m₁.withSupply (g m₁.world.supply).2) (hanchored.withSupply _) hblurred
    hended) rfl

/-- The same outputs and the same state are delivered in both twins. -/
theorem deliver_twins (child : Frame) (outputs : List Value) :
    Mirrors lax Twinned ρ (deliver child outputs) (deliver child outputs) Anyhow := by
  refine active_bind_twins fun m₁ m₂ f rest₁ node rest₂ hm h₁ h₂ => ?_
  cases child.key with
  | some k => exact hm.allocate_bind fun a supply hm => hm.setActive h₁ h₂ rfl rfl rfl
  | none => exact hm.setActive h₁ h₂ rfl rfl rfl

/-- The roots of both leave the same outputs and the same state. -/
theorem leaveRoot_twins (hm : Twinned ρ m₁ m₂) {f : Frame} {node : Option UInt32}
    {rest₁ rest₂ : List Frame} (h₁ : m₁.stack.frames = f :: rest₁)
    (h₂ : m₂.stack.frames = f.noting node :: rest₂) (outputs : List (Output × Value)) :
    Mirrored lax Twinned Twinned ρ Anyhow (leaveRoot f outputs m₁)
      (leaveRoot (f.noting node) outputs m₂) := by
  refine hm.allocate_bind fun state supply hm => ?_
  have hstate : ∀ ρ', Mirrors lax Twinned ρ' (modifyStack fun s => { s with state := state })
      (modifyStack fun s => { s with state := state }) Anyhow :=
    fun ρ' => modifyStack_twins (fun _ _ _ => rfl) fun _ hphase herror => ⟨hphase, herror⟩
  refine Mirrored.bind (hm.setActive h₁ h₂ ?_ ?_ ?_) fun ρ' n₁ n₂ _ _ _ hn _ => hstate ρ' n₁ n₂ hn
  · rfl
  · rfl
  · rfl

/-- **Returns do not see notes.** -/
theorem leave_twins (program : Program) :
    Mirrors lax Twinned ρ (leave program) (leave program) Equally := by
  refine active_bind_twins fun m₁ m₂ f rest₁ node rest₂ hm h₁ h₂ => ?_
  have hcast : Mirrors lax (Holding Twinned m₁ m₂) ρ
      (castOutputs program f.registers 0 program.signature.outputs)
      (castOutputs program f.registers 0 program.signature.outputs) Items.Like := by
    obtain ⟨-, -, -⟩ := id hm
    exact castOutputs_mirrors (twinned_mirroring.toDrawing.holding _ _) rfl (.refl _) 0 _
  refine ((hcast m₁ m₂ ⟨hm, rfl, rfl⟩).imp (fun _ _ _ _ h => h) (fun _ _ _ _ h => h.1)
    fun _ _ _ _ h => h).bind ?_
  rintro ρ' n₁ n₂ vs ws - ⟨hn, hs₁, hs₂⟩ hvs
  obtain ⟨-, -, -⟩ := id hn
  obtain rfl := Items.like_same hvs
  have hparent : (f.noting node).parent = f.parent := rfl
  rw [hparent]
  split
  · exact (leaveRoot_twins hn (hs₁ ▸ h₁) (hs₂ ▸ h₂) _).bind fun _ _ _ _ _ _ hk _ =>
      .ok le_rfl hk rfl
  · refine (popFrame_twins _ _ hn).bind fun ρ₁ k₁ k₂ _ _ _ hk _ => ?_
    exact (deliver_twins f vs k₁ k₂ hk).bind fun _ _ _ _ _ _ hk _ => .ok le_rfl hk rfl

/-! ### Instructions -/

/-- **Instructions other than natives do not see notes.** -/
theorem perform_twins {host₁ host₂ : Embedder} {resume₁ resume₂ : Action Outcome}
    {program : Program} (next : Nat) {i : Instruction} (hi : ∀ index, i ≠ .native index) :
    Mirrors lax Twinned ρ (perform host₁ resume₁ program next i)
      (perform host₂ resume₂ program next i) Anyhow := by
  intro m₁ m₂ hm
  obtain ⟨-, -, -⟩ := id hm
  have hinside : i.staysInside = true → Mirrored lax Twinned Twinned .same Anyhow
      (perform host₁ resume₁ program next i m₁) (perform host₂ resume₂ program next i _) :=
    fun h => perform_inside_mirrors twinned_mirroring (.refl program) next h _ _ hm
  have hcall : i.isCall = true → Mirrored lax Twinned Twinned .same Anyhow
      (perform host₁ resume₁ program next i m₁) (perform host₂ resume₂ program next i _) :=
    fun h => perform_call_mirrors (twinned_sending _) (.refl program) (fun h => h) (fun h => h)
      (fun ρ block _ _ _ _ _ hargs hlink => enter_twins block hargs hlink) next h hm
  cases i with
  | native index => exact absurd rfl (hi index)
  | call | callKeyed | callFunc | callFuncApply | callMethod => exact hcall rfl
  | saveState name src =>
    refine Mirrors.bind (entry_mirrors _ _ name) (fun ρ₁ _ s s' hs => ?_) _ _ hm
    rw [← hs.1]
    refine .bind (register_mirrors twinned_mirroring.toReading src) fun ρ₂ _ v w hvw => ?_
    intro n₁ n₂ hn
    obtain ⟨-, -, -⟩ := id hn
    obtain rfl := Value.like_same.1 hvw
    exact saveState_twins s v _ _ hn
  | pause | ret => exact .ok le_rfl hm trivial
  | _ => exact hinside rfl

/-! ### Positions -/

/-- The pc of a frame is set in step, whatever nodes are noted. -/
theorem Twinned.placed (h : Twinned ρ m₁ m₂) (top : Nat) {pc₁ pc₂ : Frame → Pc}
    (hpc : ∀ f node, (pc₁ f).offset = (pc₂ (f.noting node)).offset) :
    Twinned ρ (m₁.placed top pc₁) (m₂.placed top pc₂) := by
  have hdepth := h.depth
  have hframes : ∀ (m : Machine) (pc : Frame → Pc), m.placed top pc = m.withFrames
      (if top < m.stack.depth then
        m.stack.frames.modify (m.stack.depth - 1 - top) fun f => { f with pc := pc f }
      else m.stack.frames) := by
    intro m pc
    rw [Machine.placed, Stack.modifyFrameAt]
    split <;> rfl
  rw [hframes, hframes, hdepth]
  obtain ⟨hanchored, hblurred, -⟩ := id h
  split
  · refine h.withFrames (Frame.blurred_modify hblurred _ fun f g hfg => ?_) ?_
    · obtain ⟨node, rfl⟩ := Frame.exists_noting hfg
      rw [Frame.blurred, Frame.blurred, Frame.noting, Frame.noting, hpc f node]
      rfl
    · intro f hf
      obtain ⟨j, hj⟩ := List.mem_iff_getElem?.1 hf
      rw [List.getElem?_modify] at hj
      obtain ⟨g, hg, rfl⟩ := Option.map_eq_some_iff.1 hj
      have hheld := hanchored.held g (List.mem_of_getElem? hg)
      split
      · exact hheld
      · exact hheld
  · exact h.withFrames hblurred hanchored.held

end Machine

end BlockMachine

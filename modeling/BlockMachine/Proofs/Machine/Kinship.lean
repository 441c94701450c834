import BlockMachine.Proofs.Machine.Lockstep
import BlockMachine.Proofs.Machine.Tenure

namespace BlockMachine

/-!
# Machines that differ in what only natives and hosts see

The environment, the channels, the random numbers, the snapshots of frames and the printed text of a
machine are read and written by natives and hosts only. Two machines that differ in nothing else execute
a program without natives in the same way.

* `Machine.Kin` relates two such machines, which have their caches turned off;
* `Machine.enter_kin`, `Machine.leave_kin` and `Machine.perform_kin` are about calls, returns and
  instructions;
* `Machine.execute_kin` is about the loop.
-/

/-! ### Frames -/

/-- A frame that asks for a snapshot or not. -/
def Frame.asking (f : Frame) (retain : Bool) : Frame :=
  { f with retain := retain }

/-- A frame that asks for no snapshot. -/
def Frame.unasking (f : Frame) : Frame :=
  f.asking false

/-- What differs is whether the frame asks for a snapshot. -/
theorem Frame.exists_asking {f g : Frame} (h : f.unasking = g.unasking) :
    ∃ retain, g = f.asking retain := by
  refine ⟨g.retain, ?_⟩
  obtain ⟨_, _, _, _, _, _, _, _, _, _, _, _, _⟩ := f
  obtain ⟨_, _, _, _, _, _, _, _, _, _, _, _, _⟩ := g
  simp only [unasking, asking, Frame.mk.injEq] at *
  simp_all

/-- Two frames compute with the same things, whether they ask for a snapshot or not. -/
theorem Frame.like_of_unasking {f g : Frame} (h : f.unasking = g.unasking) : f.Like .same g := by
  have hlike : Frame.Like .same f.unasking g.unasking := h ▸ .refl f.unasking
  exact { hlike with }

/-- Only that differs when the same things are computed in such frames. -/
theorem Frame.unasking_update {f g f' g' : Frame} (h : f.unasking = g.unasking) (hf : f'.role = f.role)
    (hg : g'.role = g.role) (hregisters : Registers.Like .same f'.registers g'.registers)
    (hoffset : f'.pc.offset = g'.pc.offset) : f'.unasking = g'.unasking := by
  have hrole : f'.role = g'.role := by
    rw [hf, hg]
    exact show f.unasking.role = g.unasking.role from congrArg Frame.role h
  exact Frame.eq_of_role (f := f'.unasking) (g := g'.unasking) hrole (Registers.like_same hregisters)
    hoffset rfl

namespace Machine

variable {α β γ δ : Type} {lax : Fault → Prop} {ρ : Matching} {m m₁ m₂ : Machine}

/-! ### The relation -/

/-- Two machines run the same frames with the same state in the same world, up to whether frames ask for
    a snapshot, and have no caches. All else that may differ is for natives and hosts to see. -/
structure Kin (ρ : Matching) (m₁ m₂ : Machine) : Prop where
  links : ρ = .same
  world : m₁.world = m₂.world
  frames : m₁.stack.frames.map Frame.unasking = m₂.stack.frames.map Frame.unasking
  state : m₁.stack.state = m₂.stack.state
  cancelled : m₁.stack.cancelled = m₂.stack.cancelled
  config : m₁.stack.config = m₂.stack.config
  uncached : m₁.stack.config.inlineCache = false

/-- Kin have as many frames. -/
theorem Kin.depth (h : Kin ρ m₁ m₂) : m₁.stack.depth = m₂.stack.depth := by
  rw [Stack.depth, Stack.depth]
  simpa using congrArg List.length h.frames

/-- Both stacks are empty, or their active frames are the same up to snapshots. -/
theorem Kin.frames_cases (h : Kin ρ m₁ m₂) :
    (m₁.stack.frames = [] ∧ m₂.stack.frames = []) ∨
      ∃ f retain rest₁ rest₂, m₁.stack.frames = f :: rest₁ ∧ m₂.stack.frames = f.asking retain :: rest₂ ∧
        rest₁.map Frame.unasking = rest₂.map Frame.unasking := by
  have hframes := h.frames
  rcases hcases : m₁.stack.frames with _ | ⟨f, rest₁⟩
  · rw [hcases] at hframes
    exact .inl ⟨rfl, List.map_eq_nil_iff.1 hframes.symm⟩
  · rw [hcases] at hframes
    obtain ⟨g, rest₂, hcases₂, hg, hrest⟩ := List.map_eq_cons_iff.1 hframes.symm
    obtain ⟨retain, rfl⟩ := Frame.exists_asking hg.symm
    exact .inr ⟨f, retain, rest₁, rest₂, rfl, hcases₂, hrest.symm⟩

/-- Kin may get other frames that are the same up to snapshots. -/
theorem Kin.withFrames (h : Kin ρ m₁ m₂) {fs gs : List Frame}
    (hframes : fs.map Frame.unasking = gs.map Frame.unasking) :
    Kin ρ (m₁.withFrames fs) (m₂.withFrames gs) :=
  { h with frames := hframes }

/-- Kin may get another world. -/
theorem Kin.withWorld (h : Kin ρ m₁ m₂) (w : World) :
    Kin ρ { m₁ with world := w } { m₂ with world := w } :=
  { h with world := rfl }

/-- A new active frame. -/
theorem Kin.setFrame (h : Kin ρ m₁ m₂) {f₁ f₂ f₁' f₂' : Frame} {rest₁ rest₂ : List Frame}
    (h₁ : m₁.stack.frames = f₁ :: rest₁) (h₂ : m₂.stack.frames = f₂ :: rest₂)
    (hframe : f₁'.unasking = f₂'.unasking) :
    Kin ρ (m₁.withFrames (f₁' :: rest₁)) (m₂.withFrames (f₂' :: rest₂)) := by
  have hframes := h.frames
  rw [h₁, h₂, List.map_cons, List.map_cons] at hframes
  refine h.withFrames ?_
  rw [List.map_cons, List.map_cons, hframe, (List.cons.inj hframes).2]

/-- **The active frames of kin may compute.** -/
theorem kin_mirroring : Mirroring Kin where
  fresh := by
    intro ρ m₁ m₂ h
    have hsupply : m₁.world.supply = m₂.world.supply := congrArg World.supply h.world
    obtain rfl := h.links
    refine ⟨.same, le_rfl, fun _ _ => hsupply, ?_⟩
    have hworld := h.withWorld { m₁.world with supply := m₁.world.supply + 1 }
    rw [withSupply, withSupply, ← h.world]
    exact hworld
  frames := by
    intro ρ m₁ m₂ h
    obtain rfl := h.links
    rcases h.frames_cases with hnil | ⟨f, retain, rest₁, rest₂, h₁, h₂, -⟩
    · exact .inl hnil
    · exact .inr ⟨f, rest₁, _, rest₂, h₁, h₂, Frame.like_of_unasking rfl⟩
  update := by
    intro ρ m₁ m₂ f₁ f₂ f₁' f₂' rest₁ rest₂ h h₁ h₂ hrole₁ hrole₂ hregisters hoffset _
    obtain rfl := h.links
    have hframes := h.frames
    rw [h₁, h₂, List.map_cons, List.map_cons] at hframes
    exact h.setFrame h₁ h₂
      (Frame.unasking_update (List.cons.inj hframes).1 hrole₁ hrole₂ hregisters hoffset)

/-- Sends mean the same, since no cache is asked. -/
theorem kin_sending (i : Nat) : Sending lax Kin i i where
  toMirroring := kin_mirroring
  line := by
    rintro ρ v w s - hvw m₁ m₂ hm
    obtain rfl := hm.links
    obtain rfl := Value.like_same.1 hvw
    rw [sendLine_apply, sendLine_apply, ← hm.config, hm.uncached, ← hm.world]
    exact .ok le_rfl hm rfl
  held := by
    intro ρ m₁ m₂ v w name hm hvw
    obtain rfl := hm.links
    obtain rfl := Value.like_same.1 hvw
    rw [← hm.world]
    cases heldValue? m₁.world v name with
    | none => exact .none
    | some u => exact .some (Value.like_same.2 rfl)

/-! ### Calls and returns -/

/-- What is done to the world is the same. -/
theorem onWorld_kin (g : World.Action α) : Mirrors lax Kin ρ (onWorld g) (onWorld g) Equally := by
  intro m₁ m₂ hm
  rw [onWorld_apply, onWorld_apply, ← hm.world]
  rcases g m₁.world with ⟨e | x, w⟩
  · exact .error le_rfl (hm.withWorld w)
  · exact .ok le_rfl (hm.withWorld w) rfl

/-- A child of either finds the same state. -/
theorem Kin.incomingFor (h : Kin ρ m₁ m₂) (key : Option Key) :
    incomingFor m₁.stack key = incomingFor m₂.stack key := by
  rcases h.frames_cases with ⟨h₁, h₂⟩ | ⟨f, retain, rest₁, rest₂, h₁, h₂, -⟩
  · simp only [Machine.incomingFor, h₁, h₂, h.state]
  · cases key with
    | none => simp only [Machine.incomingFor, h₁, h₂]
    | some k =>
      simp only [Machine.incomingFor, h₁, h₂]
      rfl

/-- **Calls go in step**, since neither environment nor channels are looked at. -/
theorem enter_kin (block : BlockId) {args args' : List Value} (hargs : Items.Like ρ args args')
    {link link' : Link} (hlink : Link.Like ρ link link') :
    Mirrors lax Kin ρ (enter block args link) (enter block args' link') Anyhow := by
  intro m₁ m₂ hm
  obtain rfl := hm.links
  obtain rfl := Items.like_same hargs
  obtain rfl := Link.like_same hlink
  refine Mirrors.getStack_bind (fun n₁ n₂ hn => ?_) m₁ m₂ hm
  rw [hn.depth, hn.incomingFor, hn.config]
  split
  · exact .error le_rfl hn
  refine Mirrors.bind (onWorld_kin _) (fun ρ₁ _ index index' hindex => ?_) n₁ n₂ hn
  obtain rfl := hindex
  refine .bind (onWorld_kin _) fun ρ₂ _ p p' hp => ?_
  obtain rfl := hp
  dsimp only
  split
  · exact .raise_bind _
  intro k₁ k₂ hk
  obtain rfl := hk.links
  refine (castArguments_mirrors kin_mirroring.toDrawing p.signature 0
    (List.forall₂_same.2 fun _ _ => Value.like_same.2 rfl) k₁ k₂ hk).bind
    fun ρ₃ k₁ k₂ vs ws _ hk hvs => ?_
  obtain rfl := hk.links
  obtain rfl := Items.like_same hvs
  refine .ok le_rfl (hk.withFrames ?_) trivial
  rw [List.map_cons, List.map_cons, hk.frames]

/-- What goes on with the active frames may use that they are the same up to snapshots. -/
theorem active_bind_kin {k₁ : Frame → Action γ} {k₂ : Frame → Action δ} {W : Matching → γ → δ → Prop}
    (h : ∀ m₁ m₂ f retain rest₁ rest₂, Kin ρ m₁ m₂ → m₁.stack.frames = f :: rest₁ →
      m₂.stack.frames = f.asking retain :: rest₂ →
      Mirrored lax Kin Kin ρ W (k₁ f m₁) (k₂ (f.asking retain) m₂)) :
    Mirrors lax Kin ρ (active >>= k₁) (active >>= k₂) W := by
  intro m₁ m₂ hm
  simp only [active, getStack, Failing.bind_apply, Failing.get_apply, Failing.pure_apply]
  rcases hm.frames_cases with ⟨h₁, h₂⟩ | ⟨f, retain, rest₁, rest₂, h₁, h₂, -⟩
  · rw [h₁, h₂]
    exact .error le_rfl hm
  · rw [h₁, h₂]
    exact h m₁ m₂ f retain rest₁ rest₂ hm h₁ h₂

/-- The active frames may get the same contents. -/
theorem Kin.setActive (h : Kin ρ m₁ m₂) {f₁ f₂ f₁' f₂' : Frame} {rest₁ rest₂ : List Frame}
    (h₁ : m₁.stack.frames = f₁ :: rest₁) (h₂ : m₂.stack.frames = f₂ :: rest₂)
    (hframe : f₁'.unasking = f₂'.unasking) :
    Mirrored lax Kin Kin ρ Anyhow (setActive f₁' m₁) (setActive f₂' m₂) := by
  rw [setActive_apply h₁, setActive_apply h₂]
  exact .ok le_rfl (h.setFrame h₁ h₂ hframe) trivial

/-- Kin save the same value. -/
theorem saveState_kin (name : String) (v : Value) :
    Mirrors lax Kin ρ (saveState name v) (saveState name v) Anyhow := by
  refine active_bind_kin fun m₁ m₂ f retain rest₁ rest₂ hm h₁ h₂ => ?_
  have hstateful : (f.asking retain).isStateful = f.isStateful := rfl
  dsimp only
  rw [hstateful]
  split
  · exact hm.setActive h₁ h₂ rfl
  · exact hm.setActive h₁ h₂ rfl

/-- Buffer numbers are drawn in step, and nothing else changes meanwhile. -/
theorem Kin.allocate_bind (h : Kin ρ m₁ m₂) {g : Fresh α} {k₁ : α → Action γ} {k₂ : α → Action δ}
    {W : Matching → γ → δ → Prop}
    (hnext : ∀ a supply, Kin ρ (m₁.withSupply supply) (m₂.withSupply supply) →
      Mirrored lax Kin Kin ρ W (k₁ a (m₁.withSupply supply)) (k₂ a (m₂.withSupply supply))) :
    Mirrored lax Kin Kin ρ W ((allocate g >>= k₁) m₁) ((allocate g >>= k₂) m₂) := by
  have hsupply : m₂.world.supply = m₁.world.supply := congrArg World.supply h.world.symm
  have hworld : ∀ supply, Kin ρ (m₁.withSupply supply) (m₂.withSupply supply) := by
    intro supply
    rw [withSupply, withSupply, ← h.world]
    exact h.withWorld _
  have hrun : ∀ (m : Machine) {κ : Type} (k : α → Action κ), (allocate g >>= k) m =
      k (g m.world.supply).1 (m.withSupply (g m.world.supply).2) := fun _ _ _ => rfl
  rw [hrun, hrun, hsupply]
  exact hnext _ _ (hworld _)

/-- Kin deliver the same outputs and the same state. -/
theorem deliver_kin (child : Frame) (outputs : List Value) :
    Mirrors lax Kin ρ (deliver child outputs) (deliver child outputs) Anyhow := by
  refine active_bind_kin fun m₁ m₂ f retain rest₁ rest₂ hm h₁ h₂ => ?_
  cases child.key with
  | some k => exact hm.allocate_bind fun a supply hm => hm.setActive h₁ h₂ rfl
  | none => exact hm.setActive h₁ h₂ rfl

/-- The roots of both leave the same outputs and the same state. -/
theorem leaveRoot_kin (hm : Kin ρ m₁ m₂) {f : Frame} {retain : Bool} {rest₁ rest₂ : List Frame}
    (h₁ : m₁.stack.frames = f :: rest₁) (h₂ : m₂.stack.frames = f.asking retain :: rest₂)
    (outputs : List (Output × Value)) :
    Mirrored lax Kin Kin ρ Anyhow (leaveRoot f outputs m₁) (leaveRoot (f.asking retain) outputs m₂) := by
  refine hm.allocate_bind fun state supply hm => ?_
  refine Mirrored.bind (hm.setActive h₁ h₂ ?_) fun ρ' n₁ n₂ _ _ _ hn _ => ?_
  · rfl
  · exact .ok le_rfl { hn with state := rfl } trivial

/-- Snapshots are not seen. -/
theorem popFrame_kin :
    Mirrors lax Kin ρ (onStack Stack.popFrame) (onStack Stack.popFrame) Anyhow := by
  intro m₁ m₂ hm
  have hrun : ∀ m : Machine, onStack Stack.popFrame m =
      (.ok m.stack.popFrame.1, { m with stack := m.stack.popFrame.2 }) := fun _ => rfl
  rw [hrun, hrun]
  rcases hm.frames_cases with ⟨h₁, h₂⟩ | ⟨f, retain, rest₁, rest₂, h₁, h₂, hrest⟩
  · simp only [Stack.popFrame, h₁, h₂]
    exact .ok le_rfl hm trivial
  · simp only [Stack.popFrame, h₁, h₂]
    exact .ok le_rfl { hm with frames := hrest } trivial

/-- **Returns go in step.** -/
theorem leave_kin (program : Program) :
    Mirrors lax Kin ρ (leave program) (leave program) Equally := by
  refine active_bind_kin fun m₁ m₂ f retain rest₁ rest₂ hm h₁ h₂ => ?_
  obtain rfl := hm.links
  have hcast : Mirrors lax (Holding Kin m₁ m₂) .same
      (castOutputs program f.registers 0 program.signature.outputs)
      (castOutputs program f.registers 0 program.signature.outputs) Items.Like :=
    castOutputs_mirrors (kin_mirroring.toDrawing.holding _ _) rfl (.refl _) 0 _
  refine ((hcast m₁ m₂ ⟨hm, rfl, rfl⟩).imp (fun _ _ _ _ h => h) (fun _ _ _ _ h => h.1)
    fun _ _ _ _ h => h).bind ?_
  rintro ρ' n₁ n₂ vs ws - ⟨hn, hs₁, hs₂⟩ hvs
  obtain rfl := hn.links
  obtain rfl := Items.like_same hvs
  have hparent : (f.asking retain).parent = f.parent := rfl
  rw [hparent]
  split
  · exact (leaveRoot_kin hn (hs₁ ▸ h₁) (hs₂ ▸ h₂) _).bind fun _ _ _ _ _ _ hk _ => .ok le_rfl hk rfl
  · refine (popFrame_kin _ _ hn).bind fun ρ₁ k₁ k₂ _ _ _ hk _ => ?_
    exact (deliver_kin f vs k₁ k₂ hk).bind fun _ _ _ _ _ _ hk _ => .ok le_rfl hk rfl

/-! ### Instructions -/

/-- **Instructions other than natives go in step.** -/
theorem perform_kin {host : Embedder} {resume : Action Outcome} {program : Program} (next : Nat)
    {i : Instruction} (hi : ∀ index, i ≠ .native index) :
    Mirrors lax Kin ρ (perform host resume program next i) (perform host resume program next i)
      Anyhow := by
  intro m₁ m₂ hm
  obtain rfl := hm.links
  have hinside : i.staysInside = true → Mirrored lax Kin Kin .same Anyhow
      (perform host resume program next i m₁) (perform host resume program next i m₂) :=
    fun h => perform_inside_mirrors kin_mirroring (.refl program) next h m₁ m₂ hm
  have hcall : i.isCall = true → Mirrored lax Kin Kin .same Anyhow
      (perform host resume program next i m₁) (perform host resume program next i m₂) :=
    fun h => perform_call_mirrors (kin_sending _) (.refl program) (fun h => h) (fun h => h)
      (fun ρ block _ _ _ _ _ hargs hlink => enter_kin block hargs hlink) next h hm
  cases i with
  | native index => exact absurd rfl (hi index)
  | call | callKeyed | callFunc | callFuncApply | callMethod => exact hcall rfl
  | saveState name src =>
    refine Mirrors.bind (entry_mirrors _ _ name) (fun ρ₁ _ s s' hs => ?_) m₁ m₂ hm
    rw [← hs.1]
    refine .bind (register_mirrors kin_mirroring.toReading src) fun ρ₂ _ v w hvw n₁ n₂ hn => ?_
    obtain rfl := hn.links
    obtain rfl := Value.like_same.1 hvw
    exact saveState_kin s v n₁ n₂ hn
  | pause | ret => exact .ok le_rfl hm trivial
  | _ => exact hinside rfl

/-- **Steps go in step**, calls of natives aside. -/
theorem step_kin {host : Embedder} {resume : Action Outcome} {program : Program} (next : Nat)
    {i : Instruction} (hi : ∀ index, i ≠ .native index) :
    Mirrors lax Kin ρ (step host resume program next i) (step host resume program next i) Equally := by
  by_cases hpause : i = .pause
  · subst hpause
    exact .pure rfl
  by_cases hret : i = .ret
  · subst hret
    refine .bind (leave_kin program) fun ρ₁ _ last last' hlast => ?_
    obtain rfl := hlast
    exact .pure rfl
  rw [step.eq_3 _ _ _ _ _ hpause hret]
  exact .bind (perform_kin next hi) fun _ _ _ _ _ => .pure rfl

/-! ### The loop -/

/-- Kin fetch the same program to go on with. -/
theorem currentProgram_kin : Mirrors lax Kin ρ currentProgram currentProgram Equally := by
  refine active_bind_kin fun m₁ m₂ f retain rest₁ rest₂ hm _ _ => ?_
  refine Mirrors.bind (onWorld_kin (World.program f.program)) (fun ρ' _ p p' hp => ?_) m₁ m₂ hm
  obtain rfl := hp
  have hversion : (f.asking retain).version = f.version := rfl
  rw [hversion]
  split
  · exact .pure rfl
  · exact .violate _

/-- The pc of a frame is set in step. -/
theorem Kin.placed (h : Kin ρ m₁ m₂) (top : Nat) {pc : Frame → Pc}
    (hpc : ∀ f retain, pc (f.asking retain) = pc f) :
    Kin ρ (m₁.placed top pc) (m₂.placed top pc) := by
  have hframes : ∀ m : Machine, m.placed top pc = m.withFrames
      (if top < m.stack.depth then
        m.stack.frames.modify (m.stack.depth - 1 - top) fun f => { f with pc := pc f }
      else m.stack.frames) := by
    intro m
    rw [Machine.placed, Stack.modifyFrameAt]
    split <;> rfl
  have hmodify : ∀ (fs : List Frame) (i : Nat),
      (fs.modify i fun f => { f with pc := pc f }).map Frame.unasking =
        (fs.map Frame.unasking).modify i fun f => { f with pc := pc f } := by
    intro fs i
    refine List.ext_getElem? fun j => ?_
    rw [List.getElem?_map, List.getElem?_modify, List.getElem?_modify, List.getElem?_map]
    cases fs[j]? with
    | none => rfl
    | some f =>
      simp only [Option.map_some]
      split
      · have hsame : pc f.unasking = pc f := hpc f false
        show some ({ f with pc := pc f } : Frame).unasking = some { f.unasking with pc := pc f.unasking }
        rw [hsame]
        rfl
      · rfl
  rw [hframes, hframes, h.depth]
  split
  · refine h.withFrames ?_
    rw [hmodify, hmodify, h.frames]
  · exact h.withFrames h.frames

/-- **Executions go in step.** The programs that the first machine runs call no natives. -/
theorem execute_kin {block : BlockId} {count : Nat} (host : Embedder) (fuel : Nat) (program : Program)
    {m₁ m₂ : Machine} (h : Kin .same m₁ m₂) (hm : m₁.Sited) (herror : m₁.stack.error = none)
    (hp : m₁.Executing program) (hs : m₁.Seated block count) :
    Mirrored lax Kin Kin .same Equally (execute host fuel program m₁) (execute host fuel program m₂) := by
  induction fuel generalizing program m₁ m₂ with
  | zero => exact .error le_rfl h
  | succ fuel ih =>
    have hresume : TracesRun (runWith (execute host fuel))
        (runMoments (execute host fuel) (executeMoments host fuel)) :=
      runWith_traces fun p m hm herror hp => execute_traces host fuel p hm herror hp
    obtain ⟨f, rest, hframes, -, -, -, hreach⟩ := hp.fetches hm herror
    -- the active frames are one up to whether they ask to be retained, so both fetch the same
    rcases h.frames_cases with ⟨hnil, -⟩ | ⟨_, retain, _, rest₂, hframes₁, hframes₂, hrest⟩
    · rw [hframes] at hnil
      exact nomatch hnil
    obtain ⟨rfl, rfl⟩ := List.cons.inj (hframes.symm.trans hframes₁)
    have hlength : rest₂.length = rest.length := by
      simpa using (congrArg List.length hrest).symm
    rw [execute_succ host fuel program hs.cancelled hframes,
      execute_succ host fuel program (h.cancelled.symm.trans hs.cancelled) hframes₂, hlength]
    have hoffset : (f.asking retain).pc.offset = f.pc.offset := rfl
    rw [hoffset]
    cases hfetch : program.instructionAt f.pc.offset with
    | error e => exact .error le_rfl h
    | ok found =>
      obtain ⟨i, next⟩ := found
      -- no program of a plain world calls a native, so a step depends on the machine alone
      have hnative := hs.not_native hp hreach hfetch
      -- what is known of the first machine is carried through the step beside the kinship
      obtain ⟨hm₁, hp₁⟩ := hm.advanced herror hp hframes hfetch
      obtain ⟨⟨-, -, hsited⟩, hnone, hnext⟩ :=
        step_traced (i := i) hresume hm₁ herror hp₁ hreach hfetch
      have hs₁ : (m₁.advanced f rest next).Seated block count := hs.setFrame hframes fun h => { h with }
      have hs₂ : (step host (runWith (execute host fuel)) program next i
          (m₁.advanced f rest next)).2.Seated block count := step_seated hnative hs₁
      have hstep : Mirrored lax Kin Kin .same Equally
          (step host (runWith (execute host fuel)) program next i (m₁.advanced f rest next))
          (step host (runWith (execute host fuel)) program next i
            (m₂.advanced (f.asking retain) rest₂ next)) :=
        step_kin next hnative _ _ (h.setFrame hframes hframes₂ rfl)
      dsimp only
      generalize step host (runWith (execute host fuel)) program next i (m₁.advanced f rest next)
        = r₁ at hsited hnone hnext hs₂ hstep
      generalize step host (runWith (execute host fuel)) program next i
        (m₂.advanced (f.asking retain) rest₂ next) = r₂ at hstep
      cases hstep with
      | @ok ρ' flow flow' n₁ n₂ hle hn hflow =>
        obtain rfl := hflow
        obtain rfl := hn.links
        have hm₂ : n₁.Sited := hsited (.ok flow)
        have hnone₂ : n₁.stack.error = none := hnone flow rfl
        cases flow with
        | next => exact ih program hn hm₂ hnone₂ (hnext rfl) hs₂
        -- a frame was pushed or popped: both look up the program of the frame that is active now
        | reload =>
          obtain ⟨hm₃, -⟩ := currentProgram_stays n₁ hm₂
          have hnone₃ := (congrArg (fun s => s.2.2) (currentProgram_standing n₁)).trans hnone₂
          have hexecuting := currentProgram_executing hm₂
          obtain ⟨hs₃, -⟩ := currentProgram_seated n₁ hs₂
          have hload : Mirrored lax Kin Kin .same Equally (currentProgram n₁) (currentProgram n₂) :=
            currentProgram_kin n₁ n₂ hn
          rw [continued, continued, Failing.bind_apply, Failing.bind_apply]
          generalize currentProgram n₁ = r₁ at hm₃ hnone₃ hexecuting hs₃ hload
          generalize currentProgram n₂ = r₂ at hload
          cases hload with
          | @ok ρ' p p' k₁ k₂ hle hk hp =>
            obtain rfl := hp
            obtain rfl := hk.links
            exact ih p hk hm₃ hnone₃ (hexecuting p k₁ rfl) hs₃
          | error hle hk => exact .error hle hk
          | pass h => exact .pass h
        | pause => exact .ok hle (hn.placed _ fun _ _ => rfl) rfl
        | finish => exact .ok hle hn rfl
      | error hle hn => exact .error hle (hn.placed _ fun _ _ => rfl)
      | pass h => exact .pass h

end Machine

end BlockMachine

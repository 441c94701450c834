import BlockMachine.Proofs.Machine.Entry
import BlockMachine.Proofs.Machine.FailedRuns
import BlockMachine.Proofs.Machine.Restart
import BlockMachine.Proofs.Program.Alongside

namespace BlockMachine

/-!
# A run on top of a caller

A run does the same one frame deeper: when its root is not the root of the stack but was called under a key,
and one more frame has room. Up to buffer numbers the frames are the same, and so are the worlds but for
blocks that were compiled ahead and for where programs are filed.

* `Frame.Nested` relates the frames of a run to the same frames on top of those of a caller;
* `Machine.Nested` and `Machine.Running` relate two machines, `Machine.Abreast` without their frames;
* **`Machine.enter_abreast`** is about entering a block on both, `Machine.Abreast.called` about the first one;
* `Machine.perform_stays` and `Machine.perform_leaves` are about single instructions.
-/

/-! ### Frames -/

/-- Two frames run the same program for the same caller. -/
structure Frame.SamePost (f f' : Frame) : Prop where
  block : f'.block = f.block
  program : f'.program = f.program
  version : f'.version = f.version
  parent : f'.parent = f.parent
  key : f'.key = f.key
  returnTo : f'.returnTo = f.returnTo

/-- A frame that keeps its role runs the same program for the same caller. -/
theorem Frame.SamePost.of_role {f f' : Frame} (h : f'.role = f.role) : f.SamePost f' :=
  have hfield : ∀ {β : Type} (field : Frame → β), field f'.role = field f.role := fun field =>
    congrArg field h
  ⟨hfield Frame.block, hfield Frame.program, hfield Frame.version, hfield Frame.parent,
    hfield Frame.key, hfield Frame.returnTo⟩

/-- The program of a frame's block is filed where the frame looks for it, in the version that the
    frame runs. -/
def Frame.Follows (f : Frame) (w : World) (p : Program) : Prop :=
  w.Files f.block f.program p ∧ p.version = f.version

/-- What is filed for a frame is filed for one at the same post. -/
theorem Frame.Follows.samePost {f f' : Frame} {w : World} {p : Program} (h : f.Follows w p)
    (hpost : f.SamePost f') : f'.Follows w p := by
  rw [Follows, hpost.block, hpost.program, hpost.version]
  exact h

/-- A frame that called a block under a key, the program that it runs, and where it wants the outputs. The
    constants of blocks that were compiled ahead have an owner. -/
structure Caller where
  frame : Frame
  program : Program
  block : BlockId
  callee : Block
  key : Key
  out : Reg
  owner : BufferId → Option BlockId

/-- The frames of a run, and the same frames over those of a caller of the root. -/
inductive Frame.Nested (c : Caller) (ρ : Matching) : List Frame → List Frame → Prop where
  | root {f g : Frame} (like : f.Like ρ g) (block : f.block = c.block) (alone : f.parent = none)
    (called : g.parent.isSome = true) (key : g.key = some c.key) (returnTo : g.returnTo = some c.out) :
    Nested c ρ [f] [g, c.frame]
  | inner {f g : Frame} {fs gs : List Frame} (like : f.Like ρ g) (called₁ : f.parent.isSome = true)
    (called₂ : g.parent.isSome = true) (key : f.key = g.key) (returnTo : f.returnTo = g.returnTo)
    (rest : Nested c ρ fs gs) : Nested c ρ (f :: fs) (g :: gs)

namespace Frame.Nested

variable {c : Caller} {ρ ρ' : Matching} {f g f' g' : Frame} {fs gs : List Frame}

/-- Both machines have an active frame, and these are alike. -/
theorem exists_heads (h : Nested c ρ fs gs) :
    ∃ f fs' g gs', fs = f :: fs' ∧ gs = g :: gs' ∧ f.Like ρ g := by
  cases h with
  | root like => exact ⟨_, _, _, _, rfl, rfl, like⟩
  | inner like => exact ⟨_, _, _, _, rfl, rfl, like⟩

/-- The active frames are alike. -/
theorem like (h : Nested c ρ (f :: fs) (g :: gs)) : f.Like ρ g := by
  cases h with
  | root like => exact like
  | inner like => exact like

/-- The second stack has the frame of the caller more. -/
theorem length (h : Nested c ρ fs gs) : gs.length = fs.length + 1 := by
  induction h with
  | root => rfl
  | inner _ _ _ _ _ _ ih => rw [List.length_cons, List.length_cons, ih]

/-- Frames stay in the relation under more links. -/
theorem mono (h : Nested c ρ fs gs) (hle : ρ ≤ ρ') : Nested c ρ' fs gs := by
  induction h with
  | root like block alone called key returnTo =>
    exact .root (like.mono hle) block alone called key returnTo
  | inner like called₁ called₂ key returnTo _ ih =>
    exact .inner (like.mono hle) called₁ called₂ key returnTo ih

/-- The active frames may change in what they compute with. -/
theorem setActive (h : Nested c ρ (f :: fs) (g :: gs)) (hlike : f'.Like ρ g') (hf : f.SamePost f')
    (hg : g.SamePost g') : Nested c ρ (f' :: fs) (g' :: gs) := by
  cases h with
  | root like block alone called key returnTo =>
    exact .root hlike (hf.block.trans block) (hf.parent.trans alone) (hg.parent ▸ called) (hg.key.trans key)
      (hg.returnTo.trans returnTo)
  | inner like called₁ called₂ key returnTo rest =>
    exact .inner hlike (hf.parent ▸ called₁) (hg.parent ▸ called₂)
      (hf.key.trans (key.trans hg.key.symm)) (hf.returnTo.trans (returnTo.trans hg.returnTo.symm)) rest

end Frame.Nested

/-! ### Worlds -/

namespace World

variable {w₁ w₂ w w' : World} {id id' : BlockId} {i j : Nat} {p q : Program}

/-- Compiling a block leaves what is filed for blocks. -/
theorem Derived.compile_keeps (h : w.Derived) (hcompile : World.compile id w = (.ok i, w'))
    (hp : w.Files id' j p) : w'.Files id' j p := by
  rcases h.compile_cases hcompile with ⟨rfl, -⟩ | ⟨b, d, -, hunfiled, -, hdone⟩
  · exact hp
  · have hid : id' ≠ id := by
      rintro rfl
      exact hunfiled j p hp
    exact (hdone.others id' j p hid).2 hp

namespace Beside

variable {owner : BufferId → Option BlockId} {ρ : Matching} {v u : Value}

/-- Programs of one block are alike. -/
theorem like (h : Beside owner ρ w₁ w₂) (hp : w₁.Files id i p) (hq : w₂.Files id j q) : p.Like ρ q := by
  obtain ⟨k, q', hq', hpq⟩ := h.filed id i p hp
  obtain ⟨-, rfl⟩ := hq.unique hq'
  exact hpq

/-- The modules of both worlds are the same. -/
theorem module?_eq (h : Beside owner ρ w₁ w₂) (type : ModuleType) : w₂.module? type = w₁.module? type := by
  rw [module?, module?, h.modules]

/-- A name means the same for alike receivers. -/
theorem resolvedLine_eq (h : Beside owner ρ w₁ w₂) (hvu : v.Like ρ u) (name : String) :
    w₁.resolvedLine v name = w₂.resolvedLine u name := by
  have hresolve : w₁.resolve v name = w₂.resolve u name := by
    unfold resolve
    rw [h.registry, hvu.typeId_eq]
    cases w₁.registry.method? u.typeId name with
    | some block => rfl
    | none =>
      cases hvu with
      | atom hid =>
        cases v with
        | module type => simp only [h.module?_eq]
        | _ => rfl
      | str | list | map | record | func => rfl
  rw [resolvedLine, resolvedLine, hresolve, hvu.typeId_eq, h.epoch]

/-- Alike receivers hold alike values under a name. -/
theorem heldValue? (h : Beside owner ρ w₁ w₂) (hvu : v.Like ρ u) (name : String) :
    Option.Rel (Value.Like ρ) (Machine.heldValue? w₁ v name) (Machine.heldValue? w₂ u name) := by
  cases hvu with
  | atom hid =>
    cases v with
    | module type =>
      simp only [Machine.heldValue?, h.module?_eq]
      cases hm : w₁.module? type with
      | none => exact .none
      | some m =>
        rw [Option.bind_some]
        cases hmember : m.member? name with
        | none => exact .none
        | some member =>
          cases member with
          | function => exact .none
          | value v => exact .some (h.members m (List.mem_of_find?_eq_some hm) name v hmember)
    | map => cases hid
    | _ => exact .none
  | map hpair keys values => exact (Value.Like.map hpair keys values).entries.get? _
  | str | list | record | func => exact .none

end Beside

end World

namespace Machine

variable {α β γ δ : Type} {c : Caller} {ρ ρ' : Matching} {m₁ m₂ : Machine} {p q : Program}

/-! ### The relation -/

/-- Two machines agree in what calls and default natives see besides frames, and the second has room for
    one frame more. -/
structure Abreast (c : Caller) (ρ : Matching) (m₁ m₂ : Machine) : Prop where
  worlds : m₁.world.Beside c.owner ρ m₂.world
  callee : m₁.world.blocks[c.block]? = some c.callee
  distinct : (c.callee.signature.outputs.map (·.register)).Nodup
  natives : m₁.world.natives.Only Native.isDefault
  caches : Caches.Beside m₁.world m₂.world m₁.stack.caches m₂.stack.caches
  config : m₂.stack.config = { m₁.stack.config with maxFrames := m₁.stack.config.maxFrames + 1 }
  random : m₁.stack.random = m₂.stack.random
  env : m₁.stack.env = [] ∧ m₂.stack.env = []
  messages : m₁.stack.messages = [] ∧ m₂.stack.messages = []
  going : m₁.stack.cancelled = false ∧ m₂.stack.cancelled = false
  error : m₁.stack.error = none → m₂.stack.error = none

/-- The second machine runs the frames of the first on top of those of a caller. All frames run the
    programs of their blocks. -/
structure Nested (c : Caller) (ρ : Matching) (m₁ m₂ : Machine) : Prop extends Abreast c ρ m₁ m₂ where
  frames : Frame.Nested c ρ m₁.stack.frames m₂.stack.frames
  filed₁ : ∀ f ∈ m₁.stack.frames, ∃ p, f.Follows m₁.world p
  filed₂ : ∀ g ∈ m₂.stack.frames, ∃ q, g.Follows m₂.world q
  caller : c.frame.Follows m₂.world c.program

/-- Moreover the active frames run given programs. -/
structure Running (c : Caller) (p q : Program) (ρ : Matching) (m₁ m₂ : Machine) : Prop extends
    Nested c ρ m₁ m₂ where
  runs₁ : ∀ f rest, m₁.stack.frames = f :: rest → f.Follows m₁.world p
  runs₂ : ∀ g rest, m₂.stack.frames = g :: rest → g.Follows m₂.world q

/-- The active frames of two machines in the relation. -/
theorem Nested.exists_active (h : Nested c ρ m₁ m₂) : ∃ f₁ rest₁ f₂ rest₂,
    m₁.stack.frames = f₁ :: rest₁ ∧ m₂.stack.frames = f₂ :: rest₂ ∧ f₁.Like ρ f₂ :=
  have ⟨f, fs, g, gs, hf, hg, hlike⟩ := h.frames.exists_heads
  ⟨f, fs, g, gs, hf, hg, hlike⟩

/-- The programs that the active frames run are alike, and filed for one block. -/
theorem Running.programs (h : Running c p q ρ m₁ m₂) : p.Like ρ q ∧ ∃ id,
    m₁.world.Files id p.index p ∧ m₂.world.Files id q.index q := by
  obtain ⟨f₁, rest₁, f₂, rest₂, h₁, h₂, hlike⟩ := h.exists_active
  obtain ⟨hp, -⟩ := h.runs₁ f₁ rest₁ h₁
  obtain ⟨hq, -⟩ := h.runs₂ f₂ rest₂ h₂
  rw [← hlike.block] at hq
  refine ⟨h.worlds.like hp hq, f₁.block, ?_, ?_⟩
  · rw [(h.worlds.derived₁.files_block hp).1]
    exact hp
  · rw [(h.worlds.derived₂.files_block hq).1]
    exact hq

/-! ### Changes -/

/-- New buffer numbers. -/
theorem Abreast.draw (h : Abreast c ρ m₁ m₂) : ∃ ρ', ρ ≤ ρ' ∧
    ρ'.links m₁.world.supply m₂.world.supply ∧
    Abreast c ρ' (m₁.withSupply (m₁.world.supply + 1)) (m₂.withSupply (m₂.world.supply + 1)) := by
  obtain ⟨ρ', hle, hlink, hworlds⟩ := h.worlds.draw
  exact ⟨ρ', hle, hlink, { h with
    worlds := hworlds
    caches := ⟨h.caches.sites, h.caches.unused₁, h.caches.unused₂⟩ }⟩

/-- Both machines may take buffer numbers. -/
theorem drawing_abreast : Drawing (Abreast c) where
  fresh := fun h => h.draw

/-- Both machines may take a buffer number, which are linked then. -/
theorem Nested.draw (h : Nested c ρ m₁ m₂) : ∃ ρ', ρ ≤ ρ' ∧
    ρ'.links m₁.world.supply m₂.world.supply ∧
    Nested c ρ' (m₁.withSupply (m₁.world.supply + 1)) (m₂.withSupply (m₂.world.supply + 1)) := by
  obtain ⟨ρ', hle, hlink, habreast⟩ := h.toAbreast.draw
  exact ⟨ρ', hle, hlink, habreast, h.frames.mono hle, h.filed₁, h.filed₂, h.caller⟩

/-- Other contents of the active frames. -/
theorem Nested.setFrame (h : Nested c ρ m₁ m₂) {f₁ f₂ f₁' f₂' : Frame} {rest₁ rest₂ : List Frame}
    (h₁ : m₁.stack.frames = f₁ :: rest₁) (h₂ : m₂.stack.frames = f₂ :: rest₂)
    (hlike : f₁'.Like ρ f₂') (hpost₁ : f₁.SamePost f₁') (hpost₂ : f₂.SamePost f₂') :
    Nested c ρ (m₁.withFrames (f₁' :: rest₁)) (m₂.withFrames (f₂' :: rest₂)) := by
  have hframes := h.frames
  have hfiled₁ := h.filed₁
  have hfiled₂ := h.filed₂
  rw [h₁, h₂] at hframes
  rw [h₁] at hfiled₁
  rw [h₂] at hfiled₂
  obtain ⟨⟨p, hp⟩, hrest₁⟩ := List.forall_mem_cons.1 hfiled₁
  obtain ⟨⟨q, hq⟩, hrest₂⟩ := List.forall_mem_cons.1 hfiled₂
  exact { h with
    frames := hframes.setActive hlike hpost₁ hpost₂
    filed₁ := List.forall_mem_cons.2 ⟨⟨p, hp.samePost hpost₁⟩, hrest₁⟩
    filed₂ := List.forall_mem_cons.2 ⟨⟨q, hq.samePost hpost₂⟩, hrest₂⟩ }

/-- The active frames may change in what they compute with, and stay at their posts. -/
theorem Running.setFrame (h : Running c p q ρ m₁ m₂) {f₁ f₂ f₁' f₂' : Frame} {rest₁ rest₂ : List Frame}
    (h₁ : m₁.stack.frames = f₁ :: rest₁) (h₂ : m₂.stack.frames = f₂ :: rest₂)
    (hlike : f₁'.Like ρ f₂') (hpost₁ : f₁.SamePost f₁') (hpost₂ : f₂.SamePost f₂') :
    Running c p q ρ (m₁.withFrames (f₁' :: rest₁)) (m₂.withFrames (f₂' :: rest₂)) where
  toNested := h.toNested.setFrame h₁ h₂ hlike hpost₁ hpost₂
  runs₁ f rest hframes := by
    obtain ⟨rfl, -⟩ := List.cons.inj hframes
    exact (h.runs₁ f₁ rest₁ h₁).samePost hpost₁
  runs₂ g rest hframes := by
    obtain ⟨rfl, -⟩ := List.cons.inj hframes
    exact (h.runs₂ f₂ rest₂ h₂).samePost hpost₂

/-! ### What instructions read and write -/

/-- **The active frames of both machines may compute.** -/
theorem running_mirroring : Mirroring (Running c p q) where
  fresh := by
    intro ρ m₁ m₂ h
    obtain ⟨ρ', hle, hlink, hnested⟩ := h.toNested.draw
    exact ⟨ρ', hle, hlink, hnested, h.runs₁, h.runs₂⟩
  frames := fun h => .inr h.exists_active
  update := by
    intro ρ m₁ m₂ f₁ f₂ f₁' f₂' rest₁ rest₂ h h₁ h₂ hrole₁ hrole₂ hregisters hoffset _
    have hframes := h.frames
    rw [h₁, h₂] at hframes
    have hf := hframes.like
    have hfield : ∀ {f f' : Frame} {β : Type} (field : Frame → β), f'.role = f.role →
        field f'.role = field f.role := fun field h => congrArg field h
    refine h.setFrame h₁ h₂ { hf with
      block := ?_
      registers := hregisters
      offset := hoffset
      incoming := ?_
      outgoing := ?_
      bindings := ?_
      inputCount := ?_
      stateful := ?_ } (.of_role hrole₁) (.of_role hrole₂)
    · exact (hfield Frame.block hrole₁).trans (hf.block.trans (hfield Frame.block hrole₂).symm)
    · rw [show f₁'.incoming = f₁.incoming from hfield Frame.incoming hrole₁,
        show f₂'.incoming = f₂.incoming from hfield Frame.incoming hrole₂]
      exact hf.incoming
    · rw [show f₁'.outgoing = f₁.outgoing from hfield Frame.outgoing hrole₁,
        show f₂'.outgoing = f₂.outgoing from hfield Frame.outgoing hrole₂]
      exact hf.outgoing
    · rw [show f₁'.bindings = f₁.bindings from hfield Frame.bindings hrole₁,
        show f₂'.bindings = f₂.bindings from hfield Frame.bindings hrole₂]
      exact hf.bindings
    · exact (hfield Frame.inputCount hrole₁).trans
        (hf.inputCount.trans (hfield Frame.inputCount hrole₂).symm)
    · exact (hfield Frame.isStateful hrole₁).trans
        (hf.stateful.trans (hfield Frame.isStateful hrole₂).symm)

/-- Another change of the stacks that the relation does not see. -/
theorem Running.unseen (h : Running c p q ρ m₁ m₂) {s₁ s₂ : Stack}
    (hframes₁ : s₁.frames = m₁.stack.frames) (hframes₂ : s₂.frames = m₂.stack.frames)
    (h' : Abreast c ρ { m₁ with stack := s₁ } { m₂ with stack := s₂ }) :
    Running c p q ρ { m₁ with stack := s₁ } { m₂ with stack := s₂ } where
  toAbreast := h'
  frames := by
    show Frame.Nested c ρ s₁.frames s₂.frames
    rw [hframes₁, hframes₂]
    exact h.frames
  filed₁ := by
    show ∀ f ∈ s₁.frames, _
    rw [hframes₁]
    exact h.filed₁
  filed₂ := by
    show ∀ g ∈ s₂.frames, _
    rw [hframes₂]
    exact h.filed₂
  caller := h.caller
  runs₁ := by
    show ∀ f rest, s₁.frames = f :: rest → _
    rw [hframes₁]
    exact h.runs₁
  runs₂ := by
    show ∀ g rest, s₂.frames = g :: rest → _
    rw [hframes₂]
    exact h.runs₂

/-- Sends mean the same in both machines. -/
theorem running_sending {lax : Fault → Prop} : Sending lax (Running c p q) p.index q.index where
  toMirroring := running_mirroring
  line := by
    rintro ρ v w s hs hvw m₁ m₂ hm
    have hinline : m₂.stack.config.inlineCache = m₁.stack.config.inlineCache := by rw [hm.config]
    rw [sendLine_apply, sendLine_apply, hinline, hm.worlds.resolvedLine_eq hvw]
    split
    · obtain ⟨-, id, hp, hq⟩ := hm.programs
      obtain ⟨hanswer, hcaches⟩ := hm.caches.consult hm.worlds.derived₁.indexed
        hm.worlds.derived₂.indexed hp.1 hq.1 s.site.toNat (m₂.world.resolvedLine w s.name)
      rw [← hs] at hanswer hcaches
      exact .ok le_rfl (hm.unseen rfl rfl { hm with caches := hcaches }) hanswer
    · exact .ok le_rfl hm rfl
  held := fun name hm hvw => hm.worlds.heldValue? hvw name

/-! ### Natives -/

/-- Both active frames declare the same outputs. -/
theorem Nested.outputRegister? (h : Nested c ρ m₁ m₂) (i : Nat) :
    m₁.outputRegister? i = m₂.outputRegister? i := by
  obtain ⟨f₁, rest₁, f₂, rest₂, h₁, h₂, hlike⟩ := h.exists_active
  obtain ⟨p, hp, -⟩ := h.filed₁ f₁ (h₁ ▸ List.mem_cons_self)
  obtain ⟨-, b, hb, -⟩ := h.worlds.derived₁.files_block hp
  have hb₂ : m₂.world.blocks[f₂.block]? = some b := hlike.block ▸ h.worlds.blocks _ b hb
  simp only [Machine.outputRegister?, h₁, h₂, List.head?_cons, Option.bind_eq_bind, Option.bind_some,
    hb, hb₂]

/-- Recorded errors may differ in where they say that they happened. -/
theorem recordError_running {lax : Fault → Prop} (e : RuntimeError) :
    Mirrors lax (Running c p q) ρ (recordError e) (recordError e) Anyhow := by
  intro m₁ m₂ hm
  obtain ⟨f₁, rest₁, f₂, rest₂, h₁, h₂, -⟩ := hm.exists_active
  rw [recordError_apply e h₁ (hm.runs₁ f₁ rest₁ h₁).1.2, recordError_apply e h₂ (hm.runs₂ f₂ rest₂ h₂).1.2]
  refine .ok le_rfl (hm.unseen rfl rfl { hm with error := ?_ }) trivial
  exact nofun

/-- Default natives find the same things in both machines. -/
theorem running_serving {lax : Fault → Prop} : Serving lax (Running c p q) where
  toMirroring := running_mirroring
  outputs := fun h => h.outputRegister?
  prints := fun h text => { h with }
  draws := fun h => ⟨h.random, fun random => h.unseen rfl rfl { h with random := rfl }⟩
  env := by
    intro ρ m₁ m₂ h k
    rw [h.env.1, h.env.2]
    exact .none
  emits := by
    intro ρ v w channel hvw m₁ m₂ h
    have hemit : ∀ (m : Machine) (v : Value), m.stack.messages = [] →
        onStack (·.emit channel v) m = (.ok false, m) := by
      intro m v hmessages
      have hnone : m.stack.emit channel v = (false, m.stack) := by
        rw [Stack.emit, hmessages]
        rfl
      show (Except.ok (m.stack.emit channel v).1, { m with stack := (m.stack.emit channel v).2 }) = _
      rw [hnone]
    rw [hemit m₁ v h.messages.1, hemit m₂ w h.messages.2]
    exact .ok le_rfl h rfl
  raises := by
    intro ρ message
    have hdone : ∀ ρ, Mirrors lax (Running c p q) ρ
        (do recordError (.hostRaised message); return RuntimeError.hostRaised message)
        (do recordError (.hostRaised message); return RuntimeError.hostRaised message) Equally :=
      fun ρ => .bind (recordError_running _) fun _ _ _ _ _ => .pure rfl
    refine .get_bind fun m₁ m₂ hm => ?_
    rw [hm.outputRegister? 0]
    split
    · exact Mirrors.bind (setOutput_mirrors running_mirroring (fun h => h.outputRegister?) 0 (.atom rfl))
        (fun ρ' _ _ _ _ => hdone ρ') m₁ m₂ hm
    · exact hdone ρ m₁ m₂ hm

/-! ### Calls -/

/-- Only a block that compiles is entered. -/
theorem compile_of_enter {m n : Machine} {block : BlockId} {args : List Value} {link : Link}
    (h : enter block args link m = (.ok (), n)) : m.stack.depth < m.stack.config.maxFrames ∧
      ∃ index w, World.compile block m.world = (.ok index, w) := by
  rw [enter, getStack, Failing.bind_apply] at h
  simp only [Failing.bind_apply, Failing.get_apply, Failing.pure_apply] at h
  split at h
  · cases congrArg Prod.fst h
  next hroom =>
  refine ⟨Nat.not_le.1 hroom, ?_⟩
  rw [Failing.bind_apply, onWorld_apply] at h
  rcases hcompile : World.compile block m.world with ⟨e | index, w⟩
  · rw [hcompile] at h
    cases congrArg Prod.fst h
  · exact ⟨index, w, rfl⟩

/-- Machines with all but the supply of two given ones. -/
def Drawn (S : Matching → Machine → Machine → Prop) (m₁ m₂ : Machine) : Matching → Machine → Machine → Prop :=
  fun ρ n₁ n₂ => S ρ n₁ n₂ ∧ (∃ supply, n₁ = m₁.withSupply supply) ∧ ∃ supply, n₂ = m₂.withSupply supply

/-- Taking buffer numbers leaves all else of two given machines. -/
theorem Drawing.drawn {S : Matching → Machine → Machine → Prop} (hS : Drawing S) (m₁ m₂ : Machine) :
    Drawing (Drawn S m₁ m₂) where
  fresh := by
    rintro ρ n₁ n₂ ⟨hn, ⟨s₁, rfl⟩, s₂, rfl⟩
    obtain ⟨ρ', hle, hlink, hnext⟩ := hS.fresh hn
    exact ⟨ρ', hle, hlink, hnext, ⟨_, rfl⟩, _, rfl⟩

/-- A block was entered: a frame that runs its program is on top of those that were there, and the stack
    is the same otherwise. -/
structure Pushed (block : BlockId) (link : Link) (m n : Machine) (f : Frame) : Prop where
  stack : n.stack = { m.stack with frames := f :: m.stack.frames }
  entered : ∃ index p inputs, f = enteredFrame block index p m.stack link inputs
  filed : ∃ p, f.Follows n.world p
  kept : ∀ {id : BlockId} {i : Nat} {p : Program}, m.world.Files id i p → n.world.Files id i p

/-- **A block that the first machine enters, the second can enter as well.** The new frames are alike if
    they see alike parts of the state and either both or none of them carry state. -/
theorem enter_abreast (h : Abreast c ρ m₁ m₂) (hdepth : m₂.stack.depth = m₁.stack.depth + 1)
    {block : BlockId} {args args' : List Value} (hargs : Items.Like ρ args args') (link link' : Link)
    (hbindings : Items.Like ρ link.bindings link'.bindings)
    (hincoming : (incomingFor m₁.stack link.key).Like ρ (incomingFor m₂.stack link'.key))
    (hstateful : (m₁.stack.depth == 0 || link.key.isSome) = link'.key.isSome) {n₁ : Machine}
    (hentered : enter block args link m₁ = (.ok (), n₁)) :
    ∃ ρ' n₂ f g, ρ ≤ ρ' ∧ enter block args' link' m₂ = (.ok (), n₂) ∧ Abreast c ρ' n₁ n₂ ∧
      Pushed block link m₁ n₁ f ∧ Pushed block link' m₂ n₂ g ∧ f.Like ρ' g := by
  obtain ⟨hroom, i, w₁, hcompile⟩ := compile_of_enter hentered
  obtain ⟨ρ₁, j, w₂, p, q, hle₁, hcompile₂, hworlds, hp, hq, hpq, hkeeps₁, hkeeps₂⟩ :=
    h.worlds.compile hcompile
  have hroom₂ : m₂.stack.depth < m₂.stack.config.maxFrames := by
    rw [hdepth, h.config]
    exact Nat.succ_lt_succ hroom
  have honly := World.compile_only block m₁.world
  rw [hcompile] at honly
  have habreast : Abreast c ρ₁ { m₁ with world := w₁ } { m₂ with world := w₂ } := { h with
    worlds := hworlds
    callee := by
      rw [honly.blocks]
      exact h.callee
    natives := by
      rw [honly.natives]
      exact h.natives
    caches := h.caches.keeps hkeeps₁ hkeeps₂ }
  have hentered₂ := enter_compiled hroom₂ hcompile₂ (World.program_of_slot hq.2) args' link'
  rw [enter_compiled hroom hcompile (World.program_of_slot hp.2)] at hentered
  rw [← hpq.signature, ← List.Forall₂.length_eq hargs] at hentered₂
  split at hentered
  · cases congrArg Prod.fst hentered
  next harity =>
  rw [if_neg harity] at hentered₂
  dsimp only at hentered₂
  rw [Failing.bind_apply] at hentered₂
  -- arguments are cast in step
  have hcasts : Mirrored (fun _ => True) (Drawn (Abreast c) { m₁ with world := w₁ } { m₂ with world := w₂ })
      (Drawn (Abreast c) { m₁ with world := w₁ } { m₂ with world := w₂ }) ρ₁ Items.Like
      (castArguments p.signature 0 args { m₁ with world := w₁ })
      (castArguments p.signature 0 args' { m₂ with world := w₂ }) :=
    castArguments_mirrors (drawing_abreast.drawn _ _) p.signature 0 (Items.Like.mono hargs hle₁) _ _
      ⟨habreast, ⟨w₁.supply, rfl⟩, w₂.supply, rfl⟩
  obtain ⟨vs, k₁, hcast, hentered⟩ := bind_ok hentered
  obtain ⟨hlength, -, -, -⟩ := castArguments_ok hcast
  rw [hcast] at hcasts
  generalize castArguments p.signature 0 args' { m₂ with world := w₂ } = r at hcasts hentered₂
  cases hcasts with
  | @ok ρ₂ _ ws _ k₂ hle₂ hdrawn hvs =>
    obtain ⟨hk, ⟨supply₁, rfl⟩, supply₂, rfl⟩ := hdrawn
    obtain rfl := congrArg Prod.snd hentered
    have hlength₂ : ws.length = args'.length :=
      (List.Forall₂.length_eq hvs).symm.trans (hlength.trans (List.Forall₂.length_eq hargs))
    have hkept₁ : ∀ {id : BlockId} {i : Nat} {p : Program}, m₁.world.Files id i p → w₁.Files id i p :=
      h.worlds.derived₁.compile_keeps hcompile
    have hkept₂ : ∀ {id : BlockId} {i : Nat} {p : Program}, m₂.world.Files id i p → w₂.Files id i p :=
      h.worlds.derived₂.compile_keeps hcompile₂
    refine ⟨ρ₂, _, _, _, le_trans hle₁ hle₂, hentered₂,
      { hk with caches := ⟨hk.caches.sites, hk.caches.unused₁, hk.caches.unused₂⟩ },
      ⟨rfl, ⟨i, p, vs, ?_⟩, ⟨p, hp, rfl⟩, hkept₁⟩,
      ⟨rfl, ⟨j, q, ws, ?_⟩, ⟨q, hq, rfl⟩, hkept₂⟩, ?_⟩
    · rw [enteredFrame, enteredFrame, hlength]
    · rw [enteredFrame, enteredFrame, hlength₂, List.Forall₂.length_eq hargs]
    · exact {
        block := rfl
        registers := by
          rw [hpq.registers]
          exact (Registers.Like.of_items hvs).resized _
        offset := rfl
        incoming := hincoming.mono (le_trans hle₁ hle₂)
        outgoing := .nil
        bindings := Items.Like.mono hbindings (le_trans hle₁ hle₂)
        inputCount := List.Forall₂.length_eq hargs
        stateful := by
          have hparent : ∀ d : Nat, (if d = 0 then none else some (d - 1)).isNone = (d == 0) := fun d => by
            cases d <;> rfl
          simp only [Frame.isStateful, enteredFrame, hparent, hdepth]
          exact hstateful }

/-- What is filed stays filed for the frames that were there. -/
theorem Pushed.filed_all {block : BlockId} {link : Link} {m n : Machine} {f : Frame}
    (h : Pushed block link m n f) (hfiled : ∀ g ∈ m.stack.frames, ∃ q, g.Follows m.world q) :
    ∀ g ∈ n.stack.frames, ∃ q, g.Follows n.world q := by
  rw [h.stack]
  refine List.forall_mem_cons.2 ⟨h.filed, fun g hg => ?_⟩
  obtain ⟨q, hq, hversion⟩ := hfiled g hg
  exact ⟨q, h.kept hq, hversion⟩

/-- The second stack is one frame deeper. -/
theorem Nested.depth (h : Nested c ρ m₁ m₂) : m₂.stack.depth = m₁.stack.depth + 1 :=
  h.frames.length

/-- A child finds alike state in both. -/
theorem Nested.incomingFor (h : Nested c ρ m₁ m₂) (key : Option Key) :
    (incomingFor m₁.stack key).Like ρ (Machine.incomingFor m₂.stack key) := by
  obtain ⟨f₁, rest₁, f₂, rest₂, h₁, h₂, hlike⟩ := h.exists_active
  cases key with
  | none =>
    simp only [Machine.incomingFor, h₁, h₂]
    exact .atom rfl
  | some k =>
    simp only [Machine.incomingFor, h₁, h₂]
    exact StateTree.child_like hlike.incoming k

/-- **Calls go in step.** -/
theorem enter_nested (h : Nested c ρ m₁ m₂) {block : BlockId} {args args' : List Value}
    (hargs : Items.Like ρ args args') {link link' : Link} (hlink : Link.Like ρ link link') :
    Mirrored (fun _ => True) (Nested c) (Nested c) ρ Anyhow (enter block args link m₁)
      (enter block args' link' m₂) := by
  obtain ⟨f₁, rest₁, -, -, h₁, -, -⟩ := h.exists_active
  have hdepth : (m₁.stack.depth == 0) = false := by rw [Stack.depth, h₁]; rfl
  rcases hentered : enter block args link m₁ with ⟨e | _, n₁⟩
  · exact .pass trivial
  obtain ⟨ρ', n₂, f, g, hle, hentered₂, habreast, hf, hg, hlike⟩ :=
    enter_abreast h.toAbreast h.depth hargs link link' hlink.bindings (hlink.key ▸ h.incomingFor link.key)
      (by rw [hdepth, hlink.key, Bool.false_or]) hentered
  rw [hentered₂]
  refine .ok hle ⟨habreast, ?_, hf.filed_all h.filed₁, hg.filed_all h.filed₂, hg.kept h.caller.1, h.caller.2⟩
    trivial
  obtain ⟨i, p, inputs, hf₁⟩ := hf.entered
  obtain ⟨j, q, inputs', hg₁⟩ := hg.entered
  have hparent : ∀ d : Nat, d ≠ 0 → (if d = 0 then none else some (d - 1)).isSome = true := fun d hd => by
    rw [if_neg hd]
    rfl
  rw [hf.stack, hg.stack]
  refine .inner hlike ?_ ?_ ?_ ?_ (h.frames.mono hle)
  · rw [hf₁]
    exact hparent _ (beq_eq_false_iff_ne.1 hdepth)
  · rw [hg₁]
    exact hparent _ (h.depth ▸ Nat.succ_ne_zero _)
  · rw [hf₁, hg₁]
    exact hlink.key
  · rw [hf₁, hg₁]
    exact hlink.returnTo

/-- A caller that enters a block under its key does what a host does that calls the block. -/
theorem Abreast.called (h : Abreast c ρ m₁ m₂) (hframes₁ : m₁.stack.frames = [])
    (hframes₂ : m₂.stack.frames = [c.frame]) (hfollows : c.frame.Follows m₂.world c.program)
    (hstate : m₁.stack.state.Like ρ (StateTree.child c.frame.incoming c.key)) {args cs : List Value}
    (hargs : Items.Like ρ args cs) (hentered : enter c.block args {} m₁ = (.ok (), n₁)) :
    ∃ ρ' n₂, enter c.block cs { returnTo := some c.out, key := some c.key } m₂ = (.ok (), n₂) ∧
      Nested c ρ' n₁ n₂ ∧ n₁.stack.phase = m₁.stack.phase := by
  have hdepth₁ : m₁.stack.depth = 0 := by rw [Stack.depth, hframes₁]; rfl
  have hdepth₂ : m₂.stack.depth = 1 := by rw [Stack.depth, hframes₂]; rfl
  have hincoming : (incomingFor m₁.stack none).Like ρ (incomingFor m₂.stack (some c.key)) := by
    simp only [incomingFor, hframes₁, hframes₂]
    exact hstate
  obtain ⟨ρ', n₂, f, g, -, hentered₂, habreast, hf, hg, hlike⟩ :=
    enter_abreast h (by rw [hdepth₁, hdepth₂]) hargs {} { returnTo := some c.out, key := some c.key } .nil
      hincoming (by rw [hdepth₁]; rfl) hentered
  refine ⟨ρ', n₂, hentered₂,
    ⟨habreast, ?_, hf.filed_all ?_, hg.filed_all ?_, hg.kept hfollows.1, hfollows.2⟩, by rw [hf.stack]⟩
  · obtain ⟨i, p, inputs, hf₁⟩ := hf.entered
    obtain ⟨j, q, inputs', hg₁⟩ := hg.entered
    rw [hf.stack, hg.stack, hframes₁, hframes₂]
    refine .root hlike ?_ ?_ ?_ ?_ ?_
    · rw [hf₁, enteredFrame]
    · rw [hf₁, enteredFrame, hdepth₁]
      rfl
    · rw [hg₁, enteredFrame, hdepth₂]
      rfl
    · rw [hg₁, enteredFrame]
    · rw [hg₁, enteredFrame]
  · rw [hframes₁]
    exact List.forall_mem_nil _
  · rw [hframes₂]
    exact List.forall_mem_singleton.2 ⟨c.program, hfollows⟩

/-! ### Instructions -/

/-- Alike values are saved under one name. -/
theorem saveState_running {lax : Fault → Prop} (name : String) {v w : Value} (hvw : v.Like ρ w) :
    Mirrors lax (Running c p q) ρ (saveState name v) (saveState name w) Anyhow := by
  refine active_bind_mirrors running_mirroring.toReading fun m₁ m₂ f₁ f₂ rest₁ rest₂ hm h₁ h₂ hf => ?_
  dsimp only
  rw [hf.stateful]
  split
  · rw [setActive_apply h₁, setActive_apply h₂]
    exact .ok le_rfl (hm.setFrame h₁ h₂ { hf with outgoing := StateTree.save_like hf.outgoing name hvw }
      ⟨rfl, rfl, rfl, rfl, rfl, rfl⟩ ⟨rfl, rfl, rfl, rfl, rfl, rfl⟩) trivial
  · rw [setActive_apply h₁, setActive_apply h₂]
    exact .ok le_rfl (hm.setFrame h₁ h₂ hf ⟨rfl, rfl, rfl, rfl, rfl, rfl⟩ ⟨rfl, rfl, rfl, rfl, rfl, rfl⟩)
      trivial

/-- A default native is called in both. If it fails in the first machine, nothing is asked of the second. -/
theorem callNative_running {host : Embedder} {resume₁ resume₂ : Action Outcome} (index : UInt16) :
    Mirrors (fun _ => True) (Running c p q) ρ (callNative host resume₁ index) (callNative host resume₂ index)
      Anyhow := by
  refine .get_bind fun m₁ m₂ hm => ?_
  have hnatives : m₂.world.natives = m₁.world.natives := hm.worlds.natives
  rw [hnatives]
  cases hentry : m₁.world.natives.get? index with
  | none => exact .error le_rfl hm
  | some entry =>
    have hinvoke : Mirrors (fun _ => True) (Running c p q) ρ (invoke host resume₁ entry.2)
        (invoke host resume₂ entry.2) Anyhow :=
      invoke_default_mirrors running_serving host (hm.natives entry (Array.mem_of_getElem? hentry))
    refine hinvoke.bind (fun ρ' _ _ _ _ => ?_) m₁ m₂ hm
    refine .getStack_bind fun n₁ n₂ hn => ?_
    -- an error that the first native recorded ends its run
    cases herror : n₁.stack.error with
    | some e => exact .pass trivial
    | none =>
      rw [hn.error herror]
      exact .ok le_rfl hn trivial

/-- **Instructions that stay in their frame go in step.** -/
theorem perform_stays (host : Embedder) (resume₁ resume₂ : Action Outcome) (next : Nat) {i : Instruction}
    (hi : i.leavesFrame = false) (h : Running c p q ρ m₁ m₂) :
    Mirrored (fun _ => True) (Running c p q) (Running c p q) ρ Anyhow (perform host resume₁ p next i m₁)
      (perform host resume₂ q next i m₂) := by
  have hpq := h.programs.1
  by_cases hinside : i.staysInside = true
  · exact perform_inside_mirrors running_mirroring hpq next hinside m₁ m₂ h
  cases i with
  | saveState name src =>
    rw [perform, perform, hpq.names]
    refine Mirrors.bind (entry_mirrors _ _ name) (fun ρ₁ _ s s' hs => ?_) m₁ m₂ h
    rw [← hs.1]
    exact .bind (register_mirrors running_mirroring.toReading src) fun ρ₂ _ v w hvw => saveState_running s hvw
  | call | callKeyed | callFunc | callFuncApply | callMethod | native | pause | ret => cases hi
  | _ => exact absurd rfl hinside

/-- **Instructions that leave their frame go in step**, but for returns. -/
theorem perform_leaves (host : Embedder) (resume₁ resume₂ : Action Outcome) (next : Nat) {i : Instruction}
    (hi : i.leavesFrame = true) (h : Running c p q ρ m₁ m₂) :
    Mirrored (fun _ => True) (Nested c) (Nested c) ρ Anyhow (perform host resume₁ p next i m₁)
      (perform host resume₂ q next i m₂) := by
  have hpq := h.programs.1
  have hcall : i.isCall = true → Mirrored (fun _ => True) (Nested c) (Nested c) ρ Anyhow
      (perform host resume₁ p next i m₁) (perform host resume₂ q next i m₂) := fun hcall =>
    perform_call_mirrors running_sending hpq (fun h => h.toNested) (fun h => h.toNested)
      (fun ρ' block _ _ _ _ _ hargs hlink n₁ n₂ hn => enter_nested hn.toNested hargs hlink) next hcall h
  cases i with
  | native index =>
    exact (callNative_running index m₁ m₂ h).imp (fun _ _ _ _ h => h.toNested) (fun _ _ _ _ h => h.toNested)
      fun _ _ _ _ h => h
  | pause | ret => exact .ok le_rfl h.toNested trivial
  | call | callKeyed | callFunc | callFuncApply | callMethod => exact hcall rfl
  | _ => cases hi

end Machine

end BlockMachine

import BlockMachine.Proofs.Machine.Deeds
import BlockMachine.Proofs.Machine.Faults
import BlockMachine.Proofs.Machine.Reframing

namespace BlockMachine

/-!
# The shape of a stack

The frames of a stack hang on each other from the root up, there are not too many of them, and each has a
register for every input. Nothing that hosts, natives and instructions do changes this, unless somebody
takes registers for inputs away. So the machine never looks for a register or a frame that is not there,
whatever its programs are made of.

* `Stack.Framed` is the shape, `Stack.Framed.reframes` says that it is kept;
* `Machine.Sure` lists what the machine relies on where it does not look;
* `Machine.session_framed` is the law for sessions.
-/

/-- The frames of a stack, the innermost first, hang on each other. -/
def Hung : List Frame → Prop
  | [] => True
  | f :: rest => f.Hangs rest.length ∧ Hung rest

/-- Every frame hangs at its position, counted from the root, and there are no more than allowed. -/
structure Stack.Framed (s : Stack) : Prop where
  hangs : ∀ (i : Nat) (f : Frame), s.frames.reverse[i]? = some f → f.Hangs i
  depth : s.depth ≤ s.config.maxFrames

/-- The positions of frames are counted from the root. -/
theorem hung_iff {frames : List Frame} :
    Hung frames ↔ ∀ (i : Nat) (f : Frame), frames.reverse[i]? = some f → f.Hangs i := by
  induction frames with
  | nil => simp [Hung]
  | cons f rest ih =>
    rw [Hung, ih]
    constructor
    · rintro ⟨hf, hrest⟩ i g hg
      -- counted from the root, the innermost frame comes after all others
      rw [List.reverse_cons] at hg
      rcases Nat.lt_trichotomy i rest.length with hlt | rfl | hgt
      · rw [List.getElem?_append_left (by simpa using hlt)] at hg
        exact hrest i g hg
      · obtain rfl : f = g := by simpa using hg
        exact hf
      · rw [List.getElem?_eq_none (by simpa using Nat.succ_le_of_lt hgt)] at hg
        exact nomatch hg
    · intro h
      refine ⟨h rest.length f (by simp), fun i g hg => h i g ?_⟩
      obtain ⟨hi, -⟩ := List.getElem?_eq_some_iff.1 hg
      rw [List.reverse_cons, List.getElem?_append_left hi]
      exact hg

namespace Hung

variable {f f' : Frame} {frames frames' above rest : List Frame}

/-- Frames below hang on each other as well. -/
theorem below (h : Hung (above ++ rest)) : Hung rest := by
  induction above with
  | nil => exact h
  | cons f above ih => exact ih h.2

/-- Hanging does not depend on what else is in a frame. -/
theorem congr (h : Hung frames)
    (hframes : frames'.map (fun f => (f.fixed, f.registers)) = frames.map fun f => (f.fixed, f.registers)) :
    Hung frames' := by
  induction frames generalizing frames' with
  | nil =>
    rw [List.map_nil, List.map_eq_nil_iff] at hframes
    rw [hframes]
    exact h
  | cons f rest ih =>
    obtain ⟨f', rest', rfl, hf, hrest⟩ := List.map_eq_cons_iff.1 hframes
    obtain ⟨hfixed, hregisters⟩ := Prod.mk.inj hf
    have hlength : rest'.length = rest.length := by simpa using congrArg List.length hrest
    refine ⟨?_, ih h.2 hrest⟩
    rw [hlength]
    exact h.1.becomes (.of_size hfixed (Nat.le_of_eq (congrArg Array.size hregisters).symm))

end Hung

namespace Stack.Framed

variable {α : Type} {room : Prop} {m m' : Machine} {s s' : Stack}

theorem of_hung (h : Hung s.frames) (hdepth : s.depth ≤ s.config.maxFrames) : s.Framed :=
  ⟨hung_iff.1 h, hdepth⟩

theorem hung (h : s.Framed) : Hung s.frames :=
  hung_iff.2 h.hangs

/-- The active frame hangs on the others. -/
theorem active (h : s.Framed) {f : Frame} {rest : List Frame} (hframes : s.frames = f :: rest) :
    f.Hangs rest.length := by
  have hhung := h.hung
  rw [hframes] at hhung
  exact hhung.1

theorem nil (hframes : s.frames = []) : s.Framed := by
  refine .of_hung ?_ ?_
  · rw [hframes]
    trivial
  · rw [Stack.depth, hframes]
    exact Nat.zero_le _

/-- Working in the active frame keeps the shape. -/
theorem works (h : m.stack.Framed) (hroom : room) (hworks : m.Works room m') : m'.stack.Framed := by
  have hdepth : m'.stack.depth ≤ m'.stack.config.maxFrames := by
    rw [hworks.depth, hworks.config]
    exact h.depth
  cases hframes : m.stack.frames with
  | nil => exact .nil (hworks.nil hframes)
  | cons f rest =>
    obtain ⟨f', hframes', hf⟩ := hworks.cons hframes
    have hhung := h.hung
    rw [hframes] at hhung
    refine .of_hung ?_ hdepth
    rw [hframes']
    exact ⟨hhung.1.becomes ⟨hf.fixed, fun _ => hf.inputs hroom⟩, hhung.2⟩

/-- Only the root is there. -/
theorem root {root : Frame} (hframes : s.frames = [root]) (hroot : root.Hangs 0)
    (hroom : 0 < s.config.maxFrames) : s.Framed := by
  refine .of_hung ?_ ?_
  · rw [hframes]
    exact ⟨hroot, trivial⟩
  · rw [Stack.depth, hframes]
    exact hroom

/-- **Whatever happens to frames keeps the shape**, if they are left room. -/
theorem reframes (h : m.stack.Framed) (hroom : room) {r : Except Fault α × Machine}
    (hr : Machine.Reframes room m r) : r.2.stack.Framed := by
  cases hr with
  | works hworks => exact h.works hroom hworks
  | @left f rest _ hframes hworks =>
    have hrest : (m.withFrames rest).stack.Framed := by
      have hhung := h.hung
      have hdepth := h.depth
      rw [hframes] at hhung
      rw [Stack.depth, hframes] at hdepth
      exact .of_hung hhung.2 (Nat.le_of_succ_le hdepth)
    exact hrest.works hroom hworks
  | cleared hframes => exact .nil hframes
  | @rooted root _ _ hroot hframes hconfig hroot' =>
    obtain ⟨above, habove⟩ := List.getLast?_eq_some_iff.1 hroot
    have hhung := h.hung
    rw [habove] at hhung
    -- there was a frame before, so one frame is allowed
    have hdepth : 0 < m.stack.depth := List.length_pos_of_mem (List.mem_of_getLast? hroot)
    exact .root hframes (hroot' hhung.below.1) (hconfig ▸ Nat.lt_of_lt_of_le hdepth h.depth)
  | entered hmore hf hframes hconfig =>
    refine .of_hung ?_ ?_
    · rw [hframes]
      exact ⟨hf, h.hung⟩
    · rw [Stack.depth, hframes, hconfig]
      exact hmore
  | renewed hmore hf hframes hconfig => exact .root hframes hf (hconfig ▸ hmore)

/-- Another pc in a frame makes no difference. -/
theorem placed (h : m.stack.Framed) (top : Nat) (pc : Frame → Pc) : (m.placed top pc).stack.Framed := by
  have hmap := Machine.placed_map (fun f => (f.fixed, f.registers)) m top pc fun _ => rfl
  have hlength : (m.placed top pc).stack.frames.length = m.stack.frames.length := by
    simpa using congrArg List.length hmap
  have hconfig : (m.placed top pc).stack.config = m.stack.config := by
    rw [Machine.placed, Stack.modifyFrameAt]
    split <;> rfl
  refine .of_hung (h.hung.congr hmap) ?_
  rw [Stack.depth, hlength, hconfig]
  exact h.depth

end Stack.Framed

namespace Machine

variable {α : Type} {m : Machine}

/-! ### What the machine relies on -/

/-- What is there whenever the machine takes it without looking: the active frame at its position, registers
    for the inputs that are collected, the frame that outputs go to, the registers of outputs that were cast,
    those that receive them, and the one that a native writes its output to. -/
structure Sure (m : Machine) : Prop where
  top : ∀ f rest, m.stack.frames = f :: rest → m.stack.frames.reverse[m.stack.depth - 1]? = some f
  inputs : ∀ f rest, m.stack.frames = f :: rest → ∀ first < f.registers.size,
    max f.inputCount first ≤ f.registers.size
  caller : ∀ f rest, m.stack.frames = f :: rest → ∀ p, f.parent = some p →
    ∃ caller below, rest = caller :: below ∧ rest.reverse[p]? = some caller
  outputs : ∀ f rest program values m', m.stack.frames = f :: rest →
    castOutputs program f.registers 0 program.signature.outputs m = (.ok values, m') →
    ∀ o ∈ program.signature.outputs, o.register.toNat < f.registers.size
  received : ∀ f rest out (values : List Value) i, m.stack.frames = f :: rest → i < values.length →
    out + i < (receive f.registers out values).size
  written : ∀ f rest (r : Nat), m.stack.frames = f :: rest →
    r < (if f.registers.size ≤ r then Frame.resized f.registers (r + 1) else f.registers).size
  /-- No instruction fails for want of them, whatever its operands are. -/
  steps : ∀ host resume program next i, (∀ index, i ≠ .native index) →
    (step host resume program next i m).1 ≠ .error .crashed

/-- A stack of this shape has what the machine relies on. -/
theorem Sure.of_framed (h : m.stack.Framed) : m.Sure where
  top f rest hframes := by
    rw [Stack.depth, hframes]
    simp
  inputs f rest hframes first hfirst := by
    have hinputs := (h.active hframes).inputs
    omega
  caller f rest hframes p hp := by
    -- only the root has no frame below, and it has no parent either
    have hparent := (h.active hframes).parent
    cases rest with
    | nil =>
      rw [hp] at hparent
      cases hparent
    | cons caller below =>
      obtain rfl : p = below.length := by simpa [hp] using hparent
      exact ⟨caller, below, rfl, by simp⟩
  outputs f rest program values m' _ hcast o ho := by
    -- the cast of an output fails if its register is not there
    obtain ⟨k, hk, rfl⟩ := List.getElem_of_mem ho
    obtain ⟨hlength, hgives⟩ := List.forall₂_iff_get.1 (castOutputs_gives hcast)
    obtain ⟨v, hv, -⟩ := hgives k hk (hlength ▸ hk)
    exact (Array.getElem?_eq_some_iff.1 hv).1
  received f rest out values i _ hi := by
    rw [size_receive]
    omega
  written f rest r _ := by
    split
    · rw [Frame.size_resized]
      exact Nat.lt_succ_self r
    · omega
  steps host resume program next i hi hcrash := by
    obtain ⟨f, rest, hframes, hsize⟩ := step_crashed hi hcrash
    have hinputs := (h.active hframes).inputs
    omega

/-! ### Sessions -/

/-- All stacks have the shape, as long as no registers for inputs are taken away, and nothing crashes. -/
def framing : Regime where
  holds m := m.stack.Framed
  fits _ := True
  moves _ _ := True
  allows d := d.op.Roomy d.machine
  crash := False

theorem framing_goes (h : m.stack.Framed) {r : Except Fault α × Machine} (hr : Reframes True m r)
    (hcrash : r.1 ≠ .error .crashed) : framing.Goes m r :=
  ⟨h.reframes trivial hr, trivial, hcrash⟩

/-- **Nothing that happens in a session changes the shape of a stack.** -/
theorem framing_lasts : framing.Lasts where
  refl _ := trivial
  instruction hi _ h hframes := framing_goes h (step_reframes hi hframes) ((Sure.of_framed h).steps _ _ _ _ _ hi)
  defaultNative hf h := framing_goes h (.works (invoke_default_inside _ _ hf _)) (invoke_default_gentle _ _ hf _)
  operation ho hallowed h := ⟨h.reframes hallowed (HostOp.reframes _ ho _), trivial, HostOp.gentle _ ho _⟩
  pushed _ h := framing_goes h (push_reframes _ _ _) (push_gentle _ _ _)
  cleared h := framing_goes h (.cleared rfl rfl) nofun
  started h := framing_goes h (.works (.of_frames rfl rfl)) nofun
  checked h := framing_goes h (restartIfStale_reframes _) (restartIfStale_gentle _)
  loaded h := framing_goes h (.works (currentProgram_inside _)) (currentProgram_gentle _)
  fitting _ _ := trivial
  advanced _ h hframes :=
    framing_goes h (.works (.of_active hframes rfl rfl (.of_size rfl (Nat.le_refl _)))) nofun
  paused _ h _ := ⟨h.placed _ _, trivial, nofun⟩
  failed _ _ _ _ _ h := ⟨h.placed _ _, trivial, nofun⟩
  ended h := framing_goes h (.works (ended_works _)) nofun

/-- **Stacks keep their shape, and nothing crashes.** A host may do with a new stack what it likes, over any
    world and with programs of any bytes, and so may natives, but they do not take registers for inputs away.
    Then at any moment every frame hangs on the one below and has a register for every input, the root has
    neither a key nor a place for outputs, and there are no more frames than allowed. So no instruction looks
    for what is not there, and the session ends well, or with an error, or not at all. -/
theorem session_framed {start : Machine} {config : StackConfig} (hstart : start.stack = .new config)
    (host : Embedder) (fuel : Nat) (session : Script α)
    (hroomy : ∀ d ∈ session.deeds false (runBy host fuel) (runByDeeds host fuel) start,
      d.op.Roomy d.machine) :
    (∀ x ∈ session.moments (runBy host fuel) (runByMoments host fuel) start,
      x.machine.stack.Framed ∧ x.machine.Sure) ∧
    (session.perform (runBy host fuel) start).2.stack.Framed ∧
    (session.perform (runBy host fuel) start).1 ≠ .error .crashed := by
  have hframed : start.stack.Framed := .nil (congrArg Stack.frames hstart)
  have hsession := framing_lasts.session host fuel session start hframed hroomy
  refine ⟨fun x hx => ?_, hsession.ends, hsession.crash⟩
  have hx' := hsession.holds x hx
  exact ⟨hx', .of_framed hx'⟩

end Machine

/-! ### A variadic block of raw bytes -/

namespace Gather

open Machine

def signature : Signature where
  name := "gather"
  inputs := [⟨"items", .basic .any, false⟩]
  isVariadic := true
  outputs := [⟨⟨"list", .basic .any, false⟩, 4⟩]

/-- Collects the inputs from the second on; what follows is no instruction. -/
def program : Program where
  index := 0
  block := 0
  version := 0
  signature := signature
  code := ((Instruction.varargsToList 1).encode ++ [255, 255]).toArray
  constants := #[]
  blocks := #[]
  types := #[]
  names := #[]
  callSites := 0
  registers := 5
  sourceMap := []

def machine : Machine :=
  ⟨{ blocks := #[⟨0, 0, signature, []⟩]
     programs := ⟨({} : Std.HashMap BlockId Nat).insert 0 0, #[⟨0, some program⟩]⟩ }, .new {}, ""⟩

/-- Pushes three inputs, leaves registers for no more than these, and runs. -/
def session : Script Unit :=
  .op (.push 0 [.int 1, .int 2, .int 3]) fun _ => .op (.resize 3) fun _ => .op .run fun _ => .done (.ok ())

theorem session_framed_gather :
    machine.stack = .new {} ∧
    (∀ d ∈ session.deeds false (runBy .idle 3) (runByDeeds .idle 3) machine, d.op.Roomy d.machine) ∧
    (∀ x ∈ session.moments (runBy .idle 3) (runByMoments .idle 3) machine,
      x.machine.stack.Framed ∧ x.machine.Sure) ∧
    (session.perform (runBy .idle 3) machine).2.stack.Framed ∧
    (session.perform (runBy .idle 3) machine).1 ≠ .error .crashed := by
  have hroomy : ∀ d ∈ session.deeds false (runBy .idle 3) (runByDeeds .idle 3) machine,
      d.op.Roomy d.machine := by
    decide +kernel
  exact ⟨rfl, hroomy, session_framed rfl .idle 3 session hroomy⟩

/-- The run fails, but only after the inputs were collected. -/
example : ((session.perform (runBy .idle 3) machine).2.stack.frames.map fun f =>
    f.registers.toList.map Value.typeName) = [["int", "list", "null"]] := by
  decide +kernel

end Gather

end BlockMachine

import BlockMachine.Proofs.Machine.Holding

namespace BlockMachine

/-!
# Moved values stay in registers

Moving a value leaves a mark in the register that it was taken from. Reads and casts refuse the mark, so
it does not get into containers, closures, the state tree, channels or outputs. Two instructions take
registers without such a check: collecting repeated inputs, and emitting a message.

* `Machine.Contained` says that marks are in registers only, `Machine.Exposes` that an instruction is
  about to let one out;
* `Machine.step_contained` is about all instructions, `Machine.leave_outputs` about what a root hands out;
* `Machine.run_contained` is about all runs with the default natives.
-/

namespace Value

/-- Neither a value nor anything inside it was moved away. -/
def Unmoved (v : Value) : Prop :=
  v.All fun node => node.isMoved = false

/-- That no mark is inside a value is a hereditary property. -/
theorem hereditary_unmoved : Hereditary Unmoved :=
  .of_parts (fun hv hparts => ⟨hv, hparts⟩) fun h => h.inside

end Value

open Value

/-- The marks that a frame holds are in its registers. -/
structure Frame.Contained (f : Frame) : Prop where
  registers : ∀ v ∈ f.registers, v.Cell Unmoved
  incoming : f.incoming.Unmoved
  outgoing : Entries.All Unmoved f.outgoing
  bindings : ∀ v ∈ f.bindings, v.Unmoved

/-- The marks that a snapshot holds are in the registers of its frame. -/
structure Snapshot.Contained (s : Snapshot) : Prop where
  registers : ∀ v ∈ s.registers, v.Cell Unmoved
  incoming : s.incoming.Unmoved
  outgoing : Entries.All Unmoved s.outgoing

/-- The marks that a stack holds are in registers of frames. -/
structure Stack.Contained (s : Stack) : Prop where
  frames : ∀ f ∈ s.frames, f.Contained
  state : s.state.Unmoved
  env : Entries.All Unmoved s.env
  messages : ∀ channel ∈ s.messages, ∀ v ∈ channel.2, v.Unmoved
  retained : ∀ r ∈ s.retained, r.Contained

/-- A world without marks: programs come from the bodies of blocks, whose constants hold none, and
    neither do the values of modules. Natives are the default ones. -/
structure World.Contained (w : World) : Prop where
  derived : w.Derived
  constants : ∀ b ∈ w.blocks, ∀ ctx supply d, lower ctx b.body supply = .ok d →
    ∀ c ∈ d.constants, c.Unmoved
  modules : ∀ module ∈ w.modules, ∀ name v, (name, .value v) ∈ module.members → v.Unmoved
  natives : w.natives.Only Native.isDefault

/-- A frame is contained if all it holds is unmoved, registers aside. -/
theorem Frame.contained_iff {f : Frame} : f.Contained ↔ f.All Unmoved :=
  ⟨fun h => ⟨h.registers, h.incoming, h.outgoing, h.bindings⟩,
    fun h => ⟨h.registers, h.incoming, h.outgoing, h.bindings⟩⟩

/-- A snapshot is contained if all it holds is unmoved, registers aside. -/
theorem Snapshot.contained_iff {s : Snapshot} : s.Contained ↔ s.All Unmoved :=
  ⟨fun h => ⟨h.registers, h.incoming, h.outgoing⟩, fun h => ⟨h.registers, h.incoming, h.outgoing⟩⟩

/-- A stack is contained if all it holds is unmoved, registers aside. -/
theorem Stack.contained_iff {s : Stack} : s.Contained ↔ s.All Unmoved where
  mp h := ⟨fun f hf => Frame.contained_iff.1 (h.frames f hf), h.state, h.env, h.messages,
    fun r hr => Snapshot.contained_iff.1 (h.retained r hr)⟩
  mpr h := ⟨fun f hf => Frame.contained_iff.2 (h.frames f hf), h.state, h.env, h.messages,
    fun r hr => Snapshot.contained_iff.2 (h.retained r hr)⟩

namespace World

variable {w : World}

/-- A world is contained if all it holds is unmoved. -/
theorem contained_iff : w.Contained ↔ w.All Unmoved :=
  ⟨fun h => ⟨h.derived, h.constants, h.modules, h.natives⟩,
    fun h => ⟨h.derived, h.constants, h.modules, h.natives⟩⟩

namespace Contained

/-- The constants of a program that is filed hold no marks. -/
theorem filed_constants (h : w.Contained) {i : Nat} {p : Program} (hp : w.slotProgram? i = some p) :
    ∀ c ∈ p.constants, c.Unmoved :=
  (contained_iff.1 h).filed_constants hp

end Contained

end World

namespace Machine

variable {m m' : Machine}

/-- **The invariant**: all marks that a machine holds are in registers of frames. -/
structure Contained (m : Machine) : Prop where
  world : m.world.Contained
  stack : m.stack.Contained

/-- A machine is contained if all it holds is unmoved, registers aside. -/
theorem contained_iff : m.Contained ↔ m.All Unmoved :=
  ⟨fun h => ⟨World.contained_iff.1 h.world, Stack.contained_iff.1 h.stack⟩,
    fun h => ⟨World.contained_iff.2 h.world, Stack.contained_iff.2 h.stack⟩⟩

/-- Being contained is holding unmoved values only, as an invariant. -/
theorem contained_eq : Contained = All Unmoved :=
  funext fun _ => propext contained_iff

/-- The active frame is changed. -/
theorem Contained.setActive (h : m.Contained) {f f' : Frame} {rest : List Frame}
    (hframes : m.stack.frames = f :: rest) (hf' : f'.Contained) :
    (m.withFrames (f' :: rest)).Contained :=
  contained_iff.2 ((contained_iff.1 h).setActive hframes (Frame.contained_iff.1 hf'))

/-- The active frame of a contained machine is contained. -/
theorem Contained.active (h : m.Contained) {f : Frame} {rest : List Frame}
    (hframes : m.stack.frames = f :: rest) : f.Contained :=
  h.stack.frames f (hframes ▸ List.mem_cons_self)

/-- Contained machines may compute with unmoved values. -/
theorem closed_contained : Closed Unmoved Contained :=
  contained_eq ▸ closed_all

/-- An input that is not a mark holds none. -/
theorem Contained.input? (h : m.Contained) {index : Nat} {v : Value} (hv : m.input? index = some v)
    (hmoved : v.isMoved = false) : v.Unmoved :=
  ((contained_iff.1 h).input? hv).of_not_moved hmoved

/-- **Default natives** let no mark out, except for a message that is one. -/
theorem invoke_contained (hm : m.Contained) (host : Embedder) (resume : Action Outcome) {f : Native}
    (hf : f.isDefault = true)
    (hmessage : f = .emit → ∀ v, m.input? 1 = some v → v.isMoved = false) :
    (invoke host resume f m).2.Contained :=
  contained_iff.2 (invoke_all hereditary_unmoved (contained_iff.1 hm) host resume hf
    fun hemit v hv => hm.input? hv (hmessage hemit v hv))

end Machine

/-! ### Instructions -/

/-- An instruction takes a mark out of a register of the active frame: among the inputs that it collects,
    or as the message that it emits. -/
def Instruction.Exposes (natives : NativeTable) (f : Frame) : Instruction → Prop
  | .varargsToList first =>
    ∃ v ∈ f.registers.extract first.toNat (max f.inputCount first.toNat), v.isMoved = true
  | .native index =>
    (∃ name, natives.get? index = some (name, .emit)) ∧
      ∃ v, f.registers[1]? = some v ∧ v.isMoved = true
  | _ => False

namespace Machine

variable {m m' : Machine} {host : Embedder} {resume : Action Outcome} {program : Program} {next : Nat}

/-- A native that a program calls is a default one. -/
theorem Contained.native (hm : m.Contained) {index : UInt16} {name : String} {f : Native}
    (h : m.world.natives.get? index = some (name, f)) : f.isDefault = true :=
  hm.world.natives (name, f) (Array.mem_of_getElem? h)

/-- A native is not given a mark to emit. -/
theorem unexposed_message {index : UInt16} {name : String} {f : Native}
    (h : m.world.natives.get? index = some (name, f))
    (hsafe : ∀ g rest, m.stack.frames = g :: rest →
      ¬(Instruction.native index).Exposes m.world.natives g) :
    f = .emit → ∀ v, m.input? 1 = some v → v.isMoved = false := by
  rintro rfl v hv
  obtain ⟨g, hg, hregister⟩ := Option.bind_eq_some_iff.1 hv
  obtain ⟨rest, hframes⟩ := List.head?_eq_some_iff.1 hg
  by_contra hmoved
  exact hsafe g rest hframes ⟨⟨name, h⟩, v, hregister, Bool.not_eq_false _ ▸ hmoved⟩

/-- **Instructions let no mark out**, unless they expose one. -/
theorem step_contained {i : Instruction} (hm : m.Contained)
    (hconstants : ∀ c ∈ program.constants, c.Unmoved)
    (hsafe : ∀ f rest, m.stack.frames = f :: rest → ¬i.Exposes m.world.natives f) :
    (step host resume program next i m).2.Contained := by
  refine contained_iff.2 (step_all hereditary_unmoved (contained_iff.1 hm) hconstants ?_ ?_)
  · rintro first f rest rfl hframes v hv
    obtain ⟨j, hj, rfl⟩ := Array.mem_extract_iff_getElem.1 hv
    refine ((hm.active hframes).registers _ (Array.getElem_mem _)).of_not_moved ?_
    by_contra hmoved
    exact hsafe f rest hframes ⟨_, hv, Bool.not_eq_false _ ▸ hmoved⟩
  · rintro index name rfl hemit v hv
    exact hm.input? hv (unexposed_message hemit hsafe rfl v hv)

/-! ### What a root hands out -/

/-- All outputs are handed out, or none. -/
theorem castOutputs_length (program : Program) (registers : Array Value) (i : Nat)
    (outputs : List Output) : Ensures (fun _ => True) (castOutputs program registers i outputs)
      fun vs => vs.length = outputs.length := by
  induction outputs generalizing i with
  | nil => exact .pure rfl
  | cons o rest ih =>
    have hdone : ∀ w, Ensures (fun _ => True)
        (do return w :: (← castOutputs program registers (i + 1) rest))
        fun vs => vs.length = (o :: rest).length :=
      fun w => .bind (ih (i + 1)) fun vs hvs => .pure (congrArg (· + 1) hvs)
    have hcast : ∀ v, Ensures (fun _ => True) (tryCast o.placeholder.type v) fun _ => True :=
      fun v m _ => ⟨trivial, fun _ _ => trivial⟩
    rw [castOutputs]
    split
    next v hv =>
      dsimp only
      split
      · exact .bind (Q := fun _ => True) (.pure trivial) fun w _ => hdone w
      · refine .bind (hcast v) fun r _ => ?_
        cases r with
        | ok w => exact .bind (Q := fun _ => True) (.pure trivial) fun w _ => hdone w
        | error e => exact .bind (Q := fun _ => True) (.raise _) fun w _ => hdone w
    next => exact .violate _

/-- A register that an output was put into, or that held no mark before, holds none. -/
theorem placeOutputs_unmoved {outputs : List (Output × Value)} (houtputs : ∀ o ∈ outputs, o.2.Unmoved)
    {registers : Array Value} {r : Nat} (h : (∃ o ∈ outputs, o.1.register.toNat = r) ∨
      ∀ v, registers[r]? = some v → v.Unmoved) :
    ∀ v, (placeOutputs registers outputs)[r]? = some v → v.Unmoved := by
  induction outputs generalizing registers with
  | nil => exact h.resolve_left fun ⟨_, ho, _⟩ => nomatch ho
  | cons o rest ih =>
    obtain ⟨ho, hrest⟩ := List.forall_mem_cons.1 houtputs
    refine ih hrest ?_
    by_cases hr : o.1.register.toNat = r
    · refine .inr fun v hv => ?_
      obtain ⟨hlt, rfl⟩ := Array.getElem?_eq_some_iff.1 hv
      subst hr
      rw [Array.getElem_setIfInBounds_self]
      exact ho
    · obtain ⟨o', ho', hr'⟩ | hold := h
      · rcases List.mem_cons.1 ho' with rfl | hmem
        · exact absurd hr' hr
        · exact .inl ⟨o', hmem, hr'⟩
      · refine .inr fun v hv => hold v ?_
        rwa [Array.getElem?_setIfInBounds_ne hr] at hv

/-- **A root that returns leaves no mark among its outputs.** -/
theorem leave_outputs (hm : m.Contained) (hsited : m.Sited) (herror : m.stack.error = none)
    (hp : m.Executing program) (h : leave program m = (.ok true, m')) : ∀ v ∈ m'.outputs, v.Unmoved := by
  obtain ⟨f, rest, hframes, hslot, -⟩ := hp
  have hstands := hsited.stands herror f (hframes ▸ List.mem_cons_self)
  obtain ⟨b, hb, hsignature⟩ := hm.world.derived.signature (hsited.filed.runs hstands.1 hslot)
  obtain ⟨-, houtputs⟩ := castOutputs_ensures hereditary_unmoved closed_contained program
    (hm.active hframes).registers 0 program.signature.outputs m hm
  obtain ⟨-, hlength⟩ := castOutputs_length program f.registers 0 program.signature.outputs m trivial
  have hblocks : Preserves (fun n => n.world.blocks)
      (castOutputs program f.registers 0 program.signature.outputs) :=
    castOutputs_preserves (fun _ _ => rfl) _ _ _ _
  replace hblocks := hblocks m
  rw [leave, Failing.bind_apply, active_apply hframes] at h
  dsimp only at h
  rw [Failing.bind_apply] at h
  generalize castOutputs program f.registers 0 program.signature.outputs m = r at h houtputs hlength hblocks
  obtain ⟨e | outputs, m₁⟩ := r
  · cases congrArg Prod.fst h
  replace houtputs := houtputs outputs rfl
  replace hlength := hlength outputs rfl
  dsimp only at h hblocks
  split at h
  · obtain rfl : (leaveRoot f (program.signature.outputs.zip outputs) m₁).2 = m' := congrArg Prod.snd h
    rw [leaveRoot_outputs (hblocks ▸ hb), hsignature]
    intro v hv
    obtain ⟨o, ho, rfl⟩ := List.mem_map.1 hv
    refine hereditary_unmoved.getD (placeOutputs_unmoved
      (fun o ho => houtputs o.2 (List.of_mem_zip ho).2) (.inl ?_))
    -- as many values as outputs, so each output has its value
    obtain ⟨j, hj, rfl⟩ := List.getElem_of_mem ho
    have hj' : j < (program.signature.outputs.zip outputs).length := by
      rw [List.length_zip, hlength]
      omega
    exact ⟨_, List.getElem_mem hj', by rw [List.getElem_zip]⟩
  · -- another frame than the root does not end the run
    have hback : ∀ {a : Action Unit}, Ensures (fun _ => True) (a >>= fun _ => pure false) (· = false) :=
      .bind (Q := fun _ => True) (fun _ _ => ⟨trivial, fun _ _ => trivial⟩) fun _ _ => .pure rfl
    rw [Failing.bind_apply] at h
    cases (hback _ trivial).2 true (congrArg Prod.fst h)

end Machine

end BlockMachine

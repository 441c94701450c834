import BlockMachine.Machine.Embedder
import BlockMachine.Proofs.Dispatch.Caching

namespace BlockMachine

/-!
# Sound machines

What holds of a machine between two operations: its world is coherent, all values on its stack
are known, its caches are sound, and as long as no error ended its run, every frame stands at an
offset that the control flow of its program leads to.

* `Frame.Runs` is about the position of a frame in its program;
* `Machine.Tidy` is what even a failing instruction leaves behind, `Machine.Sound` is the whole;
* `Machine.Sound.grow` keeps a machine sound when its world grows.
-/

/-! ### Known values -/

/-- All values of a frame are known. -/
structure Frame.Known (reg : Registry) (f : Frame) : Prop where
  registers : ∀ v ∈ f.registers, v.Known reg
  incoming : f.incoming.Known reg
  outgoing : Entries.Known reg f.outgoing
  bindings : ∀ v ∈ f.bindings, v.Known reg

/-- All values of a snapshot are known. -/
structure Snapshot.Known (reg : Registry) (r : Snapshot) : Prop where
  registers : ∀ v ∈ r.registers, v.Known reg
  incoming : r.incoming.Known reg
  outgoing : Entries.Known reg r.outgoing

/-- All values of a stack are known. -/
structure Stack.Known (reg : Registry) (s : Stack) : Prop where
  frames : ∀ f ∈ s.frames, f.Known reg
  state : s.state.Known reg
  retained : ∀ r ∈ s.retained, r.Known reg
  env : Entries.Known reg s.env
  messages : Entries.All (fun queue => ∀ v ∈ queue, v.Known reg) s.messages

section

variable {reg reg' : Registry}

/-- Entries stay known while a registry grows. -/
theorem Entries.Known.mono {entries : List (Key × Value)} (h : Known reg entries)
    (hreg : reg.Within reg') : Known reg' entries :=
  fun e he => (h e he).mono hreg

/-- A frame stays known while a registry grows. -/
theorem Frame.Known.mono {f : Frame} (h : f.Known reg) (hreg : reg.Within reg') : f.Known reg' :=
  ⟨fun v hv => (h.registers v hv).mono hreg, h.incoming.mono hreg, h.outgoing.mono hreg,
    fun v hv => (h.bindings v hv).mono hreg⟩

/-- A snapshot stays known while a registry grows. -/
theorem Snapshot.Known.mono {r : Snapshot} (h : r.Known reg) (hreg : reg.Within reg') :
    r.Known reg' :=
  ⟨fun v hv => (h.registers v hv).mono hreg, h.incoming.mono hreg, h.outgoing.mono hreg⟩

/-- A stack stays known while a registry grows. -/
theorem Stack.Known.mono {s : Stack} (h : s.Known reg) (hreg : reg.Within reg') : s.Known reg' where
  frames := fun f hf => (h.frames f hf).mono hreg
  state := h.state.mono hreg
  retained := fun r hr => (h.retained r hr).mono hreg
  env := h.env.mono hreg
  messages := fun e he v hv => (h.messages e he v hv).mono hreg

/-- A frame stays known with other known registers. -/
theorem Frame.Known.withRegisters {f : Frame} (h : f.Known reg) {registers : Array Value}
    (hregisters : ∀ v ∈ registers, v.Known reg) : Known reg { f with registers := registers } :=
  ⟨hregisters, h.incoming, h.outgoing, h.bindings⟩

/-- The snapshot of a known frame is known. -/
theorem Frame.Known.snapshot {f : Frame} (h : f.Known reg) : f.snapshot.Known reg :=
  ⟨h.registers, h.incoming, h.outgoing⟩

/-- A part of known registers is known. -/
theorem extract_known {registers : Array Value} (h : ∀ v ∈ registers, v.Known reg)
    (start stop : Nat) : ∀ v ∈ registers.extract start stop, v.Known reg := by
  intro v hv
  obtain ⟨i, hi, rfl⟩ := Array.mem_extract_iff_getElem.1 hv
  exact h _ (Array.getElem_mem _)

/-- Registers that are added hold null. -/
theorem Frame.resized_known {registers : Array Value} (h : ∀ v ∈ registers, v.Known reg)
    (count : Nat) : ∀ v ∈ Frame.resized registers count, v.Known reg := by
  intro v hv
  rcases Array.mem_append.1 hv with hold | hnew
  · rw [Array.take_eq_extract] at hold
    exact extract_known h 0 count v hold
  · exact Array.eq_of_mem_replicate hnew ▸ StateTree.known_null

/-- Registers stay known when a known value is written to one. -/
theorem setIfInBounds_known {registers : Array Value} (h : ∀ v ∈ registers, v.Known reg) (i : Nat)
    {w : Value} (hw : w.Known reg) : ∀ v ∈ registers.setIfInBounds i w, v.Known reg := by
  intro v hv
  rcases Array.mem_or_eq_of_mem_setIfInBounds hv with hold | rfl
  · exact h v hold
  · exact hw

/-- Snapshots are taken of the frames that ask for it. -/
theorem snapshots_known {frames : List Frame} (h : ∀ f ∈ frames, f.Known reg) :
    ∀ r ∈ (frames.filter (·.retain)).map Frame.snapshot, r.Known reg := by
  intro r hr
  obtain ⟨f, hf, rfl⟩ := List.mem_map.1 hr
  exact (h f (List.mem_filter.1 hf).1).snapshot

end

/-! ### Positions in programs -/

/-- A frame runs a program of its block: if that is the current version, its pc is where the
    control flow of the program leads. -/
def Frame.Runs (w : World) (f : Frame) : Prop :=
  ∃ slot b, w.programs.slots[f.program]? = some slot ∧ w.blocks[slot.block]? = some b ∧
    f.version ≤ b.version ∧
    (f.version = b.version → ∃ p, slot.program = some p ∧ p.Reaches f.pc.offset)

namespace Frame.Runs

variable {w w' : World} {f f' : Frame}

/-- A frame that runs an old version never runs the current one again. -/
theorem mono (h : f.Runs w) (hw : w.Grows w') : f.Runs w' := by
  obtain ⟨slot, b, hslot, hb, hle, hcurrent⟩ := h
  obtain ⟨slot', b', hslot', hblock, hb', hle', hkeep⟩ := hw.slots f.program slot b hslot hb
  -- versions only rise: if the frame is current in the end, its block was never replaced
  refine ⟨slot', b', hslot', hblock ▸ hb', Nat.le_trans hle hle', fun heq => ?_⟩
  obtain ⟨p, hp, hreaches⟩ := hcurrent (Nat.le_antisymm hle (heq ▸ hle'))
  exact ⟨p, hkeep (Nat.le_antisymm (heq ▸ hle) hle') p hp, hreaches⟩

/-- Only the position in the program matters. -/
theorem congr (h : f.Runs w) (hprogram : f'.program = f.program) (hversion : f'.version = f.version)
    (hpc : f'.pc.offset = f.pc.offset) : f'.Runs w := by
  rw [Runs, hprogram, hversion, hpc]
  exact h

/-- A frame of the program that is found runs where its control flow leads. -/
theorem reaches (h : f.Runs w) (hw : w.Coherent) {p : Program}
    (hp : w.slotProgram? f.program = some p) (hversion : f.version = p.version) :
    p.Reaches f.pc.offset := by
  obtain ⟨slot, b, hslot, hprogram, hb, hcurrent⟩ := hw.current hp
  obtain ⟨slot', b', hslot', hb', _, hreaches⟩ := h
  rw [hslot] at hslot'
  obtain rfl := Option.some.inj hslot'
  rw [hb] at hb'
  obtain rfl := Option.some.inj hb'
  obtain ⟨p', hp', hreaches⟩ := hreaches (hversion.trans hcurrent.version)
  rw [hprogram] at hp'
  exact Option.some.inj hp' ▸ hreaches

/-- A frame that stands at an offset of the program that is found. -/
theorem of_reaches (hw : w.Coherent) {p : Program} (hp : w.slotProgram? f.program = some p)
    (hversion : f.version = p.version) (hpc : p.Reaches f.pc.offset) : f.Runs w := by
  obtain ⟨slot, b, hslot, hprogram, hb, hcurrent⟩ := hw.current hp
  exact ⟨slot, b, hslot, hb, Nat.le_of_eq (hversion.trans hcurrent.version),
    fun _ => ⟨p, hprogram, hpc⟩⟩

end Frame.Runs

/-! ### Machines -/

namespace Machine

/-- World, values and caches are in order. -/
structure Tidy (m : Machine) : Prop where
  world : m.world.Coherent
  stack : m.stack.Known m.world.registry
  caches : m.stack.caches.Sound m.world

/-- A machine is in order. An instruction that fails may leave the pc of a frame at a wrong place,
    but then the error stays until all frames are gone. -/
structure Sound (m : Machine) : Prop extends m.Tidy where
  ended : m.stack.error ≠ none → m.stack.phase = .finished
  runs : m.stack.error = none → ∀ f ∈ m.stack.frames, f.Runs m.world

variable {m : Machine} {w : World}

/-- A tidy machine may get a world that comes later. -/
theorem Tidy.grow (h : m.Tidy) (hw : w.Coherent) (hgrows : m.world.Grows w) :
    Tidy { m with world := w } :=
  ⟨hw, h.stack.mono hgrows.registry, h.caches.mono hgrows⟩

/-- **A sound machine may get a world that comes later.** -/
theorem Sound.grow (h : m.Sound) (hw : w.Coherent) (hgrows : m.world.Grows w) :
    Sound { m with world := w } :=
  ⟨h.toTidy.grow hw hgrows, h.ended, fun herror f hf => (h.runs herror f hf).mono hgrows⟩

/-- A machine without error is not ended. -/
theorem Sound.no_error (h : m.Sound) (hphase : m.stack.phase ≠ .finished) :
    m.stack.error = none :=
  Classical.byContradiction fun herror => hphase (h.ended herror)

/-- A tidy machine is tidy without caches. -/
theorem Tidy.uncached (h : m.Tidy) : m.uncached.Tidy :=
  ⟨h.world, ⟨h.stack.frames, h.stack.state, h.stack.retained, h.stack.env, h.stack.messages⟩,
    Caches.sound_empty _⟩

/-- A sound machine is sound without caches. -/
theorem Sound.uncached (h : m.Sound) : m.uncached.Sound :=
  ⟨h.toTidy.uncached, h.ended, h.runs⟩

/-- A new stack on any coherent world. -/
theorem sound_new (hw : w.Coherent) (config : StackConfig) (printed : String) :
    Sound ⟨w, .new config, printed⟩ where
  world := hw
  stack := ⟨nofun, StateTree.known_null, nofun, nofun, nofun⟩
  caches := Caches.sound_empty w
  ended := fun herror => absurd rfl herror
  runs := nofun

end Machine

/-- A new world. -/
theorem World.coherent_new : World.Coherent {} where
  registry := Registry.sound_new
  modules := nofun
  blocks := by simp
  indices := by simp
  slots := by simp

end BlockMachine

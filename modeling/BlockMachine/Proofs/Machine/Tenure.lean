import BlockMachine.Proofs.Machine.HotReload
import BlockMachine.Proofs.Program.StraightLine

namespace BlockMachine

/-!
# The root of a stack without natives

Natives and hosts may do anything to a stack. Where no program calls a native, the root stays what it was
pushed as: it computes, calls and returns, but keeps its block, its place and a register for every input.

* `World.Plain` says that no program calls a native;
* `Machine.Seated` is what stays the same of a stack and its root, instruction by instruction;
* `Machine.execute_seated` and `Machine.runBy_seated` are about the loop and about runs.
-/

/-! ### Programs without natives -/

/-- Control flow leads to no call of a native. -/
def Program.Plain (p : Program) : Prop :=
  ∀ pc index next, p.Reaches pc → p.instructionAt pc ≠ .ok (.native index, next)

/-- A sequence of instructions without jumps and natives. -/
theorem Program.plain_of_straight {p : Program} {is : List Instruction}
    (hcode : p.code.toList = is.flatMap Instruction.encode) (hjumps : ∀ i ∈ is, i.isJump = false)
    (hnatives : ∀ index, .native index ∉ is) : p.Plain := by
  intro pc index next hpc hi
  exact hnatives index ((hpc.boundary hcode hjumps).decodeAt hcode hi).1

/-- Every program that a body is lowered to is plain. -/
def PlainBody (body : List Directive) : Prop :=
  ∀ ctx supply d, lower ctx body supply = .ok d → ∀ b index, (World.finish b index d).Plain

namespace World

/-- No program calls a native, neither those that are filed nor those that blocks are yet to be lowered
    to. -/
structure Plain (w : World) : Prop where
  blocks : ∀ b ∈ w.blocks, PlainBody b.body
  programs : ∀ (i : Nat) (p : Program), w.slotProgram? i = some p → p.Plain

variable {w w' : World}

/-- Only blocks and programs matter. -/
theorem Plain.congr (h : w.Plain) (hblocks : w'.blocks = w.blocks) (hprograms : w'.programs = w.programs) :
    w'.Plain := by
  refine ⟨hblocks ▸ h.blocks, fun i p hp => h.programs i p ?_⟩
  rwa [slotProgram?, hprograms] at hp

/-- Giving out an index keeps natives out. -/
theorem Plain.programIndex (h : w.Plain) (id : BlockId) : (programIndex id w).2.Plain := by
  cases hi : w.programs.indices[id]? with
  | some j =>
    rw [programIndex_of_some hi]
    exact h
  | none =>
    rw [programIndex_of_none hi]
    refine ⟨h.blocks, fun i p hp => ?_⟩
    obtain ⟨slot, hslot, hprogram⟩ := Option.bind_eq_some_iff.1 hp
    rcases getElem?_push_cases hslot with ⟨-, rfl⟩ | hold
    · exact nomatch hprogram
    · exact h.programs i p (Option.bind_eq_some_iff.2 ⟨slot, hold, hprogram⟩)

/-- Lowering a block keeps natives out. -/
theorem Plain.lowered (h : w.Plain) {id : BlockId} {b : Block} (hb : w.blocks[id]? = some b) (i : Nat) :
    (lowered b i w).2.Plain := by
  rw [World.lowered]
  split
  · exact h
  next d hd =>
    refine ⟨h.blocks, fun j p hp => ?_⟩
    obtain ⟨slot, hslot, hprogram⟩ := Option.bind_eq_some_iff.1 hp
    rw [getElem?_modify_slot] at hslot
    obtain ⟨slot₀, hslot₀, rfl⟩ := Option.map_eq_some_iff.1 hslot
    dsimp only at hprogram
    split at hprogram
    · obtain rfl := Option.some.inj hprogram
      exact h.blocks b (Array.mem_of_getElem? hb) _ _ d hd b i
    · exact h.programs j p (Option.bind_eq_some_iff.2 ⟨slot₀, hslot₀, hprogram⟩)

/-- Compiling a block keeps natives out. -/
theorem Plain.compile (h : w.Plain) (id : BlockId) : (compile id w).2.Plain := by
  rw [compile_eq]
  cases hb : w.blocks[id]? with
  | none => exact h
  | some b =>
    have hindex := h.programIndex id
    have hb' : (World.programIndex id w).2.blocks[id]? = some b := by
      rw [(programIndex_only id w).blocks]
      exact hb
    have hlowered := hindex.lowered hb' (World.programIndex id w).1
    dsimp only
    split
    · split
      · exact hindex
      · exact hlowered
    · exact hlowered

/-- Fetching a program keeps natives out. -/
theorem Plain.program (h : w.Plain) (index : Nat) : (program index w).2.Plain := by
  rw [program_eq]
  split
  · exact h
  next slot _ =>
    split
    · exact h
    · have hcompile := h.compile slot.block
      generalize World.compile slot.block w = r at hcompile
      obtain ⟨_ | _, w'⟩ := r
      · exact hcompile
      · dsimp only
        split <;> exact hcompile

/-- A new definition without natives. -/
theorem Plain.replaceBlock (h : w.Plain) (hfiled : w.Filed) (id : BlockId) (signature : Signature)
    {body : List Directive} (hbody : PlainBody body) : (replaceBlock id signature body w).2.Plain := by
  rw [replaceBlock_eq]
  cases w.blocks[id]? with
  | none => exact h
  | some b =>
    refine ⟨fun b' hb' => ?_, fun i p hp => ?_⟩
    · rcases Array.mem_or_eq_of_mem_setIfInBounds hb' with hold | rfl
      · exact h.blocks b' hold
      · exact hbody
    · obtain ⟨slot, hslot, hprogram⟩ := Option.bind_eq_some_iff.1 hp
      rw [hfiled.indexed.getElem?_drop] at hslot
      obtain ⟨slot₀, hslot₀, rfl⟩ := Option.map_eq_some_iff.1 hslot
      dsimp only at hprogram
      split at hprogram
      · exact nomatch hprogram
      · exact h.programs i p (Option.bind_eq_some_iff.2 ⟨slot₀, hslot₀, hprogram⟩)

end World

/-! ### The root -/

/-- A frame is the root of a block that was pushed with a number of inputs, and has a register for each
    of them. -/
structure Frame.Heads (block : BlockId) (count : Nat) (f : Frame) : Prop where
  block : f.block = block
  parent : f.parent = none
  key : f.key = none
  returnTo : f.returnTo = none
  bindings : f.bindings = []
  inputCount : f.inputCount = count
  registers : count ≤ f.registers.size

namespace Machine

variable {α β : Type} {block : BlockId} {count : Nat} {m : Machine}

/-- The stack has a root that was pushed with a number of inputs, nobody asked it to stop, and no program
    calls a native. -/
structure Seated (block : BlockId) (count : Nat) (m : Machine) : Prop where
  world : m.world.Plain
  cancelled : m.stack.cancelled = false
  root : ∃ root, m.stack.frames.getLast? = some root ∧ root.Heads block count

namespace Seated

/-- The world may be another one without natives. -/
theorem withWorld (h : m.Seated block count) {w : World} (hw : w.Plain) :
    Seated block count { m with world := w } :=
  ⟨hw, h.cancelled, h.root⟩

/-- Another active frame, which is a root if the one before was. -/
theorem setFrame (h : m.Seated block count) {f f' : Frame} {rest : List Frame}
    (hframes : m.stack.frames = f :: rest) (hf : f.Heads block count → f'.Heads block count) :
    (m.withFrames (f' :: rest)).Seated block count := by
  refine ⟨h.world, h.cancelled, ?_⟩
  obtain ⟨root, hroot, hheads⟩ := h.root
  rw [hframes] at hroot
  cases rest with
  | nil =>
    obtain rfl := Option.some.inj hroot
    exact ⟨f', rfl, hf hheads⟩
  | cons g rest => exact ⟨root, hroot, hheads⟩

/-- A frame may be pushed on top of the root. -/
theorem push (h : m.Seated block count) (f : Frame) :
    (m.withFrames (f :: m.stack.frames)).Seated block count := by
  refine ⟨h.world, h.cancelled, ?_⟩
  obtain ⟨root, hroot, hheads⟩ := h.root
  refine ⟨root, ?_, hheads⟩
  show (f :: m.stack.frames).getLast? = some root
  rw [List.getLast?_cons, hroot]
  rfl

end Seated

/-- The active frame may compute with any values. -/
theorem closed_seated (block : BlockId) (count : Nat) : Closed (fun _ => True) (Seated block count) where
  supply hm _ := hm.withWorld (hm.world.congr rfl rfl)
  cells _ _ _ _ := .inr trivial
  incoming _ _ := trivial
  bindings _ _ _ _ := trivial
  update _ hm hframes _ hsize := hm.setFrame hframes fun h => { h with
    registers := Nat.le_trans h.registers hsize }

/-! ### Calls and returns -/

/-- A computation on the world has to keep natives out. -/
theorem onWorld_seated {g : World.Action α} (hg : ∀ w : World, w.Plain → (g w).2.Plain) :
    Ensures (Seated block count) (onWorld g) fun _ => True := by
  intro m hm
  have hworld := hm.withWorld (hg m.world hm.world)
  rw [Meets, onWorld_apply]
  generalize g m.world = r at hworld
  obtain ⟨_ | _, w⟩ := r <;> exact ⟨hworld, fun _ _ => trivial⟩

/-- Compiling a block keeps the root. -/
theorem compile_seated (id : BlockId) :
    Ensures (Seated block count) (onWorld (World.compile id)) fun _ => True :=
  onWorld_seated fun _ hw => hw.compile id

/-- Fetching a program keeps the root. -/
theorem program_seated (index : Nat) :
    Ensures (Seated block count) (onWorld (World.program index)) fun _ => True :=
  onWorld_seated fun _ hw => hw.program index

/-- Calls push frames on top of the root. -/
theorem enter_seated (id : BlockId) (args : List Value) (link : Link) :
    Ensures (Seated block count) (enter id args link) fun _ => True := by
  refine .getStack_bind fun s => ?_
  dsimp only
  split
  · exact .raise _
  refine .bind (compile_seated id) fun index _ => .bind (program_seated index) fun p _ => ?_
  split
  · exact .raise _
  exact .bind (castArguments_ensures Value.hereditary_true (closed_seated block count) p.signature 0
    fun _ _ => trivial) fun vs _ m hm => ⟨hm.push _, fun _ _ => trivial⟩

/-- Placing outputs adds no registers. -/
theorem size_placeOutputs (registers : Array Value) (outputs : List (Output × Value)) :
    (placeOutputs registers outputs).size = registers.size := by
  induction outputs generalizing registers with
  | nil => rfl
  | cons o rest ih => exact (ih _).trans Array.size_setIfInBounds

/-- Writing values one after the other takes no registers away. -/
theorem size_written (placed : List (Value × Nat)) (registers : Array Value) :
    (placed.foldl (fun rs (v, i) => rs.setIfInBounds i v) registers).size = registers.size := by
  induction placed generalizing registers with
  | nil => rfl
  | cons e rest ih => exact (ih _).trans Array.size_setIfInBounds

/-- Receiving outputs may add registers, and takes none away. -/
theorem size_le_receive (registers : Array Value) (out : Nat) (values : List Value) :
    registers.size ≤ (receive registers out values).size := by
  rw [receive, size_written]
  split
  next hlt => exact (Frame.size_resized registers _).symm ▸ Nat.le_of_lt hlt
  next => exact Nat.le_refl _

/-- Outputs that are received do not take registers away. -/
theorem deliver_seated (child : Frame) (outputs : List Value) :
    Ensures (Seated block count) (deliver child outputs) fun _ => True := by
  refine active_bind_ensures fun m parent rest hm hframes => ?_
  have hsize : parent.registers.size ≤ (parent.given child outputs).size := by
    rw [Frame.given]
    split
    · exact size_le_receive ..
    · exact Nat.le_refl _
  have hset : ∀ {n : Machine} (outgoing : List (Key × Value)), n.Seated block count →
      n.stack.frames = parent :: rest →
      Meets (Machine.setActive { parent with
        outgoing := outgoing, registers := parent.given child outputs }) n (Seated block count)
        fun _ => True := by
    intro n outgoing hn hframes'
    rw [Meets, setActive_apply hframes']
    exact ⟨hn.setFrame hframes' fun h => { h with registers := Nat.le_trans h.registers hsize },
      fun _ _ => trivial⟩
  dsimp only
  split
  · exact hset _ ((closed_seated block count).supply hm _) hframes
  · exact hset _ hm hframes

/-- A frame that has a caller is not the root, which is left when it goes. -/
theorem Seated.popFrame (h : m.Seated block count) {f : Frame} {rest : List Frame}
    (hframes : m.stack.frames = f :: rest) (hparent : f.parent ≠ none) :
    Seated block count { m with stack := m.stack.popFrame.2 } := by
  obtain ⟨root, hroot, hheads⟩ := h.root
  rw [hframes] at hroot
  have hpop : m.stack.popFrame.2.frames = rest ∧ m.stack.popFrame.2.cancelled = m.stack.cancelled := by
    rw [Stack.popFrame, hframes]
    exact ⟨rfl, rfl⟩
  refine ⟨h.world, hpop.2.trans h.cancelled, root, ?_, hheads⟩
  cases rest with
  | nil =>
    obtain rfl := Option.some.inj hroot
    exact absurd hheads.parent hparent
  | cons g rest => exact hpop.1.symm ▸ hroot

/-- A return takes a frame that has a caller away, or leaves the root with its outputs. -/
theorem leave_seated (program : Program) :
    Ensures (Seated block count) (leave program) fun _ => True := by
  refine active_bind_ensures fun m f rest hm hframes => ?_
  have hcast : Meets (castOutputs program f.registers 0 program.signature.outputs) m
      (fun n => n.Seated block count ∧ n.stack.frames = f :: rest) fun _ => True := by
    have hstack : Preserves (·.stack) (castOutputs program f.registers 0 program.signature.outputs) :=
      castOutputs_preserves (fun _ _ => rfl) _ _ _ _
    refine ⟨⟨?_, ?_⟩, fun _ _ => trivial⟩
    · exact (castOutputs_ensures Value.hereditary_true (closed_seated block count) program
        (fun _ _ => .inr trivial) 0 _ m hm).1
    · exact (congrArg Stack.frames (hstack m)).trans hframes
  refine .bind hcast (fun _ h => h.1) fun outputs n _ hn => ?_
  obtain ⟨hn, hframes⟩ := hn
  split
  · refine .bind (Q := fun _ => True) (S := Seated block count) ⟨?_, fun _ _ => trivial⟩ (fun _ h => h)
      fun _ _ _ h => .pure h trivial
    let placed : Frame := { f with
      registers := placeOutputs f.registers (program.signature.outputs.zip outputs), outgoing := [] }
    have hheads : f.Heads block count → placed.Heads block count :=
      fun h => { h with registers := (size_placeOutputs ..).symm ▸ h.registers }
    have hleft : (leaveRoot f (program.signature.outputs.zip outputs) n).2.stack.frames =
        placed :: n.stack.frames.tail := rfl
    refine ⟨hn.world.congr rfl rfl, hn.cancelled, ?_⟩
    rw [hleft, hframes]
    exact (hn.setFrame hframes hheads).root
  next hparent =>
    refine .bind (Q := fun _ => True) (S := Seated block count)
      ⟨hn.popFrame hframes (by simpa using hparent), fun _ _ => trivial⟩ (fun _ h => h)
      fun _ n _ hn => ?_
    exact Ensures.bind (deliver_seated f outputs) (fun _ _ => .pure trivial) n hn

/-! ### Instructions -/

/-- A change of the active frame has to leave a root a root. -/
theorem modifyActive_seated {change : Frame → Frame}
    (h : ∀ f : Frame, f.Heads block count → (change f).Heads block count) :
    Ensures (Seated block count) (modifyActive change) fun _ => True := by
  refine active_bind_ensures fun m f rest hm hframes => ?_
  rw [Meets, setActive_apply hframes]
  exact ⟨hm.setFrame hframes (h f), fun _ _ => trivial⟩

/-- **Instructions keep the root**, calls of natives aside. -/
theorem perform_seated {host : Embedder} {resume : Action Outcome} {program : Program} {next : Nat}
    {i : Instruction} (hi : ∀ index, i ≠ .native index) :
    Leads (Seated block count) (Seated block count) (perform host resume program next i) := by
  have hinside : i.staysInside = true → i.isJump = false →
      Leads (Seated block count) (Seated block count) (perform host resume program next i) :=
    fun hstays hjump => (perform_inside_ensures Value.hereditary_true (closed_seated block count)
      (fun _ _ => trivial) next hstays hjump fun _ _ _ _ _ _ _ _ _ => trivial).leads
  have hcall : i.isCall = true →
      Leads (Seated block count) (Seated block count) (perform host resume program next i) :=
    fun h => perform_call_leads Value.hereditary_true (closed_seated block count)
      (fun hm _ => ⟨hm.world, hm.cancelled, hm.root⟩) (fun _ _ _ _ _ _ => trivial) (fun _ hm => hm)
      (fun id args link _ _ => (enter_seated id args link).leads) next h
  cases i with
  | native index => exact absurd rfl (hi index)
  | call | callKeyed | callFunc | callFuncApply | callMethod => exact hcall rfl
  | jump cond offset =>
    refine Ensures.leads (Q := fun _ => True) (.bind (isTaken_ensures (closed_seated block count) cond)
      fun taken _ => ?_)
    split
    · rw [jump]
      dsimp only
      split
      · exact .violate _
      · exact modifyActive_seated fun f h => { h with }
    · exact .pure trivial
  | saveState name src =>
    refine Ensures.leads (Q := fun _ => True) (.bind (entry_ensures _ _ name) fun s _ =>
      .bind (register_ensures (closed_seated block count) src) fun v _ => modifyActive_seated fun f h => ?_)
    split
    · exact { h with }
    · exact h
  | pause | ret => exact fun _ hm => hm
  | _ => exact hinside rfl rfl

/-- **Instructions keep the root**, calls of natives aside. -/
theorem step_seated {host : Embedder} {resume : Action Outcome} {program : Program} {next : Nat}
    {i : Instruction} (hi : ∀ index, i ≠ .native index) (hm : m.Seated block count) :
    (step host resume program next i m).2.Seated block count := by
  by_cases hpause : i = .pause
  · subst hpause
    exact hm
  by_cases hret : i = .ret
  · subst hret
    exact (Ensures.bind (R := fun _ => True) (leave_seated program) (fun _ _ => .pure trivial) m hm).1
  rw [step.eq_3 _ _ _ _ _ hpause hret]
  exact (Ensures.bind (Q := fun _ => True) (R := fun _ => True)
    (fun n hn => ⟨perform_seated hi n hn, fun _ _ => trivial⟩) (fun _ _ => .pure trivial) m hm).1

/-! ### The loop -/

/-- Fetching the program to go on with keeps the root. -/
theorem currentProgram_seated : Ensures (Seated block count) currentProgram fun _ => True := by
  refine active_bind_ensures fun m f rest hm _ => ?_
  refine Ensures.bind (program_seated f.program) (fun p _ => ?_) m hm
  split
  · exact .pure trivial
  · exact .violate _

/-- Another pc in a frame makes no difference. -/
theorem placed_seated (hm : m.Seated block count) (top : Nat) (pc : Frame → Pc) :
    (m.placed top pc).Seated block count := by
  obtain ⟨root, hroot, hheads⟩ := hm.root
  have hlast : ∃ root', (m.placed top pc).stack.frames.getLast? = some root' ∧
      root'.Heads block count := by
    show ∃ root', (m.stack.modifyFrameAt top fun f => { f with pc := pc f }).frames.getLast? =
      some root' ∧ root'.Heads block count
    rw [Stack.modifyFrameAt]
    split
    · dsimp only
      rw [List.getLast?_eq_getElem?, List.getElem?_modify, List.length_modify,
        ← List.getLast?_eq_getElem?, hroot]
      refine ⟨_, rfl, ?_⟩
      split
      · exact { hheads with }
      · exact hheads
    · exact ⟨root, hroot, hheads⟩
  refine ⟨hm.world, ?_, hlast⟩
  show (m.stack.modifyFrameAt top fun f => { f with pc := pc f }).cancelled = false
  rw [Stack.modifyFrameAt]
  split <;> exact hm.cancelled

/-- What the loop takes from a plain program is no call of a native. -/
theorem Seated.not_native (hm : m.Seated block count) {program : Program} (hp : m.Executing program)
    {pc next : Nat} {i : Instruction} (hreach : program.Reaches pc)
    (hfetch : program.instructionAt pc = .ok (i, next)) : ∀ index, i ≠ .native index := by
  rintro index rfl
  obtain ⟨f, _, _, hslot, _⟩ := hp
  exact hm.world.programs f.program program hslot pc index next hreach hfetch

/-- **The loop keeps the root.** -/
theorem execute_seated (host : Embedder) (fuel : Nat) (program : Program) {m : Machine} (hm : m.Sited)
    (herror : m.stack.error = none) (hp : m.Executing program) (hs : m.Seated block count) :
    (execute host fuel program m).2.Seated block count := by
  induction fuel generalizing program m with
  | zero => exact hs
  | succ fuel ih =>
    have hresume : TracesRun (runWith (execute host fuel))
        (runMoments (execute host fuel) (executeMoments host fuel)) :=
      runWith_traces fun p m hm herror hp => execute_traces host fuel p hm herror hp
    obtain ⟨f, rest, hframes, -, -, -, hreach⟩ := hp.fetches hm herror
    rw [execute_succ host fuel program hs.cancelled hframes]
    cases hfetch : program.instructionAt f.pc.offset with
    | error e => exact hs
    | ok found =>
      obtain ⟨i, next⟩ := found
      obtain ⟨hm₁, hp₁⟩ := hm.advanced herror hp hframes hfetch
      obtain ⟨⟨-, -, hsited⟩, hnone, hnext⟩ :=
        step_traced (i := i) hresume hm₁ herror hp₁ hreach hfetch
      have hs₁ : (m.advanced f rest next).Seated block count := hs.setFrame hframes fun h => { h with }
      have hs₂ : (step host (runWith (execute host fuel)) program next i
          (m.advanced f rest next)).2.Seated block count :=
        step_seated (hs.not_native hp hreach hfetch) hs₁
      dsimp only
      generalize step host (runWith (execute host fuel)) program next i (m.advanced f rest next)
        = r at hsited hnone hnext hs₂
      obtain ⟨fault | flow, m₂⟩ := r
      · exact placed_seated hs₂ _ _
      have hm₂ : m₂.Sited := hsited (.ok flow)
      have hnone₂ : m₂.stack.error = none := hnone flow rfl
      cases flow with
      | next => exact ih program hm₂ hnone₂ (hnext rfl) hs₂
      | reload =>
        obtain ⟨hm₃, -⟩ := currentProgram_stays m₂ hm₂
        have hnone₃ := (congrArg (fun s => s.2.2) (currentProgram_standing m₂)).trans hnone₂
        have hexecuting := currentProgram_executing hm₂
        obtain ⟨hs₃, -⟩ := currentProgram_seated m₂ hs₂
        rw [continued, Failing.bind_apply]
        generalize currentProgram m₂ = r at hm₃ hnone₃ hexecuting hs₃
        obtain ⟨fault | p, m₃⟩ := r
        · exact hs₃
        · exact ih p hm₃ hnone₃ (hexecuting p m₃ rfl) hs₃
      | pause => exact placed_seated hs₂ _ _
      | finish => exact hs₂

/-! ### Runs -/

/-- Finding out whether frames are up to date keeps the root. -/
theorem allCurrent_seated (frames : List Frame) :
    Ensures (Seated block count) (allCurrent frames) fun _ => True := by
  have hcurrent : ∀ f, Ensures (Seated block count) (isCurrent f) fun _ => True := by
    intro f
    refine .bind (Q := fun _ => True)
      (fun m hm => ⟨hm.withWorld (hm.world.program f.program), fun _ _ => trivial⟩) fun r _ => ?_
    split
    · exact .pure trivial
    · exact .pure trivial
  induction frames with
  | nil => exact .pure trivial
  | cons f rest ih =>
    refine .bind (hcurrent f) fun current _ => ?_
    split
    · exact ih
    · exact .pure trivial

/-- Only the root is left. -/
theorem Seated.unwindToRoot (h : m.Seated block count) :
    Seated block count { m with stack := unwindToRoot m.stack } := by
  obtain ⟨root, hroot, hheads⟩ := h.root
  refine ⟨h.world, h.cancelled, root, ?_, hheads⟩
  have hdepth : ¬m.stack.frames.length ≤ m.stack.depth - 1 := by
    have hlength := List.length_pos_of_mem (List.mem_of_getLast? hroot)
    rw [Stack.depth]
    omega
  show (m.stack.frames.drop (m.stack.depth - 1)).getLast? = some root
  rw [List.getLast?_drop, if_neg hdepth, hroot]

/-- A root that starts over has its inputs in their registers. -/
theorem restarted_heads {root : Frame} (h : root.Heads block count) (p : Program) (state : Value) :
    (restarted root p state).Heads block count := by
  have hsize : count ≤ (restarted root p state).registers.size := by
    rw [restarted, Frame.size_resized, h.inputCount]
    exact Nat.le_max_right ..
  exact { h with registers := hsize }

/-- **The check at the start of a run keeps the root**, which may start over. -/
theorem restartIfStale_seated : Ensures (Seated block count) restartIfStale fun _ => True := by
  refine .getStack_bind fun s => .bind (allCurrent_seated _) fun current _ => ?_
  split
  · exact .pure trivial
  refine .bind (Q := fun _ => True) (fun m hm => ⟨hm.unwindToRoot, fun _ _ => trivial⟩) fun _ _ =>
    active_bind_ensures fun m f rest hm _ => ?_
  exact Ensures.bind (program_seated f.program) (fun p _ => .getStack_bind fun s =>
    modifyActive_seated fun g hg => restarted_heads hg p _) m hm

/-- What a run notes at its end keeps the root. -/
theorem ended_seated {r : Except Fault Outcome × Machine} (h : r.2.Seated block count) :
    (ended r).2.Seated block count := by
  obtain ⟨fault | outcome, m⟩ := r
  · cases fault with
    | raised e =>
      have hrecord : (recordError e m).2.Seated block count := by
        obtain ⟨w, note, hmachine, hw⟩ := recordError_machine e m
        rw [hmachine]
        obtain rfl | ⟨index, rfl⟩ := hw
        · exact ⟨h.world, h.cancelled, h.root⟩
        · exact ⟨h.world.program index, h.cancelled, h.root⟩
      rw [ended, Failing.bind_apply]
      generalize recordError e m = r at hrecord
      obtain ⟨_ | _, n⟩ := r <;> exact hrecord
    | crashed | outOfFuel => exact h
  · exact ⟨h.world, h.cancelled, h.root⟩

/-- **Runs keep the root.** -/
theorem runBy_seated (host : Embedder) (fuel : Nat) (hm : m.Sited) (hs : m.Seated block count)
    (hphase : m.stack.phase = .ready) : (runBy host fuel m).2.Seated block count := by
  obtain ⟨root, hroot, -⟩ := hs.root
  have hframes : m.stack.frames ≠ [] := List.ne_nil_of_mem (List.mem_of_getLast? hroot)
  have hnone : m.stack.error = none := hm.no_error (by rw [hphase]; nofun)
  have hstarted : m.started.Sited := ⟨hm.filed, fun hne => absurd hnone hne, hm.stands⟩
  have hs₀ : m.started.Seated block count := ⟨hs.world, hs.cancelled, hs.root⟩
  obtain ⟨hchecked, -⟩ := restartIfStale_restarts hstarted hnone
  have hnone₁ : (restartIfStale m.started).2.stack.error = none :=
    (congrArg (fun s => s.2.2) (restartIfStale_standing m.started)).trans hnone
  obtain ⟨hs₁, -⟩ := restartIfStale_seated m.started hs₀
  show (runWith (execute host fuel) m).2.Seated block count
  rw [runWith_ready hphase hframes]
  refine ended_seated ?_
  rw [body, Failing.bind_apply]
  generalize restartIfStale m.started = r at hchecked hnone₁ hs₁
  obtain ⟨fault | _, m₁⟩ := r
  · exact hs₁
  obtain ⟨hloaded, -⟩ := currentProgram_stays m₁ hchecked
  have hnone₂ := (congrArg (fun s => s.2.2) (currentProgram_standing m₁)).trans hnone₁
  have hexecuting := currentProgram_executing hchecked
  obtain ⟨hs₂, -⟩ := currentProgram_seated m₁ hs₁
  dsimp only
  rw [Failing.bind_apply]
  generalize currentProgram m₁ = r at hloaded hnone₂ hexecuting hs₂
  obtain ⟨fault | p, m₂⟩ := r
  · exact hs₂
  · exact execute_seated host fuel p hloaded hnone₂ (hexecuting p m₂ rfl) hs₂

end Machine

end BlockMachine

import BlockMachine.Proofs.Machine.Framing
import BlockMachine.Proofs.Machine.Phases
import BlockMachine.Proofs.Machine.Typing
import Mathlib.Data.List.Nodup

namespace BlockMachine

/-!
# What a call returns

A call pushes a block, runs the stack until its root returns, and takes the outputs of the root. On a stack
without frames the root is the block that was called. On a stack that holds frames already it is another
one, and the call returns what that one gives. Outputs that are declared for one register share a value.

* `Frame.HandsOut` is what a root hands out, `Machine.leave_handsOut` says that it does;
* `Stack.main?` is the block of the root, which `Machine.step_main` says no instruction changes;
* `Machine.execute_finishes` and `Machine.runBy_finishes` lead from the start of a run to the return of its
  root;
* `Machine.call_returns` is about calls on any stack, `Machine.session_calls` about those of a session.
-/

/-! ### Outputs of a root -/

/-- The value of an output is null where it may be left out, and else one that its type takes as it is. -/
theorem Output.Gives.leaves {registers : Array Value} {o : Output} {w : Value} (h : o.Gives registers w) :
    (w = .null ∧ o.placeholder.isOptional = true) ∨ o.placeholder.type.Leaves w := by
  obtain ⟨v, -, hw⟩ := h
  split at hw
  next hnull => exact .inl ⟨hw, (Bool.and_eq_true_iff.1 hnull).2⟩
  next =>
    obtain ⟨n, n', hcast⟩ := hw
    exact .inr (Ty.cast_leaves hcast)

/-- The value of the last output that is declared for a register. -/
def Output.last? (r : Reg) (outputs : List (Output × Value)) : Option Value :=
  (outputs.reverse.find? (·.1.register = r)).map (·.2)

/-- Among outputs for a register there is a last one. -/
theorem Output.exists_last {outputs : List (Output × Value)} {o : Output} {v : Value}
    (ho : (o, v) ∈ outputs) : ∃ found ∈ outputs, found.1.register = o.register ∧
      Output.last? o.register outputs = some found.2 := by
  rw [Output.last?]
  cases hfound : outputs.reverse.find? (·.1.register = o.register) with
  | none =>
    have hnone := List.find?_eq_none.1 hfound (o, v) (List.mem_reverse.2 ho)
    exact absurd (decide_eq_true rfl) hnone
  | some found =>
    have hregister : found.1.register = o.register := by simpa using List.find?_some hfound
    exact ⟨found, List.mem_reverse.1 (List.mem_of_find?_eq_some hfound), hregister, rfl⟩

/-- An output that shares its register with no other one is the last of it. -/
theorem Output.last?_of_nodup {outputs : List (Output × Value)}
    (hdistinct : (outputs.map (·.1.register)).Nodup) {o : Output} {v : Value} (ho : (o, v) ∈ outputs) :
    Output.last? o.register outputs = some v := by
  obtain ⟨found, hfound, hregister, hlast⟩ := Output.exists_last ho
  obtain rfl := List.inj_on_of_nodup_map hdistinct hfound ho hregister
  exact hlast

/-- What a root hands out when it returns: a value for every declared output, where outputs of one register
    share what the last of them gives. -/
def Frame.HandsOut (declared : List Output) (root : Frame) (outs : List Value) : Prop :=
  ∃ values, List.Forall₂ (Output.Gives root.registers) declared values ∧
    outs.map some = declared.map fun o => Output.last? o.register (declared.zip values)

namespace Frame.HandsOut

variable {declared : List Output} {root : Frame} {outs : List Value}

/-- There is a value for every output that is declared. -/
theorem length (h : root.HandsOut declared outs) : outs.length = declared.length := by
  obtain ⟨values, -, houts⟩ := h
  simpa using congrArg List.length houts

/-- Outputs in registers of their own are what these give. -/
theorem distinct (h : root.HandsOut declared outs) (hdistinct : (declared.map (·.register)).Nodup) :
    List.Forall₂ (Output.Gives root.registers) declared outs := by
  obtain ⟨values, hgives, houts⟩ := h
  have hlength := hgives.length_eq
  have hregisters : ((declared.zip values).map (·.1.register)).Nodup := by
    have hmap : ((declared.zip values).map Prod.fst).map Output.register =
        (declared.zip values).map (·.1.register) := List.map_map
    rw [← hmap, List.map_fst_zip (Nat.le_of_eq hlength)]
    exact hdistinct
  suffices hsame : outs = values by
    rw [hsame]
    exact hgives
  refine List.map_injective_iff.2 (fun _ _ => Option.some.inj) (houts.trans ?_)
  refine List.ext_getElem (by simpa using hlength) fun i hi hi' => ?_
  rw [List.length_map] at hi hi'
  have hzip : i < (declared.zip values).length := by
    rw [List.length_zip]
    exact Nat.lt_min.2 ⟨hi, hi'⟩
  rw [List.getElem_map, List.getElem_map]
  exact Output.last?_of_nodup hregisters (List.getElem_zip (h := hzip) ▸ List.getElem_mem hzip)

end Frame.HandsOut

namespace Machine

variable {α β : Type} {m m' : Machine} {program : Program}

/-- **The last output of a register stays in it.** -/
theorem getElem?_placeOutputs (registers : Array Value) (outputs : List (Output × Value)) (r : Reg) :
    (placeOutputs registers outputs)[r.toNat]? =
      registers[r.toNat]?.map fun v => (Output.last? r outputs).getD v := by
  induction outputs generalizing registers with
  | nil => simp [placeOutputs, Output.last?]
  | cons o rest ih =>
    have hrest : placeOutputs registers (o :: rest) =
        placeOutputs (registers.setIfInBounds o.1.register.toNat o.2) rest := rfl
    rw [hrest, ih, Output.last?, Output.last?, List.reverse_cons, List.find?_append,
      Array.getElem?_setIfInBounds]
    by_cases ho : o.1.register = r
    · subst ho
      cases rest.reverse.find? (·.1.register = o.1.register) <;>
        by_cases hsize : o.1.register.toNat < registers.size <;> simp [hsize]
    · have hne : o.1.register.toNat ≠ r.toNat := fun h => ho (UInt16.toNat_inj.1 h)
      simp [ho, hne]

/-- **Outputs in registers of their own** are what a root that returns is asked for. -/
theorem leaveRoot_distinct {f : Frame} {b : Block} {values : List Value}
    (hb : m.world.blocks[f.block]? = some b)
    (hgives : List.Forall₂ (Output.Gives f.registers) b.signature.outputs values)
    (hdistinct : (b.signature.outputs.map (·.register)).Nodup) :
    (leaveRoot f (b.signature.outputs.zip values) m).2.outputs = values := by
  have hlength := hgives.length_eq
  have hregisters : ((b.signature.outputs.zip values).map (·.1.register)).Nodup := by
    have hmap : ((b.signature.outputs.zip values).map Prod.fst).map Output.register =
        (b.signature.outputs.zip values).map (·.1.register) := List.map_map
    rw [← hmap, List.map_fst_zip (Nat.le_of_eq hlength)]
    exact hdistinct
  rw [leaveRoot_outputs hb]
  refine List.ext_getElem (by rw [List.length_map, hlength]) fun i hi hi' => ?_
  rw [List.length_map] at hi
  obtain ⟨v, hv, -⟩ := (List.forall₂_iff_get.1 hgives).2 i hi hi'
  have hzip : i < (b.signature.outputs.zip values).length := by
    rw [List.length_zip]
    exact Nat.lt_min.2 ⟨hi, hi'⟩
  have hlast := Output.last?_of_nodup hregisters (List.getElem_zip (h := hzip) ▸ List.getElem_mem hzip)
  simp only [List.get_eq_getElem] at hv
  rw [List.getElem_map, getElem?_placeOutputs, hlast, hv]
  rfl

/-- **What a root leaves when it returns** are its outputs. -/
theorem leave_handsOut {f : Frame} {rest : List Frame} {b : Block} (hframes : m.stack.frames = f :: rest)
    (hb : m.world.blocks[f.block]? = some b) (hsignature : b.signature = program.signature)
    (h : leave program m = (.ok true, m')) :
    f.parent = none ∧ f.HandsOut b.signature.outputs m'.outputs ∧ m'.world.blocks = m.world.blocks := by
  rw [leave, Failing.bind_apply, active_apply hframes] at h
  obtain ⟨values, m₁, hcast, h⟩ := bind_ok h
  have hblocks : Preserves (fun n => n.world.blocks)
      (castOutputs program f.registers 0 program.signature.outputs) :=
    castOutputs_preserves (fun _ _ => rfl) _ _ _ _
  replace hblocks : m₁.world.blocks = m.world.blocks := by
    have h := hblocks m
    rwa [hcast] at h
  split at h
  next hroot =>
    have hgives := castOutputs_gives hcast
    obtain rfl : (leaveRoot f (program.signature.outputs.zip values) m₁).2 = m' := congrArg Prod.snd h
    refine ⟨Option.isNone_iff_eq_none.1 hroot, ⟨values, hsignature ▸ hgives, ?_⟩, hblocks⟩
    rw [leaveRoot_outputs (hblocks ▸ hb), hsignature, List.map_map]
    refine List.map_congr_left fun o ho => ?_
    -- the register of an output that was cast is there, and so is the last output of it
    obtain ⟨i, hi, rfl⟩ := List.getElem_of_mem ho
    obtain ⟨hlength, hgives⟩ := List.forall₂_iff_get.1 hgives
    obtain ⟨v, hv, -⟩ := hgives i hi (hlength ▸ hi)
    have hzip : i < (program.signature.outputs.zip values).length := by
      rw [List.length_zip, ← hlength, Nat.min_self]
      exact hi
    obtain ⟨found, -, -, hlast⟩ :=
      Output.exists_last (List.getElem_zip (h := hzip) ▸ List.getElem_mem hzip)
    rw [Function.comp_apply, getElem?_placeOutputs, hlast]
    simp only [List.get_eq_getElem] at hv
    rw [hv]
    rfl
  next =>
    -- another frame than the root does not end the run
    obtain ⟨_, m₂, -, h⟩ := bind_ok h
    obtain ⟨_, m₃, -, h⟩ := bind_ok h
    cases congrArg Prod.fst h

end Machine

/-! ### The main block of a stack -/

/-- The main block of a stack is that of its root. -/
def Stack.main? (s : Stack) : Option BlockId :=
  (s.frames.map Frame.block).getLast?

namespace Machine

variable {α β : Type} {m m' : Machine} {program : Program}

/-- Working in the active frame keeps the blocks of all frames. -/
theorem Works.blocks {room : Prop} (h : m.Works room m') :
    m'.stack.frames.map Frame.block = m.stack.frames.map Frame.block := by
  cases hframes : m.stack.frames with
  | nil => rw [h.nil hframes]
  | cons f rest =>
    obtain ⟨f', hframes', hf⟩ := h.cons hframes
    have hblock : f'.fixed.block = f.fixed.block := congrArg Frame.block hf.fixed
    rw [hframes', List.map_cons, List.map_cons, show f'.block = f.block from hblock]

/-- Work in the active frame leaves the root the root. -/
theorem Works.main? {room : Prop} (h : m.Works room m') : m'.stack.main? = m.stack.main? := by
  rw [Stack.main?, Stack.main?, h.blocks]

/-- A frame on top of others makes no difference. -/
theorem main?_push {f : Frame} (hframes : m'.stack.frames = f :: m.stack.frames)
    (hm : m.stack.frames ≠ []) : m'.stack.main? = m.stack.main? := by
  obtain ⟨g, rest, hactive⟩ := List.exists_cons_of_ne_nil hm
  rw [Stack.main?, Stack.main?, hframes, hactive]
  rfl

/-- A native that every world has works in the active frame. -/
theorem callNative_works {host : Embedder} {resume : Action Outcome} {index : UInt16}
    (hnatives : m.world.natives.Only Native.isDefault) : m.Works True (callNative host resume index m).2 := by
  rw [callNative, Failing.bind_apply, Failing.get_apply]
  dsimp only
  cases hentry : m.world.natives.get? index with
  | none => exact .refl m
  | some entry =>
    refine Inside.bind (invoke_default_inside host resume ?_) (fun _ => .getStack_bind fun s => ?_) m
    · exact hnatives entry (Array.mem_of_getElem? hentry)
    · split
      · exact .throw _
      · exact .pure _

/-- **Instructions keep the main block**, if natives are the default ones. -/
theorem step_main {host : Embedder} {resume : Action Outcome} {next : Nat} {i : Instruction} {flow : Flow}
    (hnatives : m.world.natives.Only Native.isDefault) (hframes : m.stack.frames ≠ [])
    (h : step host resume program next i m = (.ok flow, m')) : m'.stack.main? = m.stack.main? := by
  obtain ⟨f, rest, hactive⟩ := List.exists_cons_of_ne_nil hframes
  have hleave : ∀ root, leave program m = (.ok root, m') → m'.stack.main? = m.stack.main? := by
    intro root hleave
    have hreturned := leave_returned program hactive
    rw [hleave] at hreturned
    cases hreturned with
    | ended hworks => exact hworks.main?
    | @handed caller caller' below _ hrest hframes' _ hreceives =>
      have hblock : caller'.block = caller.block := by rw [hreceives.same]
      rw [Stack.main?, Stack.main?, hactive, hframes', hrest, List.map_cons, List.map_cons, List.map_cons,
        hblock, List.getLast?_cons_cons]
  cases stepped h with
  | pause hsame => rw [hsame]
  | finish hroot => exact hleave true hroot
  | back hback => exact hleave false hback
  | perform hpause hret hperform =>
    have hworks : ∀ r : Except Fault Unit × Machine, r = (.ok (), m') → m.Works True r.2 →
        m'.stack.main? = m.stack.main? := by
      rintro r rfl h
      exact h.main?
    by_cases hcall : i.isCall = true
    · have hcalled : Called i m (perform host resume program next i m) := perform_called hcall m
      rw [hperform] at hcalled
      cases hcalled with
      | stayed h => exact h.main?
      | pushed _ _ _ _ hframes' => exact main?_push hframes' hframes
    · by_cases hnative : ∃ index, i = .native index
      · obtain ⟨index, rfl⟩ := hnative
        exact hworks _ hperform (callNative_works hnatives)
      · refine hworks _ hperform (perform_inside next ?_ m)
        cases i with
        | native index => exact absurd ⟨index, rfl⟩ hnative
        | call | callKeyed | callFunc | callFuncApply | callMethod => exact absurd rfl hcall
        | pause => exact absurd rfl hpause
        | ret => exact absurd rfl hret
        | _ => rfl

/-! ### The blocks of the world -/

/-- The definitions of all blocks. -/
def blocks (m : Machine) : Array Block :=
  m.world.blocks

/-- What frames compute with does not matter to what is defined. -/
theorem aloof_blocks : Aloof blocks :=
  ⟨fun _ _ => rfl, fun _ _ => rfl, fun _ _ => rfl⟩

/-- A computation on the world that changes only programs leaves definitions alone. -/
theorem world_blocks {g : World.Action α} (hg : ∀ w : World, w.OnlyPrograms (g w).2) :
    Preserves blocks (onWorld g) :=
  .onWorld fun m => (hg m.world).blocks

/-- Entering a block leaves definitions alone. -/
theorem enter_blocks (block : BlockId) (args : List Value) (link : Link) :
    Preserves blocks (enter block args link) := by
  refine .getStack_bind fun m => ?_
  dsimp only
  split
  · rfl
  refine Preserves.bind (world_blocks (World.compile_only block)) (fun index =>
    .bind (world_blocks (World.program_only index)) fun program => ?_) m
  split
  · exact .throw _
  · exact .bind (castArguments_preserves aloof_blocks _ 0 args) fun _ _ => rfl

/-- Returning leaves definitions alone. -/
theorem leave_blocks (program : Program) : Preserves blocks (leave program) := by
  refine .bind (active_machine.part blocks) fun f =>
    .bind (castOutputs_preserves (fun _ _ => rfl) _ _ _ _) fun outputs => ?_
  split
  · exact .bind (fun _ => rfl) fun _ => .pure _
  · refine .bind (fun _ => rfl) fun _ => .bind (.bind (active_machine.part blocks) fun parent => ?_)
      fun _ => .pure _
    dsimp only
    split
    · exact .bind (fun _ => rfl) fun _ _ => rfl
    · exact fun _ => rfl

/-- A native that raises an error leaves definitions alone. -/
theorem raiseError_blocks (message : String) : Preserves blocks (raiseError message) := by
  have hrecord : Preserves blocks (recordError (.hostRaised message)) := by
    intro m
    obtain ⟨w, note, hmachine, hw⟩ := recordError_machine (.hostRaised message) m
    rw [hmachine]
    obtain rfl | ⟨index, rfl⟩ := hw
    · rfl
    · exact (World.program_only index m.world).blocks
  have hdone : Preserves blocks (do
      recordError (.hostRaised message)
      return RuntimeError.hostRaised message) := .bind hrecord fun _ => .pure _
  refine .get_bind fun m => ?_
  dsimp only
  split
  · exact Preserves.bind (aloof_blocks.setOutput 0 _) (fun _ => hdone) m
  · exact hdone m

/-- Default natives leave definitions alone. -/
theorem callNative_blocks {host : Embedder} {resume : Action Outcome} {index : UInt16}
    (hnatives : m.world.natives.Only Native.isDefault) :
    (callNative host resume index m).2.blocks = m.blocks := by
  rw [callNative, Failing.bind_apply, Failing.get_apply]
  dsimp only
  cases hentry : m.world.natives.get? index with
  | none => rfl
  | some entry =>
    have hserving : ∀ o, Serving Strict (Still blocks o) := fun o =>
      aloof_blocks.serving (fun _ _ => rfl) (fun _ _ => rfl) (fun _ _ => rfl) fun message m hm =>
        (raiseError_blocks message m).trans hm
    have hinvoke : Preserves blocks (invoke host resume entry.2) := .of_mirrors fun o =>
      invoke_default_mirrors (hserving o) host (hnatives entry (Array.mem_of_getElem? hentry))
    refine Preserves.bind hinvoke (fun _ => .getStack_bind fun n => ?_) m
    cases n.stack.error <;> rfl

/-- **Instructions define no blocks**, if natives are the default ones. -/
theorem step_blocks {host : Embedder} {resume : Action Outcome} {next : Nat} {i : Instruction}
    (hnatives : m.world.natives.Only Native.isDefault) :
    (step host resume program next i m).2.blocks = m.blocks := by
  have hinside : i.staysInside = true → (perform host resume program next i m).2.blocks = m.blocks :=
    fun hi => perform_inside_preserves aloof_blocks next hi m
  have hcall : i.isCall = true → (perform host resume program next i m).2.blocks = m.blocks :=
    fun hi => perform_call_preserves aloof_blocks enter_blocks next hi m
  cases i with
  | pause => rfl
  | ret => exact Preserves.bind (leave_blocks program) (fun _ => .pure _) m
  | native index =>
    rw [step_machine (by nofun) (by nofun)]
    exact callNative_blocks hnatives
  | saveState name src =>
    rw [step_machine (by nofun) (by nofun)]
    exact Preserves.bind ((entry_machine _ _ name).part blocks) (fun s =>
      .bind ((register_machine src).part blocks) fun v => .bind (active_machine.part blocks) fun _ _ => rfl) m
  | call | callKeyed | callFunc | callFuncApply | callMethod =>
    rw [step_machine (by nofun) (by nofun)]
    exact hcall rfl
  | _ =>
    rw [step_machine (by nofun) (by nofun)]
    exact hinside rfl

/-- Fetching the program to go on with leaves definitions alone. -/
theorem currentProgram_blocks : Preserves blocks currentProgram := by
  refine .bind (active_machine.part blocks) fun f =>
    .bind (world_blocks (World.program_only f.program)) fun p => ?_
  split
  · exact .pure _
  · exact .throw _

/-- The check at the start of a run leaves definitions alone. -/
theorem restartIfStale_blocks : Preserves blocks restartIfStale := by
  have hcurrent : ∀ frames, Preserves blocks (allCurrent frames) := by
    intro frames
    induction frames with
    | nil => exact .pure _
    | cons f rest ih =>
      refine .bind (.bind (.tryWorld fun m => (World.program_only f.program m.world).blocks) fun r => ?_)
        fun current => ?_
      · split <;> exact .pure _
      · split
        · exact ih
        · exact .pure _
  refine .getStack_bind fun m => Preserves.bind (hcurrent m.stack.frames.reverse) (fun current => ?_) m
  split
  · exact .pure _
  · exact .bind (fun _ => rfl) fun _ => .bind (active_machine.part blocks) fun f =>
      .bind (world_blocks (World.program_only f.program)) fun p => .getStack_bind fun n =>
        Preserves.bind (active_machine.part blocks) (fun _ _ => rfl) n

/-! ### From the start of a run to its end -/

/-- **A loop that finishes ends with the return of the root**, where an invariant of the loop holds. -/
theorem execute_finishes {K : Machine → Prop}
    (hadvanced : ∀ {m f rest} (next : Nat), K m → m.stack.frames = f :: rest → K (m.advanced f rest next))
    (hstep : ∀ {host resume program next i flow m m'}, K m → m.stack.frames ≠ [] →
      step host resume program next i m = (.ok flow, m') → K m')
    (hload : ∀ {program m m'}, K m → currentProgram m = (.ok program, m') → K m') {host : Embedder}
    {fuel : Nat} (hm : m.Sited) (herror : m.stack.error = none) (hp : m.Executing program) (hk : K m)
    (h : execute host fuel program m = (.ok .finished, m')) :
    ∃ held x, ⟨.fetch held, x⟩ ∈ executeMoments host fuel program m ∧ x.Sited ∧ x.stack.error = none ∧
      x.Executing held ∧ K x ∧ leave held x = (.ok true, m') := by
  induction fuel generalizing program m with
  | zero => cases congrArg Prod.fst h
  | succ fuel ih =>
    -- a native may run the machine again; its moments stand between those of this loop
    have hresume : TracesRun (runWith (execute host fuel))
        (runMoments (execute host fuel) (executeMoments host fuel)) :=
      runWith_traces fun p m hm herror hp => execute_traces host fuel p hm herror hp
    obtain ⟨f, rest, hframes, -, -, -, hreach⟩ := hp.fetches hm herror
    cases hstop : m.stack.cancelled with
    | true =>
      rw [execute_cancelled host fuel program hstop] at h
      cases congrArg Prod.fst h
    | false =>
      rw [execute_succ host fuel program hstop hframes] at h
      rw [executeMoments, hstop, hframes]
      dsimp only
      cases hfetch : program.instructionAt f.pc.offset with
      | error e =>
        rw [hfetch] at h
        cases congrArg Prod.fst h
      | ok found =>
        obtain ⟨i, next⟩ := found
        rw [hfetch] at h
        dsimp only at h ⊢
        obtain ⟨hm₁, hp₁⟩ := hm.advanced herror hp hframes hfetch
        have hk₁ := hadvanced next hk hframes
        obtain ⟨⟨-, -, hsited⟩, hnone, hnext⟩ :=
          step_traced (i := i) hresume hm₁ herror hp₁ hreach hfetch
        rcases hdone : step host (runWith (execute host fuel)) program next i (m.advanced f rest next)
          with ⟨fault | flow, m₂⟩ <;> rw [hdone] at h hsited hnone hnext
        · cases congrArg Prod.fst h
        have hm₂ : m₂.Sited := hsited (.ok flow)
        have hnone₂ : m₂.stack.error = none := hnone flow rfl
        have hk₂ : K m₂ := hstep hk₁ (List.cons_ne_nil _ _) hdone
        -- the fetch to be found is this one if the step finishes the loop, else one further on
        cases flow with
        | next =>
          obtain ⟨held, x, hx, hrest⟩ := ih hm₂ hnone₂ (hnext rfl) hk₂ h
          exact ⟨held, x, List.mem_cons_of_mem _ (List.mem_append_right _ hx), hrest⟩
        | reload =>
          obtain ⟨hm₃, -⟩ := currentProgram_stays m₂ hm₂
          have hnone₃ := (congrArg (fun s => s.2.2) (currentProgram_standing m₂)).trans hnone₂
          obtain ⟨p, m₃, hloaded, h⟩ := bind_ok h
          rw [hloaded] at hm₃ hnone₃
          obtain ⟨held, x, hx, hrest⟩ := ih hm₃ hnone₃ (currentProgram_executing hm₂ p m₃ hloaded)
            (hload hk₂ hloaded) h
          refine ⟨held, x, List.mem_cons_of_mem _ (List.mem_append_right _ (List.mem_cons_of_mem _ ?_)), hrest⟩
          rw [hloaded]
          exact hx
        | pause => cases congrArg Prod.fst h
        | finish =>
          obtain rfl : m₂ = m' := congrArg Prod.snd h
          exact ⟨program, _, List.mem_cons_self, hm₁, herror, hp₁, hk₁, (stepped hdone).finished⟩

/-- **A run that finishes ends with the return of the root**, if it was not finished before. -/
theorem runBy_finishes {K : Machine → Prop}
    (hadvanced : ∀ {m f rest} (next : Nat), K m → m.stack.frames = f :: rest → K (m.advanced f rest next))
    (hstep : ∀ {host resume program next i flow m m'}, K m → m.stack.frames ≠ [] →
      step host resume program next i m = (.ok flow, m') → K m')
    (hload : ∀ {program m m'}, K m → currentProgram m = (.ok program, m') → K m')
    (hcheck : ∀ {m'}, restartIfStale m.started = (.ok (), m') → K m') {host : Embedder} {fuel : Nat}
    (hm : m.Sited) (hphase : m.stack.phase ≠ .finished) (h : runBy host fuel m = (.ok .finished, m')) :
    ∃ held x m₁, ⟨.fetch held, x⟩ ∈ runByMoments host fuel m ∧ x.Sited ∧ x.stack.error = none ∧
      x.Executing held ∧ K x ∧ leave held x = (.ok true, m₁) ∧
      m' = { m₁ with stack := conclude .finished m₁.stack } := by
  have hready : m.stack.phase = .ready ∧ m.stack.frames ≠ [] := by
    refine Decidable.byContradiction fun hnot => ?_
    rw [runBy, runWith_reported hnot, reported] at h
    cases hphase' : m.stack.phase with
    | finished => exact hphase hphase'
    | ready | running =>
      rw [hphase'] at h
      cases congrArg Prod.fst h
  have hnone : m.stack.error = none := hm.no_error hphase
  have hstarted : m.started.Sited := ⟨hm.filed, fun hne => absurd hnone hne, hm.stands⟩
  rw [runBy, runWith_ready hready.1 hready.2] at h
  rw [runByMoments, runMoments_ready hready, bodyMoments]
  rcases hbody : body (execute host fuel) m.started with ⟨fault | outcome, m₁⟩ <;> rw [hbody] at h
  · cases fault with
    | raised e =>
      obtain ⟨m₂, hended, -⟩ := recordError_ran e m₁
      rw [ended, hended] at h
      cases congrArg Prod.fst h
    | crashed | outOfFuel => cases congrArg Prod.fst h
  · obtain ⟨houtcome, rfl⟩ := Prod.mk.inj h
    obtain rfl := Except.ok.inj houtcome
    obtain ⟨_, m₂, hchecked, hbody⟩ := bind_ok hbody
    obtain ⟨p, m₃, hloaded, hbody⟩ := bind_ok hbody
    obtain ⟨hm₂, -⟩ := restartIfStale_restarts hstarted hnone
    have hnone₂ : (restartIfStale m.started).2.stack.error = none :=
      (congrArg (fun s => s.2.2) (restartIfStale_standing m.started)).trans hnone
    rw [hchecked] at hm₂ hnone₂
    obtain ⟨hm₃, -⟩ := currentProgram_stays m₂ hm₂
    have hnone₃ := (congrArg (fun s => s.2.2) (currentProgram_standing m₂)).trans hnone₂
    rw [hloaded] at hm₃ hnone₃
    obtain ⟨held, x, hx, hsited, herror, hexecuting, hkx, hleave⟩ := execute_finishes hadvanced hstep hload hm₃
      hnone₃ (currentProgram_executing hm₂ p m₃ hloaded) (hload (hcheck hchecked) hloaded) hbody
    refine ⟨held, x, m₁, ?_, hsited, herror, hexecuting, hkx, hleave, rfl⟩
    simp only [hchecked, hloaded]
    refine List.mem_cons_of_mem _ (List.mem_cons_of_mem _ (List.mem_append_left _ (List.mem_cons_of_mem _ hx)))

/-! ### Calls -/

/-- What holds of a machine from the push of a call to the return of the root: natives are the default ones,
    frames hang on each other, and neither the main block nor any definition changes. -/
structure HeadedBy (block : BlockId) (definitions : Array Block) (m : Machine) : Prop where
  all : m.All fun _ => True
  framed : m.stack.Framed
  main : m.stack.main? = some block
  blocks : m.blocks = definitions

namespace HeadedBy

variable {block : BlockId} {definitions : Array Block}

/-- Something is done to the active frame. -/
theorem works (h : m.HeadedBy block definitions) (hall : m'.All fun _ => True) (hworks : m.Works True m')
    (hblocks : m'.blocks = m.blocks) : m'.HeadedBy block definitions :=
  ⟨hall, h.framed.works trivial hworks, hworks.main?.trans h.main, hblocks.trans h.blocks⟩

/-- The pc of the active frame does not matter to its root. -/
theorem advanced (h : m.HeadedBy block definitions) {f : Frame} {rest : List Frame} (next : Nat)
    (hframes : m.stack.frames = f :: rest) : (m.advanced f rest next).HeadedBy block definitions :=
  h.works ((holding_lasts lasting_true).advanced next h.all hframes).holds
    (.of_active hframes rfl rfl (.of_size rfl (Nat.le_refl _))) rfl

/-- **Instructions** that go well. -/
theorem step (h : m.HeadedBy block definitions) {host : Embedder} {resume : Action Outcome} {next : Nat}
    {i : Instruction} {flow : Flow} (hframes : m.stack.frames ≠ [])
    (hstep : step host resume program next i m = (.ok flow, m')) : m'.HeadedBy block definitions := by
  have hnatives := h.all.world.natives
  have hall : (Machine.step host resume program next i m).2.All fun _ => True :=
    step_all Value.hereditary_true h.all (fun _ _ => trivial) (fun _ _ _ _ _ _ _ => trivial)
      fun _ _ _ _ _ _ => trivial
  have hframed : (Machine.step host resume program next i m).2.stack.Framed := by
    obtain ⟨f, rest, hactive⟩ := List.exists_cons_of_ne_nil hframes
    by_cases hi : ∃ index, i = .native index
    · obtain ⟨index, rfl⟩ := hi
      rw [step_machine (by nofun) (by nofun)]
      exact h.framed.works trivial (callNative_works hnatives)
    · exact h.framed.reframes trivial (step_reframes (fun index h => hi ⟨index, h⟩) hactive)
  have hblocks : (Machine.step host resume program next i m).2.blocks = m.blocks := step_blocks hnatives
  rw [hstep] at hall hframed hblocks
  exact ⟨hall, hframed, (step_main hnatives hframes hstep).trans h.main, hblocks.trans h.blocks⟩

/-- Fetching a program leaves the root alone. -/
theorem currentProgram (h : m.HeadedBy block definitions)
    (hload : currentProgram m = (.ok program, m')) : m'.HeadedBy block definitions := by
  have hkept := h.works (currentProgram_all m h.all).1 (currentProgram_inside m) (currentProgram_blocks m)
  rwa [hload] at hkept

/-- **The start of a run** keeps the root, which may start over. -/
theorem restartIfStale (h : m.HeadedBy block definitions) (hm : m.Sited) (herror : m.stack.error = none)
    (hcheck : restartIfStale m = (.ok (), m')) : m'.HeadedBy block definitions := by
  have hall := (restartIfStale_all Value.hereditary_true m h.all).1
  have hframed := h.framed.reframes trivial (restartIfStale_reframes m)
  have hblocks := restartIfStale_blocks m
  obtain ⟨-, hrestarts⟩ := restartIfStale_restarts hm herror
  rw [hcheck] at hall hframed hblocks hrestarts
  refine ⟨hall, hframed, ?_, hblocks.trans h.blocks⟩
  rw [← h.main, Stack.main?, Stack.main?]
  obtain hsame | ⟨root, root', hroot, hframes', hroot'⟩ := hrestarts
  · rw [hsame]
  · have hblock : root'.block = root.block := by
      obtain rfl | ⟨hblock, -⟩ := hroot'
      · rfl
      · exact hblock
    rw [hframes', List.getLast?_map, List.getLast?_map, hroot]
    exact congrArg some hblock

end HeadedBy

/-- A block that is entered runs on top of the frames that were there. -/
theorem enter_ok {block : BlockId} {args : List Value} {link : Link}
    (h : enter block args link m = (.ok (), m')) :
    ∃ f : Frame, f.block = block ∧ m'.stack.frames = f :: m.stack.frames := by
  have hkept : ∀ {γ : Type} {a : Action γ} {x : γ} {n n' : Machine}, Preserves (·.stack) a →
      a n = (.ok x, n') → n'.stack = n.stack := by
    intro γ a x n n' ha h
    have hstack := ha n
    rwa [h] at hstack
  obtain ⟨s, _, hs, h⟩ := bind_ok h
  obtain ⟨hfound, rfl⟩ := Prod.mk.inj hs
  obtain rfl := Except.ok.inj hfound
  dsimp only at h
  split at h
  · exact nomatch congrArg Prod.fst h
  obtain ⟨index, m₁, hindex, h⟩ := bind_ok h
  obtain ⟨p, m₂, hprogram, h⟩ := bind_ok h
  split at h
  · exact nomatch congrArg Prod.fst h
  obtain ⟨vs, m₃, hargs, h⟩ := bind_ok h
  obtain rfl := congrArg Prod.snd h
  have hstack : m₃.stack = m.stack := by
    rw [hkept (castArguments_stack _ _ _) hargs, hkept (program_stack index) hprogram,
      hkept (.onWorld fun _ => rfl) hindex]
  exact ⟨_, rfl, congrArg (_ :: ·) (congrArg Stack.frames hstack)⟩

/-- **A push** makes the block the main one of a stack without frames, and of one that is finished. -/
theorem push_headedBy {block : BlockId} {inputs : List Value} (hall : m.All fun _ => True)
    (hframed : m.stack.Framed) (h : push block inputs m = (.ok (), m')) :
    m'.stack.phase ≠ .finished ∧ m'.HeadedBy
      (if m.stack.phase = .finished then block else m.stack.main?.getD block) m.blocks := by
  have hall' : (push block inputs m).2.All fun _ => True :=
    (push_all Value.hereditary_true block (fun _ _ => trivial) m hall).1
  have hreframes : Reframes True m (push block inputs m) := push_reframes block inputs m
  have hframed' := hframed.reframes trivial hreframes
  rw [h] at hall' hframed'
  rw [push_apply] at h
  have hentered : ∀ n : Machine, enter block inputs {} n = (.ok (), m') →
      m'.stack.phase = n.stack.phase ∧ m'.blocks = n.blocks := by
    intro n h
    have hstanding := enter_standing block inputs {} n
    have hblocks := enter_blocks block inputs {} n
    rw [h] at hstanding hblocks
    exact ⟨congrArg (·.2.1) hstanding, hblocks⟩
  by_cases hphase : m.stack.phase = .finished
  · rw [if_pos hphase] at h ⊢
    obtain ⟨hphase', hblocks⟩ := hentered _ h
    obtain ⟨f, rfl, hframes⟩ := enter_ok h
    refine ⟨by rw [hphase']; nofun, hall', hframed', ?_, hblocks⟩
    rw [Stack.main?, hframes]
    rfl
  · rw [if_neg hphase] at h ⊢
    obtain ⟨hphase', hblocks⟩ := hentered _ h
    obtain ⟨f, rfl, hframes⟩ := enter_ok h
    refine ⟨fun hfinished => hphase (hphase'.symm.trans hfinished), hall', hframed', ?_, hblocks⟩
    by_cases hempty : m.stack.frames = []
    · rw [Stack.main?, Stack.main?, hframes, hempty]
      rfl
    · obtain ⟨root, hroot⟩ := Option.ne_none_iff_exists'.1 (mt List.getLast?_eq_none_iff.1 hempty)
      rw [main?_push hframes hempty, Stack.main?, List.getLast?_map, hroot]
      rfl

/-- **What a call returns** are the outputs of the root, at the moment when it returns. The root is the block
    that was called, unless the stack held frames before. -/
theorem call_returns {host : Embedder} {fuel : Nat} {block : BlockId} {inputs outs : List Value}
    (hm : m.Sited) (hall : m.All fun _ => True) (hframed : m.stack.Framed)
    (h : callWith (runBy host fuel) block inputs m = (.ok outs, m')) :
    ∃ start held x root b, push block inputs m = (.ok (), start) ∧
      ⟨.fetch held, x⟩ ∈ runByMoments host fuel start ∧ x.stack.frames = [root] ∧
      (leave held x).1 = .ok true ∧
      root.block = (if m.stack.phase = .finished then block else m.stack.main?.getD block) ∧
      m.world.blocks[root.block]? = some b ∧ root.HandsOut b.signature.outputs outs := by
  obtain ⟨_, start, hpush, h⟩ := bind_ok h
  obtain ⟨outcome, m₁, hrun, h⟩ := bind_ok h
  cases outcome with
  | paused | cancelled => exact nomatch congrArg Prod.fst h
  | finished =>
    obtain rfl : m₁.outputs = outs := Except.ok.inj (congrArg Prod.fst h)
    obtain ⟨hphase, hheaded⟩ := push_headedBy hall hframed hpush
    have hsited := (push_shifts block inputs m hm).1
    rw [hpush] at hsited
    have hnone : start.stack.error = none := hsited.no_error hphase
    have hstarted : start.started.Sited := ⟨hsited.filed, fun hne => absurd hnone hne, hsited.stands⟩
    have hheaded₁ : start.started.HeadedBy _ m.blocks := hheaded.works
      ((holding_lasts lasting_true).started hheaded.all).holds (.of_frames rfl rfl) rfl
    obtain ⟨held, x, m₂, hmoment, hx, herror, ⟨root, rest, hframes, hslot, -⟩, hheadedx, hleave, rfl⟩ :=
      runBy_finishes (fun next h hframes => h.advanced next hframes) (fun h hframes => h.step hframes)
        (fun h => h.currentProgram) (fun hcheck => hheaded₁.restartIfStale hstarted hnone hcheck) hsited
        hphase hrun
    have hstands := hx.stands herror root (hframes ▸ List.mem_cons_self)
    obtain ⟨b, hb, hsignature⟩ := hheadedx.all.world.derived.signature (hx.filed.runs hstands.1 hslot)
    obtain ⟨hparent, houts, -⟩ := leave_handsOut hframes hb hsignature hleave
    -- only the frame at the bottom has no caller
    have hhangs := (hheadedx.framed.active hframes).parent
    obtain rfl : rest = [] := by
      by_cases hlength : rest.length = 0
      · exact List.eq_nil_of_length_eq_zero hlength
      · rw [if_neg hlength, hparent] at hhangs
        exact nomatch hhangs
    have hmain := hheadedx.main
    rw [Stack.main?, hframes] at hmain
    refine ⟨start, held, x, root, b, hpush, hmoment, hframes, ?_, Option.some.inj hmain, ?_, houts⟩
    · rw [hleave]
    · rw [show m.world.blocks = x.world.blocks from hheadedx.blocks.symm]
      exact hb

end Machine

/-! ### Sessions -/

/-- Natives that an operation installs are default ones. -/
def HostOp.installsDefault {β : Type} : HostOp β → Bool
  | .registerNative _ f | .patchNative _ f => f.isDefault
  | _ => true

/-- Nothing is asked of the values that a host hands over, only that its natives are default ones. -/
theorem HostOp.hands_of_installsDefault {β : Type} {o : HostOp β} (h : o.installsDefault = true) :
    o.Hands fun _ => True := by
  cases o with
  | registerNative name f | patchNative name f => exact h
  | migrateToFunc => exact ⟨trivial, fun _ _ => trivial⟩
  | addBlock | replaceBlock => exact fun _ _ _ _ _ _ => trivial
  | addModule => exact fun _ _ _ => trivial
  | _ => first | trivial | exact fun _ _ => trivial

namespace Regime

/-- **Wherever a host has a machine**, the regime holds of it. -/
theorem Lasts.acts {g : Regime} {α : Type} {resume : Machine.Action Outcome} {running : Machine → List Moment}
    {doing : Machine → List Deed} (hg : g.Lasts) (hresume : g.Guides resume running doing)
    (session : Script α) {m : Machine} (hm : g.holds m)
    (hdeeds : ∀ d ∈ session.deeds false resume doing m, g.allows d) :
    ∀ d ∈ session.acts resume m, g.holds d.machine := by
  induction session generalizing m with
  | done _ => exact List.forall_mem_nil _
  | op o next ih =>
    rw [Script.deeds, List.cons_append, List.forall_mem_cons, List.forall_mem_append] at hdeeds
    obtain ⟨hallowed, hinside, hrest⟩ := hdeeds
    have ho := (hg.op hresume hm hallowed hinside).ends
    rw [Script.acts, List.forall_mem_cons]
    refine ⟨hm, ?_⟩
    generalize o.perform resume m = r at ho hrest
    obtain ⟨fault | b, m'⟩ := r
    · cases fault with
      | raised e => exact ih (.error e) ho hrest
      | crashed | outOfFuel => exact List.forall_mem_nil _
    · exact ih (.ok b) ho hrest

end Regime

namespace Machine

/-- Wherever a host has a machine, its frames stand in programs of their blocks. -/
theorem acts_sited {α : Type} {resume : Action Outcome} {running : Machine → List Moment}
    (hresume : TracesRun resume running) (session : Script α) {m : Machine} (hm : m.Sited) :
    ∀ d ∈ session.acts resume m, d.machine.Sited := by
  induction session generalizing m with
  | done _ => exact List.forall_mem_nil _
  | op o next ih =>
    have ho := (o.traces hresume m hm).sited
    rw [Script.acts, List.forall_mem_cons]
    refine ⟨hm, ?_⟩
    generalize o.perform resume m = r at ho
    obtain ⟨fault | b, m'⟩ := r
    · cases fault with
      | raised e => exact ih (.error e) (ho (.raised e))
      | crashed | outOfFuel => exact List.forall_mem_nil _
    · exact ih (.ok b) (ho (.ok b))

/-- **What the calls of a session return.** A host does with a new stack what it likes, over any world with the
    default natives, but takes no registers away from inputs. Whenever it calls a block and is given outputs,
    they are those of the root of the stack, at the moment when the root returns. On a stack without frames, and
    on one that is finished, the root is the block that was called; otherwise it is the frame that was at the
    bottom before. There is a value for every output that its definition declares. Outputs of one register share
    the value of the last of them; if each has its own, its value is null where it may be left out, or what the
    register held when the root returned, cast to the declared type, which takes it as it is from then on. -/
theorem session_calls {α : Type} {start : Machine} {config : StackConfig} (hstart : start.stack = .new config)
    (hderived : start.world.Derived) (hnatives : start.world.natives.Only Native.isDefault) (host : Embedder)
    (fuel : Nat) (session : Script α)
    (hdeeds : ∀ d ∈ session.deeds false (runBy host fuel) (runByDeeds host fuel) start,
      d.op.Roomy d.machine ∧ d.op.installsDefault = true)
    {block : BlockId} {inputs outs : List Value}
    (hcall : ⟨false, m, _, .call block inputs⟩ ∈ session.acts (runBy host fuel) start)
    (h : callWith (runBy host fuel) block inputs m = (.ok outs, m')) :
    ∃ (called : Machine) (held : Program) (x : Machine) (root : Frame) (b : Block),
      push block inputs m = (.ok (), called) ∧
      ⟨.fetch held, x⟩ ∈ runByMoments host fuel called ∧ x.stack.frames = [root] ∧
      (leave held x).1 = .ok true ∧
      root.block = (if m.stack.phase = .finished then block else m.stack.main?.getD block) ∧
      m.world.blocks[root.block]? = some b ∧ outs.length = b.signature.outputs.length ∧
      root.HandsOut b.signature.outputs outs ∧
      ((b.signature.outputs.map (·.register)).Nodup →
        List.Forall₂ (fun o v => o.Gives root.registers v ∧
          ((v = .null ∧ o.placeholder.isOptional = true) ∨ o.placeholder.type.Leaves v))
          b.signature.outputs outs) := by
  have hnew : start.stack.frames = [] := congrArg Stack.frames hstart
  have hnone : start.stack.error = none := congrArg Stack.error hstart
  have hsited : start.Sited := by
    refine ⟨hderived.filed, fun hne => absurd hnone hne, fun _ => ?_⟩
    rw [hnew]
    exact List.forall_mem_nil _
  have hall : start.All fun _ => True := by
    refine ⟨⟨hderived, fun _ _ _ _ _ _ _ _ => trivial, fun _ _ _ _ _ => trivial, hnatives⟩, ?_⟩
    rw [hstart]
    exact ⟨nofun, trivial, nofun, nofun, nofun⟩
  have hresume : TracesRun (runBy host fuel) (runByMoments host fuel) :=
    runWith_traces fun p m hm herror hp => execute_traces host fuel p hm herror hp
  have hheld := (holding_lasts lasting_true).acts
    ((holding_lasts lasting_true).runWith fun p hp => (holding_lasts lasting_true).execute host fuel p hp)
    session hall (fun d hd => HostOp.hands_of_installsDefault (hdeeds d hd).2) _ hcall
  have hframed := framing_lasts.acts
    (framing_lasts.runWith fun p hp => framing_lasts.execute host fuel p hp)
    session (.nil hnew) (fun d hd => (hdeeds d hd).1) _ hcall
  obtain ⟨called, held, x, root, b, hpush, hmoment, hframes, hleave, hroot, hb, houts⟩ :=
    call_returns (acts_sited hresume session hsited _ hcall) hheld hframed h
  exact ⟨called, held, x, root, b, hpush, hmoment, hframes, hleave, hroot, hb, houts.length, houts,
    fun hdistinct => (houts.distinct hdistinct).imp fun _ _ hgives => ⟨hgives, hgives.leaves⟩⟩

end Machine

/-! ### A call while a block is paused -/

namespace Interrupted

open Machine

def signature : Signature where
  name := "same"
  inputs := [⟨"x", .basic .any, false⟩, ⟨"wait", .basic .bool, false⟩]
  outputs := [⟨⟨"x", .basic .any, false⟩, 0⟩]

/-- Gives its first input, after a pause if the second one says so. -/
def body : List Directive :=
  [.code (.jump (.ifFalse 1) "done"), .code (.emit .pause), .code (.bind "done"), .code (.emit .ret)]

def machine : Machine :=
  ⟨{ blocks := #[⟨0, 0, signature, body⟩], natives := {} }, .new {}, ""⟩

/-- Calls the block while it is paused, and then again. -/
def session : Script Unit :=
  .op (.push 0 [.int 1, .bool true]) fun _ => .op .run fun _ => .op (.call 0 [.int 7, .bool false]) fun _ =>
    .op (.call 0 [.int 7, .bool false]) fun _ => .done (.ok ())

def acts : List Deed :=
  session.acts (runBy .idle 9) machine

def act (n : Nat) : Deed :=
  acts[n]?.getD ⟨false, machine, _, .look⟩

def isCall (d : Deed) : Bool :=
  match d with
  | ⟨false, _, _, .call 0 [.int 7, .bool false]⟩ => true
  | _ => false

/-- An act of the host counted as a call is the one of the session. -/
theorem eq_call {d : Deed} (h : isCall d = true) :
    d = ⟨false, d.machine, _, .call 0 [.int 7, .bool false]⟩ := by
  unfold isCall at h
  split at h
  · rfl
  · exact nomatch h

/-- What a call gives that is made as the `n`-th act. -/
def answer (n : Nat) : Except Fault (List Value) × Machine :=
  callWith (runBy .idle 9) 0 [.int 7, .bool false] (act n).machine

/-- The first call returns the input that the paused block was pushed with. -/
theorem session_calls_interrupted :
    machine.stack = .new {} ∧ machine.world.Derived ∧ machine.world.natives.Only Native.isDefault ∧
    (∀ d ∈ session.deeds false (runBy .idle 9) (runByDeeds .idle 9) machine,
      d.op.Roomy d.machine ∧ d.op.installsDefault = true) ∧
    ⟨false, (act 2).machine, _, .call 0 [.int 7, .bool false]⟩ ∈ acts ∧
    (act 2).machine.stack.frames.length = 1 ∧
    ∃ outs, (answer 2).1 = .ok outs ∧ outs.map Value.text = ["1"] ∧
      ∃ (x : Machine) (root : Frame) (b : Block), x.stack.frames = [root] ∧
        (act 2).machine.world.blocks[root.block]? = some b ∧ root.HandsOut b.signature.outputs outs ∧
        List.Forall₂ (Output.Gives root.registers) b.signature.outputs outs := by
  have hderived : machine.world.Derived := .of_empty rfl
  have hdeeds : ∀ d ∈ session.deeds false (runBy .idle 9) (runByDeeds .idle 9) machine,
      d.op.Roomy d.machine ∧ d.op.installsDefault = true := by
    decide +kernel
  have hcall : ⟨false, (act 2).machine, _, .call 0 [.int 7, .bool false]⟩ ∈ acts := by
    have hlength : 2 < acts.length := by decide +kernel
    have hact : act 2 = acts[2] := by
      rw [act, List.getElem?_eq_getElem hlength]
      rfl
    rw [← eq_call (d := act 2) (by decide +kernel), hact]
    exact List.getElem_mem hlength
  have hok : (answer 2).1.isOk = true := by decide +kernel
  have htext : ((answer 2).1.toOption.getD []).map Value.text = ["1"] := by decide +kernel
  rcases hanswer : answer 2 with ⟨e | outs, m'⟩ <;> rw [hanswer] at hok htext
  · exact nomatch hok
  obtain ⟨-, -, x, root, b, -, -, hframes, -, -, hb, -, houts, hgives⟩ :=
    session_calls rfl hderived .empty .idle 9 session hdeeds hcall hanswer
  have hdistinct : ∀ b ∈ (act 2).machine.world.blocks, (b.signature.outputs.map (·.register)).Nodup := by
    decide +kernel
  exact ⟨rfl, hderived, .empty, hdeeds, hcall, by decide +kernel, outs, rfl, htext, x, root, b, hframes, hb,
    houts, (hgives (hdistinct b (Array.mem_of_getElem? hb))).imp fun _ _ h => h.1⟩

/-- The second call finds no frames, and returns its own input. -/
example : ((answer 3).1.toOption.getD []).map Value.text = ["7"] := by
  decide +kernel

end Interrupted

end BlockMachine

import BlockMachine.Proofs.Machine.Hosting
import BlockMachine.Proofs.Program.StraightLine

namespace BlockMachine

/-!
# Runs and caches

A run does not depend on caches: neither do its steps, nor the natives that they call, nor the runs
that natives start.

* `Machine.invoke_agrees` is about natives, `Machine.step_agrees` about one instruction;
* `Machine.execute_agrees` is about the loop, by induction on its fuel;
* `Machine.resumes_runBy` is about whole runs.
-/

namespace Machine

variable {α : Type} {reg : Registry} {m : Machine} {p : Program}

/-! ### Natives -/

/-- An input is known, and so is null in place of one that is missing. -/
theorem input?_known (hm : In reg m) (index : Nat) : ((m.input? index).getD .null).Known reg := by
  cases hv : m.input? index with
  | none => exact StateTree.known_null
  | some v =>
    obtain ⟨f, hf, hget⟩ := Option.bind_eq_some_iff.1 hv
    exact (hm.stack.frames f (List.mem_of_head? hf)).registers v (Array.mem_of_getElem? hget)

/-- Natives find known arguments. -/
theorem argument_keeps (index : Nat) : Keeps (In reg) (argument index) (Value.Known reg) := by
  refine .get_bind (fun _ => rfl) fun m hm => ?_
  have hknown := input?_known hm index
  cases hv : m.input? index with
  | none => exact .violate _
  | some v =>
    rw [hv] at hknown
    exact .pure hknown

/-- Reading an integer from an argument does not depend on caches. -/
theorem intArgument_keeps (index : Nat) : Keeps (In reg) (intArgument index) fun _ => True := by
  refine .bind (argument_keeps index) fun v _ => ?_
  split
  · exact .pure trivial
  · exact .mismatch _ _

/-- Reading a key from an argument does not depend on caches. -/
theorem keyArgument_keeps (index : Nat) (what : String) :
    Keeps (In reg) (keyArgument index what) fun _ => True := by
  refine .bind (argument_keeps index) fun v _ => ?_
  split
  · exact .pure trivial
  · exact .mismatch _ _

/-- Reading a block from an argument does not depend on caches. -/
theorem blockInput_keeps : Keeps (In reg) blockInput fun _ => True := by
  refine .get_bind (fun _ => rfl) fun m _ => ?_
  split
  · exact .pure trivial
  · exact .raise _

/-- A value of a built-in type without parts may be given as the result. -/
theorem setResult_keeps {v : Value} {b : Builtin} (htype : v.type = .basic b)
    (hparts : v.parts = []) : Keeps (In reg) (setOutput 0 v) fun _ => True :=
  setOutput_keeps (open_in reg).steady 0 (Value.known_atom htype hparts)

/-- Printing does not depend on caches. -/
theorem printInputs_keeps : Keeps (In reg) printInputs fun _ => True :=
  fun _ hm => .ok rfl rfl
    ⟨⟨⟨⟨hm.1.world, hm.1.stack, hm.1.caches⟩, hm.1.ended, hm.1.runs⟩, hm.2⟩, trivial⟩

/-- Drawing a number changes the generator only. -/
theorem draw_keeps (draw : Random → α × Random) :
    Keeps (In reg) (onStack fun s => ((draw s.random).1, { s with random := (draw s.random).2 }))
      fun _ => True := by
  intro m hm
  have hstack := hm.stack
  exact .onStack rfl ⟨hm.withStack ⟨hstack.frames, hstack.state, hstack.retained, hstack.env,
    hstack.messages⟩ rfl hm.1.ended hm.1.runs, trivial⟩

/-- A native that draws a number does not depend on caches. -/
theorem drawRandom_keeps (l : Libraries) : Keeps (In reg) (drawRandom l) fun _ => True := by
  refine .get_bind (fun _ => rfl) fun m _ => ?_
  split
  · exact .bind (draw_keeps l.float) fun x _ => setResult_keeps rfl rfl
  · refine .bind (intArgument_keeps 0) fun lo _ => .bind (intArgument_keeps 1) fun hi _ => ?_
    split
    · exact .bind (draw_keeps (l.int lo hi)) fun n _ => setResult_keeps rfl rfl
    · exact .bind (raiseError_keeps _) fun e _ => .raise e

/-- A native that counts in the environment does not depend on caches. -/
theorem envBump_keeps : Keeps (In reg) (do
    let hits := ((Entries.get? (.name "hits") (← getStack).env).bind (·.int?)).getD 0
    modifyStack (·.setEnv (.name "hits") (.int (hits + 1)))) fun _ => True :=
  .getStack_bind (fun _ => rfl) fun _ _ => setEnv_keeps _ (Value.known_atom rfl rfl)

section

variable {resume : Action Outcome} (hresume : Resumes reg resume) (hm : m.Sound)
  (hreg : reg.Within m.world.registry)
include hresume hm hreg

/-- The functions of an embedder do not depend on caches. -/
theorem invokeHost_agrees (f : HostFunction) :
    Agrees (invokeHost resume f) m (fun _ m' => m.Later m') m.Later := by
  have hsteady := (open_in m.world.registry).steady
  -- all but two run nothing, so it is enough that they keep the values known
  have hkeeps : ∀ {a : Action Unit}, Keeps (In m.world.registry) a (fun _ => True) →
      Agrees a m (fun _ m' => m.Later m') m.Later := fun h => h.onward hm
  cases f with
  | one => exact hkeeps (setResult_keeps rfl rfl)
  | two => exact hkeeps (setResult_keeps rfl rfl)
  | softFail => exact hkeeps (.bind (raiseError_keeps _) fun _ _ => .pure trivial)
  | hardFail => exact hkeeps (.raise _)
  | countInputs => exact hkeeps (.get_bind (fun _ => rfl) fun _ _ => setResult_keeps rfl rfl)
  | cross =>
    exact hkeeps (.get_bind (fun _ => rfl) fun m' hm' =>
      .bind (setOutput_keeps hsteady 0 (input?_known hm' 1)) fun _ _ =>
      setOutput_keeps hsteady 1 (input?_known hm' 0))
  | cancel => exact hkeeps cancel_keeps
  | shrink => exact hkeeps (resize_keeps 1)
  | grow => exact hkeeps (resize_keeps 10)
  | poke => exact hkeeps (setInput_keeps hsteady 0 (Value.known_atom rfl rfl))
  | pokeFar => exact hkeeps (setInput_keeps hsteady 1000 StateTree.known_null)
  | pop => exact hkeeps (.bind pop_keeps fun _ _ => .pure trivial)
  | reset => exact hkeeps (reset_keeps false)
  -- a nested run agrees by assumption, and so does the run of a nested call
  | run =>
    exact .bind ((hresume m hm hreg).mono (fun _ _ h => h.1) fun _ h => h) fun _ _ h => .pure h
  | enter =>
    exact hkeeps (.bind blockInput_keeps fun block _ =>
      push_keeps block (List.forall_mem_nil _))
  | call =>
    refine .bind (blockInput_keeps.later hm) fun block m₁ ⟨hm₁, _⟩ => ?_
    have hcall := callWith_agrees hresume hm₁.1 (hreg.trans hm₁.2) block (List.forall_mem_nil _)
    exact .bind (hcall.mono (fun _ _ h => hm₁.trans h.1) fun _ h => hm₁.trans h)
      fun _ _ h => .pure h
  | migrate =>
    exact hkeeps (.bind blockInput_keeps fun block _ =>
      migrateTo_keeps block (List.forall_mem_nil _))
  -- the body that is put in place has a single return and no call sites
  | replace =>
    have hreplace : ∀ block, Keeps (In m.world.registry) (onWorld (World.replaceBlock block
        { name := "swapped" } [.code (.emit .ret)])) fun _ => True := by
      intro block m' hm'
      have hsignature : Signature.Known m.world.registry { name := "swapped" } :=
        ⟨List.forall_mem_nil _, List.forall_mem_nil _⟩
      have hbody : OneNamePerSite [.code (.emit .ret)] :=
        oneNamePerSite_of_straight (List.forall_mem_singleton.2 rfl)
      have hin := hm'.replaceBlock block hsignature hbody
      exact .onWorld (fun _ _ => ⟨hin, trivial⟩) hin
    exact hkeeps (.bind blockInput_keeps fun block _ =>
      .bind (hreplace block) fun _ _ => .pure trivial)
  | setState =>
    exact hkeeps (.get_bind (fun _ => rfl) fun m' hm' => setState_keeps (input?_known hm' 0))
  | envBump => exact hkeeps envBump_keeps

/-- Natives do not depend on caches, if the embedder's natives are honest. -/
theorem invoke_agrees {host : Embedder} (hhost : host.Honest reg) (f : Native) :
    Agrees (invoke host resume f) m (fun _ m' => m.Later m') m.Later := by
  have hsteady := (open_in m.world.registry).steady
  have hkeeps : ∀ {a : Action Unit}, Keeps (In m.world.registry) a (fun _ => True) →
      Agrees a m (fun _ m' => m.Later m') m.Later := fun h => h.onward hm
  cases f with
  | print => exact hkeeps printInputs_keeps
  | toText =>
    exact hkeeps (.bind (argument_keeps 0) fun v _ =>
      .bind (allocate_keeps hsteady.toQuiet fun _ => Value.known_atom rfl rfl) fun _ hw =>
      setOutput_keeps hsteady 0 hw)
  | length =>
    refine hkeeps (.bind (argument_keeps 0) fun v _ => ?_)
    split
    · exact setResult_keeps rfl rfl
    · exact .mismatch _ _
  | random => exact hkeeps (drawRandom_keeps _)
  | env =>
    refine hkeeps (.bind (keyArgument_keeps 0 _) fun k _ =>
      .getStack_bind (fun _ => rfl) fun m' hm' => setOutput_keeps hsteady 0 ?_)
    cases hget : Entries.get? k m'.stack.env with
    | none => exact StateTree.known_null
    | some v => exact hm'.stack.env.get? hget
  | error =>
    exact hkeeps (.bind (argument_keeps 0) fun v _ =>
      .bind (raiseError_keeps _) fun e _ => .raise e)
  | hash => exact hkeeps (.bind (argument_keeps 0) fun v _ => setResult_keeps rfl rfl)
  | emit =>
    exact hkeeps (.bind (keyArgument_keeps 0 _) fun channel _ =>
      .bind (argument_keeps 1) fun message hmessage =>
      .bind (emit_keeps channel hmessage) fun _ _ => .pure trivial)
  | host f => exact invokeHost_agrees hresume hm hreg f
  | installed code =>
    exact (host.script code).perform_agrees hresume hm hreg (hhost code _ hm.world.registry hreg)

/-- A native that left an error fails. -/
theorem callNative_agrees {host : Embedder} (hhost : host.Honest reg) (index : UInt16) :
    Agrees (callNative host resume index) m
      (fun _ m' => m.Later m' ∧ m'.stack.error = none) m.Later := by
  refine .get_bind rfl ?_
  split
  next f _ =>
    refine .bind (invoke_agrees hresume hm hreg hhost f) fun _ m' hm' => .getStack_bind rfl ?_
    -- an error that was noted but not raised is raised here
    cases herror : m'.stack.error with
    | some e => exact .raise hm'
    | none => exact .pure ⟨hm', herror⟩
  next => exact .raise ⟨hm, .refl _⟩

end

/-! ### Steps -/

/-- What an instruction leaves: no error, and if it stays in its frame, the program still runs. -/
def Performed (m : Machine) (p : Program) (stays : Prop) (m' : Machine) : Prop :=
  m.Later m' ∧ m'.stack.error = none ∧ (stays → m'.Executes p)

/-- **Instructions do not depend on caches.** -/
theorem perform_agrees {resume : Action Outcome} (hresume : Resumes reg resume)
    {host : Embedder} (hhost : host.Honest reg) (hreg : reg.Within m.world.registry)
    (hm : On m.world.registry p m) {pc next : Nat} {i : Instruction} (hpc : p.Reaches pc)
    (hi : p.instructionAt pc = .ok (i, next)) :
    Agrees (perform host resume p next i) m
      (fun _ => Performed m p (i.leavesFrame = false)) m.Later := by
  have hsound := hm.1.1.1
  obtain ⟨_, _, _, _, _, hcurrent⟩ := hsound.world.current hm.2.1
  have hknown := hcurrent.known
  have hsteady := steady_on m.world.registry p
  have hquiet := hsteady.toQuiet
  have hopen := open_calm m.world.registry
  have hquiet' := hopen.steady.toQuiet
  -- Most instructions stay in their frame, whose program goes on; calls leave it, and all that
  -- is left to say is that no error was noted.
  have hstays : Keeps (On m.world.registry p) (perform host resume p next i) (fun _ => True) →
      Agrees (perform host resume p next i) m
        (fun _ => Performed m p (i.leavesFrame = false)) m.Later :=
    fun h => (h m hm).mono (fun _ _ hx => ⟨hx.1.1.1.later, hx.1.1.2, fun _ => hx.1.2⟩)
      fun _ hm' => hm'.1.1.later
  have hleaves : Keeps (Calm m.world.registry) (perform host resume p next i) (fun _ => True) →
      i.leavesFrame = true → Agrees (perform host resume p next i) m
        (fun _ => Performed m p (i.leavesFrame = false)) m.Later :=
    fun h hleaves => (h m hm.1).mono
      (fun _ _ hx => ⟨hx.1.1.later, hx.1.2, fun hstays => by rw [hleaves] at hstays; cases hstays⟩)
      fun _ hm' => hm'.1.later
  cases i with
  | loadConst dst idx =>
    exact hstays (.bind (entry_keeps idx fun v hv => hknown.constants v (Array.mem_of_getElem? hv))
      fun _ hv => setRegister_keeps hsteady dst hv)
  | loadInt dst value =>
    exact hstays (setRegister_keeps hsteady dst (Value.known_atom rfl rfl))
  | setNull dst => exact hstays (setRegister_keeps hsteady dst StateTree.known_null)
  | setEmptyList dst =>
    exact hstays (.bind (allocate_keeps hquiet fun n => Value.known_list (List.forall_mem_nil _) n)
      fun _ hv => setRegister_keeps hsteady dst hv)
  | copy dst src =>
    exact hstays (.bind (register_keeps hquiet src) fun _ hv => setRegister_keeps hsteady dst hv)
  | move dst src => exact hstays (move_keeps hsteady dst src)
  | swap a b => exact hstays (swap_keeps hsteady a b)
  | cast dst src type =>
    exact hstays (.bind (entry_keeps type fun ty hty => hknown.types ty (Array.mem_of_getElem? hty))
      fun _ hty => .bind (register_keeps hquiet src) fun _ hv =>
      .bind (cast_keeps hquiet hty hv) fun _ hw => setRegister_keeps hsteady dst hw)
  | binary op dst lhs rhs =>
    exact hstays (.bind (combine_keeps hquiet op lhs rhs) fun _ hv =>
      setRegister_keeps hsteady dst hv)
  | increment r => exact hstays (increment_keeps hsteady r)
  | getIndex dst container index =>
    exact hstays (.bind (readIndex_keeps hquiet container index) fun _ hv =>
      setRegister_keeps hsteady dst hv)
  | setIndex container index src => exact hstays (writeIndex_keeps hsteady container index src)
  | append list src => exact hstays (append_keeps hsteady list src)
  | length dst container =>
    exact hstays (.bind (lengthOf_keeps hquiet container) fun _ _ =>
      setRegister_keeps hsteady dst (Value.known_atom rfl rfl))
  | jump cond offset =>
    refine hstays (.bind (isTaken_keeps hquiet cond) fun taken _ => ?_)
    split
    · exact jump_keeps (hpc.jump hi)
    · exact .pure trivial
  | call block base argc out =>
    exact hleaves (.bind (entry_keeps (Q := fun _ => True) block fun _ _ => trivial) fun _ _ =>
      .bind (arguments_keeps hquiet' base argc.toNat) fun _ hargs =>
      enter_keeps hopen _ hargs (List.forall_mem_nil _)) rfl
  | callKeyed block base argc out key =>
    exact hleaves (.bind (entry_keeps (Q := fun _ => True) block fun _ _ => trivial) fun _ _ =>
      .bind (keyRegister_keeps hquiet' key) fun _ _ =>
      .bind (arguments_keeps hquiet' base argc.toNat) fun _ hargs =>
      enter_keeps hopen _ hargs (List.forall_mem_nil _)) rfl
  | callFunc base argc out => exact hleaves (callFunc_keeps hopen base argc out) rfl
  | callFuncApply func args out => exact hleaves (applyFunc_keeps hopen func args out) rfl
  | callMethod name base argc out site =>
    have hname : Keeps (On m.world.registry p) (entry .name p.names name)
        fun s => p.names[name.toNat]? = some s := entry_keeps name fun _ hs => hs
    refine .bind ((hname m hm).relax fun _ h => h.1.1.later)
      fun s m' ⟨hm', hs⟩ => ?_
    -- control flow led to this send, so the name is the one of its site
    have hsends : p.Sends site s := ⟨pc, next, name, base, argc, out, hpc, hi, hs⟩
    exact (send_agrees hm' rfl hsends).mono (fun _ _ h => ⟨h.1.1.later, h.1.2, nofun⟩)
      fun _ h => h.1.later
  | makeFunc dst block first count =>
    exact hstays (.bind (entry_keeps (Q := fun _ => True) block fun _ _ => trivial) fun _ _ =>
      .bind (arguments_keeps hquiet first count.toNat) fun _ hbindings =>
      .bind (allocate_keeps hquiet fun _ => Value.known_of_basic rfl hbindings) fun _ hv =>
      setRegister_keeps hsteady dst hv)
  | splatBindings first count => exact hstays (splatBindings_keeps hsteady first count)
  | varargsToList first => exact hstays (collectVarargs_keeps hsteady first)
  | growFrame size => exact hstays (growFrame_keeps hsteady size.toNat)
  | native idx =>
    exact (callNative_agrees hresume hsound hreg hhost idx).mono
      (fun _ _ h => ⟨h.1, h.2, nofun⟩) fun _ h => h
  | getState dst name =>
    exact hstays (.bind (entry_keeps (Q := fun _ => True) name fun _ _ => trivial) fun _ _ =>
      .bind (readState_keeps hquiet _) fun _ hv => setRegister_keeps hsteady dst hv)
  | saveState name src =>
    exact hstays (.bind (entry_keeps (Q := fun _ => True) name fun _ _ => trivial) fun _ _ =>
      .bind (register_keeps hquiet src) fun _ hv => saveState_keeps hsteady _ hv)
  | retainFrame =>
    exact hstays (modifyActive_keeps hsteady fun f hf =>
      ⟨⟨hf.registers, hf.incoming, hf.outgoing, hf.bindings⟩, ⟨rfl, rfl, rfl⟩⟩)
  | pause => exact hstays (.pure trivial)
  | ret => exact hstays (.pure trivial)

/-- **Steps do not depend on caches.** -/
theorem step_agrees {resume : Action Outcome} (hresume : Resumes reg resume)
    {host : Embedder} (hhost : host.Honest reg) (hreg : reg.Within m.world.registry)
    (hm : On m.world.registry p m) {pc next : Nat} {i : Instruction} (hpc : p.Reaches pc)
    (hi : p.instructionAt pc = .ok (i, next)) :
    Agrees (step host resume p next i) m (fun flow => Performed m p (flow = .next)) m.Later := by
  have hperform : Agrees (do
      perform host resume p next i
      return if i.leavesFrame then Flow.reload else .next) m
      (fun flow => Performed m p (flow = .next)) m.Later := by
    refine .bind (perform_agrees hresume hhost hreg hm hpc hi) fun _ m' ⟨hm', herror, hruns⟩ => ?_
    refine .pure ⟨hm', herror, fun hflow => hruns ?_⟩
    cases hleaves : i.leavesFrame with
    | false => rfl
    | true =>
      rw [hleaves] at hflow
      exact nomatch hflow
  cases i with
  | pause => exact .pure ⟨hm.1.1.later, hm.1.2, nofun⟩
  | ret =>
    obtain ⟨_, _, _, _, _, hcurrent⟩ := hm.1.1.1.world.current hm.2.1
    have hleave := leave_keeps (open_calm m.world.registry) hcurrent.known.signature
    refine .bind ((hleave m hm.1).relax fun _ h => h.1.later)
      fun root m' ⟨hm', _⟩ => .pure ⟨hm'.1.later, hm'.2, fun hflow => ?_⟩
    cases root <;> exact nomatch hflow
  | _ => exact hperform

/-! ### Programs of frames -/

/-- The program of the active frame is fetched from its slot, and the frame stays where it is. -/
theorem Calm.program_bind (hm : Calm reg m) {k : Frame → Program → Action α}
    {Q : α → Machine → Prop} (h : ∀ f rest p m', Calm reg m' → m'.stack.frames = f :: rest →
      m'.world.slotProgram? f.program = some p → Agrees (k f p) m' Q (Calm reg)) :
    Agrees (do let f ← active; k f (← onWorld (World.program f.program))) m Q (Calm reg) := by
  refine .active_bind hm fun f rest hframes => ?_
  obtain ⟨hcompiled, hprogram⟩ := hm.1.1.world.program f.program
  have hcalm := (open_calm reg).compiled hm hcompiled
  exact .bind (.onWorld (Q := fun p m' => Calm reg m' ∧ m'.stack.frames = f :: rest ∧
    m'.world.slotProgram? f.program = some p) (fun p hp => ⟨hcalm, hframes, hprogram p hp⟩) hcalm)
    fun p m' ⟨hm', hframes', hslot⟩ => h f rest p m' hm' hframes' hslot

/-- The program that is fetched is the one that the active frame runs. -/
theorem currentProgram_agrees (hm : Calm reg m) :
    Agrees currentProgram m (fun p m' => On reg p m') (Calm reg) := by
  refine hm.program_bind fun f rest p m' hm' hframes' hslot => ?_
  split
  next hversion =>
    obtain ⟨_, _, _, _, _, hcurrent⟩ := hm'.1.1.world.current hslot
    exact .pure ⟨hm', hcurrent.index.symm ▸ hslot, f, rest, hframes', hcurrent.index.symm,
      hversion.symm⟩
  next => exact .raise hm'

/-- Finding out whether frames are up to date does not depend on caches. -/
theorem allCurrent_keeps (frames : List Frame) :
    Keeps (Calm reg) (allCurrent frames) fun _ => True := by
  induction frames with
  | nil => exact .pure trivial
  | cons f rest ih =>
    have hcurrent : Keeps (Calm reg) (isCurrent f) fun _ => True := by
      refine .bind (tryProgram_keeps (open_calm reg) f.program) fun r _ => ?_
      cases r with
      | ok p => exact .pure trivial
      | error e => exact .pure trivial
    refine .bind hcurrent fun b _ => ?_
    split
    · exact ih
    · exact .pure trivial

/-- Taking all frames but the root away keeps a machine sound. -/
theorem Calm.unwindToRoot (hm : Calm reg m) :
    Calm reg { m with stack := unwindToRoot m.stack } := by
  obtain ⟨⟨hsound, hreg⟩, herror⟩ := hm
  have hstack := hsound.stack
  have hretained := snapshots_known fun f (hf : f ∈ m.stack.frames.take (m.stack.depth - 1)) =>
    hstack.frames f (List.mem_of_mem_take hf)
  exact ⟨⟨⟨⟨hsound.world, ⟨fun f hf => hstack.frames f (List.mem_of_mem_drop hf), hstack.state,
    List.forall_mem_append.2 ⟨hstack.retained, hretained⟩, hstack.env, hstack.messages⟩,
    hsound.caches⟩, hsound.ended, fun h f hf => hsound.runs h f (List.mem_of_mem_drop hf)⟩, hreg⟩,
    herror⟩

/-- A root that starts over holds its inputs and known state. -/
theorem restarted_known {root : Frame} (hroot : root.Known reg) (program : Program) {state : Value}
    (hstate : state.Known reg) : (restarted root program state).Known reg :=
  ⟨Frame.resized_known (extract_known hroot.registers 0 root.inputCount) _, hstate, nofun,
    hroot.bindings⟩

/-- A root that starts over stands at the start of its current program. -/
theorem restartIfStale_keeps : Keeps (Calm reg) restartIfStale fun _ => True := by
  refine .getStack_bind (fun _ => rfl) fun m₀ _ => .bind (allCurrent_keeps _) fun current _ => ?_
  split
  · exact .pure trivial
  refine .bind (.modifyStack (fun _ => rfl) fun m hm => hm.unwindToRoot) fun _ _ m hm => ?_
  refine hm.program_bind fun f rest program m' hm' hframes' hslot => ?_
  refine .getStack_bind rfl (.active_bind hm' fun g rest' hg => ?_)
  rw [hframes'] at hg
  obtain ⟨rfl, rfl⟩ := List.cons.inj hg
  have hsound := hm'.1.1
  have hreg := hm'.1.2
  have hf := hm'.1.stack.frames f (hframes' ▸ List.mem_cons_self)
  have hknown := hreg ▸ restarted_known hf program hm'.1.stack.state
  have hruns : (restarted f program m'.stack.state).Runs m'.world :=
    .of_reaches hsound.world hslot rfl .start
  refine .modifyStack rfl
    ⟨(open_calm reg).other hm' (hsound.withFrames ?_ fun herror => ?_) hreg rfl, trivial⟩
  · exact List.forall_mem_cons.2
      ⟨hknown, fun g hg => hsound.stack.frames g (List.mem_of_mem_tail hg)⟩
  · exact List.forall_mem_cons.2
      ⟨hruns, fun g hg => hsound.runs herror g (List.mem_of_mem_tail hg)⟩

/-! ### Runs -/

/-- Executing a program does not depend on caches. It may leave a wrong pc with an error, but
    nothing else out of order. -/
def ExecutesAlike (reg : Registry) (exec : Program → Action Outcome) : Prop :=
  ∀ (p : Program) (m : Machine), reg.Within m.world.registry → On m.world.registry p m →
    Agrees (exec p) m (fun _ m' => m.Later m' ∧ m'.stack.error = none)
      fun m' => m'.Tidy ∧ m.world.registry.Within m'.world.registry

/-- A run restores the order by noting the error. -/
theorem resumes_runWith {exec : Program → Action Outcome} (hexec : ExecutesAlike reg exec) :
    Resumes reg (runWith exec) := by
  intro m hm hreg
  have hhere : m.Later m := ⟨hm, .refl _⟩
  refine .getStack_bind rfl ?_
  cases hphase : m.stack.phase with
  | finished =>
    cases herror : m.stack.error with
    | some e => exact .raise hhere
    | none => exact .pure ⟨hhere, herror⟩
  | running => exact .raise hhere
  | ready =>
    dsimp only
    split
    · exact .raise_bind hhere
    have herror := hm.no_error (by rw [hphase]; nofun)
    have hstack := hm.stack
    have hcalm : Calm m.world.registry { m with stack := { m.stack with phase := .running } } :=
      ⟨⟨⟨⟨hm.world, ⟨hstack.frames, hstack.state, hstack.retained, hstack.env, hstack.messages⟩,
        hm.caches⟩, fun h => absurd herror h, hm.runs⟩, rfl⟩, herror⟩
    refine .bind (.modifyStack (P := fun _ m' => Calm m.world.registry m') rfl hcalm)
      fun _ m₁ hm₁ => ?_
    have hrun : Agrees (do restartIfStale; exec (← currentProgram)) m₁
        (fun _ m' => m.Later m' ∧ m'.stack.error = none)
        (fun m' => m'.Tidy ∧ m.world.registry.Within m'.world.registry) := by
      refine .bind ((restartIfStale_keeps m₁ hm₁).mono (fun _ _ h => h.1)
        fun _ h => ⟨h.1.1.toTidy, h.1.2 ▸ .refl _⟩) fun _ m₂ hm₂ => ?_
      refine .bind ((currentProgram_agrees hm₂).relax
        fun _ h => ⟨h.1.1.toTidy, h.1.2 ▸ .refl _⟩) fun p m₃ hm₃ => ?_
      have hreg₃ := hm₃.1.1.2
      have hexec₃ := hexec p m₃ (hreg₃ ▸ hreg) (hreg₃ ▸ hm₃)
      rw [hreg₃] at hexec₃
      exact hexec₃.mono (fun _ _ h => ⟨⟨h.1.1, hreg₃ ▸ h.1.2⟩, h.2⟩) fun _ h => h
    refine .bind hrun.attempt fun result m₂ hended => ?_
    cases result with
    | ok outcome =>
      obtain ⟨hm₂, herror₂⟩ := hended
      have hstack₂ := hm₂.1.stack
      have hdone : m.Later { m₂ with stack := conclude outcome m₂.stack } :=
        ⟨⟨⟨hm₂.1.world, ⟨hstack₂.frames, hstack₂.state, hstack₂.retained, hstack₂.env,
          hstack₂.messages⟩, hm₂.1.caches⟩, fun h => absurd herror₂ h, hm₂.1.runs⟩, hm₂.2⟩
      refine .bind (.modifyStack (P := fun _ m' => m.Later m' ∧ m'.stack.error = none) rfl
        ⟨hdone, herror₂⟩) fun _ _ h => .pure h
    | error fault =>
      cases fault with
      | raised e =>
        -- the failing instruction may have left a wrong pc; noting the error makes up for it
        obtain ⟨htidy, hreg₂⟩ := hended
        refine .bind ((recordError_agrees htidy e).mono
          (fun _ _ h => ⟨h.1.1, h.1.2 ▸ hreg₂⟩) fun _ h => h) fun _ _ h => .raise h
      | crashed => exact .throw_fatal nofun
      | outOfFuel => exact .throw_fatal nofun

/-- Changing one frame has nothing to do with caches. -/
theorem modifyFrameAt_uncached (s : Stack) (i : Nat) (g : Frame → Frame) :
    s.uncached.modifyFrameAt i g = (s.modifyFrameAt i g).uncached := by
  have hdepth : s.uncached.depth = s.depth := rfl
  rw [Stack.modifyFrameAt, Stack.modifyFrameAt, hdepth]
  split <;> rfl

/-- The frames after one was changed are those there were, and the changed one. -/
theorem modifyFrameAt_frames (s : Stack) (i : Nat) (g : Frame → Frame) :
    ∃ frames, s.modifyFrameAt i g = { s with frames := frames } ∧
      ∀ f ∈ frames, f ∈ s.frames ∨ ∃ f' ∈ s.frames, f = g f' := by
  rw [Stack.modifyFrameAt]
  split
  · refine ⟨_, rfl, fun f hf => ?_⟩
    obtain ⟨j, hj⟩ := List.getElem?_of_mem hf
    rw [List.getElem?_modify] at hj
    obtain ⟨f', hf', heq⟩ := Option.map_eq_some_iff.1 hj
    have hmem := List.mem_of_getElem? hf'
    split at heq
    · exact .inr ⟨f', hmem, heq.symm⟩
    · exact .inl (heq ▸ hmem)
  · exact ⟨s.frames, rfl, fun f hf => .inl hf⟩

/-- Other places in programs leave values and caches in order. -/
theorem Tidy.modifyFrameAt (hm : m.Tidy) (i : Nat) (pc : Frame → Pc) :
    Tidy { m with stack := m.stack.modifyFrameAt i fun f => { f with pc := pc f } } := by
  obtain ⟨frames, heq, hframes⟩ := modifyFrameAt_frames m.stack i fun f => { f with pc := pc f }
  have hstack := hm.stack
  rw [heq]
  refine ⟨hm.world, ⟨fun f hf => ?_, hstack.state, hstack.retained, hstack.env, hstack.messages⟩,
    hm.caches⟩
  rcases hframes f hf with hold | ⟨f', hf', rfl⟩
  · exact hstack.frames f hold
  · have hknown := hstack.frames f' hf'
    exact ⟨hknown.registers, hknown.incoming, hknown.outgoing, hknown.bindings⟩

/-- Notes on graph nodes leave the places in programs as they are. -/
theorem Sound.modifyNodeAt (hm : m.Sound) (i : Nat) (node : Option UInt32) :
    Sound { m with stack := m.stack.modifyFrameAt i fun f =>
      { f with pc := { f.pc with node := node } } } := by
  have htidy := hm.toTidy.modifyFrameAt i fun f => { f.pc with node := node }
  obtain ⟨frames, heq, hframes⟩ :=
    modifyFrameAt_frames m.stack i fun f => { f with pc := { f.pc with node := node } }
  rw [heq] at htidy ⊢
  refine ⟨htidy, hm.ended, fun herror f hf => ?_⟩
  rcases hframes f hf with hold | ⟨f', hf', rfl⟩
  · exact hm.runs herror f hold
  · exact (hm.runs herror f' hf').congr rfl rfl rfl

/-- The instruction at an offset is fetched, and the machine is as it was. -/
theorem fetch_agrees {pc : Nat} {E : Machine → Prop} (hE : E m) :
    Agrees (fetch p pc) m (fun r m' => m = m' ∧ p.instructionAt pc = .ok r) E := by
  rw [fetch]
  cases hi : p.instructionAt pc with
  | ok found => exact .pure ⟨rfl, rfl⟩
  | error e => exact .raise hE

/-- A step that failed leaves a note of its place in its frame, which may be another one by now. -/
theorem failed_agrees {m' : Machine} {fault : Fault} (h : ∀ e, fault = .raised e → m.Later m')
    (top : Nat) (pc : Pc) {Q : α → Machine → Prop} :
    Agrees (do modifyStack (·.modifyFrameAt top fun f => { f with pc := pc }); throw fault) m' Q
      fun m'' => m''.Tidy ∧ m.world.registry.Within m''.world.registry := by
  have huncached := modifyFrameAt_uncached m'.stack top fun f => { f with pc := pc }
  cases fault with
  | raised e =>
    have hm' := h e rfl
    exact .bind (.modifyStack (P := fun _ m'' => m''.Tidy ∧
      m.world.registry.Within m''.world.registry) huncached
      ⟨hm'.1.toTidy.modifyFrameAt top fun _ => pc, hm'.2⟩) fun _ _ h => .raise h
  | crashed =>
    exact .bind (.modifyStack (P := fun _ _ => True) huncached trivial) fun _ _ _ =>
      .throw_fatal nofun
  | outOfFuel =>
    exact .bind (.modifyStack (P := fun _ _ => True) huncached trivial) fun _ _ _ =>
      .throw_fatal nofun

/-- A pause notes the graph node that comes next. -/
theorem paused_agrees {m' : Machine} (hm' : m.Later m') (herror : m'.stack.error = none) (top : Nat)
    (node : Option UInt32) {E : Machine → Prop} :
    Agrees (do
      modifyStack (·.modifyFrameAt top fun f => { f with pc := { f.pc with node := node } })
      return Outcome.paused) m' (fun _ m'' => m.Later m'' ∧ m''.stack.error = none) E := by
  have hpaused : (m'.stack.modifyFrameAt top fun f =>
      { f with pc := { f.pc with node := node } }).error = none := by
    obtain ⟨frames, heq, _⟩ := modifyFrameAt_frames m'.stack top fun f =>
      { f with pc := { f.pc with node := node } }
    rw [heq]
    exact herror
  exact .bind (.modifyStack (P := fun _ m'' => m.Later m'' ∧ m''.stack.error = none)
    (modifyFrameAt_uncached ..) ⟨⟨hm'.1.modifyNodeAt top node, hm'.2⟩, hpaused⟩)
    fun _ _ h => .pure h

/-- **The loop does not depend on caches**, for any number of instructions. -/
theorem execute_agrees {host : Embedder} (hhost : host.Honest reg) (fuel : Nat) :
    ExecutesAlike reg (execute host fuel) := by
  induction fuel with
  | zero => exact fun _ _ _ _ => .throw_fatal nofun
  | succ fuel ih =>
    intro p m hreg hm
    have htidy := hm.1.1.1.toTidy
    rw [execute]
    refine .getStack_bind rfl ?_
    split
    · exact .pure ⟨hm.1.1.later, hm.1.2⟩
    split
    next hframes => exact .raise ⟨htidy, .refl _⟩
    next f rest hframes =>
    refine .bind (fetch_agrees ⟨htidy, .refl _⟩) ?_
    rintro ⟨i, next⟩ _ ⟨rfl, hi⟩
    have hpc := hm.reaches hframes
    have hf := htidy.stack.frames f (hframes ▸ List.mem_cons_self)
    have hadvance : Agrees (setActive { f with pc := { f.pc with offset := next } }) m
        (fun _ m' => On m.world.registry p m' ∧ True) (On m.world.registry p) :=
      hm.setActive hframes ⟨hf.registers, hf.incoming, hf.outgoing, hf.bindings⟩ rfl rfl
        (hpc.next hi)
    refine .bind (hadvance.mono (fun _ _ h => h.1)
      fun _ h => ⟨h.1.1.1.toTidy, h.1.1.2 ▸ .refl _⟩) fun _ m₁ hm₁ => ?_
    have hreg₁ := hm₁.1.1.2
    -- a native may run the stack again, with less fuel: the induction hypothesis covers those runs
    have hstep := step_agrees (resumes_runWith ih) hhost (hreg₁ ▸ hreg) (hreg₁ ▸ hm₁) hpc hi
    refine .bind hstep.attempt fun result m₂ hended => ?_
    have hlater : m₁.Later m₂ → m.Later m₂ := fun h => ⟨h.1, hreg₁ ▸ h.2⟩
    cases result with
    | error fault =>
      refine failed_agrees (fun e he => ?_) _ _
      subst he
      exact hlater hended
    | ok flow =>
      obtain ⟨hended, herror, hexecutes⟩ := hended
      have hm₂ := hlater hended
      -- the rest of the loop starts from a later machine that executes its program
      have hgo : ∀ p' m', m.Later m' → On m'.world.registry p' m' → Agrees (execute host fuel p') m'
          (fun _ m'' => m.Later m'' ∧ m''.stack.error = none)
          (fun m'' => m''.Tidy ∧ m.world.registry.Within m''.world.registry) := by
        intro p' m' hm' hon
        exact (ih p' m' (hreg.trans hm'.2) hon).mono (fun _ _ h => ⟨hm'.trans h.1, h.2⟩)
          fun _ h => ⟨h.1, hm'.2.trans h.2⟩
      cases flow with
      | next => exact hgo p m₂ hm₂ ⟨⟨⟨hm₂.1, rfl⟩, herror⟩, hexecutes rfl⟩
      | reload =>
        refine .bind ((currentProgram_agrees ⟨⟨hm₂.1, rfl⟩, herror⟩).relax
          fun _ h => ⟨h.1.1.toTidy, h.1.2 ▸ hm₂.2⟩) fun p' m₃ hm₃ => ?_
        exact hgo p' m₃ ⟨hm₃.1.1.1, hm₃.1.1.2 ▸ hm₂.2⟩ (hm₃.1.1.2 ▸ hm₃)
      | pause => exact paused_agrees hm₂ herror _ _
      | finish => exact .pure ⟨hm₂, herror⟩

/-- **Runs do not depend on caches.** -/
theorem resumes_runBy {host : Embedder} (hhost : host.Honest reg) (fuel : Nat) :
    Resumes reg (runBy host fuel) :=
  resumes_runWith (execute_agrees hhost fuel)

end Machine

end BlockMachine

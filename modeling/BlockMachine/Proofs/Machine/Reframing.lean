import BlockMachine.Proofs.Machine.Calls

namespace BlockMachine

/-!
# What can happen to the frames of a stack

Whatever is done to a machine, by an instruction, a native or its host, does one of a few things to the
frames: it works in the active one, takes frames away, or puts one frame on top of those that were there.

* `Frame.Hangs` says where a frame hangs, `Machine.Reframes` what can happen to frames;
* `Machine.step_reframes` is about instructions, `Machine.invoke_default_inside` about the natives that every
  world has, `HostOp.reframes` about operations;
* `Machine.restartIfStale_reframes` is about the start of a run.
-/

/-- A frame hangs at a position: on the one below, or at the root, which has neither a key nor a place for
    outputs. It has a register for every input. -/
structure Frame.Hangs (n : Nat) (f : Frame) : Prop where
  parent : f.parent = if n = 0 then none else some (n - 1)
  root : n = 0 → f.key = none ∧ f.returnTo = none
  inputs : f.inputCount ≤ f.registers.size

namespace Frame

variable {n : Nat} {f f' : Frame}

/-- Working does not move a frame. -/
theorem Hangs.becomes (h : f.Hangs n) (hf : f.Becomes True f') : f'.Hangs n := by
  have hparent : f'.fixed.parent = f.fixed.parent := congrArg Frame.parent hf.fixed
  have hkey : f'.fixed.key = f.fixed.key := congrArg Frame.key hf.fixed
  have hreturn : f'.fixed.returnTo = f.fixed.returnTo := congrArg Frame.returnTo hf.fixed
  refine ⟨hparent.trans h.parent, fun hn => ?_, hf.inputs trivial h.inputs⟩
  exact ⟨hkey.trans (h.root hn).1, hreturn.trans (h.root hn).2⟩

/-- A frame that was entered by a link hangs where the link says. -/
theorem HangsOff.hangs {link : Machine.Link} (h : f.HangsOff n link)
    (hlink : n = 0 → link.key = none ∧ link.returnTo = none) : f.Hangs n := by
  refine ⟨h.parent, fun hn => ?_, h.inputs⟩
  rw [h.key, h.returnTo]
  exact hlink hn

end Frame

namespace Machine

variable {α β : Type} {room : Prop} {m m' : Machine}

/-- What can happen to the frames of a machine. -/
inductive Reframes (room : Prop) (m : Machine) : Except Fault α × Machine → Prop where
  | works {r : Except Fault α × Machine} (h : m.Works room r.2) : Reframes room m r
  /-- The active frame is gone, and the one below has worked. -/
  | left {f : Frame} {rest : List Frame} {r : Except Fault α × Machine}
    (hframes : m.stack.frames = f :: rest) (h : (m.withFrames rest).Works room r.2) : Reframes room m r
  | cleared {r : Except Fault α × Machine} (hframes : r.2.stack.frames = [])
    (hconfig : r.2.stack.config = m.stack.config) : Reframes room m r
  /-- Only the root is left, and may have started over. -/
  | rooted {root root' : Frame} {r : Except Fault α × Machine}
    (hroot : m.stack.frames.getLast? = some root) (hframes : r.2.stack.frames = [root'])
    (hconfig : r.2.stack.config = m.stack.config) (hroot' : root.Hangs 0 → root'.Hangs 0) :
    Reframes room m r
  | entered {f : Frame} {x : α} {m' : Machine} (hroom : m.stack.depth < m.stack.config.maxFrames)
    (hf : f.Hangs m.stack.depth) (hframes : m'.stack.frames = f :: m.stack.frames)
    (hconfig : m'.stack.config = m.stack.config) : Reframes room m (.ok x, m')
  /-- A new root has taken the place of all frames. -/
  | renewed {f : Frame} {x : α} {m' : Machine} (hroom : 0 < m.stack.config.maxFrames) (hf : f.Hangs 0)
    (hframes : m'.stack.frames = [f]) (hconfig : m'.stack.config = m.stack.config) :
    Reframes room m (.ok x, m')

namespace Reframes

/-- Where nothing was put on top, there are no more frames than before. -/
theorem depth_le {e : Fault} (h : Reframes room m ((.error e, m') : Except Fault α × Machine)) :
    m'.stack.depth ≤ m.stack.depth := by
  cases h with
  | works h => exact Nat.le_of_eq h.depth
  | left hframes h =>
    have hrest : m'.stack.depth = _ := h.depth
    rw [hrest, Stack.depth, Stack.depth, hframes]
    exact Nat.le_succ _
  | cleared hframes =>
    rw [Stack.depth, show m'.stack.frames = [] from hframes]
    exact Nat.zero_le _
  | rooted hroot hframes =>
    rw [Stack.depth, show m'.stack.frames = [_] from hframes]
    exact List.length_pos_of_mem (List.mem_of_getLast? hroot)

/-- How a computation ends does not matter, if it does. -/
theorem map {r : Except Fault α × Machine} (h : Reframes room m r) (f : α → β) :
    Reframes room m (r.1.map f, r.2) := by
  cases h with
  | works h => exact .works h
  | left hframes h => exact .left hframes h
  | cleared hframes hconfig => exact .cleared hframes hconfig
  | rooted hroot hframes hconfig hroot' => exact .rooted hroot hframes hconfig hroot'
  | entered hroom hf hframes hconfig => exact .entered hroom hf hframes hconfig
  | renewed hroom hf hframes hconfig => exact .renewed hroom hf hframes hconfig

/-- What is done before does not touch the frames. -/
theorem of_stack {n : Machine} {r : Except Fault α × Machine} (hframes : n.stack.frames = m.stack.frames)
    (hconfig : n.stack.config = m.stack.config) (h : Reframes room n r) : Reframes room m r := by
  cases h with
  | works h => exact .works ((Works.of_frames hframes hconfig).trans h)
  | @left _ rest _ hframes' h =>
    have hrest : (m.withFrames rest).Works room (n.withFrames rest) := .of_frames rfl hconfig
    exact .left (hframes ▸ hframes') (hrest.trans h)
  | cleared hframes' hconfig' => exact .cleared hframes' (hconfig'.trans hconfig)
  | rooted hroot hframes' hconfig' hroot' =>
    exact .rooted (hframes ▸ hroot) hframes' (hconfig'.trans hconfig) hroot'
  | entered hroom hf hframes' hconfig' =>
    rw [Stack.depth, hframes, hconfig] at hroom
    rw [Stack.depth, hframes] at hf
    exact .entered hroom hf (hframes ▸ hframes') (hconfig'.trans hconfig)
  | renewed hroom hf hframes' hconfig' =>
    exact .renewed (hconfig ▸ hroom) hf hframes' (hconfig'.trans hconfig)

end Reframes

/-! ### Working in the active frame -/

/-- A computation works in the active frame only. -/
def Inside (a : Action α) : Prop :=
  ∀ m : Machine, m.Works True (a m).2

namespace Inside

variable {a : Action α} {f : α → Action β}

/-- Nothing is done to the frames where a value is given back. -/
theorem pure (x : α) : Inside (pure x) :=
  fun m => .refl m

/-- Nothing is done to the frames where a computation fails at once. -/
theorem throw (e : Fault) : Inside (throw e : Action α) :=
  fun m => .refl m

/-- What leaves the stack alone works in no frame at all. -/
theorem of_stack (h : Preserves (·.stack) a) : Inside a :=
  fun m => .of_frames (congrArg Stack.frames (h m)) (congrArg Stack.config (h m))

/-- Computations in the active frame follow each other. -/
theorem bind (ha : Inside a) (hf : ∀ x, Inside (f x)) : Inside (a >>= f) := by
  intro m
  have hm := ha m
  rw [Failing.bind_apply]
  generalize a m = r at hm
  obtain ⟨_ | x, m'⟩ := r
  · exact hm
  · exact hm.trans (hf x m')

/-- What looks at the machine first may work in the active frame. -/
theorem get_bind {f : Machine → Action β} (hf : ∀ m, Inside (f m)) : Inside (get >>= f) :=
  fun m => hf m m

/-- What looks at the stack first may work in the active frame. -/
theorem getStack_bind {f : Stack → Action β} (hf : ∀ s, Inside (f s)) : Inside (getStack >>= f) :=
  fun m => hf m.stack m

/-- The active frame is changed. -/
theorem active_bind {change : Frame → Action β}
    (h : ∀ (m : Machine) (f : Frame) rest, m.stack.frames = f :: rest → m.Works True (change f m).2) :
    Inside (active >>= change) := by
  intro m
  rw [Failing.bind_apply]
  cases hframes : m.stack.frames with
  | nil =>
    rw [active_apply_nil hframes]
    exact .refl m
  | cons f rest =>
    rw [active_apply hframes]
    exact h m f rest hframes

/-- The active frame may become another one that hangs and runs as it did. -/
theorem modifyActive {change : Frame → Frame} (h : ∀ f : Frame, f.Becomes True (change f)) :
    Inside (modifyActive change) := by
  refine active_bind fun m f rest hframes => ?_
  rw [setActive_apply hframes]
  exact .of_active hframes rfl rfl (h f)

end Inside

/-- An output is a register of the active frame, which may get more of them. -/
theorem setOutput_inside (index : Nat) (v : Value) : Inside (setOutput index v) := by
  refine .get_bind fun n => ?_
  cases n.outputRegister? index with
  | none => exact .throw _
  | some r =>
    refine .active_bind fun m f rest hframes => ?_
    rw [setActive_apply hframes]
    refine .of_active hframes rfl rfl (.of_size rfl ?_)
    rw [Array.size_setIfInBounds]
    exact Frame.size_le_grown f.registers (Nat.le_succ _)

/-- An input is a register of the active frame. -/
theorem setInput_inside (index : Nat) (v : Value) : Inside (setInput index v) := by
  refine .active_bind fun m f rest hframes => ?_
  split
  · rw [setActive_apply hframes]
    exact .of_active hframes rfl rfl (.of_size rfl (Nat.le_of_eq Array.size_setIfInBounds.symm))
  · exact .refl m

/-- Noting an error leaves the frames alone. -/
theorem recordError_inside (e : RuntimeError) : Inside (recordError e) := by
  intro m
  obtain ⟨w, note, hmachine, -⟩ := recordError_machine e m
  rw [hmachine]
  exact .of_frames rfl rfl

/-- A native that raises an error may set an output. -/
theorem raiseError_inside (message : String) : Inside (raiseError message) := by
  have hdone : Inside (do
      recordError (.hostRaised message)
      return RuntimeError.hostRaised message) :=
    .bind (recordError_inside _) fun _ => .pure _
  refine .get_bind fun m => ?_
  dsimp only
  split
  · exact .bind (setOutput_inside 0 _) fun _ => hdone
  · exact hdone

/-- Looking at an argument leaves the frames alone. -/
theorem argument_inside (index : Nat) : Inside (argument index) := by
  refine .get_bind fun m => ?_
  split
  · exact .pure _
  · exact .throw _

/-- Reading an integer from an argument leaves the frames alone. -/
theorem intArgument_inside (index : Nat) : Inside (intArgument index) := by
  refine .bind (argument_inside index) fun v => ?_
  split
  · exact .pure _
  · exact .throw _

/-- Reading a key from an argument leaves the frames alone. -/
theorem keyArgument_inside (index : Nat) (what : String) : Inside (keyArgument index what) := by
  refine .bind (argument_inside index) fun v => ?_
  split
  · exact .pure _
  · exact .throw _

/-- Drawing a number leaves the frames alone. -/
theorem drawRandom_inside (l : Libraries) : Inside (drawRandom l) := by
  have hdraw : ∀ {γ : Type} (draw : Random → γ × Random), Inside (onStack fun s =>
      ((draw s.random).1, { s with random := (draw s.random).2 })) :=
    fun draw m => .of_frames rfl rfl
  refine .get_bind fun m => ?_
  split
  · exact .bind (hdraw l.float) fun x => setOutput_inside 0 _
  · refine .bind (intArgument_inside 0) fun lo => .bind (intArgument_inside 1) fun hi => ?_
    split
    · exact .bind (hdraw (l.int lo hi)) fun n => setOutput_inside 0 _
    · exact .bind (raiseError_inside _) fun e => .throw _

/-- Messages are not held in frames. -/
theorem emit_inside (channel : Key) (message : Value) : Inside (onStack (·.emit channel message)) := by
  intro m
  show m.Works True { m with stack := (m.stack.emit channel message).2 }
  rw [Stack.emit]
  cases Entries.get? channel m.stack.messages <;> exact .of_frames rfl rfl

/-- **The natives that every world has** work in the active frame. -/
theorem invoke_default_inside (host : Embedder) (resume : Action Outcome) {f : Native}
    (hf : f.isDefault = true) : Inside (invoke host resume f) := by
  cases f with
  | print => exact fun m => .of_frames rfl rfl
  | toText =>
    exact .bind (argument_inside 0) fun v => .bind (fun m => .of_frames rfl rfl) fun w =>
      setOutput_inside 0 w
  | length =>
    refine .bind (argument_inside 0) fun v => ?_
    split
    · exact setOutput_inside 0 _
    · exact .throw _
  | random => exact drawRandom_inside _
  | env => exact .bind (keyArgument_inside 0 _) fun k => .getStack_bind fun s => setOutput_inside 0 _
  | error => exact .bind (argument_inside 0) fun v => .bind (raiseError_inside _) fun e => .throw _
  | hash => exact .bind (argument_inside 0) fun v => setOutput_inside 0 _
  | emit =>
    exact .bind (keyArgument_inside 0 _) fun k => .bind (argument_inside 1) fun v =>
      .bind (emit_inside k v) fun _ => .pure _
  | host | installed => exact nomatch hf

/-! ### Instructions -/

/-- A machine may be worked in with any values. -/
theorem closed_works (m : Machine) : Closed (fun _ => True) (m.Works True) where
  supply h _ := h.trans (.of_frames rfl rfl)
  cells _ _ _ _ := .inr trivial
  incoming _ _ := trivial
  bindings _ _ _ _ := trivial
  update _ h hframes _ hsize := h.trans (.of_active hframes rfl rfl (.of_size rfl hsize))

/-- Instructions that do not leave the frame work in it. -/
theorem perform_inside {host : Embedder} {resume : Action Outcome} {program : Program} (next : Nat)
    {i : Instruction} (hi : i.leavesFrame = false) : Inside (perform host resume program next i) := by
  have hstays : i.staysInside = true → i.isJump = false → Inside (perform host resume program next i) :=
    fun hstays hjump m => (perform_inside_ensures Value.hereditary_true (closed_works m) (fun _ _ => trivial)
      next hstays hjump (fun _ _ _ _ _ _ _ _ _ => trivial) m (.refl m)).1
  cases i with
  | jump cond offset =>
    have htaken : Inside (isTaken cond) :=
      fun m => (isTaken_ensures (closed_works m) cond m (.refl m)).1
    refine .bind htaken fun taken => ?_
    split
    · rw [jump]
      dsimp only
      split
      · exact .throw _
      · exact .modifyActive fun f => .of_size rfl (Nat.le_refl _)
    · exact .pure _
  | saveState name src =>
    refine .bind (.of_stack ((entry_machine _ _ name).part _)) fun s =>
      .bind (.of_stack ((register_machine src).part _)) fun v => .modifyActive fun f => ?_
    split
    · exact .of_size rfl (Nat.le_refl _)
    · exact .refl f
  | call | callKeyed | callFunc | callFuncApply | callMethod | native | pause | ret => cases hi
  | _ => exact hstays rfl rfl

/-- A return takes the frame away, unless it is the root. -/
theorem leave_reframes (program : Program) {f : Frame} {rest : List Frame}
    (hframes : m.stack.frames = f :: rest) : Reframes True m (leave program m) := by
  have hleave := leave_returned program hframes
  generalize leave program m = r at hleave
  cases hleave with
  | refused h => exact .works (.of_frames (congrArg Stack.frames h) (congrArg Stack.config h))
  | ended h => exact .works h
  | orphaned hrest hframes' hconfig => exact .cleared hframes' hconfig
  | handed hrest hframes' hconfig h =>
    subst hrest
    refine .left hframes (.of_active rfl hframes' hconfig (.of_size ?_ ?_))
    · rw [h.same]
      rfl
    · obtain ⟨values, -, hregisters⟩ := h.outputs
      rw [hregisters]
      split
      · exact size_le_receive ..
      · exact Nat.le_refl _

/-- **Instructions**, calls of natives aside. -/
theorem step_reframes {host : Embedder} {resume : Action Outcome} {program : Program} {next : Nat}
    {i : Instruction} (hi : ∀ index, i ≠ .native index) {f : Frame} {rest : List Frame}
    (hframes : m.stack.frames = f :: rest) : Reframes True m (step host resume program next i m) := by
  by_cases hpause : i = .pause
  · subst hpause
    exact .works (.refl m)
  by_cases hret : i = .ret
  · subst hret
    have hleave := leave_reframes program hframes
    show Reframes True m ((leave program >>= fun root =>
      pure (if root then Flow.finish else Flow.reload)) m)
    rw [Failing.bind_apply]
    generalize leave program m = r at hleave
    obtain ⟨e | root, m'⟩ := r
    · exact hleave.map fun _ => Flow.next
    · exact hleave.map fun root => if root then Flow.finish else Flow.reload
  rw [step.eq_3 _ _ _ _ _ hpause hret, Failing.bind_apply]
  have hperform : Reframes True m (perform host resume program next i m) := by
    by_cases hcall : i.isCall = true
    · have hcalled : Called i m (perform host resume program next i m) := perform_called hcall m
      generalize perform host resume program next i m = r at hcalled
      cases hcalled with
      | stayed h => exact .works h
      | pushed hroom hf _ _ hframes' hconfig =>
        -- there is a caller, so it is not the root
        have hdepth : m.stack.depth ≠ 0 := by
          rw [Stack.depth, hframes]
          exact Nat.succ_ne_zero _
        exact .entered hroom (hf.hangs fun h => absurd h hdepth) hframes' hconfig
    · refine .works (perform_inside next ?_ m)
      cases i with
      | native index => exact absurd rfl (hi index)
      | call | callKeyed | callFunc | callFuncApply | callMethod => exact absurd rfl hcall
      | pause => exact absurd rfl hpause
      | ret => exact absurd rfl hret
      | _ => rfl
  generalize perform host resume program next i m = r at hperform
  obtain ⟨e | _, m'⟩ := r
  · exact hperform.map fun _ => Flow.next
  · exact hperform.map fun _ => if i.leavesFrame then Flow.reload else Flow.next

/-! ### Operations -/

/-- A block is entered without a key or a place for outputs, or it is not. -/
theorem enter_reframes (block : BlockId) (args : List Value) {link : Link}
    (hlink : link.key = none ∧ link.returnTo = none) (m : Machine) :
    Reframes room m (enter block args link m) := by
  have henter := enter_pushes block args link m
  generalize enter block args link m = r at henter
  cases henter with
  | refused h => exact .works (.of_frames (congrArg Stack.frames h) (congrArg Stack.config h))
  | entered hroom hf h =>
    have hconfig := congrArg Stack.config h
    exact .entered hroom (hf.hangs fun _ => hlink) (congrArg Stack.frames h) hconfig

/-- A block is entered after all frames were taken away. -/
theorem enter_renews (block : BlockId) (args : List Value) {link : Link}
    {n : Machine} (hlink : link.key = none ∧ link.returnTo = none) (hframes : n.stack.frames = [])
    (hconfig : n.stack.config = m.stack.config) : Reframes room m (enter block args link n) := by
  have henter := enter_pushes block args link n
  generalize enter block args link n = r at henter
  cases henter with
  | refused h =>
    exact .cleared ((congrArg Stack.frames h).trans hframes) ((congrArg Stack.config h).trans hconfig)
  | entered hroom hf h =>
    have hconfig' := congrArg Stack.config h
    have hframes' := congrArg Stack.frames h
    have hdepth : n.stack.depth = 0 := by rw [Stack.depth, hframes]; rfl
    rw [hdepth] at hroom hf
    dsimp only at hframes'
    rw [hframes] at hframes'
    exact .renewed (hconfig ▸ hroom) (hf.hangs fun _ => hlink) hframes' (hconfig'.trans hconfig)

/-- A push takes all frames of a finished stack away, and puts one on top. -/
theorem push_reframes (block : BlockId) (inputs : List Value) (m : Machine) :
    Reframes room m (push block inputs m) := by
  rw [push_apply]
  split
  · exact enter_renews block inputs ⟨rfl, rfl⟩ rfl rfl
  · exact enter_reframes block inputs ⟨rfl, rfl⟩ m

/-- Another root takes the place of all frames. -/
theorem changeMain_reframes (block : BlockId) (inputs bindings : List Value) (m : Machine) :
    Reframes room m (changeMain block inputs bindings m) :=
  enter_renews (n := { m with stack := { m.stack.startOver with retained := [] } }) block inputs
    ⟨rfl, rfl⟩ rfl rfl

/-- A migration leaves the frames, or another root takes their place. -/
theorem migrate_reframes (old new : BlockId) (m : Machine) : Reframes room m (migrate old new m) := by
  rw [migrate_apply]
  -- rebinding the state touches no frames
  refine .of_stack (n := m.rebound old new) rfl rfl ?_
  cases m.stack.frames.getLast? with
  | none => exact .works (.refl _)
  | some root =>
    dsimp only
    split
    · exact changeMain_reframes ..
    · exact .works (.refl _)

/-- Listing the frames leaves them alone. -/
theorem frameList_inside : Inside frameList := by
  refine .getStack_bind fun s => ?_
  -- the frames are shown one after the other
  generalize s.frames.reverse.zipIdx = frames
  induction frames with
  | nil => exact .pure _
  | cons f rest ih =>
    rw [List.mapM_cons]
    refine .bind (.bind (fun m => .of_frames rfl rfl) fun r => ?_) fun _ => .bind ih fun _ => .pure _
    split <;> exact .pure _

/-- Resizing leaves the active frame its inputs if there are enough registers for them. -/
theorem resize_works (count : Nat) (m : Machine) :
    m.Works (m.inputCount ≤ count) (resize count m).2 := by
  cases hframes : m.stack.frames with
  | nil =>
    rw [resize, modifyActive, Failing.bind_apply, active_apply_nil hframes]
    exact .refl m
  | cons f rest =>
    have hresize : resize count m = (.ok (), m.withFrames (f.resize count :: rest)) :=
      modifyActive_apply _ hframes
    rw [hresize]
    refine .of_active hframes rfl rfl ⟨rfl, fun hroom _ => ?_⟩
    rw [inputCount, hframes] at hroom
    show f.inputCount ≤ (Frame.resized f.registers count).size
    rw [Frame.size_resized]
    exact hroom

end Machine

namespace HostOp

/-- Whether an operation only works in the active frame. -/
def isLocal {β : Type} : HostOp β → Bool
  | .push .. | .run | .call .. | .pop | .reset _ | .migrateTo .. | .migrateToFunc .. | .migrate .. => false
  | _ => true

/-- An operation leaves the active frame of a machine a register for every input. -/
def Roomy (m : Machine) {β : Type} : HostOp β → Prop
  | .resize count => m.inputCount ≤ count
  | _ => True

instance {m : Machine} {β : Type} (o : HostOp β) : Decidable (o.Roomy m) :=
  match o with
  | .resize count => inferInstanceAs (Decidable (m.inputCount ≤ count))
  | .look | .push .. | .run | .call .. | .pop | .reset _ | .cancel | .duplicate | .migrateTo ..
  | .migrateToFunc .. | .migrate .. | .setState _ | .loadState _ | .setInput .. | .setOutput .. | .raise _
  | .setEnv .. | .expect _ | .consume _ | .emit .. | .takeRetained | .frameList | .setRandom _ | .print _
  | .number | .cast .. | .addBlock .. | .replaceBlock .. | .compile _ | .program _ | .registerNative ..
  | .patchNative .. | .addRecord .. | .addMethod .. | .addModule .. => isTrue trivial

open Machine

/-- **Local operations** work in the active frame. -/
theorem works (resume : Action Outcome) {β : Type} {o : HostOp β} (h : o.isLocal = true) (m : Machine) :
    m.Works (o.Roomy m) (o.perform resume m).2 := by
  have hsame : ∀ {m' : Machine}, m'.stack.frames = m.stack.frames → m'.stack.config = m.stack.config →
      m.Works True m' := Works.of_frames
  cases o with
  | push | run | call | pop | reset | migrateTo | migrateToFunc | migrate => exact nomatch h
  | resize count => exact resize_works count m
  | loadState text =>
    have hload : (Machine.loadState text m).2.stack.frames = m.stack.frames ∧
        (Machine.loadState text m).2.stack.config = m.stack.config := by
      rw [Machine.loadState, Failing.bind_apply, Failing.get_apply]
      dsimp only
      cases ofJsonText m.world.registry text m.world.supply <;> exact ⟨rfl, rfl⟩
    exact hsame hload.1 hload.2
  | setInput index v => exact setInput_inside index v m
  | setOutput index v => exact setOutput_inside index v m
  | raise message => exact raiseError_inside message m
  | consume channel =>
    refine Inside.bind (fun n => ?_) (fun r => ?_) m
    · show n.Works True { n with stack := (n.stack.consume channel).2 }
      rw [Stack.consume]
      cases Entries.get? channel n.stack.messages <;> exact .of_frames rfl rfl
    · cases r with
      | none => exact .throw _
      | some queue => exact .pure _
  | emit channel message => exact emit_inside channel message m
  | frameList => exact frameList_inside m
  | cast type v =>
    exact (tryCast_ensures Value.hereditary_true (closed_works m) type (.inr trivial) m (.refl m)).1
  | _ => exact hsame rfl rfl

/-- **Operations**, those aside that run the stack. -/
theorem reframes (resume : Action Outcome) {β : Type} {o : HostOp β} (h : o.isRun = false) (m : Machine) :
    Reframes (o.Roomy m) m (o.perform resume m) := by
  by_cases hlocal : o.isLocal = true
  · exact .works (o.works resume hlocal m)
  cases o with
  | run | call => exact nomatch h
  | push block inputs => exact push_reframes block inputs m
  | pop =>
    show Reframes _ m (.ok m.stack.popFrame.1, { m with stack := m.stack.popFrame.2 })
    rw [Stack.popFrame]
    cases hframes : m.stack.frames with
    | nil => exact .works (.refl m)
    | cons f rest => exact .left hframes (.of_frames rfl rfl)
  | reset discardState => exact .cleared rfl rfl
  | migrateTo block inputs => exact changeMain_reframes block inputs [] m
  | migrateToFunc func inputs =>
    rw [HostOp.perform, Machine.migrateToFunc]
    cases func.func? with
    | some closure => exact changeMain_reframes closure.1 inputs closure.2 m
    | none => exact .works (.refl m)
  | migrate old new => exact migrate_reframes old new m
  | _ => exact absurd rfl hlocal

end HostOp

/-! ### Runs -/

namespace Machine

variable {m : Machine}

/-- Fetching the program to go on with leaves the frames alone. -/
theorem currentProgram_inside : Inside currentProgram := by
  refine .bind (.of_stack (active_machine.part _)) fun f => .bind (.of_stack (program_stack _)) fun p => ?_
  split
  · exact .pure _
  · exact .throw _

/-- A root that starts over stays where it is. -/
theorem restarted_hangs {root : Frame} (h : root.Hangs 0) (p : Program) (state : Value) :
    (restarted root p state).Hangs 0 := by
  refine ⟨h.parent, h.root, ?_⟩
  rw [restarted, Frame.size_resized]
  exact Nat.le_max_right ..

/-- Unwinding leaves the root. -/
theorem unwound_frames {root : Frame} (hroot : m.stack.frames.getLast? = some root) :
    (unwindToRoot m.stack).frames = [root] := by
  obtain ⟨above, hframes⟩ := List.getLast?_eq_some_iff.1 hroot
  show m.stack.frames.drop (m.stack.depth - 1) = [root]
  rw [Stack.depth, hframes, List.length_append]
  exact List.drop_left

/-- **The start of a run** leaves all frames, or only the root. -/
theorem restartIfStale_reframes (m : Machine) : Reframes room m (restartIfStale m) := by
  have hcurrent : (allCurrent m.stack.frames.reverse m).2.stack = m.stack := allCurrent_stack _ m
  rw [restartIfStale_apply]
  generalize allCurrent m.stack.frames.reverse m = r at hcurrent
  obtain ⟨e | current, m₁⟩ := r
  · exact .works (.of_frames (congrArg Stack.frames hcurrent) (congrArg Stack.config hcurrent))
  refine .of_stack (congrArg Stack.frames hcurrent) (congrArg Stack.config hcurrent) ?_
  cases current with
  | true => exact .works (.refl m₁)
  | false =>
    -- only the root is left, and starts over if its program can be had
    dsimp only
    cases hroot : m₁.stack.frames.getLast? with
    | none =>
      let m₂ : Machine := { m₁ with stack := unwindToRoot m₁.stack }
      have hframes : m₂.stack.frames = [] := by
        show m₁.stack.frames.drop _ = []
        rw [List.getLast?_eq_none_iff.1 hroot, List.drop_nil]
      have hunwound : modifyStack unwindToRoot m₁ = (.ok (), m₂) := rfl
      rw [restartRoot, Failing.bind_apply, hunwound]
      dsimp only
      rw [Failing.bind_apply, active_apply_nil hframes]
      exact .cleared hframes rfl
    | some root =>
      have hframes := unwound_frames hroot
      rw [restartRoot_apply hframes]
      rcases World.program root.program m₁.world with ⟨e | p, w⟩
      · exact .rooted hroot hframes rfl fun h => h
      · exact .rooted hroot rfl rfl fun h => restarted_hangs h p _

/-- Another pc in the active frame, or in none. -/
theorem placed_works {top : Nat} (h : m.stack.depth ≤ top + 1) (pc : Frame → Pc) :
    m.Works room (m.placed top pc) := by
  rw [placed, Stack.modifyFrameAt]
  by_cases htop : top < m.stack.depth
  · have hactive : m.stack.depth - 1 - top = 0 := by omega
    rw [if_pos htop, hactive]
    cases hframes : m.stack.frames with
    | nil => exact .of_frames hframes.symm rfl
    | cons f rest => exact .of_active hframes rfl rfl (.of_size rfl (Nat.le_refl _))
  · rw [if_neg htop]
    exact .refl m

/-- The end of a run leaves the frames alone. -/
theorem ended_works (r : Except Fault Outcome × Machine) : r.2.Works True (ended r).2 := by
  obtain ⟨fault | outcome, m⟩ := r
  · cases fault with
    | raised e => exact Inside.bind (recordError_inside e) (fun _ => .throw _) m
    | crashed | outOfFuel => exact .refl m
  · exact .of_frames rfl rfl

end Machine

end BlockMachine

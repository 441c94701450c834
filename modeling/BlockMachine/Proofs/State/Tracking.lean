import BlockMachine.Proofs.State.Bookkeeping

namespace BlockMachine

/-!
# Hosts and runs follow their ledgers

* `Machine.Settles` holds of what leaves the outline alone but for ending a run with an error:
  default natives and most operations of a host;
* `HostOp.tracks`, `Script.tracks` and `Native.tracks` are about hosts and natives;
* `Machine.execute_tracks` and `Machine.runBy_tracks` are about runs, `Machine.Reached.describes` about
  all that may happen to a stack.
-/

/-- The outline of a machine whose run has ended. -/
def Outline.end (o : Outline) : Outline :=
  { o with phase := .finished }

namespace Machine

open Ledger

variable {α β : Type} {l : Ledger} {m m' : Machine}

/-! ### Operations that settle -/

/-- A run ended with an error between two machines. -/
def Failed (m m' : Machine) : Prop :=
  m'.outline = m.outline.end ∧ m'.stack.error ≠ none

/-- A computation leaves the outline alone, unless it ends the run. -/
def Settles (a : Action α) : Prop :=
  ∀ m, (a m).2.status = m.status ∨ Failed m (a m).2

namespace Settles

variable {a : Action α} {f : α → Action β}

/-- What leaves natives, outline and error alone settles. -/
theorem of_preserves (h : Preserves status a) : Settles a :=
  fun m => .inl (h m)

/-- Nothing happens where a value is given back. -/
theorem pure (x : α) : Settles (pure x) :=
  of_preserves (.pure x)

/-- Nothing happens where a computation fails at once. -/
theorem throw (e : Fault) : Settles (throw e : Action α) :=
  of_preserves (.throw e)

/-- Computations that settle do so one after the other. -/
theorem bind (ha : Settles a) (hf : ∀ x, Settles (f x)) : Settles (a >>= f) := by
  intro m
  have hm := ha m
  rw [Failing.bind_apply]
  generalize a m = r at hm
  obtain ⟨_ | x, m'⟩ := r
  · exact hm
  · rcases hm with hm | ⟨hm, herror⟩ <;> rcases hf x m' with hx | ⟨hx, herror'⟩
    · exact .inl (hx.trans hm)
    · exact .inr ⟨hx.trans (congrArg (fun s => s.1.end) hm), herror'⟩
    · obtain ⟨houtline, hsame⟩ := Prod.mk.inj hx
      exact .inr ⟨houtline.trans hm, hsame ▸ herror⟩
    · refine .inr ⟨hx.trans ?_, herror'⟩
      rw [show m'.outline = m.outline.end from hm]
      rfl

/-- What looks at the machine first may settle in any way. -/
theorem get_bind {f : Machine → Action β} (hf : ∀ m, Settles (f m)) : Settles (get >>= f) :=
  fun m => hf m m

/-- What looks at the stack first may settle in any way. -/
theorem getStack_bind {f : Stack → Action β} (hf : ∀ s, Settles (f s)) :
    Settles (getStack >>= f) :=
  fun m => hf m.stack m

end Settles

/-- Fetching a program for its own sake. -/
theorem tryProgram_status (index : Nat) : Preserves status (tryWorld (World.program index)) :=
  .tryWorld fun m => status_world (World.program_only index m.world).natives

/-- Noting an error ends the run. -/
theorem recordError_fails (e : RuntimeError) (m : Machine) :
    (recordError e m).1 = .ok () ∧ Failed m (recordError e m).2 := by
  have hnote : ∀ (m' : Machine) (block : Option BlockId) (pc : Pc), m'.outline = m.outline →
      Failed m ((modifyStack fun s => { s with
        error := some ⟨e, s.depth - 1, block, pc⟩, phase := .finished }) m').2 := by
    intro m' block pc h
    refine ⟨?_, Option.some_ne_none _⟩
    rw [← h]
    rfl
  rw [recordError, getStack, Failing.bind_apply]
  cases hframes : m.stack.frames with
  | nil =>
    simp only [Failing.bind_apply, Failing.get_apply, Failing.pure_apply, hframes]
    exact ⟨rfl, hnote m _ _ rfl⟩
  | cons f rest =>
    have hprogram := tryProgram_status f.program m
    simp only [Failing.bind_apply, Failing.get_apply, Failing.pure_apply, hframes]
    generalize hr : tryWorld (World.program f.program) m = r at hprogram
    obtain ⟨_ | p, m'⟩ := r
    · cases congrArg Prod.fst hr
    · exact ⟨rfl, hnote m' _ _ (congrArg Prod.fst hprogram)⟩

/-- A native that raises an error ends the run. -/
theorem raiseError_settles (message : String) : Settles (raiseError message) := by
  have hdone : Settles (do
      recordError (.hostRaised message)
      return RuntimeError.hostRaised message) :=
    .bind (fun m => .inr (recordError_fails _ m).2) fun _ => .pure _
  refine .get_bind fun m => ?_
  dsimp only
  split
  · exact .bind (.of_preserves (aloof_status.setOutput 0 _)) fun _ => hdone
  · exact hdone

/-- Looking at an argument leaves everything alone. -/
theorem argument_settles (index : Nat) : Settles (argument index) := by
  refine .get_bind fun m => ?_
  split
  · exact .pure _
  · exact .throw _

/-- Reading an integer from an argument leaves everything alone. -/
theorem intArgument_settles (index : Nat) : Settles (intArgument index) := by
  refine .bind (argument_settles index) fun v => ?_
  split
  · exact .pure _
  · exact .throw _

/-- Reading a key from an argument leaves everything alone. -/
theorem keyArgument_settles (index : Nat) (what : String) : Settles (keyArgument index what) := by
  refine .bind (argument_settles index) fun v => ?_
  split
  · exact .pure _
  · exact .throw _

/-- What leaves tree, frames, phase and error alone leaves the outline. -/
theorem onStack_status {g : Stack → α × Stack} (hg : ∀ s, (g s).2.state = s.state ∧
      (g s).2.frames = s.frames ∧ (g s).2.phase = s.phase ∧ (g s).2.error = s.error) :
    Preserves status (onStack g) := by
  intro m
  obtain ⟨hstate, hframes, hphase, herror⟩ := hg m.stack
  show status { m with stack := (g m.stack).2 } = m.status
  rw [status, outline, hstate, hframes, hphase, herror]
  rfl

/-- A message is no part of the outline. -/
theorem emit_status (channel : Key) (message : Value) :
    Preserves status (onStack (·.emit channel message)) := by
  refine onStack_status fun s => ?_
  rw [Stack.emit]
  cases Entries.get? channel s.messages <;> exact ⟨rfl, rfl, rfl, rfl⟩

/-- Drawing a number leaves the outline alone. -/
theorem drawRandom_settles (l : Libraries) : Settles (drawRandom l) := by
  have houtput : ∀ v, Settles (setOutput 0 v) := fun v => .of_preserves (aloof_status.setOutput 0 v)
  refine .get_bind fun m => ?_
  dsimp only
  split
  · refine .bind (.of_preserves (onStack_status fun s => ?_)) fun x => houtput _
    exact ⟨rfl, rfl, rfl, rfl⟩
  · refine .bind (intArgument_settles 0) fun lo => .bind (intArgument_settles 1) fun hi => ?_
    split
    · refine .bind (.of_preserves (onStack_status fun s => ?_)) fun n => houtput _
      exact ⟨rfl, rfl, rfl, rfl⟩
    · exact .bind (raiseError_settles _) fun e => .throw _

/-- **Default natives stay clear of frames and state.** -/
theorem invoke_default_settles (host : Embedder) (resume : Action Outcome) {f : Native}
    (hhost : ∀ g, f ≠ .host g) (hinstalled : ∀ code, f ≠ .installed code) :
    Settles (invoke host resume f) := by
  have houtput : ∀ v, Settles (setOutput 0 v) := fun v => .of_preserves (aloof_status.setOutput 0 v)
  cases f with
  | print => exact fun m => .inl rfl
  | toText =>
    exact .bind (argument_settles 0) fun v => .bind (fun m => .inl rfl) fun w => houtput w
  | length =>
    refine .bind (argument_settles 0) fun v => ?_
    split
    · exact houtput _
    · exact .throw _
  | random => exact drawRandom_settles _
  | env =>
    exact .bind (keyArgument_settles 0 _) fun k => .getStack_bind fun s => houtput _
  | error =>
    exact .bind (argument_settles 0) fun v => .bind (raiseError_settles _) fun e => .throw _
  | hash => exact .bind (argument_settles 0) fun v => houtput _
  | emit =>
    refine .bind (keyArgument_settles 0 _) fun k => .bind (argument_settles 1) fun v => ?_
    exact .bind (.of_preserves (emit_status k v)) fun _ => .pure _
  | host g => exact absurd rfl (hhost g)
  | installed code => exact absurd rfl (hinstalled code)

end Machine

/-- Whether an operation leaves frames, state and natives alone. -/
def HostOp.isQuiet {β : Type} : HostOp β → Bool
  | .look | .resize _ | .cancel | .duplicate | .setInput .. | .setOutput .. | .raise _ | .setEnv ..
  | .expect _ | .consume _ | .emit .. | .takeRetained | .frameList | .setRandom _ | .print _
  | .number | .cast .. | .addBlock .. | .replaceBlock .. | .compile _ | .program _ | .addRecord ..
  | .addMethod .. | .addModule .. => true
  | _ => false

open Machine in
/-- Operations that leave frames, state and natives alone settle. -/
theorem HostOp.quiet_settles (resume : Action Outcome) {β : Type} {o : HostOp β}
    (h : o.isQuiet = true) : Settles (o.perform resume) := by
  cases o with
  | look | cancel | duplicate | setEnv | expect | takeRetained | setRandom | print | number
    | addBlock | addRecord | addMethod | addModule => exact fun m => .inl rfl
  | resize count => exact .of_preserves (aloof_status.resize count)
  | setInput index v => exact .of_preserves (aloof_status.setInput index v)
  | setOutput index v => exact .of_preserves (aloof_status.setOutput index v)
  | raise message => exact raiseError_settles message
  | consume channel =>
    refine .bind (.of_preserves (onStack_status fun s => ?_)) fun r => ?_
    · rw [Stack.consume]
      cases Entries.get? channel s.messages <;> exact ⟨rfl, rfl, rfl, rfl⟩
    · cases r with
      | none => exact .throw _
      | some queue => exact .pure _
  | emit channel message => exact .of_preserves (emit_status channel message)
  | frameList =>
    refine .getStack_bind fun s => ?_
    -- the frames are shown one after the other
    generalize s.frames.reverse.zipIdx = frames
    induction frames with
    | nil => exact .pure _
    | cons f rest ih =>
      rw [List.mapM_cons]
      refine .bind (.bind (.of_preserves (tryProgram_status _)) fun r => ?_) fun _ =>
        .bind ih fun _ => .pure _
      split <;> exact .pure _
  | cast type v => exact .of_preserves (aloof_status.tryCast type v)
  | replaceBlock block signature body =>
    refine fun m => .inl (status_world ?_)
    show (World.replaceBlock block signature body m.world).2.natives = m.world.natives
    rw [World.replaceBlock_eq]
    cases m.world.blocks[block]? <;> rfl
  | compile block => exact fun m => .inl (status_world (World.compile_only block m.world).natives)
  | program index => exact .of_preserves (tryProgram_status index)
  | push | run | call | pop | reset | migrateTo | migrateToFunc | migrate | setState | loadState
    | registerNative | patchNative => exact nomatch h

/-! ### Hosts -/

namespace Machine

open Ledger

variable {α β : Type} {l : Ledger} {m m' : Machine}

/-- What settles has no events. -/
theorem Settles.tracks {a : Action α} (h : Settles a) : Tracks a fun m => [⟨[], (a m).2⟩] := by
  refine .single fun l m hl => ?_
  rcases h m with hm | ⟨hm, -⟩
  · exact hl.of_outline (congrArg Prod.fst hm)
  · exact hl.congr (congrArg Outline.state hm) (congrArg Outline.strands hm)

/-- A block is entered on a stack that starts over. -/
theorem startedOver_describes (hl : l.Describes m.stack) {s : Stack} (hstate : s.state = m.stack.state)
    (hframes : s.frames = []) (block : BlockId) (inputs : List Value) (link : Link) :
    (l.replay (startedOver m (enter block inputs link { m with stack := s }).2)).Describes
      (enter block inputs link { m with stack := s }).2.stack := by
  have hcleared : (l.post .cleared).Describes s := hl.clear hstate hframes
  have henter := describes_entered (m := { m with stack := s }) hcleared
    (enter_cases block inputs link { m with stack := s })
  -- both stacks are empty, so the same push is told
  have hsame : ∀ m' : Machine, entered { m with stack := m.stack.startOver } m' =
      entered { m with stack := s } m' := by
    intro m'
    simp only [entered, Stack.depth, hframes]
    rfl
  rw [startedOver, replay_cons, hsame]
  exact henter

/-- A push is told as the frame that it enters, after a stack that starts over if the old one was done. -/
theorem push_describes (hl : l.Describes m.stack) (block : BlockId) (inputs : List Value) :
    (l.replay (pushed m (push block inputs m).2)).Describes (push block inputs m).2.stack := by
  rw [push_apply, pushed]
  split
  · exact startedOver_describes (s := m.stack.startOver) hl rfl rfl block inputs {}
  · exact describes_entered hl (enter_cases block inputs {} m)

/-- Another root is told as a stack that starts over and a frame that is entered. -/
theorem changeMain_describes (hl : l.Describes m.stack) (block : BlockId)
    (inputs bindings : List Value) :
    (l.replay (startedOver m (changeMain block inputs bindings m).2)).Describes
      (changeMain block inputs bindings m).2.stack :=
  startedOver_describes (s := { m.stack.startOver with retained := [] }) hl rfl rfl block inputs _

/-- Entering a block does not touch the tree. -/
theorem enter_state (block : BlockId) (args : List Value) (link : Link) :
    Preserves (·.stack.state) (enter block args link) := by
  intro m
  rcases enter_cases block args link m with h | ⟨key, h⟩
  · exact congrArg Outline.state h
  · exact congrArg Outline.state h

/-- A migration is told as the tree that it rebinds, with another root if the root was of the old block. -/
theorem migrate_describes (hl : l.Describes m.stack) (old new : BlockId) :
    (l.replay (HostOp.events m (migrate old new m).2 (.migrate old new))).Describes
      (migrate old new m).2.stack := by
  -- first the closures of the tree are rebound, then the main block may change
  let state := (m.stack.state.rebind old new m.world.supply).1
  have hreplaced : (l.post (.replaced state)).Describes (m.rebound old new).stack :=
    hl.replace state rfl rfl
  rw [migrate_apply, HostOp.events, replay_cons]
  cases m.stack.frames.getLast? with
  | none => exact hreplaced
  | some root =>
    dsimp only
    split
    · have hstate : (changeMain new (root.registers.toList.take root.inputCount) root.bindings
          (m.rebound old new)).2.stack.state = state := enter_state _ _ _ _
      rw [hstate]
      exact changeMain_describes hreplaced new _ _
    · exact hreplaced

/-- A call is told as a push, a run, and frames that are taken away. -/
theorem call_tracks {resume : Action Outcome} {running : Machine → List Mark}
    (hresume : Tracks resume running) (block : BlockId) (inputs : List Value) :
    Tracks (callWith resume block inputs) (HostOp.course resume running (.call block inputs)) := by
  intro l m hl
  have hpush := push_describes hl block inputs
  rw [HostOp.course, callWith, Failing.bind_apply]
  generalize push block inputs m = start at hpush
  obtain ⟨_ | _, m₁⟩ := start
  · refine ⟨⟨hpush, trivial⟩, ?_⟩
    rwa [Mark.log_cons, Mark.log_nil, List.append_nil]
  · obtain ⟨hfollows, hrun⟩ := hresume _ m₁ hpush
    dsimp only
    simp only [Failing.bind_apply]
    generalize resume m₁ = r at hrun
    -- what follows a finished run takes the frames away
    have hclear : ∀ (l : Ledger) (m₂ : Machine), l.Describes m₂.stack →
        (l.post .cleared).Describes { m₂.stack.clearFrames with phase := .ready } :=
      fun l m₂ h => h.clear rfl rfl
    obtain ⟨e | outcome, m₂⟩ := r
    · refine ⟨⟨hpush, follows_append.2 ⟨hfollows, hrun, trivial⟩⟩, ?_⟩
      rw [Mark.log_cons, Mark.log_append, replay_append, replay_append]
      exact hrun
    · cases outcome with
      | finished =>
        refine ⟨⟨hpush, follows_append.2 ⟨hfollows, hclear _ m₂ hrun, trivial⟩⟩, ?_⟩
        rw [Mark.log_cons, Mark.log_append, replay_append, replay_append]
        exact hclear _ m₂ hrun
      | _ =>
        refine ⟨⟨hpush, follows_append.2 ⟨hfollows, hrun, trivial⟩⟩, ?_⟩
        rw [Mark.log_cons, Mark.log_append, replay_append, replay_append]
        exact hrun

/-- What leaves the stack alone has no events. -/
theorem Tracks.of_stack {a : Action α} (h : Preserves (·.stack) a) :
    Tracks a fun m => [⟨[], (a m).2⟩] :=
  .single fun l m hl => by
    rw [show (a m).2.stack = m.stack from h m]
    exact hl

end Machine

open Machine Ledger

/-- **Operations are tracked**, given that runs are. -/
theorem HostOp.tracks {resume : Action Outcome} {running : Machine → List Mark}
    (hresume : Tracks resume running) {β : Type} (o : HostOp β) :
    Tracks (o.perform resume) (o.course resume running) := by
  cases o with
  | run => exact hresume
  | call block inputs => exact call_tracks hresume block inputs
  | push block inputs => exact .single fun l m hl => push_describes hl block inputs
  | pop =>
    refine .single fun l m hl => ?_
    show (l.post .dropped).Describes m.stack.popFrame.2
    refine ⟨?_, ?_⟩
    · rw [Stack.popFrame]
      cases m.stack.frames <;> exact hl.tree
    · have hframes : m.stack.popFrame.2.frames = m.stack.frames.tail := by
        rw [Stack.popFrame]
        cases hframes : m.stack.frames with
        | nil => exact hframes
        | cons f rest => rfl
      show _ = strands l.accounts.tail
      rw [hframes, strands_tail, List.map_tail, hl.frames]
  | reset discardState =>
    refine .single fun l m hl => ?_
    cases discardState with
    | true =>
      have hcleared : (l.post .cleared).Describes m.stack.startOver := hl.clear rfl rfl
      exact hcleared.replace .null rfl rfl
    | false => exact hl.clear rfl rfl
  | migrateTo block inputs => exact .single fun l m hl => changeMain_describes hl block inputs []
  | migrateToFunc func inputs =>
    refine .single fun l m hl => ?_
    simp only [HostOp.events, HostOp.perform, Machine.migrateToFunc]
    cases func.func? with
    | none => exact hl
    | some closure => exact changeMain_describes hl closure.1 inputs closure.2
  | migrate old new => exact .single fun l m hl => migrate_describes hl old new
  | setState tree => exact .single fun l m hl => hl.replace tree rfl rfl
  | loadState text =>
    refine .single fun l m hl => hl.replace _ rfl ?_
    simp only [HostOp.perform, Machine.loadState, Failing.bind_apply, Failing.get_apply]
    cases ofJsonText m.world.registry text m.world.supply <;> rfl
  | registerNative name f => exact .of_stack fun m => rfl
  | patchNative name f => exact .of_stack fun m => rfl
  | look | resize | cancel | duplicate | setInput | setOutput | raise | setEnv | expect | consume
    | emit | takeRetained | frameList | setRandom | print | number | cast | addBlock | replaceBlock
    | compile | program | addRecord | addMethod | addModule =>
    exact (quiet_settles resume rfl).tracks

/-- **Scripts are tracked**: the operations one after the other. -/
theorem Script.tracks {resume : Action Outcome} {running : Machine → List Mark}
    (hresume : Tracks resume running) {α : Type} (script : Script α) :
    Tracks (script.perform resume) (script.course resume running) := by
  induction script with
  | done r =>
    intro l m hl
    refine ⟨trivial, ?_⟩
    cases r with
    | ok a => rw [Script.perform]; exact hl
    | error e => rw [Script.perform]; exact hl
  | op o next ih =>
    intro l m hl
    obtain ⟨hfollows, hperform⟩ := o.tracks hresume l m hl
    rw [Script.perform, Script.course, Failing.bind_apply, attempt, follows_append, Mark.log_append,
      replay_append]
    generalize o.perform resume m = r at hperform
    obtain ⟨e | b, m'⟩ := r
    · cases e with
      | raised e =>
        obtain ⟨hfollows', hperform'⟩ := ih (.error e) _ m' hperform
        exact ⟨⟨hfollows, hfollows'⟩, hperform'⟩
      | crashed => exact ⟨⟨hfollows, trivial⟩, hperform⟩
      | outOfFuel => exact ⟨⟨hfollows, trivial⟩, hperform⟩
    · obtain ⟨hfollows', hperform'⟩ := ih (.ok b) _ m' hperform
      exact ⟨⟨hfollows, hfollows'⟩, hperform'⟩

/-- **Natives are tracked.** -/
theorem Native.tracks (host : Embedder) {resume : Action Outcome} {running : Machine → List Mark}
    (hresume : Tracks resume running) (f : Native) :
    Tracks (invoke host resume f) (f.course host resume running) := by
  cases f with
  | host g =>
    rw [show invoke host resume (.host g) = invokeHost resume g from rfl, invokeHost_eq]
    exact g.script.tracks hresume
  | installed code => exact (host.script code).tracks hresume
  | _ => exact (invoke_default_settles host resume (by nofun) (by nofun)).tracks

/-! ### Runs -/

namespace Machine

variable {l : Ledger} {m m' : Machine}

/-- Finding out whether a frame is up to date leaves the stack alone. -/
theorem isCurrent_stack (f : Frame) : Preserves (·.stack) (isCurrent f) := by
  refine .bind (.tryWorld fun _ => rfl) fun r => ?_
  split
  · exact .pure _
  · exact .pure _

/-- Finding out whether all frames are up to date leaves the stack alone. -/
theorem allCurrent_stack (frames : List Frame) : Preserves (·.stack) (allCurrent frames) := by
  induction frames with
  | nil => exact .pure _
  | cons f rest ih =>
    refine .bind (isCurrent_stack f) fun current => ?_
    split
    · exact ih
    · exact .pure _

/-- Looking at the active frame leaves the stack alone. -/
theorem active_stack : Preserves (·.stack) active :=
  active_machine.part Machine.stack

/-- Fetching a program leaves the stack alone. -/
theorem program_stack (index : Nat) : Preserves (·.stack) (onWorld (World.program index)) :=
  .onWorld fun _ => rfl

/-- Fetching the program to go on with leaves the stack alone. -/
theorem currentProgram_stack : Preserves (·.stack) currentProgram := by
  refine .bind active_stack fun f => .bind (program_stack f.program) fun p => ?_
  split
  · exact .pure _
  · exact .throw _

/-- The frames that are left when all but the root are taken away. -/
theorem drop_length_pred (f : Frame) (rest : List Frame) :
    ∃ root, (f :: rest).drop ((f :: rest).length - 1) = [root] := by
  induction rest generalizing f with
  | nil => exact ⟨f, rfl⟩
  | cons g rest ih => exact ih g

/-- Taking all frames but the root away is an event of its own. -/
theorem unwind_describes {s : Stack} (hl : l.Describes s) :
    (l.post .unwound).Describes (unwindToRoot s) := by
  refine ⟨hl.tree, ?_⟩
  have hlength : s.depth = l.accounts.length := by
    rw [Stack.depth, ← strands_length, ← hl.frames, List.length_map]
  show (s.frames.drop (s.depth - 1)).map Frame.strand = strands (l.accounts.drop _)
  rw [strands_drop, ← hl.frames, List.map_drop, hlength]

/-- A root that starts over reads the tree as it is now, and saved nothing yet. -/
theorem restart_describes (hl : l.Describes m.stack) {root : Frame} (hframes : m.stack.frames = [root])
    (program : Program) :
    (l.post .restarted).Describes (m.withFrames [restarted root program m.stack.state]).stack := by
  obtain ⟨a, as, haccounts, hroot, hrest⟩ := hl.cons hframes
  obtain rfl : as = [] := by
    cases as with
    | nil => rfl
    | cons => exact nomatch hrest
  refine ⟨?_, ?_⟩
  · rw [post, haccounts]
    exact hl.tree
  · rw [post, haccounts]
    have hparent : root.parent.isNone = true := congrArg Strand.isRoot hroot
    have hkey : root.key = a.key := congrArg Strand.key hroot
    show [Strand.mk root.parent.isNone root.key m.stack.state []] = _
    rw [hparent, hkey, hl.tree]
    rfl

/-- Takes all frames but the root away and starts it over. -/
def restartRoot : Action Unit := do
  modifyStack unwindToRoot
  let program ← onWorld (World.program (← active).program)
  let state := (← getStack).state
  modifyActive (restarted · program state)

/-- Whether all frames are current is found out first. -/
theorem restartIfStale_apply (m : Machine) : restartIfStale m =
    match allCurrent m.stack.frames.reverse m with
    | (.ok true, m₁) => (.ok (), m₁)
    | (.ok false, m₁) => restartRoot m₁
    | (.error e, m₁) => (.error e, m₁) := by
  show (allCurrent m.stack.frames.reverse >>= fun b => if b then pure () else restartRoot) m = _
  rw [Failing.bind_apply]
  rcases allCurrent m.stack.frames.reverse m with ⟨_ | current, m₁⟩
  · rfl
  · cases current <;> rfl

/-- A root that starts over runs its program from the start. If that cannot be fetched, only the other
    frames are gone. -/
theorem restartRoot_apply {root : Frame} (hframes : (unwindToRoot m.stack).frames = [root]) :
    restartRoot m =
      match World.program root.program m.world with
      | (.ok p, w) => (.ok (), { m with
          world := w
          stack := { unwindToRoot m.stack with frames := [restarted root p m.stack.state] } })
      | (.error e, w) =>
        (.error (.raised (.compile e)), { m with world := w, stack := unwindToRoot m.stack }) := by
  have hunwound : modifyStack unwindToRoot m = (.ok (), { m with stack := unwindToRoot m.stack }) :=
    rfl
  rw [restartRoot, Failing.bind_apply, hunwound]
  dsimp only
  rw [Failing.bind_apply, active_apply (m := { m with stack := unwindToRoot m.stack }) hframes]
  dsimp only
  rw [Failing.bind_apply, onWorld_apply]
  dsimp only
  rcases World.program root.program m.world with ⟨e | p, w⟩
  · rfl
  · exact modifyActive_apply (m := { m with world := w, stack := unwindToRoot m.stack }) _ hframes

/-- The check at the start of a run is told as nothing, or as frames that are taken away and a root that
    starts over. -/
theorem restartIfStale_tracks :
    Tracks restartIfStale fun m => [⟨restarting m, (restartIfStale m).2⟩] := by
  refine .single fun l m hl => ?_
  have hstack := allCurrent_stack m.stack.frames.reverse m
  rw [restarting, restartIfStale_apply]
  rcases hr : allCurrent m.stack.frames.reverse m with ⟨e | current, m₁⟩ <;> rw [hr] at hstack
  · rw [show m₁.stack = m.stack from hstack]
    exact hl
  obtain hstack : m₁.stack = m.stack := hstack
  cases current with
  | true =>
    rw [hstack]
    exact hl
  | false =>
    cases hframes : m.stack.frames with
    | nil =>
      -- no frame is out of date when there is none
      rw [hframes] at hr
      exact nomatch hr
    | cons f rest =>
      obtain ⟨root, hroot⟩ := drop_length_pred f rest
      have hunwound : (l.post .unwound).Describes (unwindToRoot m₁.stack) :=
        unwind_describes (hstack ▸ hl)
      have hframes₁ : (unwindToRoot m₁.stack).frames = [root] := by
        rw [hstack]
        show m.stack.frames.drop (m.stack.depth - 1) = [root]
        rw [Stack.depth, hframes, hroot]
      dsimp only
      rw [restartRoot_apply hframes₁]
      rcases World.program root.program m₁.world with ⟨e | p, w⟩
      · exact hunwound
      · exact restart_describes (m := { m₁ with world := w, stack := unwindToRoot m₁.stack })
          hunwound hframes₁ p

/-- Noting how a run ended leaves the state and the strands of frames alone. -/
theorem ended_describes (r : Except Fault Outcome × Machine) (hl : l.Describes r.2.stack) :
    l.Describes (ended r).2.stack := by
  obtain ⟨fault | outcome, m⟩ := r
  · cases fault with
    | raised e =>
      obtain ⟨-, houtline, -⟩ := recordError_fails e m
      have hstack : l.Describes (recordError e m).2.stack :=
        hl.congr (congrArg Outline.state houtline) (congrArg Outline.strands houtline)
      rw [ended, Failing.bind_apply]
      generalize recordError e m = r at hstack
      obtain ⟨_ | _, m'⟩ := r <;> exact hstack
    | crashed => exact hl
    | outOfFuel => exact hl
  · exact hl.congr rfl rfl

/-- **Runs are tracked**, given that the loop is. -/
theorem runWith_tracks {exec : Program → Action Outcome} {executing : Program → Machine → List Mark}
    (hexec : ∀ p, Tracks (exec p) (executing p)) :
    Tracks (runWith exec) (runCourse exec executing) := by
  intro l m hl
  rw [runCourse]
  split
  next hready =>
    obtain ⟨hphase, hframes⟩ := hready
    obtain ⟨⟨hrestart, -⟩, hrestarted⟩ :=
      restartIfStale_tracks l m.started (hl.congr rfl rfl)
    have hprogram := currentProgram_stack (restartIfStale m.started).2
    rw [Mark.log_cons, Mark.log_nil, List.append_nil] at hrestarted
    -- what the body of the run leaves is described, and all that follows is a note
    have hbody : ∀ course : List Mark, (l.replay (restarting m.started)).Follows course →
        ((l.replay (restarting m.started)).replay (Mark.log course)).Describes
          (body exec m.started).2.stack →
        l.Follows (⟨restarting m.started, (restartIfStale m.started).2⟩ :: course ++
            [⟨[], (runWith exec m).2⟩]) ∧
          (l.replay (Mark.log (⟨restarting m.started, (restartIfStale m.started).2⟩ :: course ++
            [⟨[], (runWith exec m).2⟩]))).Describes (runWith exec m).2.stack := by
      intro course hcourse hdone
      have hended := ended_describes _ hdone
      rw [← runWith_ready hphase hframes] at hended
      rw [Mark.log_append, Mark.log_cons, replay_append, replay_append, follows_append, Mark.log_cons,
        replay_append]
      exact ⟨⟨⟨hrestart, hcourse⟩, hended, trivial⟩, hended⟩
    refine hbody _ ?_ ?_
    all_goals
      simp only [body, Failing.bind_apply]
      generalize restartIfStale m.started = r at hrestarted hprogram
      obtain ⟨_ | _, m₁⟩ := r
    · trivial
    · dsimp only at hprogram ⊢
      generalize currentProgram m₁ = r at hprogram
      obtain ⟨_ | program, m₂⟩ := r
      · trivial
      · exact (hexec program _ m₂ (hprogram ▸ hrestarted)).1
    · exact hrestarted
    · dsimp only at hprogram ⊢
      generalize currentProgram m₁ = r at hprogram
      obtain ⟨_ | program, m₂⟩ := r
      · exact hprogram ▸ hrestarted
      · exact (hexec program _ m₂ (hprogram ▸ hrestarted)).2
  next hidle =>
    rw [runWith_idle hidle]
    exact ⟨trivial, hl⟩

/-- Notes on places in programs are not seen. -/
theorem placed_outline (m : Machine) (top : Nat) (pc : Frame → Pc) :
    (m.placed top pc).outline = m.outline := by
  rw [placed, Stack.modifyFrameAt]
  split
  · rw [outline, outline]
    simp only [Outline.mk.injEq, and_true, true_and]
    refine List.ext_getElem? fun i => ?_
    rw [List.getElem?_map, List.getElem?_map, List.getElem?_modify]
    cases m.stack.frames[i]? with
    | none => rfl
    | some f => simp only [Option.map_some]; split <;> rfl
  · rfl

/-- **The loop is tracked**, for any number of instructions. -/
theorem execute_tracks (host : Embedder) (fuel : Nat) (program : Program) :
    Tracks (execute host fuel program) (executeCourse host fuel program) := by
  induction fuel generalizing program with
  | zero => exact fun l m hl => ⟨trivial, hl⟩
  | succ fuel ih =>
    intro l m hl
    rw [executeCourse]
    cases hcancelled : m.stack.cancelled with
    | true =>
      rw [execute_cancelled host fuel program hcancelled]
      exact ⟨trivial, hl⟩
    | false =>
      cases hframes : m.stack.frames with
      | nil =>
        rw [execute_empty host fuel program hcancelled hframes]
        exact ⟨trivial, hl⟩
      | cons f rest =>
        rw [execute_succ host fuel program hcancelled hframes]
        dsimp only
        cases program.instructionAt f.pc.offset with
        | error e => exact ⟨trivial, hl⟩
        | ok found =>
          obtain ⟨i, next⟩ := found
          have hadvanced : l.Describes (m.advanced f rest next).stack :=
            hl.congr rfl (by rw [hframes]; rfl)
          -- natives run the stack with less fuel
          have hstep := step_tracks (fun g => g.tracks host (runWith_tracks ih)) program next i l _
            hadvanced
          dsimp only
          generalize step host (runWith (execute host fuel)) program next i (m.advanced f rest next)
            = r at hstep
          obtain ⟨hfollows, hstep⟩ := hstep
          rw [follows_append, Mark.log_append, replay_append]
          obtain ⟨fault | flow, m₂⟩ := r
          · exact ⟨⟨hfollows, trivial⟩, hstep.of_outline (placed_outline m₂ _ _)⟩
          cases flow with
          | next =>
            obtain ⟨hnext, hdone⟩ := ih program _ m₂ hstep
            exact ⟨⟨hfollows, hnext⟩, hdone⟩
          | reload =>
            have hprogram : (currentProgram m₂).2.stack = m₂.stack := currentProgram_stack m₂
            dsimp only at hstep
            simp only [continued, Failing.bind_apply]
            generalize currentProgram m₂ = r at hprogram
            rw [← hprogram] at hstep
            obtain ⟨_ | program', m₃⟩ := r
            · exact ⟨⟨hfollows, trivial⟩, hstep⟩
            · obtain ⟨hnext, hdone⟩ := ih program' _ m₃ hstep
              exact ⟨⟨hfollows, hnext⟩, hdone⟩
          | pause => exact ⟨⟨hfollows, trivial⟩, hstep.of_outline (placed_outline m₂ _ _)⟩
          | finish => exact ⟨⟨hfollows, trivial⟩, hstep⟩

/-- **Runs are tracked**, whatever natives do and however long they take. -/
theorem runBy_tracks (host : Embedder) (fuel : Nat) :
    Tracks (runBy host fuel) (runByCourse host fuel) :=
  runWith_tracks (execute_tracks host fuel)

/-! ### Histories -/

/-- The machines that a stack comes by, each with all that happened to the stack. A host acts on it in
    sessions of any length, which are followed into runs and into the runs that natives start; between
    two sessions others may have changed the world. The worlds that the stack is made for and that others
    leave have a property. -/
inductive Reached (worlds : World → Prop) : List Event → Machine → Prop where
  | new {world : World} (hworld : worlds world) (config : StackConfig) (printed : String) :
    Reached worlds [] ⟨world, .new config, printed⟩
  | elsewhere {log : List Event} {m : Machine} (h : Reached worlds log m) {world : World}
    (hworld : worlds world) : Reached worlds log { m with world := world }
  | during {log : List Event} {m : Machine} {α : Type} (h : Reached worlds log m) (host : Embedder)
    (fuel : Nat) (session : Script α) (past future : List Mark) (mark : Mark)
    (hcourse : session.course (runBy host fuel) (runByCourse host fuel) m = past ++ mark :: future) :
    Reached worlds (log ++ Mark.log (past ++ [mark])) mark.machine
  | after {log : List Event} {m : Machine} {α : Type} (h : Reached worlds log m) (host : Embedder)
    (fuel : Nat) (session : Script α) :
    Reached worlds (log ++ Mark.log (session.course (runBy host fuel) (runByCourse host fuel) m))
      (session.perform (runBy host fuel) m).2

/-- **Stacks are described by their histories**, which start with an empty ledger. -/
theorem Reached.describes {worlds : World → Prop} {log : List Event} (h : Reached worlds log m) :
    (({} : Ledger).replay log).Describes m.stack := by
  induction h with
  | new hworld config printed => exact ⟨rfl, rfl⟩
  | elsewhere _ _ ih => exact ih
  | during _ host fuel session past future mark hcourse ih =>
    have hfollows := (session.tracks (runBy_tracks host fuel) _ _ ih).1
    rw [hcourse] at hfollows
    rw [replay_append]
    exact hfollows.describes
  | after _ host fuel session ih =>
    rw [replay_append]
    exact (session.tracks (runBy_tracks host fuel) _ _ ih).2

end Machine

end BlockMachine

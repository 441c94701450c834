import BlockMachine.Proofs.State.Standing

namespace BlockMachine

/-!
# When state is committed

A run changes the state tree in one place: where the root returns. This holds as long as natives
do not touch the tree themselves.

* `Embedder.Tame` and `NativeTable.Tame` are about such natives;
* `Ledger.Commits` says of a course that the tree changes only where a root returns;
* `Machine.Orderly` is what one step of a run has to satisfy, `Machine.execute_orderly` is about the
  loop;
* `Machine.Reached.commits_at_root_return` is the law for runs;
* `Reopening.restarts_commit` is a run that pauses after a native started the stack over and another
  run inside of it committed.
-/

/-! ### Tame natives -/

/-- Whether a function of the embedder leaves the tree alone. -/
def HostFunction.isTame : HostFunction → Bool
  | .setState => false
  | _ => true

/-- Whether a native does, given that all installed ones do. -/
def Native.isTame : Native → Bool
  | .host f => f.isTame
  | _ => true

/-- Whether an operation does, and registers only natives that do. -/
def HostOp.isTame {β : Type} : HostOp β → Bool
  | .migrate .. | .setState _ | .loadState _ => false
  | .reset discardState => !discardState
  | .registerNative _ f | .patchNative _ f => f.isTame
  | _ => true

/-- Whatever answers it gets, a script uses only tame operations. -/
def Script.Tame {α : Type} : Script α → Prop
  | .done _ => True
  | .op o next => o.isTame = true ∧ ∀ r, (next r).Tame

/-- All natives of an embedder are tame. -/
def Embedder.Tame (host : Embedder) : Prop :=
  ∀ code, (host.script code).Tame

/-- An embedder without natives of its own is tame. -/
theorem Embedder.tame_idle (libraries : Libraries) : (Embedder.idle libraries).Tame :=
  fun _ => trivial

/-- All natives in a table are tame. -/
abbrev NativeTable.Tame (t : NativeTable) : Prop :=
  t.Only Native.isTame

/-- The natives that every world starts with are tame. -/
theorem NativeTable.tame_new : ({} : World).natives.Tame :=
  .registerAll .empty (by decide)

/-- A script that finds out its block first is tame if it is so for every block. -/
theorem HostFunction.withBlock_tame {next : BlockId → Script Unit} (h : ∀ b, (next b).Tame) :
    (script.withBlock next).Tame := by
  refine ⟨rfl, fun r => ?_⟩
  cases r with
  | ok m =>
    dsimp only
    split
    · exact h _
    · trivial
  | error e => trivial

/-- A function of the embedder that counts as tame uses only tame operations. -/
theorem HostFunction.script_tame {f : HostFunction} (h : f.isTame = true) : f.script.Tame := by
  cases f with
  | hardFail => trivial
  | countInputs | envBump =>
    refine ⟨rfl, fun r => ?_⟩
    cases r with
    | ok m => exact ⟨rfl, fun _ => trivial⟩
    | error e => trivial
  | cross =>
    refine ⟨rfl, fun r => ?_⟩
    cases r with
    | ok m =>
      refine ⟨rfl, fun r => ?_⟩
      cases r with
      | ok _ => exact ⟨rfl, fun _ => trivial⟩
      | error e => trivial
    | error e => trivial
  | enter | call | migrate =>
    rw [script]
    refine withBlock_tame fun b => ?_
    exact ⟨rfl, fun _ => trivial⟩
  | replace =>
    rw [script]
    refine withBlock_tame fun b => ?_
    refine ⟨rfl, fun r => ?_⟩
    rcases r with e | (e | b) <;> trivial
  | setState => cases h
  | _ => exact ⟨rfl, fun _ => trivial⟩

/-! ### Courses that commit at returns -/

namespace Ledger

variable {l : Ledger}

/-- A mark is where a root returned, which was then the only frame. -/
def CommitsAt (l : Ledger) (mark : Mark) : Prop :=
  ∃ number root program m, mark.events = [.finished number] ∧ l.accounts = [root] ∧
    l.Describes m.stack ∧ Machine.leave program m = (.ok true, mark.machine)

/-- On a course the tree changes only where a root returns. -/
def Commits (l : Ledger) : List Mark → Prop
  | [] => True
  | mark :: course =>
    (l.CommitsAt mark ∨ ∀ e ∈ mark.events, e.keepsTree = true) ∧
      (l.replay mark.events).Commits course

/-- The law holds of a course if it does of both parts, the second one after what the first one told. -/
theorem commits_append {course course' : List Mark} : l.Commits (course ++ course') ↔
    l.Commits course ∧ (l.replay (Mark.log course)).Commits course' := by
  induction course generalizing l with
  | nil => simp [Commits]
  | cons mark course ih =>
    rw [List.cons_append, Commits, Commits, ih, Mark.log_cons, replay_append, and_assoc]

/-- One mark that leaves the tree alone. -/
theorem commits_single {mark : Mark} (h : ∀ e ∈ mark.events, e.keepsTree = true) :
    l.Commits [mark] :=
  ⟨.inr h, trivial⟩

end Ledger

namespace Machine

open Ledger

variable {α β : Type} {l : Ledger} {m m' : Machine}

/-- The natives at hand and the phase: what decides how a run may change the tree. -/
def mode (m : Machine) : NativeTable × Phase :=
  (m.world.natives, m.stack.phase)

/-- What leaves natives, phase and error as they are leaves the mode. -/
theorem mode_of_standing {a : Action α} (h : Preserves standing a) : Preserves mode a :=
  h.part fun s => (s.1, s.2.1)

/-- What a computation with tame natives leaves is in order: the tree changed only where a root
    returned, and natives are still tame. In the middle of a run, as long as the stack is not started
    over, it stays so, and no root returns unless the computation says that it is done. -/
structure Orderly (done : α → Prop) (l : Ledger) (start : Phase) (r : Except Fault α × Machine)
    (course : List Mark) : Prop where
  commits : l.Commits course
  natives : r.2.world.natives.Tame
  phase : start ≠ .ready → .cleared ∉ Mark.log course → r.2.stack.phase ≠ .ready
  tree : start ≠ .ready → .cleared ∉ Mark.log course → (∀ x, r.1 = .ok x → ¬done x) →
    ∀ e ∈ Mark.log course, e.keepsTree = true

/-- A computation always leaves its machine in order. -/
def KeepsOrder (done : α → Prop) (a : Action α) (course : Machine → List Mark) : Prop :=
  ∀ (l : Ledger) (m : Machine), l.Describes m.stack → m.world.natives.Tame →
    Orderly done l m.stack.phase (a m) (course m)

/-- No answer means that a root returned. -/
abbrev Never : α → Prop :=
  fun _ => False

namespace Orderly

variable {done : β → Prop} {start : Phase} {r : Except Fault α × Machine} {r' : Except Fault β × Machine}
  {course course' : List Mark}

/-- Nothing happened. -/
theorem nil (hnatives : m.world.natives.Tame) (hmode : r'.2.mode = m.mode) :
    Orderly done l m.stack.phase r' [] where
  commits := trivial
  natives := (Prod.mk.inj hmode).1 ▸ hnatives
  phase h _ := (Prod.mk.inj hmode).2 ▸ h
  tree _ _ _ _ he := nomatch he

/-- One computation after the other. -/
theorem append (h : Orderly Never l start r course)
    (h' : Orderly done (l.replay (Mark.log course)) r.2.stack.phase r' course') :
    Orderly done l start r' (course ++ course') := by
  have hphase : start ≠ .ready → .cleared ∉ Mark.log (course ++ course') →
      .cleared ∉ Mark.log course ∧ .cleared ∉ Mark.log course' ∧ r.2.stack.phase ≠ .ready := by
    intro hm hcleared
    rw [Mark.log_append] at hcleared
    obtain ⟨hcleared₁, hcleared₂⟩ := not_or.1 (List.mem_append.not.1 hcleared)
    exact ⟨hcleared₁, hcleared₂, h.phase hm hcleared₁⟩
  refine ⟨commits_append.2 ⟨h.commits, h'.commits⟩, h'.natives, fun hm hcleared => ?_,
    fun hm hcleared hdone => ?_⟩
  · obtain ⟨-, hcleared₂, hr⟩ := hphase hm hcleared
    exact h'.phase hr hcleared₂
  · obtain ⟨hcleared₁, hcleared₂, hr⟩ := hphase hm hcleared
    rw [Mark.log_append]
    exact List.forall_mem_append.2
      ⟨h.tree hm hcleared₁ fun _ _ h => h, h'.tree hr hcleared₂ hdone⟩

/-- The answer may be given in another way. -/
theorem answer (h : Orderly Never l start r course) (hr : r'.2 = r.2) : Orderly done l start r' course where
  commits := h.commits
  natives := hr ▸ h.natives
  phase hm hcleared := hr ▸ h.phase hm hcleared
  tree hm hcleared _ := h.tree hm hcleared fun _ _ h => h

/-- A computation that is not done. -/
theorem undone {done : α → Prop} (h : Orderly done l start r course)
    (hr : ∀ x, r.1 = .ok x → ¬done x) : Orderly Never l start r course where
  commits := h.commits
  natives := h.natives
  phase := h.phase
  tree hm hcleared _ := h.tree hm hcleared hr

/-- One mark at which the tree stays. -/
theorem single {mark : Mark} (htree : ∀ e ∈ mark.events, e.keepsTree = true)
    (hnatives : r'.2.world.natives.Tame)
    (hphase : start ≠ .ready → .cleared ∉ mark.events → r'.2.stack.phase ≠ .ready) :
    Orderly done l start r' [mark] := by
  have hlog : Mark.log [mark] = mark.events := by
    rw [Mark.log_cons, Mark.log_nil, List.append_nil]
  refine ⟨commits_single htree, hnatives, ?_, ?_⟩
  · rw [hlog]
    exact hphase
  · rw [hlog]
    exact fun _ _ _ => htree

end Orderly

/-- A course of one mark at which the tree stays. -/
theorem KeepsOrder.single {done : α → Prop} {a : Action α} {events : Machine → List Event}
    (htree : ∀ m, ∀ e ∈ events m, e.keepsTree = true)
    (hmode : ∀ m, m.world.natives.Tame → (a m).2.world.natives.Tame ∧
      (m.stack.phase ≠ .ready → .cleared ∉ events m → (a m).2.stack.phase ≠ .ready)) :
    KeepsOrder done a fun m => [⟨events m, (a m).2⟩] :=
  fun _ m _ hnatives => .single (htree m) (hmode m hnatives).1 (hmode m hnatives).2

/-- A course of one mark in the same mode. -/
theorem KeepsOrder.of_mode {done : α → Prop} {a : Action α} {events : Machine → List Event}
    (htree : ∀ m, ∀ e ∈ events m, e.keepsTree = true) (hmode : Preserves mode a) :
    KeepsOrder done a fun m => [⟨events m, (a m).2⟩] := by
  refine .single htree fun m hnatives => ?_
  obtain ⟨hsame, hphase⟩ := Prod.mk.inj (hmode m)
  rw [hsame, hphase]
  exact ⟨hnatives, fun h _ => h⟩

/-- What only may end the run with an error is in order. -/
theorem Settles.keepsOrder {done : α → Prop} {a : Action α} (h : Settles a) :
    KeepsOrder done a fun m => [⟨[], (a m).2⟩] := by
  refine .single (fun _ _ h => nomatch h) fun m hnatives => ?_
  rcases h m with hm | ⟨hm, -⟩
  · have hsame : (a m).2.world.natives = m.world.natives := congrArg (·.1.natives) hm
    have hphase : (a m).2.stack.phase = m.stack.phase := congrArg (·.1.phase) hm
    rw [hsame, hphase]
    exact ⟨hnatives, fun h _ => h⟩
  · have hsame : (a m).2.world.natives = m.world.natives := congrArg Outline.natives hm
    have hphase : (a m).2.stack.phase = .finished := congrArg Outline.phase hm
    rw [hsame, hphase]
    exact ⟨hnatives, fun _ _ => nofun⟩

/-! ### Hosts -/

/-- A frame that was entered leaves the tree alone. -/
theorem entered_keepsTree (m m' : Machine) : ∀ e ∈ entered m m', e.keepsTree = true := by
  intro e he
  rw [entered] at he
  split at he
  · rw [List.mem_singleton.1 he]
    rfl
  · cases he

/-- A stack that starts over leaves the tree alone. -/
theorem startedOver_keepsTree (m m' : Machine) : ∀ e ∈ startedOver m m', e.keepsTree = true :=
  List.forall_mem_cons.2 ⟨rfl, entered_keepsTree _ _⟩

/-- A push leaves the tree alone, also where it makes the stack start over. -/
theorem pushed_keepsTree (m m' : Machine) : ∀ e ∈ pushed m m', e.keepsTree = true := by
  rw [pushed]
  split
  · exact startedOver_keepsTree m m'
  · exact entered_keepsTree m m'

/-- Entering a block keeps the mode. -/
theorem enter_mode (block : BlockId) (args : List Value) (link : Link) :
    Preserves mode (enter block args link) :=
  mode_of_standing (enter_standing block args link)

/-- Another root does not change the natives. -/
theorem changeMain_natives (block : BlockId) (inputs bindings : List Value) (m : Machine) :
    (changeMain block inputs bindings m).2.world.natives = m.world.natives :=
  (Prod.mk.inj (enter_mode block inputs { bindings := bindings }
    { m with stack := { m.stack.startOver with retained := [] } })).1

/-- A push keeps the mode, unless it makes the stack start over. -/
theorem push_mode (block : BlockId) (inputs : List Value) (m : Machine) :
    (push block inputs m).2.world.natives = m.world.natives ∧
      (.cleared ∉ pushed m (push block inputs m).2 →
        (push block inputs m).2.stack.phase = m.stack.phase) := by
  rw [push_apply, pushed]
  split
  · refine ⟨?_, fun h => absurd List.mem_cons_self h⟩
    exact (Prod.mk.inj (enter_mode block inputs {} { m with stack := m.stack.startOver })).1
  · obtain ⟨hnatives, hphase⟩ := Prod.mk.inj (enter_mode block inputs {} m)
    exact ⟨hnatives, fun _ => hphase⟩

/-- A call is in order, given that runs are: it is a push and a run, and frames that are taken away. -/
theorem call_keepsOrder {resume : Action Outcome} {running : Machine → List Mark}
    (hresume : KeepsOrder Never resume running) (block : BlockId) (inputs : List Value) :
    KeepsOrder Never (callWith resume block inputs)
      (HostOp.course resume running (.call block inputs)) := by
  intro l m hl hnatives
  have hpush := push_describes hl block inputs
  have htree := pushed_keepsTree m (push block inputs m).2
  have hmode := push_mode block inputs m
  rw [HostOp.course, callWith, Failing.bind_apply]
  generalize push block inputs m = start at hpush htree hmode
  obtain ⟨hnatives₁, hphase₁⟩ := hmode
  have hstart : Orderly Never l m.stack.phase start [⟨pushed m start.2, start.2⟩] :=
    .single htree (hnatives₁ ▸ hnatives) fun hm hcleared => (hphase₁ hcleared).symm ▸ hm
  obtain ⟨e | _, m₁⟩ := start
  · exact hstart.answer rfl
  · have hrun := hresume _ m₁ hpush (hnatives₁ ▸ hnatives)
    dsimp only
    simp only [Failing.bind_apply]
    generalize resume m₁ = r at hrun
    have hran : Orderly Never l m.stack.phase r (⟨pushed m m₁, m₁⟩ :: running m₁) := by
      refine hstart.append ?_
      rwa [Mark.log_cons, Mark.log_nil, List.append_nil]
    -- the frames are taken away after a run that finished, and only then
    obtain ⟨e | outcome, m₂⟩ := r
    · exact hran.append (.single (List.forall_mem_nil _) hrun.natives fun h _ => h)
    · cases outcome with
      | finished =>
        exact hran.append (.single (List.forall_mem_singleton.2 rfl) hrun.natives
          fun _ hcleared => absurd List.mem_cons_self hcleared)
      | _ => exact hran.append (.single (List.forall_mem_nil _) hrun.natives fun h _ => h)

end Machine

open Machine Ledger

/-- **Tame operations are in order**, given that runs are. -/
theorem HostOp.keepsOrder {resume : Action Outcome} {running : Machine → List Mark}
    (hresume : KeepsOrder Never resume running) {β : Type} {o : HostOp β}
    (ho : o.isTame = true) : KeepsOrder Never (o.perform resume) (o.course resume running) := by
  cases o with
  | run => exact hresume
  | call block inputs => exact call_keepsOrder hresume block inputs
  | push block inputs =>
    refine .single (fun m => pushed_keepsTree _ _) fun m hnatives => ?_
    obtain ⟨hsame, hphase⟩ := push_mode block inputs m
    exact ⟨hsame ▸ hnatives, fun hm hcleared => hphase hcleared ▸ hm⟩
  | pop =>
    refine .of_mode (fun m => List.forall_mem_singleton.2 rfl) fun m => ?_
    show mode { m with stack := m.stack.popFrame.2 } = m.mode
    rw [Stack.popFrame]
    cases m.stack.frames <;> rfl
  | registerNative name f =>
    refine .single (fun _ => List.forall_mem_nil _) fun m hnatives => ?_
    have htable : (HostOp.perform resume (.registerNative name f) m).2.world = _ :=
      World.registerNative_table name f m.world
    exact ⟨htable ▸ hnatives.register ho name, fun hm _ => hm⟩
  | patchNative name f =>
    refine .single (fun _ => List.forall_mem_nil _) fun m hnatives => ?_
    have htable : (HostOp.perform resume (.patchNative name f) m).2.world = _ :=
      World.patchNative_table name f m.world
    exact ⟨htable ▸ hnatives.patch ho name, fun hm _ => hm⟩
  -- a tame reset keeps the state; that it clears the frames is noted
  | reset discardState =>
    obtain rfl : discardState = false := by simpa [isTame] using ho
    exact .single (fun m => List.forall_mem_singleton.2 rfl) fun m hnatives =>
      ⟨hnatives, fun _ hcleared => absurd List.mem_cons_self hcleared⟩
  | migrateTo block inputs =>
    exact .single (fun m => startedOver_keepsTree _ _) fun m hnatives =>
      ⟨changeMain_natives block inputs [] m ▸ hnatives,
        fun _ hcleared => absurd List.mem_cons_self hcleared⟩
  | migrateToFunc func inputs =>
    refine .single (fun m => ?_) fun m hnatives => ?_
    · rw [events]
      split
      · exact startedOver_keepsTree _ _
      · simp
    · rw [events, perform, Machine.migrateToFunc]
      cases func.func? with
      | none => exact ⟨hnatives, fun h _ => h⟩
      | some closure =>
        exact ⟨changeMain_natives closure.1 inputs closure.2 m ▸ hnatives,
          fun _ hcleared => absurd List.mem_cons_self hcleared⟩
  -- these put another tree in place and are not tame
  | migrate | setState | loadState => cases ho
  | look | resize | cancel | duplicate | setInput | setOutput | raise | setEnv | expect | consume
    | emit | takeRetained | frameList | setRandom | print | number | cast | addBlock | replaceBlock
    | compile | program | addRecord | addMethod | addModule =>
    exact (quiet_settles resume rfl).keepsOrder

/-- **Tame scripts are in order**: the operations one after the other. -/
theorem Script.keepsOrder {resume : Action Outcome} {running : Machine → List Mark}
    (htracks : Tracks resume running) (hresume : KeepsOrder Never resume running) {α : Type}
    {script : Script α} (hscript : script.Tame) :
    KeepsOrder Never (script.perform resume) (script.course resume running) := by
  induction script with
  | done r =>
    intro l m _ hnatives
    refine .nil hnatives ?_
    cases r <;> rw [Script.perform] <;> rfl
  | op o next ih =>
    intro l m hl hnatives
    obtain ⟨ho, hnext⟩ := hscript
    have hdescribes := (o.tracks htracks l m hl).2
    have horder := HostOp.keepsOrder hresume ho l m hl hnatives
    rw [Script.perform, Script.course, Failing.bind_apply, attempt]
    generalize o.perform resume m = r at hdescribes horder
    obtain ⟨e | b, m'⟩ := r
    · cases e with
      | raised e =>
        exact horder.append (ih (.error e) (hnext (.error e)) _ m' hdescribes horder.natives)
      | crashed => exact horder.append (.nil horder.natives rfl)
      | outOfFuel => exact horder.append (.nil horder.natives rfl)
    · exact horder.append (ih (.ok b) (hnext (.ok b)) _ m' hdescribes horder.natives)

/-- **Tame natives are in order.** -/
theorem Native.keepsOrder {host : Embedder} (hhost : host.Tame) {resume : Action Outcome}
    {running : Machine → List Mark} (htracks : Tracks resume running)
    (hresume : KeepsOrder Never resume running) {f : Native} (hf : f.isTame = true) :
    KeepsOrder Never (invoke host resume f) (f.course host resume running) := by
  cases f with
  | host g =>
    rw [show invoke host resume (.host g) = invokeHost resume g from rfl, invokeHost_eq]
    exact Script.keepsOrder htracks hresume (HostFunction.script_tame hf)
  | installed code => exact Script.keepsOrder htracks hresume (hhost code)
  | _ => exact (invoke_default_settles host resume (by nofun) (by nofun)).keepsOrder

/-! ### Instructions -/

namespace Machine

variable {l : Ledger} {m : Machine}

/-- Only natives change the mode of a run. -/
theorem step_mode {host : Embedder} {resume : Action Outcome} {program : Program} {next : Nat}
    {i : Instruction} (hi : ∀ index, i ≠ .native index) :
    Preserves mode (step host resume program next i) :=
  mode_of_standing (step_standing hi)

/-- Whether a frame that returned was a root. -/
theorem leave_isRoot {program : Program} {f : Frame} {rest : List Frame}
    (hframes : m.stack.frames = f :: rest) {isRoot : Bool} (h : (leave program m).1 = .ok isRoot) :
    f.parent.isNone = isRoot := by
  rw [leave, Failing.bind_apply, active_apply hframes] at h
  dsimp only at h
  rw [Failing.bind_apply] at h
  generalize castOutputs program f.registers 0 program.signature.outputs m = r at h
  obtain ⟨e | outputs, m₁⟩ := r
  · cases h
  dsimp only at h
  cases hroot : f.parent.isNone with
  | true =>
    rw [hroot, if_pos rfl, Failing.bind_apply] at h
    generalize leaveRoot f (program.signature.outputs.zip outputs) m₁ = r at h
    obtain ⟨e | _, m₂⟩ := r
    · cases h
    · exact Except.ok.inj h
  | false =>
    rw [hroot, if_neg Bool.false_ne_true, Failing.bind_apply] at h
    generalize onStack Stack.popFrame m₁ = r at h
    obtain ⟨e | _, m₂⟩ := r
    · cases h
    dsimp only at h
    rw [Failing.bind_apply] at h
    generalize deliver f outputs m₂ = r at h
    obtain ⟨e | _, m₃⟩ := r
    · cases h
    · exact Except.ok.inj h

/-- A return touches the tree only if it is that of a root, which is then the only frame. -/
theorem left_cases (hl : l.Describes m.stack) (program : Program) :
    (∃ number root m', left program m = [.finished number] ∧ l.accounts = [root] ∧
      leave program m = (.ok true, m')) ∨ ∀ e ∈ left program m, e.keepsTree = true := by
  rw [left]
  split
  next f rest isRoot hframes hleave =>
    cases isRoot with
    | false => exact .inr (List.forall_mem_singleton.2 rfl)
    | true =>
      obtain ⟨a, as, haccounts, hf, -⟩ := hl.cons hframes
      have hroot : f.parent.isNone = as.isEmpty := congrArg Strand.isRoot hf
      rw [leave_isRoot hframes hleave] at hroot
      obtain rfl : as = [] := List.isEmpty_iff.1 hroot.symm
      exact .inl ⟨_, a, _, rfl, haccounts, Prod.ext hleave rfl⟩
  next => exact .inr (by simp)

/-- **Instructions are in order**, given that natives are; the tree changes where a root returns, and
    that ends the run. -/
theorem step_keepsOrder {host : Embedder} {resume : Action Outcome} {running : Machine → List Mark}
    (hnative : ∀ f : Native, f.isTame = true →
      KeepsOrder Never (invoke host resume f) (f.course host resume running))
    (program : Program) (next : Nat) (i : Instruction) :
    KeepsOrder (· = .finish) (step host resume program next i)
      (stepCourse host resume running program next i) := by
  -- natives aside, a step notes at most the frame it entered, which leaves the tree alone
  have hentered : (∀ index, i ≠ .native index) →
      KeepsOrder (· = .finish) (step host resume program next i) fun m =>
        [⟨entered m (step host resume program next i m).2,
          (step host resume program next i m).2⟩] :=
    fun hi => .of_mode (fun m => entered_keepsTree _ _) (step_mode hi)
  cases i with
  | native index =>
    intro l m hl hnatives
    have hstep : (step host resume program next (.native index) m).2 = _ :=
      step_machine (by simp) (by simp) m
    rw [perform, callNative_machine] at hstep
    rw [stepCourse_native]
    cases hentry : m.world.natives.get? index with
    | none =>
      rw [hentry] at hstep
      exact .nil hnatives (congrArg mode hstep)
    | some entry =>
      rw [hentry] at hstep
      have htame := hnatives entry (Array.mem_of_getElem? hentry)
      exact (hnative entry.2 htame l m hl hnatives).answer hstep
  | saveState name src =>
    refine .of_mode (fun m e he => ?_) (step_mode (by simp))
    rw [saved] at he
    split at he
    · rw [List.mem_singleton.1 he]
      rfl
    · cases he
  | ret =>
    intro l m hl hnatives
    have hmode : mode (step host resume program next .ret m).2 = m.mode :=
      step_mode (by simp) m
    obtain ⟨hsame, hphase⟩ := Prod.mk.inj hmode
    have hready : m.stack.phase ≠ .ready →
        (step host resume program next .ret m).2.stack.phase ≠ .ready := fun h => hphase ▸ h
    -- only the return of a root commits, and it finishes the loop
    rcases left_cases hl program with ⟨number, root, m', hleft, hroot, hleave⟩ | hkeeps
    · have hfinish : (step host resume program next .ret m).1 = .ok .finish := by
        rw [step, Failing.bind_apply, hleave]
        rfl
      have hmachine : (step host resume program next .ret m).2 = m' := by
        rw [step, Failing.bind_apply, hleave]
        rfl
      refine ⟨⟨.inl ⟨number, root, program, m, hleft, hroot, hl, hmachine.symm ▸ hleave⟩, trivial⟩,
        hsame ▸ hnatives, fun h _ => hready h, fun _ _ hdone => ?_⟩
      exact absurd rfl (hdone _ hfinish)
    · exact .single hkeeps (hsame ▸ hnatives) fun h _ => hready h
  | _ => exact hentered (by simp)

/-! ### Runs -/

/-- The check at the start of a run leaves the tree alone, whether the root starts over or not. -/
theorem restarting_keepsTree (m : Machine) : ∀ e ∈ restarting m, e.keepsTree = true := by
  rw [restarting]
  split
  · split
    · exact List.forall_mem_cons.2 ⟨rfl, List.forall_mem_singleton.2 rfl⟩
    · exact List.forall_mem_singleton.2 rfl
  · simp

/-- What a run notes at its end does not change the natives. -/
theorem ended_natives (r : Except Fault Outcome × Machine) :
    (ended r).2.world.natives = r.2.world.natives := by
  obtain ⟨fault | outcome, m⟩ := r
  · cases fault with
    | raised e =>
      have houtline := (recordError_fails e m).2.1
      rw [ended, Failing.bind_apply]
      generalize recordError e m = r at houtline
      obtain ⟨_ | _, m'⟩ := r <;> exact congrArg Outline.natives houtline
    | crashed => rfl
    | outOfFuel => rfl
  · rfl

/-- What a run executes is in order, given that the loop is. -/
theorem body_orderly {exec : Program → Action Outcome} {executing : Program → Machine → List Mark}
    (hexec : ∀ p, KeepsOrder (· = .finished) (exec p) (executing p)) (hl : l.Describes m.stack)
    (hnatives : m.world.natives.Tame) :
    Orderly (· = .finished) l m.stack.phase (body exec m)
      (⟨restarting m, (restartIfStale m).2⟩ ::
        match (restartIfStale >>= fun _ => currentProgram) m with
        | (.ok program, m₂) => executing program m₂
        | (.error _, _) => []) := by
  obtain ⟨⟨hrestart, -⟩, -⟩ := restartIfStale_tracks l m hl
  have hmode := mode_of_standing restartIfStale_standing m
  have hprogram := currentProgram_stack (restartIfStale m).2
  have hprogram' := mode_of_standing currentProgram_standing (restartIfStale m).2
  have hfirst : Orderly Never l m.stack.phase (restartIfStale m) [⟨restarting m, (restartIfStale m).2⟩] := by
    obtain ⟨hsame, hphase⟩ := Prod.mk.inj hmode
    exact .single (restarting_keepsTree m) (hsame ▸ hnatives) fun h _ => hphase ▸ h
  have hnatives₁ := hfirst.natives
  simp only [body, Failing.bind_apply]
  refine hfirst.append ?_
  rw [Mark.log_cons, Mark.log_nil, List.append_nil]
  generalize restartIfStale m = r at hrestart hprogram hprogram' hnatives₁
  obtain ⟨e | _, m₁⟩ := r
  · exact .nil hnatives₁ rfl
  · dsimp only at hrestart hprogram hprogram' hnatives₁ ⊢
    generalize currentProgram m₁ = r at hprogram hprogram'
    obtain ⟨e | program, m₂⟩ := r
    · exact .nil hnatives₁ hprogram'
    · obtain ⟨hsame, hphase⟩ := Prod.mk.inj hprogram'
      exact hphase ▸ hexec program _ m₂ (hprogram ▸ hrestart) (hsame ▸ hnatives₁)

/-- **Runs are in order**, given that the loop is. A run inside of a run does nothing. -/
theorem runWith_keepsOrder {exec : Program → Action Outcome}
    {executing : Program → Machine → List Mark}
    (hexec : ∀ p, KeepsOrder (· = .finished) (exec p) (executing p)) :
    KeepsOrder Never (runWith exec) (runCourse exec executing) := by
  intro l m hl hnatives
  rw [runCourse]
  split
  next hready =>
    obtain ⟨hphase, hframes⟩ := hready
    have hbody := body_orderly hexec (m := m.started) (hl.congr rfl rfl) hnatives
    have hended := ended_natives (body exec m.started)
    rw [← runWith_ready hphase hframes] at hended
    exact ⟨commits_append.2 ⟨hbody.commits, commits_single (by simp)⟩,
      hended ▸ hbody.natives, fun h => absurd hphase h, fun h => absurd hphase h⟩
  next hidle => exact .nil hnatives (congrArg mode (runWith_idle hidle))

/-- The pc of a frame is no part of the mode. -/
theorem placed_mode (m : Machine) (top : Nat) (pc : Frame → Pc) : mode (m.placed top pc) = m.mode :=
  congrArg (fun s => (s.1, s.2.1)) (placed_standing m top pc)

/-- **The loop is in order**, for any number of instructions. -/
theorem execute_keepsOrder {host : Embedder} (hhost : host.Tame) (fuel : Nat) (program : Program) :
    KeepsOrder (· = .finished) (execute host fuel program) (executeCourse host fuel program) := by
  induction fuel generalizing program with
  | zero => exact fun l m _ hnatives => .nil hnatives rfl
  | succ fuel ih =>
    intro l m hl hnatives
    rw [executeCourse]
    cases hcancelled : m.stack.cancelled with
    | true =>
      rw [execute_cancelled host fuel program hcancelled]
      exact .nil hnatives rfl
    | false =>
      cases hframes : m.stack.frames with
      | nil =>
        rw [execute_empty host fuel program hcancelled hframes]
        exact .nil hnatives rfl
      | cons f rest =>
        rw [execute_succ host fuel program hcancelled hframes]
        dsimp only
        cases program.instructionAt f.pc.offset with
        | error e => exact .nil hnatives rfl
        | ok found =>
          obtain ⟨i, next⟩ := found
          -- an advance moves the offset only, which the ledger does not describe
          have hadvanced : l.Describes (m.advanced f rest next).stack :=
            hl.congr rfl (by rw [hframes]; rfl)
          -- a native may run the machine again, with the fuel that the induction is about
          have htracks := runWith_tracks (execute_tracks host fuel)
          have hstep := step_keepsOrder
            (fun g hg => Native.keepsOrder hhost htracks (runWith_keepsOrder ih) hg) program next i l
            _ hadvanced hnatives
          have hdescribes := (step_tracks (fun g => g.tracks host htracks) program next i l _
            hadvanced).2
          dsimp only
          generalize step host (runWith (execute host fuel)) program next i (m.advanced f rest next)
            = r at hstep hdescribes
          -- only a step that finishes the loop may commit; all others are followed by what is left
          obtain ⟨fault | flow, m₂⟩ := r
          · exact (hstep.undone (by simp)).append (.nil hstep.natives (placed_mode m₂ _ _))
          cases flow with
          | next =>
            exact (hstep.undone (by rintro _ h rfl; cases h)).append
              (ih program _ m₂ hdescribes hstep.natives)
          | reload =>
            refine (hstep.undone (by rintro _ h rfl; cases h)).append ?_
            have hprogram : (currentProgram m₂).2.stack = m₂.stack := currentProgram_stack m₂
            have hprogram' := mode_of_standing currentProgram_standing m₂
            dsimp only at hdescribes
            rw [← hprogram] at hdescribes
            simp only [continued, Failing.bind_apply]
            generalize currentProgram m₂ = r at hdescribes hprogram'
            obtain ⟨e | program', m₃⟩ := r
            · exact .nil hstep.natives hprogram'
            · obtain ⟨hsame, hphase⟩ := Prod.mk.inj hprogram'
              exact hphase ▸ ih program' _ m₃ hdescribes (hsame ▸ hstep.natives)
          | pause =>
            exact (hstep.undone (by rintro _ h rfl; cases h)).append
              (.nil hstep.natives (placed_mode m₂ _ _))
          | finish =>
            rw [List.append_nil]
            exact ⟨hstep.commits, hstep.natives, hstep.phase,
              fun _ _ hdone => absurd rfl (hdone _ rfl)⟩

/-! ### The law for runs -/

/-- What a frame saved has no null in it. -/
theorem noNull_of_describes {s : Stack} (hl : l.Describes s) :
    ∀ f ∈ s.frames, Entries.All (fun v => v.isNull = false) f.outgoing := by
  have hstrands : ∀ (accounts : List Account), ∀ strand ∈ strands accounts,
      Entries.All (fun v => v.isNull = false) strand.outgoing := by
    intro accounts
    induction accounts with
    | nil => exact fun _ h => nomatch h
    | cons a rest ih => exact List.forall_mem_cons.2 ⟨a.outgoing_ne_null, ih⟩
  intro f hf
  exact hstrands l.accounts f.strand (hl.frames ▸ List.mem_map_of_mem hf)

/-- Where a course that started at a machine has come to. -/
def reachedBy (m : Machine) (course : List Mark) : Machine :=
  (course.getLast?.map (·.machine)).getD m

/-- A course comes to where its last mark is. -/
theorem reachedBy_concat (m : Machine) (course : List Mark) (mark : Mark) :
    reachedBy m (course ++ [mark]) = mark.machine := by
  rw [reachedBy, List.getLast?_concat]
  rfl

/-- What a part of a course told describes the stack that it came to. -/
theorem describes_reachedBy (hl : l.Describes m.stack) {past future : List Mark}
    (h : l.Follows (past ++ future)) :
    (l.replay (Mark.log past)).Describes (reachedBy m past).stack := by
  rcases List.eq_nil_or_concat past with rfl | ⟨past, mark, rfl⟩
  · exact hl
  · rw [List.concat_eq_append] at h ⊢
    rw [reachedBy_concat]
    rw [List.append_assoc] at h
    exact h.describes

/-- What holds at a mark of a run, given the history of the stack up to there and the machine at the
    mark before. -/
structure Accounted (history : List Event) (before : Machine) (mark : Mark) : Prop where
  /-- The outgoing map of each frame is the fold of its savings since it was pushed or restarted. -/
  described : (({} : Ledger).replay history).Describes mark.machine.stack
  noNull : ∀ f ∈ mark.machine.stack.frames, Entries.All (fun v => v.isNull = false) f.outgoing
  /-- The tree is what it is without all that was saved at or below a frame without key. -/
  audible : (({} : Ledger).replay (({} : Ledger).audible history)).tree = mark.machine.stack.state
  /-- The tree stays, or the only frame returned and what it saved is the tree. -/
  tree : (mark.machine.stack.state = before.stack.state ∧ ∀ number, .finished number ∉ mark.events) ∨
    ∃ number program m root, mark.events = [.finished number] ∧
      m.stack.state = before.stack.state ∧ m.stack.frames = [root] ∧
      leave program m = (.ok true, mark.machine) ∧
      mark.machine.stack.state =
        if root.outgoing.isEmpty then .null else .map number root.outgoing

/-- The tree at a mark, by what the ledgers before and after it tell. -/
theorem tree_of_commitsAt {mark : Mark} {before : Machine} (hbefore : l.Describes before.stack)
    (hafter : (l.replay mark.events).Describes mark.machine.stack) (h : l.CommitsAt mark) :
    ∃ number program m root, mark.events = [.finished number] ∧
      m.stack.state = before.stack.state ∧ m.stack.frames = [root] ∧
      leave program m = (.ok true, mark.machine) ∧
      mark.machine.stack.state =
        if root.outgoing.isEmpty then .null else .map number root.outgoing := by
  obtain ⟨number, a, program, m, hevents, haccounts, hm, hleave⟩ := h
  have hstrands := hm.frames
  rw [haccounts] at hstrands
  obtain ⟨root, hroot, hstrand⟩ := List.map_eq_singleton_iff.1 hstrands
  have houtgoing : root.outgoing = a.outgoing := congrArg Strand.outgoing hstrand
  refine ⟨number, program, m, root, hevents, hm.tree.trans hbefore.tree.symm, hroot, hleave, ?_⟩
  rw [hafter.tree, hevents, replay_cons, replay_nil, post, haccounts, houtgoing]
  dsimp only [StateTree.ofOutgoing]
  split <;> rfl

/-- A run that does not finish leaves the tree alone, unless the stack is started over. -/
theorem runBy_keepsTree {host : Embedder} (hhost : host.Tame) (hl : l.Describes m.stack)
    (hnatives : m.world.natives.Tame) (fuel : Nat) (hresult : (runBy host fuel m).1 ≠ .ok .finished)
    (hcleared : .cleared ∉ Mark.log (runByCourse host fuel m)) :
    ∀ e ∈ Mark.log (runByCourse host fuel m), e.keepsTree = true := by
  have hruns := body_orderly (execute_keepsOrder hhost fuel) (m := m.started) (hl.congr rfl rfl)
    hnatives
  rw [runByCourse, runCourse] at hcleared ⊢
  split at hcleared
  next hready =>
    rw [if_pos hready]
    rw [runBy, runWith_ready hready.1 hready.2] at hresult
    have hlog : ∀ course m', Mark.log (course ++ [⟨[], m'⟩]) = Mark.log course :=
      fun course m' => (Mark.log_append _ _).trans (List.append_nil _)
    rw [hlog] at hcleared ⊢
    refine hruns.tree (by rintro ⟨⟩) hcleared fun outcome hbody => ?_
    rintro rfl
    refine hresult ?_
    generalize body (execute host fuel) m.started = r at hbody
    obtain ⟨_ | outcome, m'⟩ := r
    · cases hbody
    · exact hbody
  next hidle =>
    rw [if_neg hidle]
    simp

/-- Tame natives register only tame ones, so a run ends with tame natives. -/
theorem runBy_tame {host : Embedder} (hhost : host.Tame) (hl : l.Describes m.stack)
    (hnatives : m.world.natives.Tame) (fuel : Nat) : (runBy host fuel m).2.world.natives.Tame :=
  (runWith_keepsOrder (execute_keepsOrder hhost fuel) l m hl hnatives).natives

/-- A run that does not finish, and in which the stack was not started over, leaves the tree as it was. -/
theorem Reached.keepsState {worlds : World → Prop} {log : List Event} (h : Reached worlds log m)
    {host : Embedder} (hhost : host.Tame) (hnatives : m.world.natives.Tame) {fuel : Nat}
    (hresult : (runBy host fuel m).1 ≠ .ok .finished)
    (hcleared : .cleared ∉ Mark.log (runByCourse host fuel m)) :
    (runBy host fuel m).2.stack.state = m.stack.state := by
  have hl := h.describes
  rw [(runBy_tracks host fuel _ m hl).2.tree, hl.tree]
  exact replay_tree (runBy_keepsTree hhost hl hnatives fuel hresult hcleared)

/-- **State is committed where a root returns.** With natives that leave the tree alone, every mark
    of a run is accounted for. A run that does not finish leaves the tree as it was, unless a native
    gave it up and started the stack over. -/
theorem Reached.commits_at_root_return {worlds : World → Prop} {log : List Event}
    (h : Reached worlds log m) {host : Embedder} (hhost : host.Tame) (hnatives : m.world.natives.Tame)
    (fuel : Nat) :
    (∀ past mark future, runByCourse host fuel m = past ++ mark :: future →
      Accounted (log ++ Mark.log (past ++ [mark])) (reachedBy m past) mark) ∧
    ((runBy host fuel m).1 ≠ .ok .finished → .cleared ∉ Mark.log (runByCourse host fuel m) →
      (runBy host fuel m).2.stack.state = m.stack.state) := by
  have hl := h.describes
  obtain ⟨hfollows, -⟩ := runBy_tracks host fuel _ m hl
  have hruns := runWith_keepsOrder (execute_keepsOrder hhost fuel) _ m hl hnatives
  have hcommits : _ := hruns.commits
  refine ⟨fun past mark future hcourse => ?_, h.keepsState hhost hnatives⟩
  rw [hcourse] at hfollows
  rw [show runCourse _ _ m = _ from hcourse] at hcommits
  have hbefore := describes_reachedBy hl hfollows
  have hmark := hfollows.describes
  have hafter := (follows_append.1 hfollows).2.1
  have hhistory : (({} : Ledger).replay (log ++ Mark.log (past ++ [mark]))).Describes
      mark.machine.stack := by
    rw [replay_append]
    exact hmark
  refine ⟨hhistory, noNull_of_describes hhistory, ?_, ?_⟩
  · rw [replay_audible, hhistory.tree]
  · rcases (commits_append.1 hcommits).2.1 with hcommit | hkeeps
    · exact .inr (tree_of_commitsAt hbefore hafter hcommit)
    · refine .inl ⟨?_, fun number hmem => nomatch hkeeps _ hmem⟩
      rw [hafter.tree, hbefore.tree, replay_tree hkeeps]

end Machine

/-! ### A tally under a key -/

/-- A session that starts a block with a child that saves under a key and pauses. -/
def Script.tally : Script Unit :=
  .op (.addBlock { name := "counter", locals := 1 }
    [.code (.emit (.loadInt 0 7)), .saveState "n" 0, .code (.emit .pause), .code (.emit .ret)])
    fun _ =>
  .op (.addBlock { name := "main", locals := 1 }
    [.load 0 (.str "left"), .callKeyed 0 0 0 0 0, .code (.emit .ret)]) fun _ =>
  .op (.push 1 []) fun r => .done r

/-- The session uses only tame operations. -/
theorem Script.tame_tally : tally.Tame :=
  ⟨rfl, fun _ => ⟨rfl, fun _ => ⟨rfl, fun _ => trivial⟩⟩⟩

/-- The session comes by a stack that runs its child to the end, and every mark of that run is accounted
    for. -/
theorem Machine.Reached.commits_at_root_return_tally :
    ∃ (log : List Event) (m : Machine), Reached World.Filed log m ∧ Embedder.idle.Tame ∧
      m.world.natives.Tame ∧ m = (Script.tally.perform (runBy .idle 100) ⟨{}, .new {}, ""⟩).2 ∧
      ∀ past mark future, runByCourse .idle 100 m = past ++ mark :: future →
        Accounted (log ++ Mark.log (past ++ [mark])) (reachedBy m past) mark := by
  have hreached := Reached.after (.new World.filed_new {} "") .idle 100 Script.tally
  have hruns := runWith_keepsOrder (execute_keepsOrder (Embedder.tame_idle .simple) 100)
  have htame := (Script.keepsOrder (runBy_tracks .idle 100) hruns Script.tame_tally {}
    ⟨{}, .new {}, ""⟩ ⟨rfl, rfl⟩ NativeTable.tame_new).natives
  exact ⟨_, _, hreached, Embedder.tame_idle .simple, htame, rfl,
    (hreached.commits_at_root_return (Embedder.tame_idle .simple) htame 100).1⟩

/-! ### A native that starts the stack over -/

namespace Machine

variable {m : Machine}

/-- A session that ends with a push enters the block if the stack is ready. -/
theorem perform_push (resume : Action Outcome) (block : BlockId) (inputs : List Value)
    (hphase : m.stack.phase = .ready) :
    ((Script.op (.push block inputs) fun r => .done r).perform resume m).2 =
      (enter block inputs {} m).2 := by
  have hpush : HostOp.perform resume (.push block inputs) m = enter block inputs {} m :=
    push_of_ready hphase
  rw [Script.perform, Failing.bind_apply, attempt, hpush]
  rcases enter block inputs {} m with ⟨fault | _, n⟩
  · cases fault <;> rfl
  · rfl

/-- Entering a block without inputs whose program is filed. -/
theorem enter_filed {block : BlockId} {b : Block} {i : Nat} {p : Program}
    (hroom : m.stack.depth < m.stack.config.maxFrames) (hblock : m.world.blocks[block]? = some b)
    (hindex : m.world.programs.indices[block]? = some i) (hslot : m.world.slotProgram? i = some p)
    (hversion : p.version = b.version) (hinputs : p.signature.inputs = []) (link : Link) :
    enter block [] link m = (.ok (), m.withFrames ({
      block := block
      program := i
      version := p.version
      registers := Frame.resized #[] p.registers
      pc := ⟨0, p.nodeAt 0⟩
      parent := if m.stack.depth = 0 then none else some (m.stack.depth - 1)
      key := link.key
      incoming := incomingFor m.stack link.key
      bindings := link.bindings
      inputCount := 0
      returnTo := link.returnTo } :: m.stack.frames)) := by
  have hcompile : onWorld (World.compile block) m = (.ok i, m) := by
    rw [onWorld_apply, World.compile_filed hblock hindex hslot hversion]
  have hprogram : onWorld (World.program i) m = (.ok p, m) := by
    rw [onWorld_apply, World.program_of_slot hslot]
  have hrequired : p.signature.requiredInputs = 0 := by
    rw [Signature.requiredInputs, hinputs]
    cases p.signature.isVariadic <;> rfl
  rw [enter, getStack, Failing.bind_apply]
  simp only [Failing.bind_apply, Failing.get_apply, Failing.pure_apply, if_neg (Nat.not_le.2 hroom),
    hcompile, hprogram, hrequired, hinputs, List.length_nil, Nat.max_zero]
  rfl

end Machine

namespace Reopening

open Machine

/-- A block that lets a native run the stack, saves under a key and returns. A loop that goes on
    behind the return pauses. -/
def next : Block :=
  ⟨0, 0, { name := "next", locals := 1 },
    [.code (.emit (.loadInt 0 7)), .native "run", .saveState "n" 0, .code (.emit .ret),
      .code (.emit .pause)]⟩

/-- A block that lets a native move the stack to the first block. -/
def main : Block :=
  ⟨1, 0, { name := "main", locals := 1 },
    [.code (.emit (.loadInt 0 0)), .native "migrate", .code (.emit .ret)]⟩

/-- A block that lets a native fail the run and push the first block. -/
def other : Block :=
  ⟨2, 0, { name := "other" }, [.native "again", .code (.emit .ret)]⟩

/-- The program of a block that reads neither constants nor types. -/
def program (b : Block) (names : Array String) (code : List Instruction) : Program where
  index := b.id
  block := b.id
  version := b.version
  signature := b.signature
  code := (code.flatMap Instruction.encode).toArray
  constants := #[]
  blocks := #[]
  types := #[]
  names := names
  callSites := 0
  registers := b.signature.registerCount
  sourceMap := []

def nextProgram : Program :=
  program next #["n"] [.loadInt 0 7, .native 1, .saveState 0 0, .ret, .pause]

def mainProgram : Program :=
  program main #[] [.loadInt 0 0, .native 0, .ret]

def otherProgram : Program :=
  program other #[] [.native 2, .ret]

def world : World where
  blocks := #[next, main, other]
  programs :=
    { indices := (((∅ : Std.HashMap BlockId Nat).insert 2 2).insert 1 1).insert 0 0
      slots := #[⟨0, some nextProgram⟩, ⟨1, some mainProgram⟩, ⟨2, some otherProgram⟩] }
  natives :=
    { entries := #[("migrate", .host .migrate), ("run", .host .run), ("again", .installed 0)]
      indices := (((∅ : Std.HashMap String UInt16).insert "migrate" 0).insert "run" 1).insert "again" 2 }

/-- The embedder's native raises an error and pushes the first block, which clears the error. -/
def host : Embedder where
  script _ := .op (.raise "again") fun _ => .op (.push 0 []) fun r => .done r

def nextFrame : Frame :=
  { block := 0, program := 0, version := 0, registers := #[.null] }

def mainFrame : Frame :=
  { block := 1, program := 1, version := 0, registers := #[.null] }

def otherFrame : Frame :=
  { block := 2, program := 2, version := 0, registers := #[] }

/-- The machine with one frame. -/
def machine (f : Frame) : Machine :=
  ⟨world, { Stack.new {} with frames := [f] }, ""⟩

/-- The first block is entered. -/
theorem enter_next : enter 0 [] {} ⟨world, .new {}, ""⟩ = (.ok (), machine nextFrame) := by
  have hindex : world.programs.indices[(0 : BlockId)]? = some 0 := by
    rw [world, Std.HashMap.getElem?_insert_self]
  exact enter_filed (m := ⟨world, .new {}, ""⟩) (by decide) rfl hindex rfl rfl rfl {}

/-- The block that migrates is entered. -/
theorem enter_main : enter 1 [] {} ⟨world, .new {}, ""⟩ = (.ok (), machine mainFrame) := by
  have hindex : world.programs.indices[(1 : BlockId)]? = some 1 := by
    rw [world, Std.HashMap.getElem?_insert, if_neg (by decide), Std.HashMap.getElem?_insert_self]
  exact enter_filed (m := ⟨world, .new {}, ""⟩) (by decide) rfl hindex rfl rfl rfl {}

/-- The block that fails is entered. -/
theorem enter_other : enter 2 [] {} ⟨world, .new {}, ""⟩ = (.ok (), machine otherFrame) := by
  have hindex : world.programs.indices[(2 : BlockId)]? = some 2 := by
    rw [world, Std.HashMap.getElem?_insert, if_neg (by decide), Std.HashMap.getElem?_insert,
      if_neg (by decide), Std.HashMap.getElem?_insert_self]
  exact enter_filed (m := ⟨world, .new {}, ""⟩) (by decide) rfl hindex rfl rfl rfl {}

/-- A machine that executes the block of a frame and is at an offset. -/
def before (f : Frame) (registers : Array Value) (offset : Nat) : Machine :=
  (machine f).started.withFrames [{ f with registers := registers, pc := ⟨offset, none⟩ }]

/-- The native drops the frame of the main block and enters the first one. -/
theorem step_migrate (resume : Action Outcome) :
    step host resume mainProgram 6 (.native 0) (before mainFrame #[.int 0] 6) =
      (.ok .reload, machine nextFrame) := by
  rw [step.eq_3 _ _ _ _ _ (by simp) (by simp), Failing.bind_apply, perform, callNative,
    Failing.bind_apply, Failing.get_apply]
  dsimp only
  rw [show NativeTable.get? _ 0 = some ("migrate", .host .migrate) from rfl]
  dsimp only
  rw [Failing.bind_apply, invoke, invokeHost, Failing.bind_apply,
    show blockInput (before mainFrame #[.int 0] 6) = (.ok 0, before mainFrame #[.int 0] 6) from rfl]
  dsimp only
  rw [migrateTo, changeMain, Failing.bind_apply,
    show modifyStack _ (before mainFrame #[.int 0] 6) = (.ok (), (⟨world, .new {}, ""⟩ : Machine))
      from rfl]
  dsimp only
  rw [enter_next]
  rfl

/-- The native drops the frame that failed and enters the first block. -/
theorem step_again (resume : Action Outcome) :
    step host resume otherProgram 3 (.native 2) (before otherFrame #[] 3) =
      (.ok .reload, machine nextFrame) := by
  rw [step.eq_3 _ _ _ _ _ (by simp) (by simp), Failing.bind_apply, perform, callNative,
    Failing.bind_apply, Failing.get_apply]
  dsimp only
  rw [show NativeTable.get? _ 2 = some ("again", .installed 0) from rfl]
  dsimp only
  rw [Failing.bind_apply, invoke, host, Script.perform, Failing.bind_apply,
    show attempt (HostOp.perform resume (.raise "again")) _ = (.ok (.ok _), _) from rfl]
  dsimp only
  rw [Script.perform, Failing.bind_apply, attempt, show HostOp.perform resume (.push 0 []) _ =
    enter 0 [] {} ⟨world, .new {}, ""⟩ from rfl, enter_next]
  rfl

/-- The machine with the frame of the first block at an offset. -/
def inside (phase : Phase) (offset : Nat) (outgoing : List (Key × Value)) : Machine :=
  ⟨world, { Stack.new {} with
    frames := [{ nextFrame with registers := #[.int 7], pc := ⟨offset, none⟩, outgoing := outgoing }]
    phase := phase }, ""⟩

/-- The machine after what was saved became the tree. -/
def committed (offset : Nat) (phase : Phase) (last : Outcome) : Machine :=
  ⟨{ world with supply := 1 }, { Stack.new {} with
    frames := [{ nextFrame with registers := #[.int 7], pc := ⟨offset, none⟩ }]
    phase := phase
    state := .map 0 [(.name "n", .int 7)]
    lastOutcome := some last }, ""⟩

/-- The run that the native starts ends with a return. -/
theorem runWith_inside (fuel : Nat) : runWith (execute host (fuel + 2)) (inside .ready 6 []) =
    (.ok .finished, committed 11 .finished .finished) := by
  rw [runWith_ready rfl (List.cons_ne_nil _ _)]
  show ended (execute host (fuel + 2) nextProgram (inside .running 6 [])) = _
  rw [execute_succ host (fuel + 1) nextProgram rfl rfl]
  show ended (execute host (fuel + 1) nextProgram
    (inside .running 10 [(.name "n", .int 7)])) = _
  rw [execute_succ host fuel nextProgram rfl rfl]
  rfl

/-- The native runs the stack, and the run that it starts commits what was saved. -/
theorem step_run (fuel : Nat) : step host (runWith (execute host (fuel + 2))) nextProgram 6 (.native 1)
    (inside .ready 6 []) = (.ok .reload, committed 11 .finished .finished) := by
  rw [step.eq_3 _ _ _ _ _ (by simp) (by simp), Failing.bind_apply, perform, callNative,
    Failing.bind_apply, Failing.get_apply]
  dsimp only
  rw [show NativeTable.get? _ 1 = some ("run", .host .run) from rfl]
  dsimp only
  rw [Failing.bind_apply, invoke, invokeHost, Failing.bind_apply, runWith_inside]
  rfl

/-- The run goes on with the program of the first block. -/
theorem currentProgram_next (exec : Program → Action Outcome) :
    (currentProgram >>= exec) (machine nextFrame) = exec nextProgram (machine nextFrame) :=
  rfl

/-- After the native the loop goes on, since the run inside left a finished stack with a frame. -/
theorem continued_committed (fuel : Nat) : continued host fuel nextProgram 0 3 6
    (.ok .reload, committed 11 .finished .finished) =
      execute host fuel nextProgram (committed 11 .finished .finished) := by
  show (currentProgram >>= execute host fuel) _ = _
  generalize execute host fuel = exec
  rfl

/-- The loop goes on with the first block behind its return. -/
theorem execute_next (fuel : Nat) :
    (currentProgram >>= execute host (fuel + 4)) (machine nextFrame) =
      (.ok .paused, committed 12 .finished .finished) := by
  rw [currentProgram_next, execute_succ host (fuel + 3) nextProgram rfl rfl]
  show execute host (fuel + 3) nextProgram (inside .ready 3 []) = _
  rw [execute_succ host (fuel + 2) nextProgram rfl rfl]
  show continued host (fuel + 2) nextProgram 0 3 6
    (step host _ nextProgram 6 (.native 1) (inside .ready 6 [])) = _
  rw [step_run, continued_committed, execute_succ host (fuel + 1) nextProgram rfl rfl]
  rfl

/-- The run in which a native migrates pauses. -/
theorem runBy_main (fuel : Nat) : runBy host (fuel + 6) (machine mainFrame) =
    (.ok .paused, committed 12 .ready .paused) := by
  rw [runBy, runWith_ready rfl (List.cons_ne_nil _ _)]
  show ended (execute host (fuel + 6) mainProgram (machine mainFrame).started) = _
  rw [execute_succ host (fuel + 5) mainProgram rfl rfl]
  show ended (execute host (fuel + 5) mainProgram (before mainFrame #[.int 0] 3)) = _
  rw [execute_succ host (fuel + 4) mainProgram rfl rfl]
  show ended (continued host (fuel + 4) mainProgram 0 3 6
    (step host _ mainProgram 6 (.native 0) (before mainFrame #[.int 0] 6))) = _
  rw [step_migrate]
  show ended ((currentProgram >>= execute host (fuel + 4)) (machine nextFrame)) = _
  rw [execute_next]
  rfl

/-- The run in which a native pushes a block after an error pauses. -/
theorem runBy_other (fuel : Nat) : runBy host (fuel + 5) (machine otherFrame) =
    (.ok .paused, committed 12 .ready .paused) := by
  rw [runBy, runWith_ready rfl (List.cons_ne_nil _ _)]
  show ended (execute host (fuel + 5) otherProgram (machine otherFrame).started) = _
  rw [execute_succ host (fuel + 4) otherProgram rfl rfl]
  show ended (continued host (fuel + 4) otherProgram 0 0 3
    (step host _ otherProgram 3 (.native 2) (before otherFrame #[] 3))) = _
  rw [step_again]
  show ended ((currentProgram >>= execute host (fuel + 4)) (machine nextFrame)) = _
  rw [execute_next]
  rfl

/-- None of the natives touches the tree. -/
theorem tame : host.Tame :=
  fun _ => ⟨rfl, fun _ => ⟨rfl, fun _ => trivial⟩⟩

/-- A session that pushes a block comes by the stack with its frame. -/
theorem reached (block : BlockId) {f : Frame}
    (h : enter block [] {} ⟨world, .new {}, ""⟩ = (.ok (), machine f)) :
    ∃ log, Reached (· = world) log (machine f) := by
  have hnew : Reached (· = world) [] ⟨world, .new {}, ""⟩ := @Reached.new (· = world) world rfl {} ""
  have hreached := hnew.after host 0 (.op (.push block []) fun r => .done r)
  rw [perform_push _ _ _ rfl, h] at hreached
  exact ⟨_, hreached⟩

/-- A run in which a native starts the stack over, by a migration or by a push after an error, commits
    what a run inside of it saved, and then it pauses. -/
theorem restarts_commit : host.Tame ∧ world.natives.Tame ∧
    ∀ f ∈ [mainFrame, otherFrame], (∃ log, Reached (· = world) log (machine f)) ∧
      (machine f).stack.state = .null ∧
      ∀ fuel, (runBy host (fuel + 6) (machine f)).1 = .ok .paused ∧
        (runBy host (fuel + 6) (machine f)).2.stack.state = .map 0 [(.name "n", .int 7)] := by
  have hnatives : ∀ entry ∈ world.natives.entries, entry.2.isTame = true := by decide
  refine ⟨tame, hnatives, fun f hf => ?_⟩
  obtain rfl | rfl : f = mainFrame ∨ f = otherFrame := by simpa using hf
  · exact ⟨reached 1 enter_main, rfl, fun fuel => by rw [runBy_main]; exact ⟨rfl, rfl⟩⟩
  · exact ⟨reached 2 enter_other, rfl, fun fuel => by rw [runBy_other (fuel + 1)]; exact ⟨rfl, rfl⟩⟩

end Reopening
end BlockMachine

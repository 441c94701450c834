import BlockMachine.Proofs.Machine.HotReload

namespace BlockMachine

/-!
# Deeds of a session

A session is made of deeds: the operations that the host performs between runs, and those that natives
perform inside of runs. What is wanted of a session often depends on its deeds only, and follows from what
single deeds and single instructions do.

* `Deed` is an operation with the machine it was performed on; `Script.deeds`, `Machine.runDeeds` and
  `Machine.executeDeeds` list those of hosts, runs and the loop;
* `Regime` is what is to hold of the machines of a session and of machines one after the other, given that
  only certain deeds are done; `Regime.Lasts` says that nothing that happens breaks it;
* `Regime.Lasts.session` says that then it holds throughout a session.
-/

/-- An operation that a host or a native performs on a machine. -/
structure Deed where
  byNative : Bool
  machine : Machine
  answer : Type
  op : HostOp answer

open Machine

/-! ### Listing deeds -/

/-- What is done in the runs that an operation starts. -/
def HostOp.inside (running : Machine → List Deed) : {β : Type} → HostOp β → Machine → List Deed
  | _, .run, m => running m
  | _, .call block inputs, m =>
    match Machine.push block inputs m with
    | (.ok _, m') => running m'
    | (.error _, _) => []
  | _, _, _ => []

/-- What is done by a script, where `running` is done in runs. -/
def Script.deeds (byNative : Bool) (resume : Action Outcome) (running : Machine → List Deed) {α : Type} :
    Script α → Machine → List Deed
  | .done _, _ => []
  | .op o next, m =>
    ⟨byNative, m, _, o⟩ :: o.inside running m ++
      match o.perform resume m with
      | (.ok b, m') => (next (.ok b)).deeds byNative resume running m'
      | (.error (.raised e), m') => (next (.error e)).deeds byNative resume running m'
      | (.error _, _) => []

/-- What is done by a native. The default ones do nothing that a host does. -/
def Native.deeds (host : Embedder) (resume : Action Outcome) (running : Machine → List Deed) :
    Native → Machine → List Deed
  | .host f, m => f.script.deeds true resume running m
  | .installed code, m => (host.script code).deeds true resume running m
  | _, _ => []

namespace Machine

/-- What is done by an instruction. -/
def stepDeeds (host : Embedder) (resume : Action Outcome) (running : Machine → List Deed)
    (i : Instruction) (m : Machine) : List Deed :=
  match i with
  | .native index =>
    match m.world.natives.get? index with
    | some (_, f) => f.deeds host resume running m
    | none => []
  | _ => []

/-- What is done in a run. -/
def runDeeds (executing : Program → Machine → List Deed) (m : Machine) : List Deed :=
  if m.stack.phase = .ready ∧ m.stack.frames ≠ [] then
    match restartIfStale m.started with
    | (.ok _, m₁) =>
      match currentProgram m₁ with
      | (.ok program, m₂) => executing program m₂
      | (.error _, _) => []
    | (.error _, _) => []
  else []

/-- What is done in the loop. -/
def executeDeeds (host : Embedder) : Nat → Program → Machine → List Deed
  | 0, _, _ => []
  | fuel + 1, program, m =>
    match m.stack.cancelled, m.stack.frames with
    | false, f :: rest =>
      match program.instructionAt f.pc.offset with
      | .error _ => []
      | .ok (i, next) =>
        let m₁ := m.advanced f rest next
        let resume := runWith (execute host fuel)
        stepDeeds host resume (runDeeds (executeDeeds host fuel)) i m₁ ++
          match step host resume program next i m₁ with
          | (.ok .next, m₂) => executeDeeds host fuel program m₂
          | (.ok .reload, m₂) =>
            match currentProgram m₂ with
            | (.ok program, m₃) => executeDeeds host fuel program m₃
            | (.error _, _) => []
          | _ => []
    | _, _ => []

/-- What is done in a run under an embedder. -/
def runByDeeds (host : Embedder) (fuel : Nat) : Machine → List Deed :=
  runDeeds (executeDeeds host fuel)

/-- An instruction that calls no native takes one moment. -/
theorem stepMoments_eq {host : Embedder} {resume : Action Outcome} {running : Machine → List Moment}
    {program : Program} {next : Nat} {i : Instruction} {m : Machine} (hi : ∀ index, i ≠ .native index) :
    stepMoments host resume running program next i m =
      [⟨.other, (step host resume program next i m).2⟩] := by
  cases i with
  | native index => exact absurd rfl (hi index)
  | _ => rfl

/-- A run that crashed crashed in its execution. -/
theorem ended_crashed {r : Except Fault Outcome × Machine} (h : (ended r).1 = .error .crashed) :
    r.1 = .error .crashed := by
  obtain ⟨fault | outcome, m⟩ := r
  · cases fault with
    | raised e =>
      rw [ended, Failing.bind_apply] at h
      obtain ⟨hok, -⟩ := recordError_fails e m
      generalize recordError e m = r at h hok
      obtain ⟨_ | _, m'⟩ := r
      · cases hok
      · cases h
    | crashed => rfl
    | outOfFuel => cases h
  · cases h

end Machine

/-! ### Regimes -/

/-- What is to hold throughout a session that does only certain deeds. -/
structure Regime where
  /-- What holds of every machine. -/
  holds : Machine → Prop
  /-- What holds of the programs that the loop takes instructions from. -/
  fits : Program → Prop
  /-- How one machine leads to the next. -/
  moves : Machine → Machine → Prop
  /-- The deeds that are done. -/
  allows : Deed → Prop
  /-- What is known if there is a crash. -/
  crash : Prop

namespace Regime

variable {α β : Type} {g : Regime} {m m' : Machine}

/-- A computation leads from one machine of the regime to another. -/
structure Goes (g : Regime) (m : Machine) (r : Except Fault α × Machine) : Prop where
  holds : g.holds r.2
  moves : g.moves m r.2
  crash : r.1 = .error .crashed → g.crash

/-- **Nothing that happens in a session breaks a regime**: neither instructions, nor natives, nor
    operations, nor what a run does around them. -/
structure Lasts (g : Regime) : Prop where
  refl : ∀ {m}, g.holds m → g.moves m m
  instruction : ∀ {host resume program next i m f rest}, (∀ index, i ≠ .native index) → g.fits program →
    g.holds m → m.stack.frames = f :: rest → g.Goes m (step host resume program next i m)
  defaultNative : ∀ {host resume f m}, f.isDefault = true → g.holds m → g.Goes m (invoke host resume f m)
  operation : ∀ {byNative resume β m} {o : HostOp β}, o.isRun = false →
    g.allows ⟨byNative, m, β, o⟩ → g.holds m → g.Goes m (o.perform resume m)
  pushed : ∀ {byNative block inputs m}, g.allows ⟨byNative, m, _, .call block inputs⟩ → g.holds m →
    g.Goes m (push block inputs m)
  cleared : ∀ {m}, g.holds m → g.Goes m ((Except.ok () : Except Fault Unit),
    { m with stack := { m.stack.clearFrames with phase := .ready } })
  started : ∀ {m}, g.holds m → g.Goes m ((Except.ok () : Except Fault Unit), m.started)
  checked : ∀ {m}, g.holds m → g.Goes m (restartIfStale m)
  loaded : ∀ {m}, g.holds m → g.Goes m (currentProgram m)
  fitting : ∀ {m p m'}, g.holds m → currentProgram m = (.ok p, m') → g.fits p
  advanced : ∀ {m f rest} (next : Nat), g.holds m → m.stack.frames = f :: rest →
    g.Goes m ((Except.ok () : Except Fault Unit), m.advanced f rest next)
  /-- A pause notes the graph node in the active frame. -/
  paused : ∀ {m f rest} (node : Option UInt32), g.holds m → m.stack.frames = f :: rest →
    g.Goes m ((Except.ok () : Except Fault Unit),
      m.placed rest.length fun f => { f.pc with node := node })
  /-- A failure is noted in the frame that was active before the instruction. -/
  failed : ∀ {host resume running program next i m f rest fault m'} (pc : Pc), g.holds m →
    m.stack.frames = f :: rest → (∀ d ∈ stepDeeds host resume running i m, g.allows d) →
    step host resume program next i m = (.error fault, m') → g.holds m' →
    g.Goes m' ((Except.ok () : Except Fault Unit), m'.placed rest.length fun _ => pc)
  ended : ∀ {r : Except Fault Outcome × Machine}, g.holds r.2 →
    g.Goes r.2 ((Except.ok () : Except Fault Unit), (ended r).2)

end Regime

/-! ### Moments in a regime -/

namespace Moment

/-- Every fetch of an instruction, calls of natives aside, is followed by performing it. -/
def Performed : Machine → List Moment → Prop
  | _, [] => True
  | m, x :: rest =>
    (∀ held f fs i next, x.cause = .fetch held → m.stack.frames = f :: fs →
      held.instructionAt f.pc.offset = .ok (i, next) → (∀ index, i ≠ .native index) →
      x.machine = m.advanced f fs next ∧ ∃ y ys host resume, rest = y :: ys ∧
        y.machine = (step host resume held next i x.machine).2) ∧
    Performed x.machine rest

/-- Every machine leads to the next. -/
def Chain (moves : Machine → Machine → Prop) : Machine → List Moment → Prop
  | _, [] => True
  | m, x :: rest => moves m x.machine ∧ Chain moves x.machine rest

variable {moves : Machine → Machine → Prop} {m : Machine} {xs ys : List Moment}

theorem chain_append : Chain moves m (xs ++ ys) ↔ Chain moves m xs ∧ Chain moves (last m xs) ys := by
  induction xs generalizing m with
  | nil => simp [Chain]
  | cons x xs ih => rw [List.cons_append, Chain, Chain, ih, last_cons, and_assoc]

/-- What follows a fetch is not lost when more follows. -/
theorem Performed.append (hxs : Performed m xs) (hys : Performed (last m xs) ys) :
    Performed m (xs ++ ys) := by
  induction xs generalizing m with
  | nil => exact hys
  | cons x xs ih =>
    obtain ⟨hx, hxs⟩ := hxs
    refine ⟨fun held f fs i next hcause hframes hfetch hi => ?_, ih hxs hys⟩
    obtain ⟨hmachine, y, zs, host, resume, rfl, hy⟩ := hx held f fs i next hcause hframes hfetch hi
    exact ⟨hmachine, y, zs ++ ys, host, resume, rfl, hy⟩

/-- What was fetched in one place of a list. -/
theorem Performed.at {past future : List Moment} {x : Moment} (h : Performed m (past ++ x :: future)) :
    Performed (last m past) (x :: future) := by
  induction past generalizing m with
  | nil => exact h
  | cons y past ih => exact ih h.2

end Moment

namespace Regime

variable {α β : Type} {g : Regime} {m m' : Machine}

/-- Moments lead through machines of the regime to the end of a computation. -/
structure Follows (g : Regime) (xs : List Moment) (m : Machine) (r : Except Fault α × Machine) :
    Prop where
  chain : Moment.Chain g.moves m xs
  performed : Moment.Performed m xs
  holds : ∀ x ∈ xs, g.holds x.machine
  last : Moment.last m xs = r.2
  ends : g.holds r.2
  crash : r.1 = .error .crashed → g.crash

namespace Follows

variable {xs ys : List Moment} {r : Except Fault α × Machine}

/-- Nothing happens. -/
theorem nil (hm : g.holds m) {x : Except Fault α} (hx : x = .error .crashed → g.crash) :
    g.Follows [] m (x, m) :=
  ⟨trivial, trivial, List.forall_mem_nil _, rfl, hm, hx⟩

/-- One moment that is no fetch, and others. -/
theorem cons {x : Moment} {a : Except Fault β × Machine} (hcause : ∀ held, x.cause ≠ .fetch held)
    (ha : g.Goes m a) (hx : x.machine = a.2) (h : g.Follows xs x.machine r) :
    g.Follows (x :: xs) m r where
  chain := ⟨hx ▸ ha.moves, h.chain⟩
  performed := ⟨fun held _ _ _ _ hfetch => absurd hfetch (hcause held), h.performed⟩
  holds := List.forall_mem_cons.2 ⟨hx ▸ ha.holds, h.holds⟩
  last := h.last
  ends := h.ends
  crash := h.crash

/-- One moment that is no fetch. -/
theorem single {a : Except Fault α × Machine} (ha : g.Goes m a) : g.Follows [⟨.other, a.2⟩] m a :=
  .cons nofun ha rfl (.nil ha.holds ha.crash)

/-- A fetch, and what follows it. -/
theorem fetch {held : Program} {f : Frame} {rest : List Frame} {x : Machine}
    {a : Except Fault β × Machine} (hframes : m.stack.frames = f :: rest) (ha : g.Goes m a) (hx : x = a.2)
    (hnext : ∀ i next, held.instructionAt f.pc.offset = .ok (i, next) → (∀ index, i ≠ .native index) →
      x = m.advanced f rest next ∧ ∃ y ys host resume, xs = y :: ys ∧
        y.machine = (step host resume held next i x).2)
    (h : g.Follows xs x r) : g.Follows (⟨.fetch held, x⟩ :: xs) m r where
  chain := ⟨hx ▸ ha.moves, h.chain⟩
  performed := by
    refine ⟨fun held' f' fs i next hcause hframes' hfetch hi => ?_, h.performed⟩
    obtain rfl : held = held' := by simpa using hcause
    obtain ⟨rfl, rfl⟩ := List.cons.inj (hframes.symm.trans hframes')
    exact hnext i next hfetch hi
  holds := List.forall_mem_cons.2 ⟨hx ▸ ha.holds, h.holds⟩
  last := h.last
  ends := h.ends
  crash := h.crash

theorem append {n : Except Fault β × Machine} (h : g.Follows xs m n) (h' : g.Follows ys n.2 r) :
    g.Follows (xs ++ ys) m r where
  chain := Moment.chain_append.2 ⟨h.chain, h.last.symm ▸ h'.chain⟩
  performed := h.performed.append (h.last.symm ▸ h'.performed)
  holds := List.forall_mem_append.2 ⟨h.holds, h'.holds⟩
  last := by rw [Moment.last_append, h.last, h'.last]
  ends := h'.ends
  crash := h'.crash

/-- Another result at the same machine. -/
theorem result (h : g.Follows xs m r) {x : Except Fault β} (hx : x = .error .crashed → g.crash) :
    g.Follows xs m (x, r.2) :=
  ⟨h.chain, h.performed, h.holds, h.last, h.ends, hx⟩

end Follows

/-- A computation that starts in the regime, and does only what is allowed, has moments. -/
def Guides (g : Regime) (a : Action α) (moments : Machine → List Moment) (deeds : Machine → List Deed) :
    Prop :=
  ∀ m, g.holds m → (∀ d ∈ deeds m, g.allows d) → g.Follows (moments m) m (a m)

/-! ### Hosts and natives -/

namespace Lasts

variable {resume : Action Outcome} {running : Machine → List Moment} {doing : Machine → List Deed}

/-- A call is a push, a run, and the end of the call. -/
theorem call (hg : g.Lasts) (hresume : g.Guides resume running doing) {byNative : Bool} {block : BlockId}
    {inputs : List Value} (hm : g.holds m) (hallowed : g.allows ⟨byNative, m, _, .call block inputs⟩)
    (hdeeds : ∀ d ∈ (HostOp.call block inputs).inside doing m, g.allows d) :
    g.Follows ((HostOp.call block inputs).moments resume running m) m (callWith resume block inputs m) := by
  have hpush := hg.pushed hallowed hm
  rw [HostOp.moments]
  rw [HostOp.inside] at hdeeds
  rcases hstart : push block inputs m with ⟨e | _, m₁⟩ <;> rw [hstart] at hpush hdeeds
  · have hcall : callWith resume block inputs m = (.error e, m₁) := by
      rw [callWith, Failing.bind_apply, hstart]
    rw [hcall]
    exact .cons (by simp) hpush rfl (.nil hpush.holds fun h => hpush.crash (by simpa using h))
  have hrun := hresume m₁ hpush.holds hdeeds
  refine .cons (by simp) hpush rfl (hrun.append ?_)
  -- the end of the call clears the frames, or leaves the machine as the run left it
  rw [callWith, Failing.bind_apply, hstart]
  dsimp only
  rw [Failing.bind_apply]
  obtain ⟨hends, hcrash⟩ : g.holds (resume m₁).2 ∧ _ := ⟨hrun.ends, hrun.crash⟩
  generalize resume m₁ = r at hends hcrash
  obtain ⟨e | outcome, m₂⟩ := r
  · exact .single ⟨hends, hg.refl hends, fun h => hcrash (by simpa using h)⟩
  cases outcome with
  | finished => exact .single ⟨(hg.cleared hends).holds, (hg.cleared hends).moves, by rintro ⟨⟩⟩
  | paused | cancelled => exact .single ⟨hends, hg.refl hends, by rintro ⟨⟩⟩

theorem op (hg : g.Lasts) (hresume : g.Guides resume running doing) {byNative : Bool} {o : HostOp β}
    (hm : g.holds m) (hallowed : g.allows ⟨byNative, m, β, o⟩)
    (hdeeds : ∀ d ∈ o.inside doing m, g.allows d) :
    g.Follows (o.moments resume running m) m (o.perform resume m) := by
  cases hrun : o.isRun with
  | false =>
    have hmoments : o.moments resume running m = [⟨.other, (o.perform resume m).2⟩] := by
      cases o <;> first | rfl | exact nomatch hrun
    rw [hmoments]
    exact .single (hg.operation hrun hallowed hm)
  | true =>
    cases o with
    | run => exact hresume m hm hdeeds
    | call block inputs => exact hg.call hresume hm hallowed hdeeds
    | _ => exact nomatch hrun

/-- **Scripts stay in a regime**, given that runs do. -/
theorem script (hg : g.Lasts) (hresume : g.Guides resume running doing) (byNative : Bool)
    (script : Script α) :
    g.Guides (script.perform resume) (script.moments resume running)
      (script.deeds byNative resume doing) := by
  induction script with
  | done r =>
    intro m hm _
    cases r with
    | ok a => exact .nil hm (by simp)
    | error e => exact .nil hm (by simp)
  | op o next ih =>
    intro m hm hdeeds
    rw [Script.deeds, List.cons_append, List.forall_mem_cons, List.forall_mem_append] at hdeeds
    obtain ⟨hallowed, hinside, hrest⟩ := hdeeds
    have ho := hg.op hresume hm hallowed hinside
    rw [Script.moments, Script.perform, Failing.bind_apply, attempt]
    rcases hr : o.perform resume m with ⟨fault | b, m'⟩ <;> rw [hr] at ho hrest
    -- the script goes on after an error, but not after a crash or without fuel
    · cases fault with
      | raised e => exact ho.append (ih (.error e) m' ho.ends hrest)
      | crashed =>
        rw [List.append_nil]
        exact ho.result fun _ => ho.crash rfl
      | outOfFuel =>
        rw [List.append_nil]
        exact ho.result (by simp)
    · exact ho.append (ih (.ok b) m' ho.ends hrest)

theorem native (hg : g.Lasts) (hresume : g.Guides resume running doing) (host : Embedder) (f : Native) :
    g.Guides (invoke host resume f) (f.moments host resume running) (f.deeds host resume doing) := by
  intro m hm hdeeds
  cases f with
  | host f =>
    rw [invoke, invokeHost_eq]
    exact hg.script hresume true f.script m hm hdeeds
  | installed code => exact hg.script hresume true (host.script code) m hm hdeeds
  | _ => exact .single (hg.defaultNative rfl hm)

/-! ### Instructions and runs -/

theorem step (hg : g.Lasts) (hresume : g.Guides resume running doing) {host : Embedder}
    {program : Program} {next : Nat} {i : Instruction} {f : Frame} {rest : List Frame}
    (hp : g.fits program) (hm : g.holds m) (hframes : m.stack.frames = f :: rest)
    (hdeeds : ∀ d ∈ stepDeeds host resume doing i m, g.allows d) :
    g.Follows (stepMoments host resume running program next i m) m
      (Machine.step host resume program next i m) := by
  by_cases hi : ∃ index, i = .native index
  · obtain ⟨index, rfl⟩ := hi
    rw [stepMoments, step_native_apply]
    rw [stepDeeds] at hdeeds
    cases hentry : m.world.natives.get? index with
    | none => exact .nil hm (by simp)
    | some entry =>
      rw [hentry] at hdeeds
      have hnative := hg.native hresume host entry.2 m hm hdeeds
      dsimp only
      generalize invoke host resume entry.2 m = r at hnative
      -- the instruction ends where the native does, whatever it answers
      obtain ⟨fault | _, m'⟩ := r
      · exact hnative.result fun h => hnative.crash (by simpa using h)
      · dsimp only
        cases m'.stack.error with
        | some e => exact hnative.result (by simp)
        | none => exact hnative.result (by simp)
  · have hnative : ∀ index, i ≠ .native index := fun index h => hi ⟨index, h⟩
    rw [stepMoments_eq hnative]
    exact .single (hg.instruction hnative hp hm hframes)

/-- The end of a run is noted. -/
theorem closing (hg : g.Lasts) {r : Except Fault Outcome × Machine} (hr : g.holds r.2)
    (hcrash : r.1 = .error .crashed → g.crash) :
    g.Follows [⟨.other, (Machine.ended r).2⟩] r.2 (Machine.ended r) := by
  have hended := hg.ended hr
  exact .single ⟨hended.holds, hended.moves, fun h => hcrash (ended_crashed h)⟩

/-- **Runs stay in a regime**, given that the loop does. -/
theorem runWith (hg : g.Lasts) {exec : Program → Action Outcome}
    {executing : Program → Machine → List Moment} {deeds : Program → Machine → List Deed}
    (hexec : ∀ p, g.fits p → g.Guides (exec p) (executing p) (deeds p)) :
    g.Guides (Machine.runWith exec) (runMoments exec executing) (runDeeds deeds) := by
  intro m hm hdeeds
  by_cases hready : m.stack.phase = .ready ∧ m.stack.frames ≠ []
  · rw [runDeeds, if_pos hready] at hdeeds
    have hstarted := hg.started hm
    have hchecked := hg.checked hstarted.holds
    have hloaded := hg.loaded hchecked.holds
    have hfitting : ∀ p m', currentProgram (restartIfStale m.started).2 = (.ok p, m') → g.fits p :=
      fun _ _ h => hg.fitting hchecked.holds h
    -- the run looks for old programs, loads the program and executes it
    have hbody : g.Follows (bodyMoments executing m.started) m.started (body exec m.started) := by
      refine .cons (by simp) hchecked rfl ?_
      rw [body, Failing.bind_apply]
      generalize restartIfStale m.started = r at hchecked hloaded hfitting hdeeds ⊢
      obtain ⟨fault | _, m₁⟩ := r
      · exact .nil hchecked.holds fun h => hchecked.crash (by simpa using h)
      refine .cons (by simp) hloaded rfl ?_
      dsimp only at hdeeds ⊢
      rw [Failing.bind_apply]
      generalize currentProgram m₁ = r at hloaded hfitting hdeeds ⊢
      obtain ⟨fault | p, m₂⟩ := r
      · exact .nil hloaded.holds fun h => hloaded.crash (by simpa using h)
      · exact hexec p (hfitting p m₂ rfl) m₂ hloaded.holds hdeeds
    rw [runMoments_ready hready, runWith_ready hready.1 hready.2]
    exact .cons (by simp) hstarted rfl (hbody.append (hg.closing hbody.ends hbody.crash))
  · rw [runWith_reported hready, runMoments_idle hready]
    refine .nil hm fun h => ?_
    rw [reported] at h
    split at h
    · split at h <;> cases h
    · cases h
    · cases h

/-- **The loop goes on in a regime** after an instruction of the frame at position `top`. -/
theorem going (hg : g.Lasts) {host : Embedder} {fuel : Nat}
    (hloop : ∀ p, g.fits p → g.Guides (Machine.execute host fuel p) (executeMoments host fuel p)
      (executeDeeds host fuel p)) {program : Program} (hp : g.fits program) {top pc next : Nat}
    {r : Except Fault Flow × Machine} (hr : g.holds r.2) (hcrash : r.1 = .error .crashed → g.crash)
    (hpaused : r.1 = .ok .pause → ∃ f rest, r.2.stack.frames = f :: rest ∧ rest.length = top)
    (hfailed : ∀ fault, r.1 = .error fault → ∀ pc, g.Goes r.2
      ((Except.ok () : Except Fault Unit), r.2.placed top fun _ => pc))
    (hdeeds : ∀ d ∈ (match r with
      | (.ok .next, m) => executeDeeds host fuel program m
      | (.ok .reload, m) =>
        match currentProgram m with
        | (.ok program, m') => executeDeeds host fuel program m'
        | (.error _, _) => []
      | _ => [] : List Deed), g.allows d) :
    g.Follows (match r.1 with
      | .ok .next => executeMoments host fuel program r.2
      | .ok .reload =>
        ⟨.other, (currentProgram r.2).2⟩ ::
          match (currentProgram r.2).1 with
          | .ok program => executeMoments host fuel program (currentProgram r.2).2
          | .error _ => []
      | _ => [⟨.other, (continued host fuel program top pc next r).2⟩]) r.2
      (continued host fuel program top pc next r) := by
  obtain ⟨fault | flow, m⟩ := r
  · have hnoted := hfailed fault rfl ⟨pc, program.nodeAt pc⟩
    exact .single ⟨hnoted.holds, hnoted.moves, fun h => hcrash (by simpa [continued] using h)⟩
  cases flow with
  | next => exact hloop program hp m hr hdeeds
  | reload =>
    have hloaded := hg.loaded hr
    have hfitting : ∀ p m', currentProgram m = (.ok p, m') → g.fits p := fun _ _ h => hg.fitting hr h
    refine .cons (by simp) hloaded rfl ?_
    rw [continued, Failing.bind_apply]
    dsimp only at hdeeds hloaded hfitting ⊢
    generalize currentProgram m = r at hloaded hfitting hdeeds ⊢
    obtain ⟨fault | p, m'⟩ := r
    · exact .nil hloaded.holds fun h => hloaded.crash (by simpa using h)
    · exact hloop p (hfitting p m' rfl) m' hloaded.holds hdeeds
  | pause =>
    obtain ⟨f, rest, hframes, rfl⟩ := hpaused rfl
    have hnoted := hg.paused (program.nodeAt next) hr hframes
    exact .single ⟨hnoted.holds, hnoted.moves, by rintro ⟨⟩⟩
  | finish => exact .single ⟨hr, hg.refl hr, by rintro ⟨⟩⟩

/-- **The loop stays in a regime.** -/
theorem execute (hg : g.Lasts) (host : Embedder) (fuel : Nat) (program : Program) (hp : g.fits program) :
    g.Guides (Machine.execute host fuel program) (executeMoments host fuel program)
      (executeDeeds host fuel program) := by
  induction fuel generalizing program with
  | zero => exact fun m hm _ => .nil hm (by simp)
  | succ fuel ih =>
    intro m hm hdeeds
    rw [executeDeeds] at hdeeds
    rw [executeMoments]
    cases hstop : m.stack.cancelled with
    | true =>
      rw [execute_cancelled host fuel program hstop]
      exact .nil hm (by simp)
    | false =>
      cases hframes : m.stack.frames with
      | nil =>
        rw [execute_empty host fuel program hstop hframes]
        exact .nil hm (by simp)
      | cons f rest =>
        rw [execute_succ host fuel program hstop hframes]
        rw [hstop, hframes] at hdeeds
        dsimp only at hdeeds ⊢
        cases hfetch : program.instructionAt f.pc.offset with
        | error e =>
          -- there is no instruction to perform
          have hstays : g.Goes m ((Except.ok () : Except Fault Unit), m) := ⟨hm, hg.refl hm, by simp⟩
          refine .fetch hframes hstays rfl (fun i next h => ?_) (.nil hm (by simp))
          rw [hfetch] at h
          cases h
        | ok found =>
          obtain ⟨i, next⟩ := found
          rw [hfetch] at hdeeds
          obtain ⟨hstepping, hgoing⟩ := List.forall_mem_append.1 hdeeds
          have hadvanced := hg.advanced next hm hframes
          -- runs that a native starts have less fuel, so the induction covers them
          have hstep : g.Follows (stepMoments host _ _ program next i _) _ _ :=
            hg.step (hg.runWith ih) hp hadvanced.holds rfl hstepping
          refine .fetch hframes hadvanced rfl (fun i' next' h hi => ?_) (hstep.append ?_)
          · obtain ⟨rfl, rfl⟩ : i = i' ∧ next = next' := by simpa [hfetch] using h
            exact ⟨rfl, _, _, host, _, by rw [stepMoments_eq hi]; rfl, rfl⟩
          · refine hg.going ih hp hstep.ends hstep.crash (fun h => ?_)
              (fun fault h pc => hg.failed pc hadvanced.holds rfl hstepping (Prod.ext h rfl) hstep.ends) hgoing
            -- a pause changes nothing
            have hsame := (stepped (Prod.ext h rfl)).paused
            exact ⟨_, rest, congrArg (·.stack.frames) hsame, rfl⟩

/-- **Sessions stay in a regime** that lasts, as long as only what is allowed is done. -/
theorem session (hg : g.Lasts) (host : Embedder) (fuel : Nat) (session : Script α) :
    g.Guides (session.perform (runBy host fuel)) (session.moments (runBy host fuel) (runByMoments host fuel))
      (session.deeds false (runBy host fuel) (runByDeeds host fuel)) :=
  hg.script (hg.runWith fun p hp => hg.execute host fuel p hp) false session

end Lasts

end Regime

end BlockMachine

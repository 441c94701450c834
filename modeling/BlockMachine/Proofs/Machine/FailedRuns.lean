import BlockMachine.Proofs.Machine.Isolation
import BlockMachine.Proofs.Machine.Pauses
import BlockMachine.Proofs.Machine.Refusals

namespace BlockMachine

/-!
# Runs that fail

A run of a program without natives ends with an error only when the instruction that it took last fails.
That instruction has no effect then: all frames are as they were before it was taken, with the active one
at the instruction itself, and the error names that frame, its block and that offset.

* `Machine.UpToDate`: all frames run what is filed for their blocks. Runs start that way, and
  `Machine.step_upToDate` says that they go on so, which is why fetching a program anew never fails;
* `Machine.Blames` is what the loop leaves when an instruction fails, `Machine.execute_blames` the
  induction over the loop;
* **`Machine.Reached.failure_located`** is the law for runs.
-/

namespace Moment

variable {m : Machine} {x : Moment} {xs ys : List Moment}

/-- Whether the loop takes an instruction. -/
def isFetch (x : Moment) : Bool :=
  match x.cause with
  | .fetch _ => true
  | .check | .other => false

/-- What a moment counts as a fetch names the program that was held. -/
theorem isFetch_iff : x.isFetch = true ↔ ∃ held, x.cause = .fetch held := by
  rw [isFetch]
  cases x.cause <;> simp

/-- Whether the instruction that the loop takes is a call of a native. -/
def callsNative (m : Machine) (x : Moment) : Bool :=
  match x.taken? m with
  | some (_, .native _) => true
  | _ => false

/-- Whether no native is called from one moment to another. -/
def isPlain (m : Machine) : List Moment → Bool
  | [] => true
  | x :: rest => !x.callsNative m && isPlain x.machine rest

/-- Moments are plain if the first one is and the others after it. -/
theorem isPlain_cons : isPlain m (x :: xs) = true ↔ x.callsNative m = false ∧ isPlain x.machine xs = true := by
  rw [isPlain, Bool.and_eq_true, Bool.not_eq_true']

/-- Moments are plain if both parts of them are. -/
theorem isPlain_append : isPlain m (xs ++ ys) = true ↔ isPlain m xs = true ∧ isPlain (last m xs) ys = true := by
  induction xs generalizing m with
  | nil => simp [isPlain]
  | cons x xs ih => rw [List.cons_append, isPlain_cons, isPlain_cons, ih, last_cons, and_assoc]

/-- What is taken is what the active frame is at. -/
theorem taken?_fetch {n : Machine} {held : Program} {f : Frame} {rest : List Frame} {i : Instruction}
    {next : Nat} (hframes : m.stack.frames = f :: rest)
    (hfetch : held.instructionAt f.pc.offset = .ok (i, next)) :
    taken? m ⟨.fetch held, n⟩ = some (held, i) := by
  rw [taken?, hframes]
  dsimp only
  rw [hfetch]

/-- What is taken at a moment that calls no native is no call of a native. -/
theorem not_native (h : x.callsNative m = false) {held : Program} {i : Instruction}
    (hx : x.taken? m = some (held, i)) : ∀ index, i ≠ .native index := by
  rintro index rfl
  rw [callsNative, hx] at h
  exact nomatch h

/-- The last moment of its kind is found in one way only. -/
theorem last_fetch_unique {past past' rest rest' : List Moment} {x' : Moment}
    (h : past ++ x :: rest = past' ++ x' :: rest') (hx : x.isFetch = true) (hx' : x'.isFetch = true)
    (hrest : ∀ y ∈ rest, y.isFetch = false) (hrest' : ∀ y ∈ rest', y.isFetch = false) :
    past = past' ∧ x = x' := by
  rcases List.append_eq_append_iff.1 h with ⟨between, hpast, htail⟩ | ⟨between, hpast, htail⟩
  · cases between with
    | nil =>
      rw [List.append_nil] at hpast
      exact ⟨hpast.symm, (List.cons.inj htail).1⟩
    | cons y between =>
      -- the later of the two is among those that follow the other
      have hmem : x' ∈ rest := by
        rw [(List.cons.inj htail).2]
        simp
      exact absurd hx' (by rw [hrest x' hmem]; exact Bool.false_ne_true)
  · cases between with
    | nil =>
      rw [List.append_nil] at hpast
      exact ⟨hpast, (List.cons.inj htail).1.symm⟩
    | cons y between =>
      have hmem : x ∈ rest' := by
        rw [(List.cons.inj htail).2]
        simp
      exact absurd hx (by rw [hrest' x hmem]; exact Bool.false_ne_true)

end Moment

/-- The frame below all others has no caller. -/
theorem Ledger.Describes.root {l : Ledger} {s : Stack} (hl : l.Describes s) {f : Frame}
    (hframes : s.frames = [f]) : f.parent.isNone = true := by
  obtain ⟨a, as, -, hstrand, hrest⟩ := hl.cons hframes
  obtain rfl : as = [] := by
    cases as with
    | nil => rfl
    | cons => exact nomatch hrest
  exact congrArg Strand.isRoot hstrand

/-- What a frame runs decides whether it is held. -/
theorem Frame.Held.congr {w : World} {f f' : Frame} (h : f.Held w) (hedition : f'.edition = f.edition) :
    f'.Held w := by
  obtain ⟨p, hp, hversion⟩ := h
  have hprogram : f'.program = f.program := congrArg Edition.program hedition
  have hversion' : f'.version = f.version := congrArg Edition.version hedition
  exact ⟨p, hprogram ▸ hp, hversion.trans hversion'.symm⟩

namespace Machine

variable {α β : Type} {w : World} {m m' n : Machine}

/-! ### Frames that are up to date -/

/-- What frames run, and the programs that are filed. -/
def ground (m : Machine) : Array Block × ProgramTable × List Edition :=
  (m.world.blocks, m.world.programs, m.stack.frames.map Frame.edition)

/-- The ground is a part of the footing. -/
theorem ground_of_footing (h : m'.footing = m.footing) : m'.ground = m.ground := by
  have hplaces : m'.stack.frames.map Frame.place = m.stack.frames.map Frame.place :=
    congrArg Footing.places h
  have heditions := congrArg (List.map Prod.fst) hplaces
  rw [List.map_map, List.map_map] at heditions
  have hblocks : m'.world.blocks = m.world.blocks := congrArg Footing.blocks h
  have hprograms : m'.world.programs = m.world.programs := congrArg Footing.programs h
  rw [ground, ground, hblocks, hprograms]
  exact congrArg (fun editions => (_, _, editions)) heditions

/-- Going on to the next instruction does not change what a frame runs. -/
theorem advanced_ground {f : Frame} {rest : List Frame} (hframes : m.stack.frames = f :: rest)
    (next : Nat) : (m.advanced f rest next).ground = m.ground := by
  rw [ground, ground, hframes]
  rfl

/-- All frames run what is filed for their blocks, and no program that was filed before is lost. -/
structure UpToDate (w : World) (m : Machine) : Prop where
  kept : w.Kept m.world
  held : ∀ f ∈ m.stack.frames, f.Held m.world

namespace UpToDate

/-- From now on. -/
theorem refl (h : m.UpToDate w) : m.UpToDate m.world :=
  ⟨.refl h.kept.filed, h.held⟩

/-- Frames may go, and programs may come. -/
theorem sheds (h : m.UpToDate w) (hworld : m.world.Kept m'.world) (hs : m.Sheds m') : m'.UpToDate w := by
  refine ⟨h.kept.trans hworld, fun f' hf' => ?_⟩
  have hmem : f'.edition ∈ m.stack.frames.map Frame.edition := hs.subset (List.mem_map_of_mem hf')
  obtain ⟨f, hf, hedition⟩ := List.mem_map.1 hmem
  exact ((h.held f hf).mono hworld.retains).congr hedition.symm

/-- Being up to date is a matter of the ground alone. -/
theorem of_ground (h : m.UpToDate w) (hground : m'.ground = m.ground) : m'.UpToDate w := by
  obtain ⟨hblocks, hrest⟩ := Prod.mk.inj hground
  obtain ⟨hprograms, heditions⟩ := Prod.mk.inj hrest
  exact h.sheds (h.kept.filed.kept hblocks hprograms) (.of_editions heditions)

/-- A frame of a program that is filed is pushed. -/
theorem push (h : m.UpToDate w) {f : Frame} (hf : f.Held m.world) :
    (m.withFrames (f :: m.stack.frames)).UpToDate w :=
  ⟨h.kept, List.forall_mem_cons.2 ⟨hf, h.held⟩⟩

/-- The active frame runs some program. -/
theorem exists_executing (h : m.UpToDate w) (hframes : m.stack.frames ≠ []) : ∃ p, m.Executing p := by
  obtain ⟨f, rest, hf⟩ := List.exists_cons_of_ne_nil hframes
  obtain ⟨p, hp, hversion⟩ := h.held f (hf ▸ List.mem_cons_self)
  exact ⟨p, f, rest, hf, hp, hversion⟩

end UpToDate

/-- What the active frame runs is a matter of the ground alone. -/
theorem Executing.of_ground {p : Program} (h : m.Executing p) (hground : m'.ground = m.ground) :
    m'.Executing p := by
  obtain ⟨f, rest, hframes, hslot, hversion⟩ := h
  obtain ⟨-, hrest⟩ := Prod.mk.inj hground
  obtain ⟨hprograms, heditions⟩ := Prod.mk.inj hrest
  rw [hframes, List.map_cons] at heditions
  obtain ⟨f', rest', hframes', hf', -⟩ := List.map_eq_cons_iff.1 heditions
  refine ⟨f', rest', hframes', ?_, hversion.trans (congrArg Edition.version hf').symm⟩
  rw [World.slotProgram?, hprograms, show f'.program = f.program from congrArg Edition.program hf']
  exact hslot

/-! ### Instructions -/

/-- A world that only compiles. -/
theorem onWorld_bind_upToDate {g : World.Action α} {k : α → Action β} (hm : m.UpToDate w)
    (hg : m.world.Kept (g m.world).2)
    (hk : ∀ x n, n.UpToDate w → onWorld g m = (.ok x, n) → (k x n).2.UpToDate w) :
    ((onWorld g >>= k) m).2.UpToDate w := by
  have hn : (onWorld g m).2.UpToDate w := by
    rw [onWorld_apply]
    generalize g m.world = r at hg
    obtain ⟨_ | _, w'⟩ := r <;> exact hm.sheds hg (.of_frames rfl)
  rw [Failing.bind_apply]
  rcases hr : onWorld g m with ⟨_ | x, n⟩ <;> rw [hr] at hn
  · exact hn
  · exact hk x n hn hr

/-- A block that is entered runs what was just filed for it. -/
theorem enter_upToDate (block : BlockId) (args : List Value) (link : Link) (hm : m.UpToDate w) :
    (enter block args link m).2.UpToDate w := by
  have hstack : ∀ k : Stack → Action Unit, (getStack >>= k) m = k m.stack m := fun _ => rfl
  rw [enter, hstack]
  dsimp only
  split
  · exact hm
  refine onWorld_bind_upToDate hm (hm.kept.filed.compile block).1 fun index m₁ hm₁ _ => ?_
  refine onWorld_bind_upToDate hm₁ (hm₁.kept.filed.program index).1 fun p m₂ hm₂ hprogram => ?_
  split
  · exact hm₂
  -- casting the arguments touches no program
  have hfooting := castArguments_footing p.signature 0 args m₂
  have hslot : m₂.world.slotProgram? index = some p := by
    have hfound := (hm₁.kept.filed.program index).2 p
    obtain ⟨hfetch, -⟩ := onWorld_ok hprogram
    rw [hfetch] at hfound
    exact hfound rfl
  rw [Failing.bind_apply]
  generalize castArguments p.signature 0 args m₂ = r at hfooting
  obtain ⟨_ | vs, m₃⟩ := r
  · exact hm₂.of_ground (ground_of_footing hfooting)
  have hm₃ : m₃.UpToDate w := hm₂.of_ground (ground_of_footing hfooting)
  have hprograms : m₃.world.programs = m₂.world.programs := congrArg Footing.programs hfooting
  refine hm₃.push (f := ⟨block, index, p.version, _, _, _, _, _, _, _, _, _, _⟩) ⟨p, ?_, rfl⟩
  rw [World.slotProgram?, hprograms]
  exact hslot

/-- Working in a frame does not change what it runs. -/
theorem Works.sheds {room : Prop} (h : m.Works room m') : m.Sheds m' := by
  cases hframes : m.stack.frames with
  | nil => exact .of_frames ((h.nil hframes).trans hframes.symm)
  | cons f rest =>
    obtain ⟨f', hframes', hf⟩ := h.cons hframes
    have hedition : f'.edition = f.edition :=
      show f'.fixed.edition = f.fixed.edition from congrArg Frame.edition hf.fixed
    apply Sheds.of_editions
    rw [hframes, hframes', List.map_cons, List.map_cons, hedition]

/-- A return takes frames away at most. -/
theorem Returned.sheds {declared : List Output} {f : Frame} {rest : List Frame}
    {r : Except Fault Bool × Machine} (hframes : m.stack.frames = f :: rest)
    (h : Returned declared m f rest r) : m.Sheds r.2 := by
  cases h with
  | refused h => exact .of_frames (congrArg Stack.frames h)
  | ended h => exact h.sheds
  | orphaned _ hframes' =>
    rw [Sheds, hframes']
    exact List.nil_suffix
  | @handed caller caller' below _ hrest hframes' _ h =>
    have hedition : caller'.edition = caller.edition := by rw [h.same]; rfl
    rw [Sheds, hframes, hframes', hrest, List.map_cons, List.map_cons, List.map_cons, hedition]
    exact List.suffix_cons _ _

/-- It leaves blocks and programs alone. -/
theorem leave_world (program : Program) :
    Preserves (fun m => (m.world.blocks, m.world.programs)) (leave program) := by
  refine .bind (active_machine.part fun m => (m.world.blocks, m.world.programs)) fun f =>
    .bind (castOutputs_preserves (fun _ _ => rfl) _ _ _ _) fun outputs => ?_
  split
  · exact .bind (fun _ => rfl) fun _ => .pure _
  · refine .bind (fun _ => rfl) fun _ => .bind ?_ fun _ => .pure _
    refine .bind (active_machine.part fun m => (m.world.blocks, m.world.programs)) fun parent => ?_
    dsimp only
    split
    · exact fun _ => rfl
    · exact fun _ => rfl

/-- Frames stay up to date when one of them returns. -/
theorem leave_upToDate (program : Program) (hm : m.UpToDate w) : (leave program m).2.UpToDate w := by
  have hworld := leave_world program m
  obtain ⟨hblocks, hprograms⟩ := Prod.mk.inj hworld
  refine hm.sheds (hm.kept.filed.kept hblocks hprograms) ?_
  cases hframes : m.stack.frames with
  | nil =>
    rw [leave, Failing.bind_apply, active_apply_nil hframes]
    exact .refl m
  | cons f rest => exact (leave_returned program hframes).sheds hframes

section

variable {host : Embedder} {resume : Action Outcome} {program : Program} {next : Nat} {i : Instruction}

/-- An instruction inside a frame does not change what any frame runs. -/
theorem perform_inside_ground (hi : i.leavesFrame = false) :
    Preserves ground (perform host resume program next i) := by
  have hread : ∀ {γ : Type} {a : Action γ}, Preserves footing a → Preserves ground a :=
    fun h n => ground_of_footing (h n)
  cases hjump : i.isJump with
  | false => exact hread (perform_inside_footing hi hjump)
  | true =>
    cases i with
    | jump cond offset =>
      have htaken : Preserves footing (isTaken cond) :=
        Ensures.footing fun o => isTaken_ensures (closed_footing o) cond
      refine .bind (hread htaken) fun taken => ?_
      split
      · rw [jump]
        dsimp only
        split
        · exact .throw _
        intro n
        cases hframes : n.stack.frames with
        | nil => rw [modifyActive, Failing.bind_apply, active_apply_nil hframes]
        | cons f rest =>
          rw [modifyActive_apply _ hframes, ground, ground, hframes]
          rfl
      · exact .pure _
    | _ => cases hjump

/-- A call pushes a frame that runs what is filed for its block. -/
theorem perform_call_upToDate (hm : m.UpToDate w) (hi : i.isCall = true) :
    (perform host resume program next i m).2.UpToDate w := by
  have hback : ∀ n : Machine, n.footing = m.footing → n.UpToDate w :=
    fun n hn => hm.of_ground (ground_of_footing hn)
  exact perform_call_leads Value.hereditary_true (closed_footing m.footing) (fun hn _ => hn)
    (fun _ _ _ _ _ _ => trivial) hback (fun block args link _ _ n hn =>
      enter_upToDate block args link (hback n hn)) next hi m rfl

/-- An instruction that leaves its frame, and is neither a native nor a pause nor a return, is a call. -/
theorem isCall_of_leavesFrame (hi : i.leavesFrame = true) (hnative : ∀ index, i ≠ .native index)
    (hpause : i ≠ .pause) (hret : i ≠ .ret) : i.isCall = true := by
  cases i with
  | call | callKeyed | callFunc | callFuncApply | callMethod => rfl
  | native index => exact absurd rfl (hnative index)
  | pause => exact absurd rfl hpause
  | ret => exact absurd rfl hret
  | _ => exact nomatch hi

/-- **Instructions keep frames up to date**, calls of natives aside. -/
theorem step_upToDate (hnative : ∀ index, i ≠ .native index) (hm : m.UpToDate w) :
    (step host resume program next i m).2.UpToDate w := by
  by_cases hpause : i = .pause
  · subst hpause
    exact hm
  by_cases hret : i = .ret
  · subst hret
    have hleft := leave_upToDate program hm
    rw [step, Failing.bind_apply]
    generalize leave program m = r at hleft
    obtain ⟨_ | _, n⟩ := r <;> exact hleft
  rw [step_machine hpause hret]
  cases hi : i.leavesFrame with
  | true => exact perform_call_upToDate hm (isCall_of_leavesFrame hi hnative hpause hret)
  | false => exact hm.of_ground (perform_inside_ground hi m)

/-- When the loop goes on with the program it holds, the active frame still runs it. -/
theorem step_next_executing (hp : m.Executing program)
    (h : step host resume program next i m = (.ok .next, m')) : m'.Executing program := by
  generalize hflow : Flow.next = flow at h
  cases stepped h with
  | pause | finish | back => exact nomatch hflow
  | perform hpause hret hperform =>
    cases hi : i.leavesFrame with
    | true =>
      rw [hi] at hflow
      exact nomatch hflow
    | false =>
      have hground : (perform host resume program next i m).2.ground = m.ground :=
        perform_inside_ground hi m
      rw [hperform] at hground
      exact hp.of_ground hground

/-- An instruction that goes well and has the program fetched anew leaves a frame to fetch it for. -/
theorem step_reload_frames (hnative : ∀ index, i ≠ .native index) {f : Frame} {rest : List Frame}
    (hframes : m.stack.frames = f :: rest)
    (h : step host resume program next i m = (.ok .reload, m')) : m'.stack.frames ≠ [] := by
  generalize hflow : Flow.reload = flow at h
  cases stepped h with
  | pause | finish => exact nomatch hflow
  | back hleave =>
    have hreturned := leave_returned program hframes
    rw [hleave] at hreturned
    cases hreturned with
    | handed _ hframes' => rw [hframes']; nofun
  | perform hpause hret hperform =>
    cases hi : i.leavesFrame with
    | false =>
      rw [hi] at hflow
      exact nomatch hflow
    | true =>
      have hcalled : Called i m (perform host resume program next i m) :=
        perform_called (isCall_of_leavesFrame hi hnative hpause hret) m
      rw [hperform] at hcalled
      cases hcalled with
      | stayed hworks =>
        obtain ⟨f', hframes', -⟩ := hworks.cons hframes
        have hcons : m'.stack.frames = f' :: rest := hframes'
        rw [hcons]
        nofun
      | pushed _ _ _ _ hframes' => rw [hframes']; nofun

end

/-! ### The loop -/

/-- What an instruction raises when it is taken from a program by the active frame, and performed. -/
def Raises (host : Embedder) (held : Program) (f : Frame) (below : List Frame) (m : Machine)
    (e : RuntimeError) : Prop :=
  match held.instructionAt f.pc.offset with
  | .ok (i, next) =>
    ∃ resume, (step host resume held next i (m.advanced f below next)).1 = .error (.raised e)
  | .error d => e = .compile (.malformed d)

/-- At `n` the active frame took an instruction at a moment `x`. It failed, which left `m'`. Unless it is a
    gradual one, all frames are as they were. -/
structure Blamed (host : Embedder) (n : Machine) (x : Moment) (m' : Machine) (e : RuntimeError)
    (held : Program) (f : Frame) (below : List Frame) : Prop where
  cause : x.cause = .fetch held
  frames : n.stack.frames = f :: below
  raises : Raises host held f below n e
  filed : m'.world.slotProgram? f.program = some held
  stack : (∀ i, x.taken? n = some (held, i) → i.isGradual = false) →
    ∃ node, m'.stack.uncached = { n.stack.uncached with frames := f.noting node :: below }

/-- The instruction taken last, among the moments from `m` on, is to blame for what is left. -/
def Blames (host : Embedder) (m : Machine) (moments : List Moment) (m' : Machine) (e : RuntimeError) : Prop :=
  ∃ past x rest held f below, moments = past ++ x :: rest ∧ (∀ y ∈ rest, y.isFetch = false) ∧
    Blamed host (Moment.last m past) x m' e held f below

namespace Blames

variable {host : Embedder} {moments : List Moment} {e : RuntimeError}

/-- The first instruction is the last one, too. -/
theorem first {x : Moment} {rest : List Moment} {held : Program} {f : Frame} {below : List Frame}
    (hrest : ∀ y ∈ rest, y.isFetch = false) (h : Blamed host m x m' e held f below) :
    Blames host m (x :: rest) m' e :=
  ⟨[], x, rest, held, f, below, rfl, hrest, h⟩

/-- More happened before. -/
theorem prepend (before : List Moment) (h : Blames host (Moment.last m before) moments m' e) :
    Blames host m (before ++ moments) m' e := by
  obtain ⟨past, x, rest, held, f, below, rfl, hrest, hblamed⟩ := h
  refine ⟨before ++ past, x, rest, held, f, below, (List.append_assoc ..).symm, hrest, ?_⟩
  rw [Moment.last_append]
  exact hblamed

/-- More happens later, but nothing is taken. -/
theorem append (after : List Moment) (hafter : ∀ y ∈ after, y.isFetch = false)
    (h : Blames host m moments m' e) : Blames host m (moments ++ after) m' e := by
  obtain ⟨past, x, rest, held, f, below, rfl, hrest, hblamed⟩ := h
  refine ⟨past, x, rest ++ after, held, f, below, ?_, fun y hy => ?_, hblamed⟩
  · rw [List.append_assoc, List.cons_append]
  · rcases List.mem_append.1 hy with hy | hy
    · exact hrest y hy
    · exact hafter y hy

end Blames

/-- The pc is put back into the active frame. -/
theorem placed_uncached {f : Frame} {rest : List Frame} {next : Nat} (node : Option UInt32)
    (h : m'.stack.uncached = (m.advanced f rest next).stack.uncached) :
    (m'.placed rest.length fun _ => ⟨f.pc.offset, node⟩).stack.uncached =
      { m.stack.uncached with frames := f.noting node :: rest } := by
  have hframes : m'.stack.frames = { f with pc := ⟨next, f.pc.node⟩ } :: rest :=
    congrArg Stack.frames h
  have hplaced : m'.stack.modifyFrameAt rest.length (fun g => { g with pc := ⟨f.pc.offset, node⟩ }) =
      { m'.stack with frames := f.noting node :: rest } := by
    rw [Stack.modifyFrameAt, Stack.depth, hframes, List.length_cons, if_pos (Nat.lt_succ_self _),
      Nat.add_sub_cancel, Nat.sub_self]
    rfl
  have hrest : { m'.stack.uncached with frames := f.noting node :: rest } =
      { m.stack.uncached with frames := f.noting node :: rest } := by
    rw [h]
    rfl
  rw [placed, hplaced]
  exact hrest

section

variable {host : Embedder} {program : Program} {f : Frame} {rest : List Frame} {l : Ledger}
  {e : RuntimeError}

/-- Bytes that are no instruction fail before anything is changed. -/
theorem malformed_blamed (hp : m.world.slotProgram? f.program = some program)
    (hframes : m.stack.frames = f :: rest) {d : DecodeError}
    (hfetch : program.instructionAt f.pc.offset = .error d) :
    Blamed host m ⟨.fetch program, m⟩ m (.compile (.malformed d)) program f rest := by
  refine ⟨rfl, hframes, ?_, hp, fun _ => ⟨f.pc.node, ?_⟩⟩
  · rw [Raises, hfetch]
  · show m.stack.uncached = { m.stack.uncached with frames := f :: rest }
    rw [← hframes]
    rfl

/-- An instruction that fails after it was taken is to blame. -/
theorem step_blamed {resume : Action Outcome} {i : Instruction} {next : Nat} (hm : m.UpToDate m.world)
    (hp : m.world.slotProgram? f.program = some program) (hl : l.Describes m.stack)
    (hframes : m.stack.frames = f :: rest)
    (hfetch : program.instructionAt f.pc.offset = .ok (i, next)) (hnative : ∀ index, i ≠ .native index)
    (h : step host resume program next i (m.advanced f rest next) = (.error (.raised e), m')) :
    Blamed host m ⟨.fetch program, m.advanced f rest next⟩
      (m'.placed rest.length fun _ => ⟨f.pc.offset, program.nodeAt f.pc.offset⟩) e program f rest := by
  refine ⟨rfl, hframes, ?_, ?_, fun hgradual => ⟨program.nodeAt f.pc.offset, ?_⟩⟩
  · rw [Raises, hfetch]
    exact ⟨resume, congrArg Prod.fst h⟩
  · -- the program is still filed, whatever was compiled for a call
    have hm₁ : (m.advanced f rest next).UpToDate m.world := hm.of_ground (advanced_ground hframes next)
    have hm₂ : (step host resume program next i (m.advanced f rest next)).2.UpToDate m.world :=
      step_upToDate hnative hm₁
    rw [h] at hm₂
    exact hm₂.kept.retains _ _ hp
  · apply placed_uncached
    have hl₁ : l.Describes (m.advanced f rest next).stack := hl.congr rfl (by rw [hframes]; rfl)
    exact step_failed hnative (hgradual i (Moment.taken?_fetch hframes hfetch)) (fun _ hg => hl₁.root hg) h

/-- **A loop that fails** was ended by the last instruction that it took. -/
theorem execute_blames (host : Embedder) (fuel : Nat) {program : Program} {m m' : Machine} {l : Ledger}
    (hm : m.UpToDate m.world) (hp : m.Executing program) (hl : l.Describes m.stack)
    (hplain : Moment.isPlain m (executeMoments host fuel program m) = true)
    (h : execute host fuel program m = (.error (.raised e), m')) :
    Blames host m (executeMoments host fuel program m) m' e := by
  induction fuel generalizing program m l with
  | zero => cases (congrArg Prod.fst h : Except.error Fault.outOfFuel = _)
  | succ fuel ih =>
    obtain ⟨f, rest, hframes, hslot, -⟩ := id hp
    cases hstop : m.stack.cancelled with
    | true =>
      rw [execute_cancelled host fuel program hstop] at h
      cases congrArg Prod.fst h
    | false =>
      rw [execute_succ host fuel program hstop hframes] at h
      rw [executeMoments, hstop, hframes] at hplain ⊢
      dsimp only at hplain ⊢
      cases hfetch : program.instructionAt f.pc.offset with
      | error d =>
        rw [hfetch] at h
        obtain ⟨hraised, rfl⟩ := Prod.mk.inj h
        obtain rfl := Fault.raised.inj (Except.error.inj hraised)
        exact .first (List.forall_mem_nil _) (malformed_blamed hslot hframes hfetch)
      | ok found =>
        obtain ⟨i, next⟩ := found
        rw [hfetch] at h hplain
        dsimp only at h hplain ⊢
        obtain ⟨hcalls, hplain⟩ := Moment.isPlain_cons.1 hplain
        have hnative := Moment.not_native hcalls (Moment.taken?_fetch hframes hfetch)
        rw [stepMoments_eq hnative] at hplain ⊢
        -- what the step finds, and what it leaves
        have hground := advanced_ground hframes next
        have hl₁ : l.Describes (m.advanced f rest next).stack := hl.congr rfl (by rw [hframes]; rfl)
        have htracks : Tracks (runBy host fuel) (runByCourse host fuel) := runBy_tracks host fuel
        obtain ⟨-, hl₂⟩ := step_tracks (fun g => g.tracks host htracks) program next i l _ hl₁
        have hm₂ : (step host (runBy host fuel) program next i (m.advanced f rest next)).2.UpToDate
            (step host (runBy host fuel) program next i (m.advanced f rest next)).2.world :=
          (step_upToDate hnative (hm.of_ground hground)).refl
        rw [← runBy] at h hplain ⊢
        rcases hstep : step host (runBy host fuel) program next i (m.advanced f rest next)
          with ⟨fault | flow, m₂⟩ <;> rw [hstep] at h hplain hl₂ hm₂
        · obtain ⟨hraised, rfl⟩ := Prod.mk.inj h
          obtain rfl := Except.error.inj hraised
          exact .first (by simp [Moment.isFetch]) (step_blamed hm hslot hl hframes hfetch hnative hstep)
        cases flow with
        | next =>
          have hp₂ : m₂.Executing program := step_next_executing (hp.of_ground hground) hstep
          obtain ⟨-, hplain⟩ := Moment.isPlain_append.1 hplain
          exact (ih hm₂ hp₂ hl₂ hplain h).prepend
            [⟨.fetch program, m.advanced f rest next⟩, ⟨.other, m₂⟩]
        | reload =>
          -- the program of a frame that is up to date is there
          obtain ⟨p, hp₂⟩ := hm₂.exists_executing (step_reload_frames hnative rfl hstep)
          have hload := hp₂.currentProgram
          rw [continued, Failing.bind_apply, hload] at h
          dsimp only at hplain ⊢
          rw [hload] at hplain ⊢
          obtain ⟨-, hplain⟩ := Moment.isPlain_append.1 hplain
          obtain ⟨-, hplain⟩ := Moment.isPlain_cons.1 hplain
          exact (ih hm₂ hp₂ hl₂ hplain h).prepend
            [⟨.fetch program, m.advanced f rest next⟩, ⟨.other, m₂⟩, ⟨.other, m₂⟩]
        | pause | finish => cases congrArg Prod.fst h

end

/-! ### Runs -/

/-- An error is noted with the place of the active frame. -/
theorem recordError_apply {f : Frame} {below : List Frame} {p : Program} (e : RuntimeError)
    (hframes : m.stack.frames = f :: below) (hp : m.world.slotProgram? f.program = some p) :
    recordError e m = (.ok (), { m with stack := { m.stack with
      error := some ⟨e, below.length, some f.block, ⟨f.pc.offset, p.nodeAt f.pc.offset⟩⟩
      phase := .finished } }) := by
  have hfetch : tryWorld (World.program f.program) m = (.ok (.ok p), m) := by
    show (Except.ok (World.program f.program m.world).1,
      ({ m with world := (World.program f.program m.world).2 } : Machine)) = _
    rw [World.program_of_slot hp]
  have hnote : ∀ note : Stack → Stack, modifyStack note m = (.ok (), { m with stack := note m.stack }) :=
    fun _ => rfl
  simp only [recordError, getStack, Failing.bind_apply, Failing.get_apply, Failing.pure_apply, hframes,
    hfetch, hnote, Stack.depth, List.length_cons, Nat.add_sub_cancel]

/-- A run in which an instruction is taken executes a program. -/
theorem exists_executed {host : Embedder} {fuel : Nat} (hm : m.world.Filed)
    (htaken : ∃ x ∈ runByMoments host fuel m, x.isFetch = true) : ∃ p n,
      restartIfStale m.started = (.ok (), n) ∧ n.UpToDate n.world ∧ n.Executing p ∧
      runBy host fuel m = ended (execute host fuel p n) ∧
      runByMoments host fuel m = [⟨.other, m.started⟩, ⟨.check, n⟩, ⟨.other, n⟩] ++
        (executeMoments host fuel p n ++ [⟨.other, (runBy host fuel m).2⟩]) := by
  by_cases hready : m.stack.phase = .ready ∧ m.stack.frames ≠ []
  · have hrun : runBy host fuel m = ended (body (execute host fuel) m.started) :=
      runWith_ready hready.1 hready.2
    have hmoments : runByMoments host fuel m = ⟨.other, m.started⟩ ::
        (bodyMoments (executeMoments host fuel) m.started ++ [⟨.other, (runBy host fuel m).2⟩]) :=
      runMoments_ready hready
    rw [body_apply, Failing.bind_apply] at hrun
    rw [bodyMoments] at hmoments
    rcases restartIfStale_held (m := m.started) hm with ⟨n, hn, hfiled, -, hheld⟩ | ⟨e, n, hn⟩
    · have hn' : n.UpToDate n.world := ⟨.refl hfiled, hheld⟩
      rw [hn] at hrun hmoments
      dsimp only at hrun hmoments
      by_cases hframes : n.stack.frames = []
      · -- without a frame nothing is taken
        have hnone : currentProgram n = (.error (.raised (.violation .noActiveFrame)), n) := by
          rw [currentProgram, Failing.bind_apply, active_apply_nil hframes]
        rw [hnone] at hmoments
        rw [hmoments] at htaken
        simp [Moment.isFetch] at htaken
      · obtain ⟨p, hp⟩ := hn'.exists_executing hframes
        rw [hp.currentProgram] at hrun hmoments
        exact ⟨p, n, hn, hn', hp, hrun, hmoments⟩
    · rw [hn] at hmoments
      rw [hmoments] at htaken
      simp [Moment.isFetch] at htaken
  · have hnone : runByMoments host fuel m = [] := runMoments_idle hready
    rw [hnone] at htaken
    obtain ⟨_, hx, -⟩ := htaken
    cases hx

/-- A run that fails is ended by the last instruction that it took, if it took one. -/
theorem runBy_blames (host : Embedder) (fuel : Nat) {l : Ledger} {e : RuntimeError} (hm : m.world.Filed)
    (hl : l.Describes m.stack) (hplain : Moment.isPlain m (runByMoments host fuel m) = true)
    (htaken : ∃ x ∈ runByMoments host fuel m, x.isFetch = true)
    (h : runBy host fuel m = (.error (.raised e), m')) :
    ∃ n, Blames host m (runByMoments host fuel m) n e ∧ m' = (ended (.error (.raised e), n)).2 := by
  obtain ⟨p, n, hrestart, hn, hp, hrun, hmoments⟩ := exists_executed hm htaken
  have htracks := (restartIfStale_tracks l m.started (hl.congr rfl rfl)).2
  rw [hrestart] at htracks
  rw [hmoments] at hplain ⊢
  obtain ⟨-, hplain⟩ := Moment.isPlain_append.1 hplain
  obtain ⟨hplain, -⟩ := Moment.isPlain_append.1 hplain
  -- the run fails as its loop does
  have hfst : (execute host fuel p n).1 = .error (.raised e) :=
    (ended_fst _).symm.trans (congrArg Prod.fst (hrun.symm.trans h))
  have hloop : execute host fuel p n = (.error (.raised e), (execute host fuel p n).2) :=
    Prod.ext hfst rfl
  have hblames := execute_blames host fuel hn hp htracks hplain hloop
  refine ⟨(execute host fuel p n).2, ?_, ?_⟩
  · exact (hblames.append [⟨.other, (runBy host fuel m).2⟩] (List.forall_mem_singleton.2 rfl)).prepend
      [⟨.other, m.started⟩, ⟨.check, n⟩, ⟨.other, n⟩]
  · rw [← hloop, ← hrun, h]

/-- **Failed instructions have no effect and are located.** A host may have done with a stack what it
    likes, and then runs it; in the run no native is called. When the run ends with an error, the error is
    what the instruction taken last raises. If that is no move and no writing of bindings, all frames are
    as they were before it was taken, up to the graph node that the active one notes. The state tree, the
    messages, the retained frames and all else of the stack are as they were, caches apart, and the error
    names the active frame's position and block, and the offset of the instruction. -/
theorem Reached.failure_located {log : List Event} (h : Reached World.Filed log m)
    (host : Embedder) (fuel : Nat) (hplain : Moment.isPlain m (runByMoments host fuel m) = true)
    {past rest : List Moment} {x : Moment} {held : Program} {e : RuntimeError}
    (hmoments : runByMoments host fuel m = past ++ x :: rest) (hcause : x.cause = .fetch held)
    (hlast : ∀ y ∈ rest, y.isFetch = false)
    (hgradual : ∀ i, x.taken? (Moment.last m past) = some (held, i) → i.isGradual = false)
    (hrun : runBy host fuel m = (.error (.raised e), m')) :
    ∃ f below node, (Moment.last m past).stack.frames = f :: below ∧
      Raises host held f below (Moment.last m past) e ∧
      m'.stack.uncached = { (Moment.last m past).stack.uncached with
        frames := f.noting node :: below
        error := some ⟨e, below.length, some f.block, ⟨f.pc.offset, held.nodeAt f.pc.offset⟩⟩
        phase := .finished } := by
  have hx : x.isFetch = true := Moment.isFetch_iff.2 ⟨held, hcause⟩
  have htaken : ∃ y ∈ runByMoments host fuel m, y.isFetch = true :=
    ⟨x, by rw [hmoments]; simp, hx⟩
  obtain ⟨n, hblames, rfl⟩ := runBy_blames host fuel h.intact.filed h.describes hplain htaken hrun
  obtain ⟨past', x', rest', held', f, below, hmoments', hlast', hblamed⟩ := hblames
  -- there is one instruction that was taken last
  have hx' : x'.isFetch = true := Moment.isFetch_iff.2 ⟨held', hblamed.cause⟩
  obtain ⟨rfl, rfl⟩ := Moment.last_fetch_unique (hmoments.symm.trans hmoments') hx hx' hlast hlast'
  obtain rfl : held = held' := Cause.fetch.inj (hcause.symm.trans hblamed.cause)
  obtain ⟨node, hstack⟩ := hblamed.stack hgradual
  have hframes : n.stack.frames = f.noting node :: below := congrArg Stack.frames hstack
  refine ⟨f, below, node, hblamed.frames, hblamed.raises, ?_⟩
  rw [ended, Failing.bind_apply, recordError_apply e hframes hblamed.filed]
  have hnoted : ({ n.stack with
      error := some ⟨e, below.length, some f.block, ⟨f.pc.offset, held.nodeAt f.pc.offset⟩⟩
      phase := .finished } : Stack).uncached = { n.stack.uncached with
        error := some ⟨e, below.length, some f.block, ⟨f.pc.offset, held.nodeAt f.pc.offset⟩⟩
        phase := .finished } := rfl
  exact hnoted.trans (by rw [hstack])

end Machine

/-! ### A failure inside a call -/

namespace Plunge

open Machine

def signature : Signature where
  name := "plunge"
  inputs := [⟨"n", .basic .int, false⟩]
  locals := 5

/-- Saves its input, and calls itself with one less until it gets zero. Then it adds a truth value to that,
    which fails. -/
def body : List Directive :=
  [.saveState "n" 0, .load 1 (.int 0), .code (.emit (.binary .lessThan 2 1 0)),
    .code (.jump (.ifFalse 2) "ground"), .load 1 (.int 1), .code (.emit (.binary .subInt 3 0 1)),
    .call 0 3 1 4, .code (.bind "ground"), .node 7, .code (.emit (.binary .addInt 4 0 2)),
    .code (.emit .ret)]

def machine : Machine :=
  ⟨(World.addBlock {} signature body).2, .new {}, ""⟩

def session : Script Unit :=
  .op (.push 0 [.int 1]) fun r => .done r

/-- The block is entered, and not yet run. -/
def pushed : Machine :=
  (session.perform (runBy .idle 20) machine).2

def moments : List Moment :=
  runByMoments .idle 20 pushed

def moment (n : Nat) : Moment :=
  moments[n]?.getD ⟨.other, machine⟩

/-- The programs of the world are filed for their blocks. -/
theorem machine_filed : machine.world.Filed :=
  (World.filed_new.addBlock signature body).filed

/-- The last instruction is taken at moment 26, in the frame that was called. -/
theorem moments_split : moments = moments.take 26 ++ moment 26 :: moments.drop 27 := by
  have hlength : 26 < moments.length := by decide +kernel
  have hdrop : moments.drop 26 = moment 26 :: moments.drop 27 := by
    rw [List.drop_eq_getElem_cons hlength, moment, List.getElem?_eq_getElem hlength]
    rfl
  rw [← hdrop, List.take_append_drop]

/-- The called frame is left at the addition, on top of its caller, and the error says so. -/
theorem failure_located_plunge : (∃ log, Reached World.Filed log pushed) ∧
    Moment.isPlain pushed moments = true ∧
    moments = moments.take 26 ++ moment 26 :: moments.drop 27 ∧
    (∃ held, (moment 26).taken? (Moment.last pushed (moments.take 26)) =
      some (held, .binary .addInt 4 0 2)) ∧
    (∀ y ∈ moments.drop 27, y.isFetch = false) ∧
    (runBy .idle 20 pushed).1 = .error (.raised (.typeMismatch "int" "bool")) ∧
    (runBy .idle 20 pushed).2.stack.error =
      some ⟨.typeMismatch "int" "bool", 1, some 0, ⟨28, some 7⟩⟩ ∧
    ∃ f below node, (Moment.last pushed (moments.take 26)).stack.frames = f :: below ∧
      f.pc.offset = 28 ∧ below.length = 1 ∧
      (runBy .idle 20 pushed).2.stack.frames = f.noting node :: below := by
  have hreached : ∃ log, Reached World.Filed log pushed :=
    ⟨_, (Reached.new machine_filed {} "").after .idle 20 session⟩
  have hplain : Moment.isPlain pushed moments = true := by decide +kernel
  have hlast : ∀ y ∈ moments.drop 27, y.isFetch = false := by decide +kernel
  have hfault : (runBy .idle 20 pushed).1 = .error (.raised (.typeMismatch "int" "bool")) := by
    decide +kernel
  have hrun : runBy .idle 20 pushed =
      (.error (.raised (.typeMismatch "int" "bool")), (runBy .idle 20 pushed).2) := Prod.ext hfault rfl
  obtain ⟨held, htaken⟩ := Moment.exists_taken (m := Moment.last pushed (moments.take 26))
    (x := moment 26) (i := .binary .addInt 4 0 2) (by decide +kernel)
  obtain ⟨-, -, -, hcause, -, -⟩ := Moment.taken?_eq_some htaken
  have hgradual : ∀ i, (moment 26).taken? (Moment.last pushed (moments.take 26)) = some (held, i) →
      i.isGradual = false := by
    intro i hi
    obtain rfl := (Prod.mk.inj (Option.some.inj (htaken.symm.trans hi))).2
    rfl
  obtain ⟨log, hlog⟩ := hreached
  obtain ⟨f, below, node, hframes, -, hstack⟩ := hlog.failure_located .idle 20 hplain
    moments_split hcause hlast hgradual hrun
  have hnoted : (runBy .idle 20 pushed).2.stack.error =
      some ⟨.typeMismatch "int" "bool", 1, some 0, ⟨28, some 7⟩⟩ := by
    decide +kernel
  -- the note is about the frame that the law speaks of
  have hsame := Option.some.inj (hnoted.symm.trans (congrArg Stack.error hstack))
  have hbelow : 1 = below.length := congrArg StackError.frame hsame
  have hoffset : 28 = f.pc.offset := congrArg (fun e => e.pc.offset) hsame
  exact ⟨⟨log, hlog⟩, hplain, moments_split, ⟨held, htaken⟩, hlast, hfault, hnoted, f, below, node,
    hframes, hoffset.symm, hbelow.symm, (congrArg Stack.frames hstack :)⟩

end Plunge

end BlockMachine

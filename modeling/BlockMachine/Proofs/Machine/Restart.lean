import BlockMachine.Proofs.Dispatch.Transparency
import BlockMachine.Proofs.Machine.Kinship

namespace BlockMachine

/-!
# Roots that start over

A stack that paused starts its root over when the block of the root is replaced, or when it is migrated to
another block. The new code is given what the registers of the inputs hold at that time, which is what the
root was pushed with unless the old code wrote there.

* `Frame.inputs` are the contents of these registers;
* `Machine.Alike` compares two runs by their outcome, their outputs and the state tree they leave;
* `Machine.restart_alike` is the result.
-/

/-- What the registers of a frame's inputs hold. -/
def Frame.inputs (f : Frame) : List Value :=
  f.registers.toList.take f.inputCount

/-! ### Casts that change nothing -/

namespace Ty

/-- A cast that gives its argument takes no buffer numbers. -/
theorem cast?_self {ty : Ty} {v : Value} {n n' : BufferId} (h : ty.cast? v n = some (v, n')) :
    n' = n := by
  cases ty with
  | basic b =>
    rcases castBasic_cases h with ⟨-, hn⟩ | ⟨-, -, hn⟩ | ⟨id, type, fields, hv, hw, -⟩
    · exact hn
    · exact hn
    · exact nomatch hv.symm.trans hw
  | module m => exact (cast?_module h).2
  | record r =>
    rcases cast?_record h with ⟨-, hn⟩ | ⟨ws, m, -, hw, hn⟩
    · exact hn
    · -- a record of the right type is not cast again
      subst hw
      obtain ⟨id, name, decls⟩ := r
      rw [cast?, if_pos rfl] at h
      exact (Prod.mk.inj (Option.some.inj h)).2.symm

end Ty

namespace Machine

variable {m m' m₁ m₂ : Machine} {block : BlockId} {count : Nat} {libraries : Libraries}

/-- A cast takes buffer numbers, and none if it gives its argument. -/
theorem cast_ok {ty : Ty} {v w : Value} (h : cast ty v m = (.ok w, m')) :
    ∃ supply, m' = m.withSupply supply ∧ (w = v → supply = m.world.supply) := by
  rw [cast, Failing.bind_apply, tryCast, Failing.bind_apply] at h
  simp only [Failing.get_apply, Ty.cast] at h
  cases hcast : ty.cast? v m.world.supply with
  | none =>
    rw [hcast] at h
    cases congrArg Prod.fst h
  | some result =>
    rw [hcast] at h
    obtain ⟨hw, rfl⟩ := Prod.mk.inj h
    obtain rfl := Except.ok.inj hw
    refine ⟨result.2, rfl, fun hv => ?_⟩
    have hself : ty.cast? v m.world.supply = some (v, result.2) :=
      hcast.trans (congrArg (fun x => some (x, result.2)) hv)
    exact Ty.cast?_self hself

/-- Arguments keep their number when they are cast, and where they stay the same nothing happens. -/
theorem castArguments_ok {s : Signature} {i : Nat} {args vs : List Value}
    (h : castArguments s i args m = (.ok vs, m')) :
    vs.length = args.length ∧ ∃ supply, m' = m.withSupply supply ∧
      (vs = args → supply = m.world.supply) := by
  induction args generalizing i m m' vs with
  | nil =>
    obtain ⟨hvs, rfl⟩ := Prod.mk.inj h
    obtain rfl := Except.ok.inj hvs
    exact ⟨rfl, m.world.supply, rfl, fun _ => rfl⟩
  | cons v rest ih =>
    -- however the first argument is cast, the rest follows it in the same way
    have hdone : ∀ (a : Action Value),
        (do let w ← a; return w :: (← castArguments s (i + 1) rest)) m = (.ok vs, m') →
        (∀ w m₁, a m = (.ok w, m₁) → ∃ supply, m₁ = m.withSupply supply ∧
          (w = v → supply = m.world.supply)) →
        vs.length = (v :: rest).length ∧ ∃ supply, m' = m.withSupply supply ∧
          (vs = v :: rest → supply = m.world.supply) := by
      intro a ha hcast
      rw [Failing.bind_apply] at ha
      rcases hr : a m with ⟨e | w, m₁⟩ <;> rw [hr] at ha
      · exact nomatch congrArg Prod.fst ha
      obtain ⟨supply₁, rfl, hsame₁⟩ := hcast w m₁ hr
      dsimp only at ha
      rw [Failing.bind_apply] at ha
      rcases hr' : castArguments s (i + 1) rest (m.withSupply supply₁) with ⟨e | ws, m₂⟩ <;> rw [hr'] at ha
      · exact nomatch congrArg Prod.fst ha
      obtain ⟨hlength, supply₂, rfl, hsame₂⟩ := ih hr'
      obtain ⟨hvs, rfl⟩ := Prod.mk.inj ha
      obtain rfl := Except.ok.inj hvs
      refine ⟨congrArg (· + 1) hlength, supply₂, rfl, fun heq => ?_⟩
      obtain ⟨hw, hws⟩ := List.cons.inj heq
      exact (hsame₂ hws).trans (hsame₁ hw)
    rw [castArguments] at h
    have hkept : ∀ w m₁, (pure v : Action Value) m = (.ok w, m₁) → ∃ supply, m₁ = m.withSupply supply ∧
        (w = v → supply = m.world.supply) := by
      intro w m₁ hpure
      exact ⟨m.world.supply, (Prod.mk.inj hpure).2.symm, fun _ => rfl⟩
    -- an argument without a declared input, or a null for an optional one, is kept
    cases hp : s.placeholder? i with
    | none =>
      rw [hp] at h
      exact hdone _ h hkept
    | some p =>
      rw [hp] at h
      cases hnull : v.isNull && p.isOptional with
      | true =>
        simp only [hnull] at h
        exact hdone _ h hkept
      | false =>
        simp only [hnull] at h
        exact hdone _ h fun w m₁ hcast => cast_ok hcast

/-! ### Roots as they are pushed -/

/-- The root that is pushed for a block, once its inputs are cast. -/
def rootFrame (block : BlockId) (index : Nat) (p : Program) (inputs : List Value) (state : Value) : Frame where
  block := block
  program := index
  version := p.version
  registers := Frame.resized inputs.toArray (max p.registers inputs.length)
  pc := ⟨0, p.nodeAt 0⟩
  incoming := state
  inputCount := inputs.length

/-- Such a root has a register for each of its inputs. -/
theorem rootFrame_heads (block : BlockId) (index : Nat) (p : Program) (inputs : List Value) (state : Value) :
    (rootFrame block index p inputs state).Heads block inputs.length where
  block := rfl
  parent := rfl
  key := rfl
  returnTo := rfl
  bindings := rfl
  inputCount := rfl
  registers := by
    rw [rootFrame, Frame.size_resized]
    exact Nat.le_max_right ..

/-- The inputs of a new root are in the first registers. -/
theorem rootFrame_inputs (block : BlockId) (index : Nat) (p : Program) (inputs : List Value)
    (state : Value) : (rootFrame block index p inputs state).inputs = inputs := by
  have hlength : inputs.length ≤ max p.registers inputs.length := Nat.le_max_right ..
  simp only [Frame.inputs, rootFrame, Frame.resized, Array.toList_append, Array.take_eq_extract,
    Array.toList_extract, List.size_toArray, List.extract_eq_take_drop, List.drop_zero, Nat.sub_zero]
  rw [List.take_of_length_le hlength, List.take_left]

/-- A program is fetched by the index of its block as it is when the block is compiled. -/
theorem program_of_compile {w w₁ w₂ : World} (hw : w.Filed) {index : Nat} {p : Program}
    (hindex : w.programs.indices[block]? = some index)
    (hcompile : World.compile block w = (.ok index, w₁))
    (hprogram : World.program index w₁ = (.ok p, w₂)) : World.program index w = (.ok p, w₂) := by
  obtain ⟨slot, hslot, hblock⟩ := (hw.indexed block index).1 hindex
  cases hfiled : slot.program with
  | some q =>
    -- what is filed is current, so that compiling leaves it
    obtain ⟨b, hb, hversion⟩ := hw.current index slot q hslot hfiled
    have hq : w.slotProgram? index = some q := (World.slotProgram?_of_slot hslot).trans hfiled
    rw [World.compile_filed (hblock ▸ hb) hindex hq hversion] at hcompile
    obtain ⟨-, rfl⟩ := Prod.mk.inj hcompile
    exact hprogram
  | none =>
    obtain ⟨-, hfound⟩ := hw.compile block
    obtain ⟨q, hq⟩ := hfound index (congrArg Prod.fst hcompile)
    rw [hcompile] at hq
    obtain ⟨hp, rfl⟩ := Prod.mk.inj ((World.program_of_slot hq).symm.trans hprogram)
    rw [World.program_eq, hslot]
    dsimp only
    rw [hfiled]
    dsimp only
    rw [hblock, hcompile]
    dsimp only
    rw [hq]
    exact congrArg (fun r => (r, w₁)) hp

/-- What is pushed on an empty stack. -/
theorem enter_root {args : List Value} (hframes : m.stack.frames = [])
    (h : enter block args {} m = (.ok (), m')) :
    ∃ index p w₁ w₂ inputs supply, World.compile block m.world = (.ok index, w₁) ∧
      World.program index w₁ = (.ok p, w₂) ∧ inputs.length = args.length ∧
      (inputs = args → supply = w₂.supply) ∧
      m' = { m with
        world := { w₂ with supply := supply }
        stack := { m.stack with frames := [rootFrame block index p inputs m.stack.state] } } := by
  rw [enter, getStack, Failing.bind_apply] at h
  simp only [Failing.bind_apply, Failing.get_apply, Failing.pure_apply] at h
  split at h
  · cases congrArg Prod.fst h
  rw [Failing.bind_apply, onWorld_apply] at h
  rcases hcompile : World.compile block m.world with ⟨e | index, w₁⟩ <;> rw [hcompile] at h
  · cases congrArg Prod.fst h
  dsimp only at h
  rw [Failing.bind_apply, onWorld_apply] at h
  rcases hprogram : World.program index w₁ with ⟨e | p, w₂⟩ <;> rw [hprogram] at h
  · cases congrArg Prod.fst h
  dsimp only at h
  split at h
  · cases congrArg Prod.fst h
  rw [Failing.bind_apply] at h
  rcases hcast : castArguments p.signature 0 args { m with world := w₂ } with ⟨e | inputs, n⟩ <;>
    rw [hcast] at h
  · cases congrArg Prod.fst h
  obtain ⟨hlength, supply, rfl, hsame⟩ := castArguments_ok hcast
  obtain rfl := (Prod.mk.inj h).2
  refine ⟨index, p, w₁, w₂, inputs, supply, rfl, hprogram, hlength, hsame, ?_⟩
  have hdepth : m.stack.depth = 0 := by rw [Stack.depth, hframes]; rfl
  have hincoming : incomingFor m.stack none = m.stack.state := by
    simp only [incomingFor, hframes]
  simp only [withSupply, hdepth, hincoming, hframes, rootFrame, hlength, if_true]

/-- A block that is compiled is pushed on an empty stack, with arguments that are not converted. -/
theorem enter_root_of {index : Nat} {p : Program} {w₁ w₂ : World} {args : List Value}
    (hframes : m.stack.frames = []) (hmax : 0 < m.stack.config.maxFrames)
    (hcompile : World.compile block m.world = (.ok index, w₁))
    (hprogram : World.program index w₁ = (.ok p, w₂)) (hsome : p.signature.requiredInputs ≤ args.length)
    (hall : args.length ≤ p.signature.inputs.length)
    (hcast : castArguments p.signature 0 args { m with world := w₂ } = (.ok args, { m with world := w₂ })) :
    enter block args {} m = (.ok (), { m with
      world := w₂
      stack := { m.stack with frames := [rootFrame block index p args m.stack.state] } }) := by
  have hdepth : m.stack.depth = 0 := by rw [Stack.depth, hframes]; rfl
  have hincoming : incomingFor m.stack none = m.stack.state := by
    simp only [incomingFor, hframes]
  have harity : ¬ (args.length < p.signature.requiredInputs ||
      (p.signature.inputs.length < args.length && !p.signature.isVariadic)) = true := by
    simp [Nat.not_lt.2 hsome, Nat.not_lt.2 hall]
  rw [enter, getStack, Failing.bind_apply]
  simp only [Failing.bind_apply, Failing.get_apply, Failing.pure_apply]
  rw [if_neg (by omega)]
  rw [Failing.bind_apply, onWorld_apply, hcompile]
  dsimp only
  rw [Failing.bind_apply, onWorld_apply, hprogram]
  dsimp only
  rw [if_neg harity, Failing.bind_apply, hcast]
  simp only [hdepth, hincoming, rootFrame, if_true]
  rw [← hframes]
  rfl

/-- A push on a stack that is ready enters the block. -/
theorem push_ready {args : List Value} (hphase : m.stack.phase = .ready)
    (h : push block args m = (.ok (), m')) : enter block args {} m = (.ok (), m') :=
  (push_of_ready hphase).symm.trans h

/-! ### Results of runs -/

/-- Two runs had the same outcome, and left the same outputs and the same state tree. -/
structure Alike (r₁ r₂ : Except Fault Outcome × Machine) : Prop where
  outcome : r₁.1 = r₂.1
  outputs : r₁.2.outputs = r₂.2.outputs
  state : r₁.2.stack.state = r₂.2.stack.state

/-- Outputs are in the registers of the active frame, where its block declares them. -/
theorem outputs_congr (hframes : m'.stack.frames.map Frame.unasking = m.stack.frames.map Frame.unasking)
    (hblocks : m'.world.blocks = m.world.blocks) : m'.outputs = m.outputs := by
  cases h : m.stack.frames with
  | nil =>
    rw [h] at hframes
    rw [outputs, outputs, h, List.map_eq_nil_iff.1 hframes]
  | cons f rest =>
    rw [h] at hframes
    obtain ⟨g, rest', h', hg, -⟩ := List.map_eq_cons_iff.1 hframes
    obtain ⟨retain, rfl⟩ := Frame.exists_asking hg.symm
    rw [outputs, outputs, h, h', hblocks]
    rfl

/-- An error is noted in the stack, and all else stays as it was. -/
theorem ended_raised (e : RuntimeError) (m : Machine) :
    (ended (.error (.raised e), m)).1 = .error (.raised e) ∧
      (ended (.error (.raised e), m)).2.outputs = m.outputs ∧
      (ended (.error (.raised e), m)).2.stack.state = m.stack.state := by
  obtain ⟨world, ⟨frames⟩, printed⟩ := m
  cases frames with
  | nil => exact ⟨rfl, rfl, rfl⟩
  | cons f rest => exact ⟨rfl, outputs_congr rfl (World.program_only f.program world).blocks, rfl⟩

/-- Kin end their runs alike. -/
theorem ended_alike {r₁ r₂ : Except Fault Outcome × Machine}
    (h : Mirrored (fun _ => False) Kin Kin .same Equally r₁ r₂) : Alike (ended r₁) (ended r₂) := by
  have houtputs : ∀ {ρ n₁ n₂}, Kin ρ n₁ n₂ → n₁.outputs = n₂.outputs :=
    fun hn => outputs_congr hn.frames (congrArg World.blocks hn.world)
  cases h with
  | @ok ρ' x y n₁ n₂ hle hn hxy =>
    obtain rfl := hxy
    exact ⟨rfl, show n₁.outputs = n₂.outputs from houtputs hn, hn.state⟩
  | @error ρ' e n₁ n₂ hle hn =>
    cases e with
    | raised e =>
      obtain ⟨hfault₁, houtputs₁, hstate₁⟩ := ended_raised e n₁
      obtain ⟨hfault₂, houtputs₂, hstate₂⟩ := ended_raised e n₂
      exact ⟨hfault₁.trans hfault₂.symm, houtputs₁.trans ((houtputs hn).trans houtputs₂.symm),
        hstate₁.trans (hn.state.trans hstate₂.symm)⟩
    | crashed => exact ⟨rfl, houtputs hn, hn.state⟩
    | outOfFuel => exact ⟨rfl, houtputs hn, hn.state⟩
  | pass h => exact h.elim

/-- A machine that checked its frames runs as its kin that has nothing to check. -/
theorem body_alike (host : Embedder) (fuel : Nat) (hrestart : restartIfStale m = (.ok (), m₁))
    (h : Kin .same m₁ m₂) (hm : m₁.Sited) (herror : m₁.stack.error = none)
    (hs : m₁.Seated block count) (hheld : ∀ f ∈ m₁.stack.frames, f.Held m₁.world) :
    Alike (ended (body (execute host fuel) m)) (ended (body (execute host fuel) m₂)) := by
  have hheld₂ : ∀ f ∈ m₂.stack.frames, f.Held m₂.world := by
    intro f hf
    obtain ⟨g, hg, hgf⟩ := List.mem_map.1 (h.frames ▸ List.mem_map_of_mem hf)
    obtain ⟨retain, rfl⟩ := Frame.exists_asking hgf
    exact h.world ▸ hheld g hg
  obtain ⟨root, hroot, -⟩ := hs.root
  obtain ⟨f, rest, hframes⟩ :=
    List.exists_cons_of_ne_nil (List.ne_nil_of_mem (List.mem_of_getLast? hroot))
  obtain ⟨p, hslot, hversion⟩ := hheld f (hframes ▸ List.mem_cons_self)
  have hp : m₁.Executing p := ⟨f, rest, hframes, hslot, hversion⟩
  have hp₂ : m₂.Executing p := by
    rcases h.frames_cases with ⟨hnil, -⟩ | ⟨g, retain, _, rest₂, hframes₁, hframes₂, -⟩
    · rw [hframes] at hnil
      exact nomatch hnil
    · obtain ⟨rfl, rfl⟩ := List.cons.inj (hframes.symm.trans hframes₁)
      exact ⟨_, rest₂, hframes₂, h.world ▸ hslot, hversion⟩
  refine ended_alike ?_
  rw [body, Failing.bind_apply, Failing.bind_apply, hrestart, restartIfStale_of_held hheld₂]
  dsimp only
  rw [Failing.bind_apply, Failing.bind_apply, hp.currentProgram, hp₂.currentProgram]
  exact execute_kin host fuel p h hm herror hp hs

/-! ### Starting over -/

/-- A root has as many inputs as it was pushed with. -/
theorem length_inputs {root : Frame} (h : root.Heads block count) : root.inputs.length = count := by
  rw [Frame.inputs, List.length_take, h.inputCount, Array.length_toList]
  exact Nat.min_eq_left h.registers

/-- A root that starts over is the root that its inputs are pushed with, up to snapshots. -/
theorem restarted_unasking {root : Frame} (h : root.Heads block count) (p : Program) (state : Value) :
    (restarted root p state).unasking = rootFrame block root.program p root.inputs state := by
  have htake : root.registers.take root.inputCount = root.inputs.toArray := by
    apply Array.ext'
    rw [Frame.inputs, Array.take_eq_extract, Array.toList_extract, List.extract_eq_take_drop,
      List.drop_zero, Nat.sub_zero]
  rw [restarted, htake]
  simp only [Frame.unasking, Frame.asking, rootFrame, h.block, h.parent, h.key, h.bindings, h.returnTo,
    h.inputCount, length_inputs h]

/-- The root of an old version starts over with the program of the current one. -/
theorem restartIfStale_root {root : Frame} (hroot : m.stack.frames.getLast? = some root) {p : Program}
    {w : World} (hprogram : World.program root.program m.world = (.ok p, w)) (hw : m.world.Filed)
    (hstale : p.version ≠ root.version) :
    restartIfStale m = (.ok (), { m with
      world := w
      stack := { unwindToRoot m.stack with frames := [restarted root p m.stack.state] } }) := by
  obtain ⟨front, hfront⟩ := List.getLast?_eq_some_iff.1 hroot
  have hcurrent : isCurrent root m = (.ok false, { m with world := w }) := by
    have hfetch : tryWorld (World.program root.program) m = (.ok (.ok p), { m with world := w }) := by
      show (Except.ok (World.program root.program m.world).1,
        ({ m with world := (World.program root.program m.world).2 } : Machine)) = _
      rw [hprogram]
    rw [isCurrent, Failing.bind_apply, hfetch]
    simp only [hstale, decide_false]
    rfl
  have hall : allCurrent m.stack.frames.reverse m = (.ok false, { m with world := w }) := by
    rw [hfront, List.reverse_append, List.reverse_singleton, List.singleton_append, allCurrent,
      Failing.bind_apply, hcurrent]
    rfl
  have hunwound : (unwindToRoot m.stack).frames = [root] := by
    show m.stack.frames.drop (m.stack.depth - 1) = [root]
    have hdepth : m.stack.depth - 1 = front.length := by
      rw [Stack.depth, hfront, List.length_append]
      rfl
    rw [hdepth, hfront, List.drop_left]
  -- the program is filed by now, so that it is found where it was looked for
  obtain ⟨-, hfound⟩ := hw.program root.program
  have hslot := hfound p (congrArg Prod.fst hprogram)
  rw [hprogram] at hslot
  rw [restartIfStale_apply, hall]
  dsimp only
  rw [restartRoot_apply (m := { m with world := w }) hunwound]
  dsimp only
  rw [World.program_of_slot hslot]

/-- The machine with a new stack, which has the settings and the state tree of the one before. -/
def renewed (m : Machine) : Machine :=
  { m with stack := { Stack.new m.stack.config with state := m.stack.state } }

/-- The machine whose stack was emptied for another main block. -/
def vacated (m : Machine) : Machine :=
  { m with stack := { m.stack.startOver with retained := [] } }

/-- Without state there is nothing to rebind. -/
theorem rebound_of_null {old new : BlockId} (h : m.stack.state = .null) : m.rebound old new = m := by
  have hnull : Value.rebind old new .null m.world.supply = (.null, m.world.supply) := by
    simp [Value.rebind]
    rfl
  simp only [rebound, h, hnull, withSupply]
  rw [← h]

/-- A migration enters the new block on an empty stack, with what the registers of the inputs hold. -/
theorem migrate_root {root : Frame} {new : BlockId} (hroot : m.stack.frames.getLast? = some root)
    (hblock : root.block = block) (hbindings : root.bindings = []) :
    migrate block new m = enter new root.inputs {} (m.rebound block new).vacated := by
  rw [migrate_apply, hroot]
  dsimp only
  rw [if_pos hblock, hbindings]
  rfl

/-- What the registers of the active frame's inputs hold. -/
def inputs (m : Machine) : List Value :=
  match m.stack.frames with
  | f :: _ => f.inputs
  | [] => []

/-- A root that was just pushed. -/
theorem enter_root_seated {args : List Value} (hframes : m.stack.frames = []) (hw : m.world.Filed)
    (hplain : m.world.Plain) (hcancelled : m.stack.cancelled = false)
    (h : enter block args {} m = (.ok (), m')) :
    m'.Seated block args.length ∧ ∀ f ∈ m'.stack.frames, f.Held m'.world := by
  obtain ⟨index, p, w₁, w₂, inputs, supply, hcompile, hprogram, hlength, -, rfl⟩ := enter_root hframes h
  obtain ⟨-, -, -, hslot, -⟩ := hw.fetched hcompile hprogram
  have hplain₂ : w₂.Plain := by
    have hplain₁ := hplain.compile block
    rw [hcompile] at hplain₁
    have hplain₂ := hplain₁.program index
    rwa [hprogram] at hplain₂
  refine ⟨⟨hplain₂.congr rfl rfl, hcancelled, _, rfl, hlength ▸ rootFrame_heads ..⟩, ?_⟩
  exact List.forall_mem_singleton.2 ⟨p, hslot, rfl⟩

/-- **A replaced root starts over with what its input registers hold**, given that the new code takes it
    without converting it. -/
theorem run_replaced_alike (host : Embedder) (fuel : Nat) {root : Frame} {b : Block} {n : Machine}
    (hcaches : m.stack.config.inlineCache = false) (hm : m.Sited) (hs : m.Seated block count)
    (hphase : m.stack.phase = .ready) (hroot : m.stack.frames.getLast? = some root)
    (hb : m.world.blocks[block]? = some b) (hstale : root.version < b.version)
    (hpush : push block root.inputs m.renewed = (.ok (), n)) (hkept : n.inputs = root.inputs) :
    Alike (runBy host fuel m) (runBy host fuel n) := by
  obtain ⟨_, hroot', hheads⟩ := hs.root
  obtain rfl := Option.some.inj (hroot.symm.trans hroot')
  have hne : m.stack.frames ≠ [] := List.ne_nil_of_mem (List.mem_of_getLast? hroot)
  have hnone : m.stack.error = none := hm.no_error (by rw [hphase]; nofun)
  obtain ⟨index, p, w₁, w₂, inputs, supply, hcompile, hprogram, -, hsupply, rfl⟩ :=
    enter_root rfl (push_ready rfl hpush)
  replace hcompile : World.compile block m.world = (.ok index, w₁) := hcompile
  -- the inputs are as they were, so the new root has the same registers
  obtain rfl : inputs = root.inputs := (rootFrame_inputs ..).symm.trans hkept
  obtain rfl := hsupply rfl
  obtain ⟨-, -, -, hslot, b', hb', hversion⟩ := hm.filed.fetched hcompile hprogram
  have hstands := hm.stands hnone root (List.mem_of_getLast? hroot)
  have hindex : m.world.programs.indices[block]? = some root.program := hheads.block ▸ hstands.1
  obtain rfl : index = root.program := by
    have hfound := World.compile_index (congrArg Prod.fst hcompile)
    rw [World.compile_indices block hindex] at hfound
    exact (Option.some.inj hfound).symm
  have hblocks : w₂.blocks = m.world.blocks := by
    have honly₁ := (World.compile_only block m.world).blocks
    rw [hcompile] at honly₁
    have honly₂ := (World.program_only root.program w₁).blocks
    rw [hprogram] at honly₂
    exact honly₂.trans honly₁
  have hnew : p.version ≠ root.version := by
    rw [hblocks, hb] at hb'
    obtain rfl := Option.some.inj hb'
    exact hversion ▸ Nat.ne_of_gt hstale
  have hrestart := restartIfStale_root (m := m.started) hroot
    (program_of_compile hm.filed hindex hcompile hprogram) hm.filed hnew
  have hstarted : m.started.Sited := ⟨hm.filed, fun hne => absurd hnone hne, hm.stands⟩
  obtain ⟨hsited, -⟩ := restartIfStale_restarts hstarted hnone
  obtain ⟨hseated, -⟩ := restartIfStale_seated m.started ⟨hs.world, hs.cancelled, hs.root⟩
  rw [hrestart] at hsited hseated
  show Alike (runWith (execute host fuel) m) (runWith (execute host fuel) _)
  rw [runWith_ready hphase hne, runWith_ready rfl (List.cons_ne_nil _ _)]
  refine body_alike host fuel hrestart ⟨rfl, rfl, ?_, rfl, hs.cancelled, rfl, hcaches⟩ hsited hnone hseated
    (List.forall_mem_singleton.2 ⟨p, hslot, rfl⟩)
  show [(restarted root p m.stack.state).unasking] = [(rootFrame block root.program p root.inputs
    m.stack.state).unasking]
  rw [restarted_unasking hheads p m.stack.state]
  rfl

/-- **A migrated root starts over with what its input registers hold.** -/
theorem run_migrated_alike (host : Embedder) (fuel : Nat) {root : Frame} {new : BlockId} {n : Machine}
    (hcaches : m.stack.config.inlineCache = false) (hm : m.Sited) (hs : m.Seated block count)
    (hroot : m.stack.frames.getLast? = some root) (hmigrate : migrate block new m = (.ok (), m'))
    (hpush : push new root.inputs (m.rebound block new).renewed = (.ok (), n)) :
    Alike (runBy host fuel m') (runBy host fuel n) := by
  obtain ⟨_, hroot', hheads⟩ := hs.root
  obtain rfl := Option.some.inj (hroot.symm.trans hroot')
  -- both machines enter the block on an empty stack
  have henter := (migrate_root hroot hheads.block hheads.bindings).symm.trans hmigrate
  have hentered : Mirrored (fun _ => False) Kin Kin .same Anyhow
      (enter new root.inputs {} (m.rebound block new).vacated)
      (enter new root.inputs {} (m.rebound block new).renewed) :=
    enter_kin new (List.forall₂_same.2 fun _ _ => Value.like_same.2 rfl) ⟨rfl, rfl, .nil⟩ _ _
      ⟨rfl, rfl, rfl, rfl, rfl, rfl, hcaches⟩
  rw [henter, push_ready rfl hpush] at hentered
  have hkept : m.world.Kept (m.rebound block new).vacated.world := hm.filed.kept rfl rfl
  obtain ⟨hseated, hheld⟩ := enter_root_seated rfl hkept.filed (hs.world.congr rfl rfl) rfl henter
  have hready : m'.stack.phase = .ready ∧ m'.stack.frames ≠ [] := by
    obtain ⟨-, -, -, -, -, -, -, -, -, -, rfl⟩ := enter_root rfl henter
    exact ⟨rfl, List.cons_ne_nil _ _⟩
  have hready₂ : n.stack.phase = .ready ∧ n.stack.frames ≠ [] := by
    obtain ⟨-, -, -, -, -, -, -, -, -, -, rfl⟩ := enter_root rfl (push_ready rfl hpush)
    exact ⟨rfl, List.cons_ne_nil _ _⟩
  obtain ⟨hsited, -⟩ := migrate_shifts block new m hm
  rw [hmigrate] at hsited
  have hnone : m'.stack.error = none := hsited.no_error (by rw [hready.1]; nofun)
  cases hentered with
  | @ok ρ' x y n₁ n₂ hle hn hxy =>
    obtain rfl := hn.links
    show Alike (runWith (execute host fuel) m') (runWith (execute host fuel) n)
    rw [runWith_ready hready.1 hready.2, runWith_ready hready₂.1 hready₂.2]
    exact body_alike host fuel (restartIfStale_of_held hheld) { hn with }
      ⟨hsited.filed, fun hne => absurd hnone hne, hsited.stands⟩ hnone
      ⟨hseated.world, hseated.cancelled, hseated.root⟩ hheld

/-! ### Sessions -/

/-- Runs of a sound machine do not depend on caches. -/
theorem Sound.run_uncached (hm : m.Sound) (fuel : Nat) :
    run fuel libraries m.uncached = ((run fuel libraries m).1, (run fuel libraries m).2.uncached) :=
  (resumes_runBy (Embedder.honest_idle m.world.registry) fuel m hm (.refl _)).same

/-- Runs of sound machines are alike if they are so without caches. -/
theorem Alike.of_uncached {fuel : Nat} (h₁ : m₁.Sound) (h₂ : m₂.Sound)
    (h : Alike (run fuel libraries m₁.uncached) (run fuel libraries m₂.uncached)) :
    Alike (run fuel libraries m₁) (run fuel libraries m₂) := by
  rw [h₁.run_uncached, h₂.run_uncached] at h
  exact ⟨h.outcome, h.outputs, h.state⟩

/-- A sound machine is sound with a new stack. -/
theorem Sound.renewed (hm : m.Sound) : m.renewed.Sound where
  world := hm.world
  stack := ⟨nofun, hm.stack.state, nofun, nofun, nofun⟩
  caches := Caches.sound_empty _
  ended := fun herror => absurd rfl herror
  runs := nofun

/-- Pushing a block does not depend on caches. -/
theorem Sound.push_uncached (hm : m.Sound) {inputs : List Value}
    (hinputs : ∀ v ∈ inputs, v.Known m.world.registry) (h : push block inputs m = (.ok (), m')) :
    m'.Sound ∧ push block inputs m.uncached = (.ok (), m'.uncached) := by
  have hpush := push_keeps block hinputs m ⟨hm, rfl⟩
  have hsame := hpush.same
  rw [h] at hsame
  refine ⟨?_, hsame⟩
  cases hpush with
  | ok hrun _ hholds =>
    obtain rfl := (Prod.mk.inj (h.symm.trans hrun)).2
    exact hholds.1.1
  | raised hrun => exact nomatch congrArg Prod.fst (h.symm.trans hrun)
  | fatal hrun => exact nomatch congrArg Prod.fst (h.symm.trans hrun)

end Machine

/-- The programs of a coherent world are filed for their blocks. -/
theorem World.Coherent.filed {w : World} (h : w.Coherent) : w.Filed where
  indexed := h.indices
  current i slot p hslot hp := by
    obtain ⟨b, hb, hcurrent⟩ := h.slots i slot hslot
    exact ⟨b, hb, (hcurrent p hp).version⟩

namespace Machine

variable {m m₀ m₁ m₂ : Machine} {block : BlockId} {count : Nat} {libraries : Libraries}

/-- A run that pauses leaves a stack that can be run again. -/
theorem run_paused_ready {fuel : Nat} (hready : m₁.stack.phase = .ready ∧ m₁.stack.frames ≠ [])
    (h : run fuel libraries m₁ = (.ok .paused, m₂)) : m₂.stack.phase = .ready := by
  have hrun : run fuel libraries m₁ = ended (body (execute (.idle libraries) fuel) m₁.started) :=
    runWith_ready hready.1 hready.2
  rw [hrun] at h
  rcases hbody : body (execute (.idle libraries) fuel) m₁.started with ⟨fault | outcome, n⟩ <;> rw [hbody] at h
  · cases fault with
    | raised e => exact nomatch (ended_raised e n).1.symm.trans (congrArg Prod.fst h)
    | crashed => exact nomatch congrArg Prod.fst h
    | outOfFuel => exact nomatch congrArg Prod.fst h
  · obtain ⟨houtcome, rfl⟩ := Prod.mk.inj h
    obtain rfl := Except.ok.inj houtcome
    rfl

/-- What is known of a stack that was pushed a root on and paused. -/
structure Halted (block : BlockId) (count : Nat) (m : Machine) : Prop where
  sound : m.Sound
  sited : m.Sited
  seated : m.Seated block count
  ready : m.stack.phase = .ready

/-- A root that was pushed on a new stack and paused has halted. -/
theorem halted_of_paused (hsound : m₀.Sound) (hplain : m₀.world.Plain) {inputs : List Value}
    (hinputs : ∀ v ∈ inputs, v.Known m₀.world.registry) {fuel : Nat}
    (hpush : push block inputs m₀.renewed = (.ok (), m₁))
    (hpaused : run fuel libraries m₁ = (.ok .paused, m₂)) :
    m₂.Halted block inputs.length := by
  have hfiled : m₀.renewed.world.Filed := hsound.world.filed
  obtain ⟨hsound₁, -⟩ := hsound.renewed.push_uncached hinputs hpush
  obtain ⟨hsited₁, -⟩ := push_shifts block inputs m₀.renewed ⟨hfiled, fun h => absurd rfl h, nofun⟩
  rw [hpush] at hsited₁
  obtain ⟨hseated₁, -⟩ := enter_root_seated rfl hfiled hplain rfl (push_ready rfl hpush)
  have hready₁ : m₁.stack.phase = .ready ∧ m₁.stack.frames ≠ [] := by
    obtain ⟨-, -, -, -, -, -, -, -, -, -, rfl⟩ := enter_root rfl (push_ready rfl hpush)
    exact ⟨rfl, List.cons_ne_nil _ _⟩
  have hsound₂ : m₂.Sound := by
    cases resumes_runBy (Embedder.honest_idle m₁.world.registry) fuel m₁ hsound₁ (.refl _) with
    | ok hrun _ hholds =>
      obtain rfl := (Prod.mk.inj (hpaused.symm.trans hrun)).2
      exact hholds.1.1
    | raised hrun => exact nomatch congrArg Prod.fst (hpaused.symm.trans hrun)
    | fatal hrun => exact nomatch congrArg Prod.fst (hpaused.symm.trans hrun)
  have hruns : TracesRun (run fuel libraries) (runByMoments (.idle libraries) fuel) :=
    runWith_traces fun p m hm herror hp => execute_traces (.idle libraries) fuel p hm herror hp
  have hsited₂ := (hruns.traces m₁ hsited₁).sited
  have hseated₂ : (run fuel libraries m₁).2.Seated block inputs.length :=
    runBy_seated (.idle libraries) fuel hsited₁ hseated₁ hready₁.1
  rw [hpaused] at hsited₂ hseated₂
  exact ⟨hsound₂, hsited₂ (.ok _), hseated₂, run_paused_ready hready₁ hpaused⟩

/-- The inputs of a root are known. -/
theorem Halted.inputs_known (h : m.Halted block count) {root : Frame}
    (hroot : m.stack.frames.getLast? = some root) : ∀ v ∈ root.inputs, v.Known m.world.registry :=
  fun v hv => (h.sound.stack.frames root (List.mem_of_getLast? hroot)).registers v
    (Array.mem_toList_iff.1 (List.mem_of_mem_take hv))

/-- **The block of a halted stack is replaced.** -/
theorem Halted.replaced (h : m.Halted block count) {root : Frame}
    (hroot : m.stack.frames.getLast? = some root) {signature : Signature} {body : List Directive}
    (hsignature : signature.Known m.world.registry) (hsites : OneNamePerSite body) (hbody : PlainBody body)
    {version : Nat} {w : World} (hreplace : World.replaceBlock block signature body m.world = (.ok version, w))
    {n : Machine} (hpush : push block root.inputs (renewed { m with world := w }) = (.ok (), n))
    (hkept : n.inputs = root.inputs) (fuel : Nat) :
    Alike (run fuel libraries { m with world := w }) (run fuel libraries n) := by
  obtain ⟨hcoherent, hgrows, hregistry⟩ := h.sound.world.replaceBlock block hsignature hsites
  obtain ⟨hsited, -⟩ := replaceBlock_stays block signature body m h.sited
  have hplain := h.seated.world.replaceBlock h.sited.filed block signature hbody
  have hworld : (tryWorld (World.replaceBlock block signature body) m).2 = { m with world := w } := by
    show ({ m with world := (World.replaceBlock block signature body m.world).2 } : Machine) = _
    rw [hreplace]
  rw [hworld] at hsited
  rw [hreplace] at hcoherent hgrows hregistry hplain
  have hsound : Sound { m with world := w } := h.sound.grow hcoherent hgrows
  obtain ⟨hsoundn, hpushn⟩ := hsound.renewed.push_uncached
    (fun v hv => (h.inputs_known hroot v hv).mono hgrows.registry) hpush
  have hnone : m.stack.error = none := h.sited.no_error (by rw [h.ready]; nofun)
  obtain ⟨-, b, hb, hle, -⟩ := h.sited.stands hnone root (List.mem_of_getLast? hroot)
  obtain ⟨_, hroot', hheads⟩ := h.seated.root
  obtain rfl := Option.some.inj (hroot.symm.trans hroot')
  rw [hheads.block] at hb
  have hnew : w.blocks[block]? = some ⟨block, b.version + 1, signature, body⟩ := by
    rw [World.replaceBlock_eq, hb] at hreplace
    obtain ⟨-, rfl⟩ := Prod.mk.inj hreplace
    exact Array.getElem?_setIfInBounds_self_of_lt (Array.getElem?_eq_some_iff.1 hb).1
  refine .of_uncached hsound hsoundn ?_
  exact run_replaced_alike (m := uncached { m with world := w }) (.idle libraries) fuel rfl
    (hsited.of_footing rfl) ⟨hplain, h.seated.cancelled, h.seated.root⟩ h.ready hroot hnew
    (Nat.lt_succ_of_le hle) hpushn hkept

/-- **A halted stack is migrated.** -/
theorem Halted.migrated (h : m.Halted block count) {root : Frame}
    (hroot : m.stack.frames.getLast? = some root) {new : BlockId} {m' : Machine}
    (hmigrate : migrate block new m = (.ok (), m')) {n : Machine}
    (hpush : push new root.inputs (m.rebound block new).renewed = (.ok (), n)) (fuel : Nat) :
    Alike (run fuel libraries m') (run fuel libraries n) := by
  have hagrees := migrate_keeps block new m ⟨h.sound, rfl⟩
  have huncached := hagrees.same
  rw [hmigrate] at huncached
  have hsound : m'.Sound := by
    cases hagrees with
    | ok hrun _ hholds =>
      obtain rfl := (Prod.mk.inj (hmigrate.symm.trans hrun)).2
      exact hholds.1.1
    | raised hrun => exact nomatch congrArg Prod.fst (hmigrate.symm.trans hrun)
    | fatal hrun => exact nomatch congrArg Prod.fst (hmigrate.symm.trans hrun)
  have hrebound : (m.rebound block new).Sound :=
    (h.sound.withSupply _).withState (Value.rebind_known block new _ _ h.sound.stack.state)
  obtain ⟨hsoundn, hpushn⟩ := hrebound.renewed.push_uncached (h.inputs_known hroot) hpush
  refine .of_uncached hsound hsoundn ?_
  exact run_migrated_alike (m := m.uncached) (.idle libraries) fuel rfl (h.sited.of_footing rfl)
    ⟨h.seated.world, h.seated.cancelled, h.seated.root⟩ hroot huncached hpushn

/-- **What a restarted root is given.** A block is pushed on a new stack, in a world without natives, and
    runs up to a pause. If then the block gets a new definition, or the stack is migrated from it to another
    block, the next run has the same outcome, outputs and state tree as that of the new code on a new stack
    with the same state tree, pushed with what the input registers of the root hold at the pause. These are
    the inputs it was pushed with unless the old code wrote there. A block that is replaced must take them
    without converting them, since they are not cast again. -/
theorem restart_alike (hsound : m₀.Sound) (hplain : m₀.world.Plain) {inputs : List Value}
    (hinputs : ∀ v ∈ inputs, v.Known m₀.world.registry) {fuel : Nat}
    (hpush : push block inputs m₀.renewed = (.ok (), m₁))
    (hpaused : run fuel libraries m₁ = (.ok .paused, m₂)) :
    ∃ root, m₂.stack.frames.getLast? = some root ∧ root.block = block ∧
      root.inputs.length = inputs.length ∧
      (∀ (signature : Signature) (body : List Directive) (version : Nat) (w : World) (n : Machine)
        (fuel : Nat), signature.Known m₂.world.registry → OneNamePerSite body → PlainBody body →
        World.replaceBlock block signature body m₂.world = (.ok version, w) →
        push block root.inputs (renewed { m₂ with world := w }) = (.ok (), n) → n.inputs = root.inputs →
        Alike (run fuel libraries { m₂ with world := w }) (run fuel libraries n)) ∧
      ∀ (new : BlockId) (m₃ n : Machine) (fuel : Nat), migrate block new m₂ = (.ok (), m₃) →
        push new root.inputs (m₂.rebound block new).renewed = (.ok (), n) →
        Alike (run fuel libraries m₃) (run fuel libraries n) := by
  have h := halted_of_paused hsound hplain hinputs hpush hpaused
  obtain ⟨root, hroot, hheads⟩ := h.seated.root
  refine ⟨root, hroot, hheads.block, length_inputs hheads, ?_, ?_⟩
  · intro signature body version w n fuel hsignature hsites hbody hreplace hpush hkept
    exact h.replaced hroot hsignature hsites hbody hreplace hpush hkept fuel
  · intro new m₃ n fuel hmigrate hpush
    exact h.migrated hroot hmigrate hpush fuel

end Machine

/-! ### A block that counts its input up before it pauses -/

namespace Bump

open Machine

def signature : Signature where
  name := "bump"
  inputs := [⟨"a", .basic .int, false⟩]
  outputs := [⟨⟨"x", .basic .int, false⟩, 0⟩]

/-- Counts the input up in its own register, and pauses. -/
def body : List Directive :=
  [.code (.emit (.increment 0)), .code (.emit .pause), .code (.emit .ret)]

/-- Returns the input as it is. -/
def plain : List Directive :=
  [.code (.emit .ret)]

/-- A world in which the first block counts up and the second does not. -/
def world : World :=
  ((World.addBlock { natives := {} } signature body).2.addBlock signature plain).2

def machine : Machine :=
  ⟨world, .new {}, ""⟩

def pushed : Machine :=
  (push 0 [.int 5] machine.renewed).2

def paused : Machine :=
  (run 5 .simple pushed).2

/-- The paused machine after the first block was replaced. -/
def replaced : Machine :=
  { paused with world := (World.replaceBlock 0 signature plain paused.world).2 }

/-- A body of single instructions sends nothing. -/
theorem oneNamed (steps : List Directive) (h : steps.all Directive.isStraight = true) :
    OneNamePerSite steps :=
  oneNamePerSite_of_straight (List.all_eq_true.1 h)

/-- The signature has built-in types only. -/
theorem signature_known (reg : Registry) : signature.Known reg :=
  ⟨List.forall_mem_singleton.2 (.basic _), List.forall_mem_singleton.2 (.basic _)⟩

/-- The first body calls no native. -/
theorem body_plain : PlainBody body := by
  intro ctx supply d hd b index
  have hcode : d.assembler.code.toList =
      [Instruction.increment 0, .pause, .ret].flatMap Instruction.encode := by
    obtain rfl := Except.ok.inj hd
    rfl
  exact Program.plain_of_straight hcode (by decide) (by simp)

/-- The second body calls no native. -/
theorem plain_plain : PlainBody plain := by
  intro ctx supply d hd b index
  have hcode : d.assembler.code.toList = [Instruction.ret].flatMap Instruction.encode := by
    obtain rfl := Except.ok.inj hd
    rfl
  exact Program.plain_of_straight hcode (by decide) (by simp)

/-- The machine of the example is sound. -/
theorem sound : machine.Sound := by
  have hempty : World.Coherent { natives := {} } := World.coherent_new.natives {}
  have hfirst := (hempty.addBlock (signature_known _) (oneNamed body rfl)).1
  exact sound_new (hfirst.addBlock (signature_known _) (oneNamed plain rfl)).1 {} ""

/-- No program of its world calls a native. -/
theorem world_plain : world.Plain := by
  refine ⟨fun b hb => ?_, nofun⟩
  have hblocks : b = ⟨0, 0, signature, body⟩ ∨ b = ⟨1, 0, signature, plain⟩ := by
    simpa [world, World.addBlock] using hb
  obtain rfl | rfl := hblocks
  · exact body_plain
  · exact plain_plain

/-- What an operation leaves, if it went well. -/
theorem eq_of_ok {ε α σ : Type} {r : Except ε α × σ} {x : α} (h : r.1 = .ok x) : r = (.ok x, r.2) :=
  Prod.ext h rfl

/-- The paused world with a place for the program of the second block. -/
def filed : World :=
  { paused.world with programs :=
    ⟨paused.world.programs.indices.insert 1 1, paused.world.programs.slots.push ⟨1, none⟩⟩ }

def compiled : World :=
  (World.lowered ⟨1, 0, signature, plain⟩ 1 filed).2

/-- The program of the second block. -/
def second : Program :=
  (compiled.slotProgram? 1).get (by decide +kernel)

/-- The second block is compiled at the second place. -/
theorem compile_second : World.compile 1 paused.world = (.ok 1, compiled) := by
  have hindices : paused.world.programs.indices = ({} : Std.HashMap BlockId Nat).insert 0 0 := by
    with_unfolding_all rfl
  have hnone : paused.world.programs.indices[1]? = none := by
    rw [hindices, Std.HashMap.getElem?_insert]
    simp
  have hblock : paused.world.blocks[1]? = some ⟨1, 0, signature, plain⟩ := by with_unfolding_all rfl
  have hslot : filed.slotProgram? 1 = none := by with_unfolding_all rfl
  have hsize : paused.world.programs.slots.size = 1 := by decide +kernel
  have hindex : World.programIndex 1 paused.world = (1, filed) := by
    rw [World.programIndex_of_none hnone, hsize]
    rfl
  rw [World.compile_eq, hblock]
  dsimp only
  rw [hindex]
  dsimp only
  rw [hslot]
  exact eq_of_ok (by decide +kernel)

/-- The second block is pushed on a stack of the paused world. -/
theorem enter_second {m : Machine} (hworld : m.world = paused.world) (hframes : m.stack.frames = [])
    (hmax : 0 < m.stack.config.maxFrames) :
    enter 1 [.int 6] {} m = (.ok (), { m with
      world := compiled
      stack := { m.stack with frames := [rootFrame 1 1 second [.int 6] m.stack.state] } }) := by
  have hprogram : World.program 1 compiled = (.ok second, compiled) := by
    refine World.program_of_slot ?_
    with_unfolding_all rfl
  exact enter_root_of hframes hmax (hworld ▸ compile_second) hprogram (by decide +kernel)
    (by decide +kernel) (by with_unfolding_all rfl)

/-- The old code left six in the register of its input five, and that is what the new code returns, whether
    the block is replaced or the stack is migrated. -/
theorem restart_alike_bump : machine.Sound ∧ world.Plain ∧ pushed.inputs = [.int 5] ∧
    (∃ root, paused.stack.frames.getLast? = some root ∧ root.inputs = [.int 6]) ∧
    Alike (run 5 .simple replaced) (run 5 .simple (push 0 [.int 6] replaced.renewed).2) ∧
    (run 5 .simple replaced).1 = .ok .finished ∧
    (run 5 .simple replaced).2.outputs.map Value.int? = [some 6] ∧
    Alike (run 5 .simple (migrate 0 1 paused).2)
      (run 5 .simple (push 1 [.int 6] (paused.rebound 0 1).renewed).2) ∧
    (run 5 .simple (migrate 0 1 paused).2).2.outputs.map Value.int? = [some 6] := by
  have hknown : ∀ v ∈ [Value.int 5], v.Known machine.world.registry :=
    List.forall_mem_singleton.2 (Value.known_atom rfl rfl)
  have hpush : push 0 [.int 5] machine.renewed = (.ok (), pushed) := eq_of_ok (by decide +kernel)
  have hpaused : run 5 .simple pushed = (.ok .paused, paused) := eq_of_ok (by decide +kernel)
  obtain ⟨root, hroot, hblock, -, hreplaced, hmigrated⟩ :=
    restart_alike sound world_plain hknown hpush hpaused
  obtain ⟨hinputs, hbindings⟩ : root.inputs = [.int 6] ∧ root.bindings = [] := by
    have hlast : paused.stack.frames.getLast?.map (fun f => (f.inputs, f.bindings)) =
      some ([.int 6], []) := by with_unfolding_all rfl
    rw [hroot] at hlast
    exact Prod.mk.inj (Option.some.inj hlast)
  have hrebound : paused.rebound 0 1 = paused := rebound_of_null (by with_unfolding_all rfl)
  have hmigrate : migrate 0 1 paused = _ := migrate_root hroot hblock hbindings
  rw [hinputs, hrebound, enter_second (m := paused.vacated) rfl rfl (by decide +kernel)] at hmigrate
  rw [hinputs] at hreplaced hmigrated
  refine ⟨sound, world_plain, by with_unfolding_all rfl, ⟨root, hroot, hinputs⟩, ?_, by decide +kernel,
    by decide +kernel, ?_, ?_⟩
  · exact hreplaced signature plain 1 _ _ 5 (signature_known _) (oneNamed plain rfl) plain_plain
      (eq_of_ok (by decide +kernel)) (eq_of_ok (by decide +kernel)) (by with_unfolding_all rfl)
  · refine hmigrated 1 _ _ 5 (eq_of_ok ?_) (eq_of_ok ?_)
    · rw [hmigrate]
    · rw [hrebound, push_of_ready rfl, enter_second (m := paused.renewed) rfl rfl (by decide +kernel)]
  · rw [hmigrate]
    decide +kernel

end Bump

end BlockMachine

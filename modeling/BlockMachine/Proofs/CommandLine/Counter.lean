import BlockMachine.CommandLine.Session
import BlockMachine.Proofs.Machine.Entry
import BlockMachine.Proofs.Machine.Pauses
import BlockMachine.Proofs.Machine.Restart
import BlockMachine.Proofs.Machine.Stepping

namespace BlockMachine

/-!
# The counter

A run of the counter, instruction by instruction: whatever buffers the state tree and the programs are
in, it counts one further, leaves the new count in the state tree and goes back to rest.

* `Machine.enter_lowered` enters a block that may have to be compiled first;
* `Counter.Tally` says which state trees stand for a count, `Counter.Rests` which machines rest at one;
* `Counter.execute_main` executes the program, `Counter.runOnce_counts` is a run of it;
* `Counter.iterate_counts` are any number of runs.
-/

/-! ### Entering -/

namespace Machine

variable {m m' : Machine}

/-- A block without inputs is entered, and compiled first if need be. -/
theorem enter_lowered {block : BlockId} {b : Block} (hworld : m.world.Derived)
    (hroom : m.stack.depth < m.stack.config.maxFrames) (hb : m.world.blocks[block]? = some b)
    (hlower : ∀ ctx supply, ∃ d, lower ctx b.body supply = .ok d) (hinputs : b.signature.inputs = []) :
    ∃ i w ctx supply d, w.Derived ∧ m.world.OnlyPrograms w ∧ m.world.Retains w ∧
      lower ctx b.body supply = .ok d ∧ w.slotProgram? i = some (World.finish b i d) ∧
      ∀ link : Link, enter block [] link m = (.ok (), { m with world := w }.withFrames ({
        block := block
        program := i
        version := b.version
        registers := Frame.resized #[] b.signature.registerCount
        pc := ⟨0, (World.finish b i d).nodeAt 0⟩
        parent := if m.stack.depth = 0 then none else some (m.stack.depth - 1)
        key := link.key
        incoming := incomingFor m.stack link.key
        bindings := link.bindings
        returnTo := link.returnTo } :: m.stack.frames)) := by
  obtain ⟨i, w, ctx, supply, d, hcompile, hindex, hd, hslot⟩ := hworld.compile_ok hb hlower
  have honly := World.compile_only block m.world
  have hkept := (hworld.filed.compile block).1
  have hderived := hworld.compile block
  rw [hcompile] at honly hkept hderived
  have hb' : w.blocks[block]? = some b := honly.blocks ▸ hb
  refine ⟨i, w, ctx, supply, d, hderived, honly, hkept.retains, hd, hslot, fun link => ?_⟩
  rw [enter_of_compile hroom hcompile (World.compile_filed hb' hindex hslot rfl)]
  exact enter_filed (m := { m with world := w }) hroom hb' hindex hslot rfl hinputs link

end Machine

namespace Counter

open Machine

/-! ### The two programs -/

def tickBlock : Block :=
  ⟨0, 0, Demo.tickSignature, Demo.tickBody⟩

def mainBlock : Block :=
  ⟨1, 0, Demo.counterSignature, Demo.counterBody 0⟩

/-- The instructions of the block that counts, as they are assembled. -/
def tickCalls : List Assembler.Call :=
  [.emit (.getState 0 0), .emit (.setNull 1), .emit (.binary .equals 2 0 1),
    .jump (.ifFalse 2) "seen", .emit (.loadInt 0 0), .bind "seen", .emit (.increment 0),
    .emit (.saveState 0 0), .emit .ret]

/-- The instructions of the main block. -/
def mainCalls : List Assembler.Call :=
  [.emit (.loadConst 0 0), .emit (.callKeyed 0 0 0 1 0), .emit .ret]

def tickDraft (supply : BufferId) : Draft where
  assembler := tickCalls.foldl Assembler.apply {}
  names := #["count"]
  supply := supply

/-- The key of the child is a constant in a buffer of its own. -/
def mainDraft (supply : BufferId) : Draft where
  assembler := mainCalls.foldl Assembler.apply {}
  constants := #[.str supply "tick"]
  blocks := #[0]
  supply := supply + 1

/-- The body that counts is lowered to its draft. -/
theorem lower_tick (ctx : LoweringContext) (supply : BufferId) :
    lower ctx Demo.tickBody supply = .ok (tickDraft supply) := by
  with_unfolding_all rfl

/-- The body that calls the counting one is lowered to its draft. -/
theorem lower_main (ctx : LoweringContext) (supply : BufferId) :
    lower ctx (Demo.counterBody 0) supply = .ok (mainDraft supply) := by
  with_unfolding_all rfl

def tickProgram (i : Nat) : Program :=
  World.finish tickBlock i (tickDraft 0)

def mainProgram (i : Nat) (id : BufferId) : Program :=
  World.finish mainBlock i (mainDraft id)

/-- What gave something went well. -/
theorem eq_ok_of_toOption {ε α : Type} {r : Except ε α} {a : α} (h : r.toOption = some a) :
    r = .ok a := by
  cases r with
  | error => exact nomatch h
  | ok => exact congrArg _ (Option.some.inj h)

/-- What is decoded in the assembled calls is an instruction of the program that counts. -/
theorem tick_at {i : Nat} (pc : Nat) (j : Instruction) (next : Nat)
    (h : (decodeAt (assemble tickCalls) pc).toOption = some (j, next)) :
    (tickProgram i).instructionAt pc = .ok (j, next) :=
  eq_ok_of_toOption h

/-- What is decoded in the assembled calls is an instruction of the main program. -/
theorem main_at {i : Nat} {id : BufferId} (pc : Nat) (j : Instruction) (next : Nat)
    (h : (decodeAt (assemble mainCalls) pc).toOption = some (j, next)) :
    (mainProgram i id).instructionAt pc = .ok (j, next) :=
  eq_ok_of_toOption h

/-! ### The block that counts -/

/-- The frame of the block that counts. -/
def tickFrame (i pc : Nat) (registers : Array Value) (incoming : Value)
    (outgoing : List (Key × Value)) : Frame where
  block := 0
  program := i
  version := 0
  registers := registers
  pc := ⟨pc, none⟩
  parent := some 0
  key := some (.name "tick")
  incoming := incoming
  outgoing := outgoing
  returnTo := some 1

/-- A machine in the middle of the block that counts. -/
def ticking (m : Machine) (rest : List Frame) (incoming : Value) (i pc : Nat) (registers : Array Value)
    (outgoing : List (Key × Value)) : Machine :=
  m.withFrames (tickFrame i pc registers incoming outgoing :: rest)

section

variable {host : Embedder} {m : Machine} {rest : List Frame} {incoming : Value} {i : Nat}

/-- One instruction of the program that counts is taken, and the loop goes on. -/
theorem tick_next {fuel pc pc' : Nat} {registers registers' : Array Value}
    {outgoing outgoing' : List (Key × Value)} (j : Instruction) (next : Nat)
    (hj : (decodeAt (assemble tickCalls) pc).toOption = some (j, next)) (hm : m.stack.cancelled = false)
    (hstep : ∀ resume, step host resume (tickProgram i) next j
      (ticking m rest incoming i next registers outgoing) =
        (.ok .next, ticking m rest incoming i pc' registers' outgoing')) :
    execute host (fuel + 1) (tickProgram i) (ticking m rest incoming i pc registers outgoing) =
      execute host fuel (tickProgram i) (ticking m rest incoming i pc' registers' outgoing') :=
  execute_next (m := ticking m rest incoming i pc registers outgoing) hm rfl (tick_at pc j next hj)
    (hstep _)

/-- The start of the block up to the jump. -/
theorem execute_start (hm : m.stack.cancelled = false) (fuel : Nat) {v : Value}
    (hv : StateTree.read incoming "count" = v) (hmoved : v.isMoved = false) :
    execute host (fuel + 3) (tickProgram i) (ticking m rest incoming i 0 #[.null, .null, .null] []) =
      execute host fuel (tickProgram i) (ticking m rest incoming i 10 #[v, .null, .bool v.isNull] []) :=
  calc execute host (fuel + 3) (tickProgram i) (ticking m rest incoming i 0 #[.null, .null, .null] [])
    _ = execute host (fuel + 2) (tickProgram i) (ticking m rest incoming i 4 #[v, .null, .null] []) :=
      tick_next (.getState 0 0) 4 (by decide +kernel) hm fun _ => hv ▸ rfl
    _ = execute host (fuel + 1) (tickProgram i) (ticking m rest incoming i 6 #[v, .null, .null] []) :=
      tick_next (.setNull 1) 6 (by decide +kernel) hm fun _ => rfl
    _ = execute host fuel (tickProgram i)
        (ticking m rest incoming i 10 #[v, .null, .bool v.isNull] []) := by
      refine tick_next (.binary .equals 2 0 1) 10 (by decide +kernel) hm fun _ => ?_
      rw [← Value.equals_null]
      cases v with
      | moved => exact nomatch hmoved
      | _ => rfl

/-- The rest of the block, once there is a count. -/
theorem execute_seen (hm : m.stack.cancelled = false) (fuel : Nat) (c : Int64) (x y : Value) :
    execute host (fuel + 2) (tickProgram i) (ticking m rest incoming i 17 #[.int c, x, y] []) =
      execute host fuel (tickProgram i)
        (ticking m rest incoming i 23 #[.int (c + 1), x, y] [(.name "count", .int (c + 1))]) :=
  calc execute host (fuel + 2) (tickProgram i) (ticking m rest incoming i 17 #[.int c, x, y] [])
    _ = execute host (fuel + 1) (tickProgram i)
        (ticking m rest incoming i 19 #[.int (c + 1), x, y] []) :=
      tick_next (.increment 0) 19 (by decide +kernel) hm fun _ => rfl
    _ = execute host fuel (tickProgram i)
        (ticking m rest incoming i 23 #[.int (c + 1), x, y] [(.name "count", .int (c + 1))]) :=
      tick_next (.saveState 0 0) 23 (by decide +kernel) hm fun _ => rfl

/-- Whether or not there is a count, the block comes to its end with one more. -/
theorem execute_tick (hm : m.stack.cancelled = false) (rest : List Frame) (i fuel : Nat) {v : Value}
    {c : Int64} (hv : StateTree.read incoming "count" = v) (hc : v = .null ∧ c = 0 ∨ v = .int c) :
    ∃ spare b, execute host (fuel + 7) (tickProgram i)
        (ticking m rest incoming i 0 #[.null, .null, .null] []) =
      execute host (fuel + spare) (tickProgram i)
        (ticking m rest incoming i 23 #[.int (c + 1), .null, .bool b] [(.name "count", .int (c + 1))]) := by
  rcases hc with ⟨rfl, rfl⟩ | rfl
  · refine ⟨0, true, ?_⟩
    calc execute host (fuel + 7) (tickProgram i)
          (ticking m rest incoming i 0 #[.null, .null, .null] [])
      _ = execute host (fuel + 4) (tickProgram i)
          (ticking m rest incoming i 10 #[.null, .null, .bool true] []) := execute_start hm _ hv rfl
      _ = execute host (fuel + 3) (tickProgram i)
          (ticking m rest incoming i 14 #[.null, .null, .bool true] []) :=
        tick_next (.jump (.ifFalse 2) 3) 14 (by decide +kernel) hm fun _ => rfl
      _ = execute host (fuel + 2) (tickProgram i)
          (ticking m rest incoming i 17 #[.int 0, .null, .bool true] []) :=
        tick_next (.loadInt 0 0) 17 (by decide +kernel) hm fun _ => rfl
      _ = _ := execute_seen hm fuel 0 .null (.bool true)
  · refine ⟨1, false, ?_⟩
    calc execute host (fuel + 7) (tickProgram i)
          (ticking m rest incoming i 0 #[.null, .null, .null] [])
      _ = execute host (fuel + 4) (tickProgram i)
          (ticking m rest incoming i 10 #[.int c, .null, .bool false] []) := execute_start hm _ hv rfl
      _ = execute host (fuel + 3) (tickProgram i)
          (ticking m rest incoming i 17 #[.int c, .null, .bool false] []) :=
        tick_next (.jump (.ifFalse 2) 3) 14 (by decide +kernel) hm fun _ => rfl
      _ = _ := execute_seen hm (fuel + 1) c .null (.bool false)

end

/-! ### The main block -/

/-- The frame of the main block. -/
def mainFrame (i pc : Nat) (registers : Array Value) (incoming : Value)
    (outgoing : List (Key × Value)) : Frame where
  block := 1
  program := i
  version := 0
  registers := registers
  pc := ⟨pc, none⟩
  incoming := incoming
  outgoing := outgoing

/-- The world of the counter, with or without its programs. -/
structure Stocked (w : World) : Prop where
  derived : w.Derived
  blocks : w.blocks = #[tickBlock, mainBlock]
  registry : w.registry = {}

/-- A world stays stocked whatever its next buffer number. -/
theorem Stocked.supply {w : World} (h : Stocked w) (supply : BufferId) :
    Stocked { w with supply := supply } :=
  ⟨h.derived.congr rfl rfl, h.blocks, h.registry⟩

/-- It stays so when blocks are compiled. -/
theorem Stocked.only {w w' : World} (h : Stocked w) (hderived : w'.Derived) (honly : w.OnlyPrograms w') :
    Stocked w' :=
  ⟨hderived, honly.blocks.trans h.blocks, honly.registry.trans h.registry⟩

section

variable {host : Embedder} {m : Machine} {i : Nat} {id : BufferId} {v : Value}

/-- The main block before it calls the block that counts. -/
def calling (m : Machine) (i : Nat) (id : BufferId) (v : Value) : Machine :=
  m.withFrames [mainFrame i 11 #[.str id "tick", .null] v []]

/-- The main block calls the block that counts under its key. -/
theorem step_call (hm : Stocked m.world) (hmax : 1 < m.stack.config.maxFrames) (i : Nat) (id : BufferId)
    (v : Value) : ∃ j w, Stocked w ∧ m.world.Retains w ∧ w.slotProgram? j = some (tickProgram j) ∧
      ∀ resume, step host resume (mainProgram i id) 11 (.callKeyed 0 0 0 1 0) (calling m i id v) =
        (.ok .reload, ticking { m with world := w } [mainFrame i 11 #[.str id "tick", .null] v []]
          (StateTree.child v (.name "tick")) j 0 #[.null, .null, .null] []) := by
  have hblock : m.world.blocks[0]? = some tickBlock := by rw [hm.blocks]; rfl
  obtain ⟨j, w, ctx, supply, d, hderived, honly, hretains, hd, hslot, henter⟩ :=
    enter_lowered (m := calling m i id v) hm.derived hmax hblock
      (fun ctx supply => ⟨_, lower_tick ctx supply⟩) rfl
  obtain rfl := Except.ok.inj ((lower_tick ctx supply).symm.trans hd)
  refine ⟨j, w, hm.only hderived honly, hretains, hslot, fun resume => ?_⟩
  have hperform : perform host resume (mainProgram i id) 11 (.callKeyed 0 0 0 1 0) (calling m i id v) =
      enter 0 [] { returnTo := some 1, key := some (.name "tick") } (calling m i id v) := rfl
  rw [step.eq_3 _ _ _ _ _ (by simp) (by simp), Failing.bind_apply, hperform, henter]
  rfl

/-- The block that counts returns to the main block, with its count and with what it saved. -/
theorem step_return {j pc : Nat} (resume : Action Outcome) (incoming : Value) (c : Int64) (x : Value)
    (b : Bool) : step host resume (tickProgram j) 24 .ret
        (ticking m [mainFrame i pc #[x, .null] v []] incoming j 24 #[.int c, .null, .bool b]
          [(.name "count", .int c)]) =
      (.ok .reload, (m.withSupply (m.world.supply + 1)).withFrames
        [mainFrame i pc #[x, .int c] v [(.name "tick", .map m.world.supply [(.name "count", .int c)])]]) :=
  rfl

/-- The machine after the main block returned. -/
def returned (m : Machine) (i : Nat) (x : Value) (c : Int64) (v : Value) (outgoing : List (Key × Value)) :
    Machine :=
  { m.withSupply (m.world.supply + 1) with
    stack := { m.stack with
      frames := [mainFrame i 12 #[x, .int c] v []], state := .map m.world.supply outgoing } }

/-- What the main block saved becomes the state tree. -/
theorem leave_main (c : Int64) (x : Value) (e : Key × Value) :
    leave (mainProgram i id) (m.withFrames [mainFrame i 12 #[x, .int c] v [e]]) =
      (.ok true, returned m i x c v [e]) :=
  rfl

/-- **The counter counts one further**, from whatever count it finds under its key. -/
theorem execute_main (hm : m.stack.cancelled = false) (hworld : Stocked m.world)
    (hmax : 1 < m.stack.config.maxFrames) (hslot : m.world.slotProgram? i = some (mainProgram i id))
    {c : Int64} {count : Value}
    (hcount : StateTree.read (StateTree.child v (.name "tick")) "count" = count)
    (hc : count = .null ∧ c = 0 ∨ count = .int c) (fuel : Nat) :
    ∃ w a, Stocked w ∧ execute host (fuel + 11) (mainProgram i id)
        (m.withFrames [mainFrame i 0 #[.null, .null] v []]) =
      (.ok .finished, returned { m with world := w } i (.str id "tick") (c + 1) v
        [(.name "tick", .map a [(.name "count", .int (c + 1))])]) := by
  obtain ⟨j, w, hw, hretains, htick, hcall⟩ := step_call hworld hmax i id v
  obtain ⟨spare, b, hspare⟩ := execute_tick (m := { m with world := w }) hm
    [mainFrame i 11 #[.str id "tick", .null] v []] j (fuel + 2) hcount hc
  refine ⟨{ w with supply := w.supply + 1 }, w.supply, hw.supply _, ?_⟩
  have hmain : Executing (mainProgram i id)
      (Machine.withFrames { m with world := { w with supply := w.supply + 1 } }
        [mainFrame i 11 #[.str id "tick", .int (c + 1)] v
          [(.name "tick", .map w.supply [(.name "count", .int (c + 1))])]]) :=
    ⟨_, _, rfl, hretains _ _ hslot, rfl⟩
  calc execute host (fuel + 11) (mainProgram i id) (m.withFrames [mainFrame i 0 #[.null, .null] v []])
    _ = execute host (fuel + 10) (mainProgram i id)
        (m.withFrames [mainFrame i 4 #[.str id "tick", .null] v []]) :=
      execute_next (m := m.withFrames _) hm rfl (main_at 0 (.loadConst 0 0) 4 (by decide +kernel)) rfl
    _ = execute host (fuel + 9) (tickProgram j)
        (ticking { m with world := w } [mainFrame i 11 #[.str id "tick", .null] v []]
          (StateTree.child v (.name "tick")) j 0 #[.null, .null, .null] []) :=
      execute_reload (m := m.withFrames _) hm rfl (main_at 4 (.callKeyed 0 0 0 1 0) 11 (by decide +kernel))
        (hcall _) ⟨_, _, rfl, htick, rfl⟩
    _ = execute host (fuel + 2 + spare) (tickProgram j)
        (ticking { m with world := w } [mainFrame i 11 #[.str id "tick", .null] v []]
          (StateTree.child v (.name "tick")) j 23 #[.int (c + 1), .null, .bool b]
          [(.name "count", .int (c + 1))]) := hspare
    _ = execute host (fuel + spare + 2) (tickProgram j)
        (ticking { m with world := w } [mainFrame i 11 #[.str id "tick", .null] v []]
          (StateTree.child v (.name "tick")) j 23 #[.int (c + 1), .null, .bool b]
          [(.name "count", .int (c + 1))]) := by rw [Nat.add_right_comm]
    _ = execute host (fuel + spare + 1) (mainProgram i id)
        (Machine.withFrames { m with world := { w with supply := w.supply + 1 } }
          [mainFrame i 11 #[.str id "tick", .int (c + 1)] v
            [(.name "tick", .map w.supply [(.name "count", .int (c + 1))])]]) :=
      execute_reload (m := ticking _ _ _ _ _ _ _) hm rfl (tick_at 23 .ret 24 (by decide +kernel))
        (step_return _ _ _ _ _) hmain
    _ = _ := execute_finish (m := Machine.withFrames _ _) hm rfl (main_at 11 .ret 12 (by decide +kernel))
        (leave_main _ _ _)

end

/-! ### Runs of the counter -/

/-- The state trees that stand for a count: none before the first, and then a number under the keys of the
    child and of its count. -/
def Tally : Nat → Value → Prop
  | 0, v => v = .null
  | n + 1, v => ∃ a b, v =
    .map a [(.name "tick", .map b [(.name "count", .int (Int64.ofNat (n + 1)))])]

/-- What the block that counts reads. -/
theorem Tally.read {n : Nat} {v : Value} (h : Tally n v) :
    StateTree.read (StateTree.child v (.name "tick")) "count" = .null ∧ Int64.ofNat n = 0 ∨
      StateTree.read (StateTree.child v (.name "tick")) "count" = .int (Int64.ofNat n) := by
  cases n with
  | zero =>
    obtain rfl := h
    exact .inl ⟨rfl, rfl⟩
  | succ n =>
    obtain ⟨a, b, rfl⟩ := h
    exact .inr rfl

/-- A machine between two runs. -/
def resting (w : World) (v : Value) (printed : String) : Machine :=
  ⟨w, { Stack.new {} with state := v }, printed⟩

/-- A machine of the counter between two runs, which has counted to a number and printed a text. -/
def Rests (n : Nat) (printed : String) (m : Machine) : Prop :=
  ∃ w v, Stocked w ∧ Tally n v ∧ m = resting w v printed

section

variable (libraries : Libraries) {w : World} {v : Value}

/-- The main block is pushed. -/
theorem push_main (hw : Stocked w) (v : Value) (printed : String) : ∃ i id w', Stocked w' ∧
    w'.slotProgram? i = some (mainProgram i id) ∧ push 1 [] (resting w v printed) =
      (.ok (), (resting w' v printed).withFrames [mainFrame i 0 #[.null, .null] v []]) := by
  have hblock : w.blocks[1]? = some mainBlock := by rw [hw.blocks]; rfl
  have hroom : (resting w v printed).stack.depth < (resting w v printed).stack.config.maxFrames :=
    Nat.zero_lt_succ 1023
  obtain ⟨i, w', ctx, supply, d, hderived, honly, -, hd, hslot, henter⟩ :=
    enter_lowered (m := resting w v printed) hw.derived hroom hblock
      (fun ctx supply => ⟨_, lower_main ctx supply⟩) rfl
  obtain rfl := Except.ok.inj ((lower_main ctx supply).symm.trans hd)
  refine ⟨i, supply, w', hw.only hderived honly, hslot, ?_⟩
  rw [push_of_ready rfl, henter]
  rfl

/-- The main block runs to its end. -/
theorem run_main {n i : Nat} {id : BufferId} (hw : Stocked w) (hv : Tally n v)
    (hslot : w.slotProgram? i = some (mainProgram i id)) (printed : String) : ∃ w' a, Stocked w' ∧
    Machine.run Session.fuel libraries
        ((resting w v printed).withFrames [mainFrame i 0 #[.null, .null] v []]) =
      ended (.ok .finished, returned { (resting w v printed).started with world := w' } i (.str id "tick")
        (Int64.ofNat (n + 1)) v [(.name "tick", .map a [(.name "count", .int (Int64.ofNat (n + 1)))])]) := by
  have hmax : 1 < (resting w v printed).started.stack.config.maxFrames := by
    show 1 < 1024
    decide
  obtain ⟨w', a, hw', hexecute⟩ := execute_main (m := (resting w v printed).started) rfl hw hmax hslot rfl
    hv.read 999989
  refine ⟨w', a, hw', ?_⟩
  rw [Machine.run, runBy, runWith_ready rfl (List.cons_ne_nil _ _), body, Failing.bind_apply,
    restartIfStale_of_held (List.forall_mem_singleton.2 ⟨_, hslot, rfl⟩)]
  dsimp only
  rw [Failing.bind_apply, Executing.currentProgram ⟨_, _, rfl, hslot, rfl⟩, Int64.ofNat_add]
  exact congrArg ended hexecute

end

/-- What is pushed and finishes in one run gives its outputs, and the stack is cleared. -/
theorem runOnce_of_finished {libraries : Libraries} {m m₁ m₂ : Machine} {block : BlockId}
    {inputs : List Value} (hpush : push block inputs m = (.ok (), m₁))
    (hrun : Machine.run Session.fuel libraries m₁ = (.ok .finished, m₂)) :
    Session.runOnce libraries block inputs m = (.ok m₂.outputs, { m₂ with stack := m₂.stack.reset false }) := by
  have hfinish : Session.finish libraries Session.fuel m₁ = (.ok .finished, m₂) := by
    rw [show Session.fuel = 999999 + 1 from rfl, Session.finish, Failing.bind_apply, hrun]
    rfl
  rw [Session.runOnce, Failing.bind_apply, Session.perform, hpush]
  dsimp only
  rw [Failing.bind_apply, Session.perform, hfinish]
  rfl

/-- **A run of the counter** outputs the next number and rests at it. -/
theorem runOnce_counts (libraries : Libraries) {n : Nat} {printed : String} {m : Machine}
    (h : Rests n printed m) :
    ∃ m', Session.runOnce libraries 1 [] m = (.ok [.int (Int64.ofNat (n + 1))], m') ∧
      Rests (n + 1) printed m' := by
  obtain ⟨w, v, hw, hv, rfl⟩ := h
  obtain ⟨i, id, w₁, hw₁, hslot, hpush⟩ := push_main hw v printed
  obtain ⟨w₂, a, hw₂, hrun⟩ := run_main libraries hw₁ hv hslot printed
  have hblock : w₂.blocks[1]? = some mainBlock := by rw [hw₂.blocks]; rfl
  refine ⟨resting { w₂ with supply := w₂.supply + 1 }
    (.map w₂.supply [(.name "tick", .map a [(.name "count", .int (Int64.ofNat (n + 1)))])]) printed,
    ?_, ⟨_, _, hw₂.supply _, ⟨_, _, rfl⟩, rfl⟩⟩
  rw [runOnce_of_finished hpush hrun]
  simp only [outputs, returned, withSupply, mainFrame, conclude, hblock]
  rfl

/-! ### Any number of runs -/

/-- The line that is printed for a count. -/
def line (n : Nat) : String :=
  toString (Int64.ofNat n).toInt ++ "\n"

/-- The lines that are printed for the counts after a number. -/
def lines (n count : Nat) : String :=
  String.join ((List.range' (n + 1) count).map line)

/-- The lines of some runs are that of the first one and those of the others. -/
theorem lines_succ (n count : Nat) : lines n (count + 1) = line (n + 1) ++ lines (n + 1) count := by
  rw [lines, List.range'_succ, List.map_cons, String.join_cons, lines]

/-- The lines of some runs and of more are those of both. -/
theorem lines_add (n count more : Nat) :
    lines n (count + more) = lines n count ++ lines (n + count) more := by
  rw [lines, lines, lines, ← String.join_append, ← List.map_append, Nat.add_right_comm n count 1,
    ← List.range'_append_1]

/-- **The counter counts on** as often as it is asked to, and prints a line for each count. -/
theorem iterate_counts (libraries : Libraries) {n : Nat} {printed : String} {m : Machine}
    (h : Rests n printed m) (count : Nat) :
    ∃ m', Session.iterate libraries 1 [] count m = (.ok (), m') ∧
      Rests (n + count) (printed ++ lines n count) m' := by
  induction count generalizing n printed m with
  | zero => exact ⟨m, rfl, String.append_empty.symm ▸ h⟩
  | succ count ih =>
    obtain ⟨m₁, honce, w, v, hw, hv, rfl⟩ := runOnce_counts libraries h
    obtain ⟨m₂, hrest, hrests⟩ := ih (m := resting w v (printed ++ line (n + 1))) ⟨w, v, hw, hv, rfl⟩
    refine ⟨m₂, ?_, ?_⟩
    · rw [Session.iterate, Failing.bind_apply, honce]
      exact hrest
    · rw [lines_succ, ← String.append_assoc, Nat.add_comm count, ← Nat.add_assoc]
      exact hrests

end Counter

end BlockMachine

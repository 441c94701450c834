import BlockMachine.Machine.Run
import BlockMachine.Proofs.Machine.Agreement

namespace BlockMachine

/-!
# Computing in frames

The operations on the active frame and between frames do not depend on caches, and keep a machine
sound.

* `Machine.Quiet`, `Machine.Steady` and `Machine.Open` say which changes a set of machines allows:
  new buffer numbers, new contents of the active frame, other frames;
* `Machine.In` and `Machine.On` are such sets;
* `Machine.enter_keeps` and `Machine.leave_keeps` are about calls and returns.
-/

/-- Two frames stand at the same place of the same program. -/
structure Frame.SamePlace (f f' : Frame) : Prop where
  program : f'.program = f.program
  version : f'.version = f.version
  offset : f'.pc.offset = f.pc.offset

/-- The registers of a frame to which the outputs of another are delivered. -/
def Frame.given (parent child : Frame) (outputs : List Value) : Array Value :=
  match child.returnTo with
  | some out => Machine.receive parent.registers out.toNat outputs
  | none => parent.registers

/-- The types of a known signature are known. -/
theorem Signature.Known.placeholder? {reg : Registry} {s : Signature} (h : s.Known reg) {i : Nat}
    {p : Placeholder} (hp : s.placeholder? i = some p) : p.type.Known reg := by
  rw [Signature.placeholder?] at hp
  split at hp
  next q hq => exact h.inputs p (Option.some.inj hp ▸ List.mem_of_getElem? hq)
  next =>
    split at hp
    · exact h.inputs p (List.mem_of_getLast? hp)
    · exact nomatch hp

namespace Machine

variable {α β : Type} {reg : Registry} {S : Machine → Prop} {m : Machine}

/-! ### Sets of machines -/

/-- A machine with another next buffer number. -/
def withSupply (m : Machine) (supply : BufferId) : Machine :=
  { m with world := { m.world with supply := supply } }

/-- A machine with other frames. -/
def withFrames (m : Machine) (frames : List Frame) : Machine :=
  { m with stack := { m.stack with frames := frames } }

/-- A machine is sound whatever its next buffer number. -/
theorem Sound.withSupply (h : m.Sound) (supply : BufferId) : (m.withSupply supply).Sound :=
  h.grow (h.world.supply supply) (World.grows_supply _ supply)

/-- A machine stays sound with other frames, if these are known and run programs of its world. -/
theorem Sound.withFrames (h : m.Sound) {frames : List Frame}
    (hknown : ∀ f ∈ frames, f.Known m.world.registry)
    (hruns : m.stack.error = none → ∀ f ∈ frames, f.Runs m.world) : (m.withFrames frames).Sound :=
  ⟨⟨h.world, ⟨hknown, h.stack.state, h.stack.retained, h.stack.env, h.stack.messages⟩, h.caches⟩,
    h.ended, hruns⟩

/-- Sound machines with one registry, whatever buffer numbers they gave out. -/
structure Quiet (reg : Registry) (S : Machine → Prop) : Prop where
  sound : ∀ {m}, S m → m.Sound
  registry : ∀ {m}, S m → m.world.registry = reg
  supply : ∀ {m}, S m → ∀ supply, S (m.withSupply supply)

/-- A set that does not depend on the contents of the active frame. -/
structure Steady (reg : Registry) (S : Machine → Prop) : Prop extends Quiet reg S where
  active : ∀ {m f f' rest}, S m → m.stack.frames = f :: rest → f'.Known reg → f.SamePlace f' →
    S (m.withFrames (f' :: rest))

/-- A set that depends on the registry and the error only. -/
structure Open (reg : Registry) (S : Machine → Prop) : Prop where
  sound : ∀ {m}, S m → m.Sound
  registry : ∀ {m}, S m → m.world.registry = reg
  other : ∀ {m m'}, S m → m'.Sound → m'.world.registry = reg → m'.stack.error = m.stack.error → S m'

/-- A set of machines with one registry. -/
def In (reg : Registry) (m : Machine) : Prop :=
  m.Sound ∧ m.world.registry = reg

/-- The machines with one registry that no error ended. -/
def Calm (reg : Registry) (m : Machine) : Prop :=
  In reg m ∧ m.stack.error = none

/-- The active frame runs a program, which is the current one of its block. -/
def Executes (m : Machine) (p : Program) : Prop :=
  m.world.slotProgram? p.index = some p ∧
    ∃ f rest, m.stack.frames = f :: rest ∧ f.program = p.index ∧ f.version = p.version

/-- The machines with one registry that execute a program. -/
def On (reg : Registry) (p : Program) (m : Machine) : Prop :=
  Calm reg m ∧ m.Executes p

/-- Sets of machines with one registry allow other frames. -/
theorem open_in (reg : Registry) : Open reg (In reg) :=
  ⟨fun h => h.1, fun h => h.2, fun _ hsound hreg _ => ⟨hsound, hreg⟩⟩

/-- Sets of machines that no error ended allow other frames. -/
theorem open_calm (reg : Registry) : Open reg (Calm reg) :=
  ⟨fun h => h.1.1, fun h => h.1.2, fun h hsound hreg herror => ⟨⟨hsound, hreg⟩, herror.trans h.2⟩⟩

/-- A machine stays sound with other contents of the active frame at the same place. -/
theorem Sound.active (h : m.Sound) {f f' : Frame} {rest : List Frame}
    (hframes : m.stack.frames = f :: rest) (hf' : f'.Known m.world.registry)
    (hplace : f.SamePlace f') : (m.withFrames (f' :: rest)).Sound := by
  refine h.withFrames (List.forall_mem_cons.2 ⟨hf', fun g hg => ?_⟩) fun herror =>
    List.forall_mem_cons.2 ⟨?_, fun g hg => ?_⟩
  · exact h.stack.frames g (hframes ▸ List.mem_cons_of_mem _ hg)
  · exact (h.runs herror f (hframes ▸ List.mem_cons_self)).congr hplace.program hplace.version
      hplace.offset
  · exact h.runs herror g (hframes ▸ List.mem_cons_of_mem _ hg)

/-- Where other frames are allowed, other contents of the active frame are. -/
theorem Open.steady (hS : Open reg S) : Steady reg S where
  sound := hS.sound
  registry := hS.registry
  supply := fun {m} h supply =>
    hS.other h ((hS.sound h).withSupply supply) (hS.registry (m := m) h) rfl
  active := fun {m _ _ _} h hframes hf' hplace => hS.other h
    ((hS.sound h).active hframes (hS.registry h ▸ hf') hplace) (hS.registry (m := m) h) rfl

/-- Machines that execute a program go on doing so with other contents of the active frame. -/
theorem steady_on (reg : Registry) (p : Program) : Steady reg (On reg p) where
  sound := fun h => h.1.1.1
  registry := fun h => h.1.1.2
  supply := fun h supply => ⟨(open_calm reg).steady.supply h.1 supply, h.2⟩
  active := by
    rintro m f f' rest ⟨hcalm, hslot, g, rest', hframes', hprogram, hversion⟩ hframes hf' hplace
    rw [hframes] at hframes'
    obtain ⟨rfl, rfl⟩ := List.cons.inj hframes'
    exact ⟨(open_calm reg).steady.active hcalm hframes hf' hplace, hslot, f', rest, rfl,
      hplace.program.trans hprogram, hplace.version.trans hversion⟩

/-- Reading and allocating keep what is known of the stack and of the programs. -/
theorem Quiet.and (hS : Quiet reg S) {T : Machine → Prop}
    (hT : ∀ {m}, T m → ∀ supply, T (m.withSupply supply)) : Quiet reg fun m => S m ∧ T m where
  sound := fun h => hS.sound h.1
  registry := fun h => hS.registry h.1
  supply := fun h supply => ⟨hS.supply h.1 supply, hT h.2 supply⟩

/-! ### Values -/

section Quiet

variable (hS : Quiet reg S)
include hS

/-- The stack of such a machine is known. -/
theorem Quiet.stack (hm : S m) : m.stack.Known reg :=
  hS.registry hm ▸ (hS.sound hm).stack

/-- Taking buffer numbers does not depend on caches. -/
theorem allocate_keeps {g : Fresh α} {Q : α → Prop} (h : ∀ n, Q (g n).1) : Keeps S (allocate g) Q :=
  fun _ hm => .allocate ⟨hS.supply hm _, h _⟩

/-- Casts to known types give known values, if they succeed. -/
theorem tryCast_keeps {ty : Ty} {v : Value} (hty : ty.Known reg) (hv : v.Known reg) :
    Keeps S (tryCast ty v) fun r => ∀ w, r = .ok w → w.Known reg :=
  fun _ hm => .tryCast
    (fun _ supply hcast => ⟨hS.supply hm supply, fun _ hw =>
      Except.ok.inj hw ▸ Ty.cast_known hty hv hcast⟩)
    fun _ => ⟨hm, nofun⟩

/-- Casts to known types give known values, or raise an error. -/
theorem cast_keeps {ty : Ty} {v : Value} (hty : ty.Known reg) (hv : v.Known reg) :
    Keeps S (cast ty v) (Value.Known reg) := by
  refine .bind (tryCast_keeps hS hty hv) fun r hr => ?_
  cases r with
  | ok w => exact .pure (hr w rfl)
  | error e => exact .raise _

/-! ### Registers -/

/-- The active frame is known. -/
theorem active_keeps : Keeps S active (Frame.Known reg) := by
  refine .getStack_bind (fun _ => rfl) fun m hm => ?_
  cases hframes : m.stack.frames with
  | nil => exact .violate _
  | cons f rest => exact .pure ((hS.stack hm).frames f (hframes ▸ List.mem_cons_self))

omit hS in

/-- The active frame is the one that is read. -/
theorem Agrees.active_bind {k : Frame → Action β} {R : β → Machine → Prop} {E : Machine → Prop}
    (hE : E m) (h : ∀ f rest, m.stack.frames = f :: rest → Agrees (k f) m R E) :
    Agrees (active >>= k) m R E := by
  cases hframes : m.stack.frames with
  | nil =>
    have hrun : ∀ m' : Machine, m'.stack.frames = [] →
        (active >>= k) m' = (.error (.raised (.violation .noActiveFrame)), m') := by
      intro m' hm'
      simp only [active, getStack, Failing.bind_apply, Failing.get_apply, Failing.pure_apply, hm']
      rfl
    exact .raised (hrun m hframes) (hrun m.uncached hframes) hE
  | cons f rest =>
    have hrun : ∀ m' : Machine, m'.stack.frames = f :: rest → (active >>= k) m' = k f m' := by
      intro m' hm'
      simp only [active, getStack, Failing.bind_apply, Failing.get_apply, Failing.pure_apply, hm']
    exact (h f rest hframes).congr (hrun m hframes) (hrun m.uncached hframes)

/-- What a computation does with the active frame is asked only where there is one. -/
theorem active_bind_keeps {k : Frame → Action β} {R : β → Prop}
    (h : ∀ m f rest, S m → m.stack.frames = f :: rest → f.Known reg →
      Agrees (k f) m (fun x m' => S m' ∧ R x) S) : Keeps S (active >>= k) R :=
  fun m hm => .active_bind hm fun f rest hframes =>
    h m f rest hm hframes ((hS.stack hm).frames f (hframes ▸ List.mem_cons_self))

/-- Registers hold known values. -/
theorem rawRegister_keeps (r : Reg) : Keeps S (rawRegister r) (Value.Known reg) := by
  refine .bind (active_keeps hS) fun f hf => ?_
  cases hv : f.registers[r.toNat]? with
  | none => exact .violate _
  | some v => exact .pure (hf.registers v (Array.mem_of_getElem? hv))

/-- Registers whose values were not moved away hold known values. -/
theorem register_keeps (r : Reg) : Keeps S (register r) (Value.Known reg) := by
  refine .bind (rawRegister_keeps hS r) fun v hv => ?_
  split
  · exact .violate _
  · exact .pure hv

omit hS in
/-- Counting registers changes nothing. -/
theorem offsetRegister_keeps (base : Reg) (n : Nat) :
    Keeps S (offsetRegister base n) fun _ => True := by
  rw [offsetRegister]
  split
  · exact .pure trivial
  · exact .violate _

/-- Arguments are known, as registers are. -/
theorem argumentsFrom_keeps (base : Reg) (count start : Nat) :
    Keeps S (argumentsFrom base start count) fun vs => ∀ v ∈ vs, v.Known reg := by
  induction count generalizing start with
  | zero => exact .pure (List.forall_mem_nil _)
  | succ count ih =>
    exact .bind (offsetRegister_keeps base start) fun r _ =>
      .bind (register_keeps hS r) fun v hv =>
      .bind (ih (start + 1)) fun vs hvs => .pure (List.forall_mem_cons.2 ⟨hv, hvs⟩)

/-- All arguments of a call are known. -/
theorem arguments_keeps (base : Reg) (count : Nat) :
    Keeps S (arguments base count) fun vs => ∀ v ∈ vs, v.Known reg :=
  argumentsFrom_keeps hS base count 0

end Quiet

section Steady

variable (hS : Steady reg S)
include hS

/-- The active frame may get other contents at its place. -/
theorem Steady.setActive (hm : S m) {f f' : Frame} {rest : List Frame}
    (hframes : m.stack.frames = f :: rest) (hf' : f'.Known reg) (hplace : f.SamePlace f') :
    Agrees (setActive f') m (fun _ m' => S m' ∧ True) S := by
  have htail : m.stack.frames.tail = rest := by rw [hframes]; rfl
  have hS' : S (m.withFrames (f' :: m.stack.frames.tail)) :=
    htail ▸ hS.active hm hframes hf' hplace
  exact .modifyStack rfl ⟨hS', trivial⟩

/-- The active frame may get other registers that hold known values. -/
theorem Steady.setRegisters (hm : S m) {f : Frame} {rest : List Frame} {registers : Array Value}
    (hframes : m.stack.frames = f :: rest) (hf : f.Known reg)
    (hregisters : ∀ v ∈ registers, v.Known reg) :
    Agrees (Machine.setActive { f with registers := registers }) m (fun _ m' => S m' ∧ True) S :=
  hS.setActive hm hframes (hf.withRegisters hregisters) ⟨rfl, rfl, rfl⟩

/-- The active frame may be changed in what is known of it, at its place. -/
theorem modifyActive_keeps {change : Frame → Frame}
    (h : ∀ f, f.Known reg → (change f).Known reg ∧ f.SamePlace (change f)) :
    Keeps S (modifyActive change) fun _ => True :=
  active_bind_keeps hS.toQuiet fun _ f _ hm hframes hf =>
    hS.setActive hm hframes (h f hf).1 (h f hf).2

/-- A known value may be written to a register. -/
theorem setRegister_keeps (r : Reg) {v : Value} (hv : v.Known reg) :
    Keeps S (setRegister r v) fun _ => True := by
  refine active_bind_keeps hS.toQuiet fun m f rest hm hframes hf => ?_
  split
  · exact hS.setRegisters hm hframes hf (setIfInBounds_known hf.registers _ hv)
  · exact .raise hm

/-- A known value may be set as an input. -/
theorem setInput_keeps (index : Nat) {v : Value} (hv : v.Known reg) :
    Keeps S (setInput index v) fun _ => True := by
  refine active_bind_keeps hS.toQuiet fun m f rest hm hframes hf => ?_
  split
  · exact hS.setRegisters hm hframes hf (setIfInBounds_known hf.registers _ hv)
  · exact .raise hm

/-- A known value may be set as an output. -/
theorem setOutput_keeps (index : Nat) {v : Value} (hv : v.Known reg) :
    Keeps S (setOutput index v) fun _ => True := by
  refine .get_bind (fun _ => rfl) fun m₀ _ => ?_
  split
  · exact .violate _
  next r _ =>
    refine active_bind_keeps hS.toQuiet fun m f rest hm hframes hf => ?_
    refine hS.setRegisters hm hframes hf (setIfInBounds_known ?_ _ hv)
    -- an output behind the last register makes room for itself
    split
    · exact Frame.resized_known hf.registers _
    · exact hf.registers

/-- Moving a value away leaves a known one behind. -/
theorem move_keeps (dst src : Reg) : Keeps S (move dst src) fun _ => True := by
  rw [move]
  split
  · exact .bind (register_keeps hS.toQuiet src) fun v hv =>
      .bind (setRegister_keeps hS src (Value.known_atom rfl rfl)) fun _ _ =>
      setRegister_keeps hS dst hv
  · exact .pure trivial

/-- Registers exchange known values. -/
theorem swap_keeps (a b : Reg) : Keeps S (swap a b) fun _ => True := by
  refine active_bind_keeps hS.toQuiet fun m f rest hm hframes hf => ?_
  split
  next x y hx hy =>
    have hknown := setIfInBounds_known (setIfInBounds_known hf.registers a.toNat
      (hf.registers y (Array.mem_of_getElem? hy))) b.toNat
      (hf.registers x (Array.mem_of_getElem? hx))
    exact hS.setRegisters hm hframes hf hknown
  next => exact .raise hm

end Steady

/-! ### Entering a block -/

/-- Arguments are cast to the known types of a signature. -/
theorem castArguments_keeps (hS : Quiet reg S) {s : Signature} (hs : s.Known reg) (i : Nat)
    {args : List Value} (hargs : ∀ v ∈ args, v.Known reg) :
    Keeps S (castArguments s i args) fun vs => ∀ v ∈ vs, v.Known reg := by
  induction args generalizing i with
  | nil => exact .pure (List.forall_mem_nil _)
  | cons v rest ih =>
    obtain ⟨hv, hrest⟩ := List.forall_mem_cons.1 hargs
    have hdone : ∀ w, w.Known reg → Keeps S
        (do return w :: (← castArguments s (i + 1) rest)) fun vs => ∀ v ∈ vs, v.Known reg :=
      fun w hw => .bind (ih (i + 1) hrest) fun vs hvs => .pure (List.forall_mem_cons.2 ⟨hw, hvs⟩)
    rw [castArguments]
    split
    next p hp =>
      split
      · exact .bind (.pure hv) hdone
      · exact .bind (cast_keeps hS (hs.placeholder? hp) hv) hdone
    next => exact .bind (.pure hv) hdone

/-- What a child finds as its state is a part of its parent's. -/
theorem incomingFor_known {s : Stack} (h : s.Known reg) (key : Option Key) :
    (incomingFor s key).Known reg := by
  unfold incomingFor
  split
  · exact h.state
  next parent rest k hframes =>
    exact StateTree.child_known k (h.frames parent (hframes ▸ List.mem_cons_self)).incoming
  · exact StateTree.known_null

/-- A world that was compiled in. -/
theorem Open.compiled (hS : Open reg S) (hm : S m) {w : World} (h : World.Compiled m.world w) :
    S { m with world := w } :=
  hS.other hm ((hS.sound hm).grow h.coherent h.grows) (h.registry.trans (hS.registry hm)) rfl

/-- Entering a block pushes a frame that stands at the start of its current program. -/
theorem enter_keeps (hS : Open reg S) (block : BlockId) {args : List Value} {link : Link}
    (hargs : ∀ v ∈ args, v.Known reg) (hlink : ∀ v ∈ link.bindings, v.Known reg) :
    Keeps S (enter block args link) fun _ => True := by
  have hQ := hS.steady.toQuiet
  refine .getStack_bind (fun _ => rfl) fun m₀ hm₀ => ?_
  have hincoming := incomingFor_known (hQ.stack hm₀) link.key
  dsimp only
  split
  · exact .raise_bind _
  -- compile, then fetch: the two results are connected only through the slot, so from here on the
  -- machine is followed step by step
  intro m hm
  have hcompile := (hS.sound hm).world.compile block
  refine .bind (.onWorld (Q := fun _ m' => S m') (fun _ _ => hS.compiled hm hcompile.1)
    (hS.compiled hm hcompile.1)) fun index m₁ hm₁ => ?_
  have hprogram := (hS.sound hm₁).world.program index
  refine .bind (.onWorld (Q := fun p m' => S m' ∧ m'.world.slotProgram? index = some p)
    (fun p hp => ⟨hS.compiled hm₁ hprogram.1, hprogram.2 p hp⟩) (hS.compiled hm₁ hprogram.1))
    fun program m₂ hm₂ => ?_
  obtain ⟨_, _, _, _, _, hcurrent⟩ := (hS.sound hm₂.1).world.current hm₂.2
  have hsignature := hS.registry hm₂.1 ▸ hcurrent.known.signature
  split
  · exact .raise_bind hm₂.1
  -- the program stays in its slot while the arguments are cast
  have hslot := hQ.and (T := fun m => m.world.slotProgram? index = some program) fun h _ => h
  refine .bind (((castArguments_keeps hslot hsignature 0 hargs) m₂ hm₂).relax
    fun _ h => h.1) fun vs m₃ ⟨hm₃, hvs⟩ => ?_
  have hsound := hS.sound hm₃.1
  have hreg := hS.registry hm₃.1
  refine .modifyStack rfl ⟨hS.other hm₃.1 (hsound.withFrames ?_ fun herror => ?_) hreg rfl, trivial⟩
  · have hregisters : ∀ v ∈ Frame.resized vs.toArray (max program.registers args.length),
        v.Known reg := Frame.resized_known (fun v hv => hvs v (List.mem_toArray.1 hv)) _
    rw [hreg]
    exact List.forall_mem_cons.2
      ⟨⟨hregisters, hincoming, nofun, hlink⟩, (hQ.stack hm₃.1).frames⟩
  · exact List.forall_mem_cons.2
      ⟨.of_reaches hsound.world hm₃.2 rfl .start, hsound.runs herror⟩

/-! ### Errors -/

/-- Noting an error puts any tidy machine in order. -/
theorem recordError_agrees (hm : m.Tidy) (e : RuntimeError) {E : Machine → Prop} :
    Agrees (recordError e) m
      (fun _ m' => In m.world.registry m' ∧ m'.stack.error.isSome) E := by
  have hnote : ∀ (m' : Machine) (block : Option BlockId) (pc : Pc), m'.Tidy →
      m'.world.registry = m.world.registry →
      Agrees (modifyStack fun s =>
        { s with error := some ⟨e, s.depth - 1, block, pc⟩, phase := .finished }) m'
        (fun _ m' => In m.world.registry m' ∧ m'.stack.error.isSome) E := by
    intro m' block pc hm' hreg
    have hstack := hm'.stack
    exact .modifyStack rfl ⟨⟨⟨⟨hm'.world, ⟨hstack.frames, hstack.state, hstack.retained, hstack.env,
      hstack.messages⟩, hm'.caches⟩, fun _ => rfl, nofun⟩, hreg⟩, rfl⟩
  have hpure : ∀ (m' : Machine) (x : Option BlockId × Pc), m'.Tidy →
      m'.world.registry = m.world.registry → Agrees (pure x) m'
        (fun _ m' => m'.Tidy ∧ m'.world.registry = m.world.registry) E :=
    fun _ _ hm' hreg => .pure ⟨hm', hreg⟩
  refine .getStack_bind rfl ?_
  dsimp only
  split
  · exact .bind (hpure m _ hm rfl) fun _ m' h => hnote m' _ _ h.1 h.2
  next f _ _ =>
    -- the error notes the block of the active frame, for which its program is looked up
    obtain ⟨hcompiled, _⟩ := hm.world.program f.program
    refine .bind (.tryWorld (P := fun _ m' => m'.Tidy ∧ m'.world.registry = m.world.registry)
      ⟨hm.grow hcompiled.coherent hcompiled.grows, hcompiled.registry⟩) fun r m' hm' => ?_
    exact .bind (hpure m' _ hm'.1 hm'.2) fun _ m'' h => hnote m'' _ _ h.1 h.2

/-- Noting an error does not depend on caches. -/
theorem recordError_keeps (e : RuntimeError) : Keeps (In reg) (recordError e) fun _ => True :=
  fun _ hm => (recordError_agrees hm.1.toTidy e).mono (fun _ _ h => ⟨hm.2 ▸ h.1, trivial⟩)
    fun _ h => h

/-- Raising an error in a native does not depend on caches. -/
theorem raiseError_keeps (message : String) :
    Keeps (In reg) (raiseError message) fun _ => True := by
  have hdone : Keeps (In reg) (do
      recordError (.hostRaised message)
      return RuntimeError.hostRaised message) fun _ => True :=
    .bind (recordError_keeps _) fun _ _ => .pure trivial
  refine .get_bind (fun _ => rfl) fun m _ => ?_
  dsimp only
  split
  · exact .bind (setOutput_keeps (open_in reg).steady 0 (Value.known_atom rfl rfl))
      fun _ _ => hdone
  · exact hdone

/-! ### The active frame -/

/-- The active frame is the first one. -/
theorem active_apply {f : Frame} {rest : List Frame} (h : m.stack.frames = f :: rest) :
    active m = (.ok f, m) := by
  simp only [active, getStack, Failing.bind_apply, Failing.get_apply, Failing.pure_apply, h]

/-- Without frames there is none, which is an error. -/
theorem active_apply_nil (h : m.stack.frames = []) :
    active m = (.error (.raised (.violation .noActiveFrame)), m) := by
  simp only [active, getStack, Failing.bind_apply, Failing.get_apply, Failing.pure_apply, h]
  rfl

/-- A new active frame takes the place of the first one. -/
theorem setActive_apply {f : Frame} {rest : List Frame} (h : m.stack.frames = f :: rest)
    (f' : Frame) : setActive f' m = (.ok (), m.withFrames (f' :: rest)) := by
  have htail : m.stack.frames.tail = rest := by rw [h, List.tail_cons]
  rw [← htail]
  rfl

/-- A change of the active frame takes its place. -/
theorem modifyActive_apply {f : Frame} {rest : List Frame} (change : Frame → Frame)
    (h : m.stack.frames = f :: rest) :
    modifyActive change m = (.ok (), m.withFrames (change f :: rest)) := by
  rw [modifyActive, Failing.bind_apply, active_apply h]
  exact setActive_apply h _

end Machine

end BlockMachine

import BlockMachine.Proofs.Machine.Tenure

namespace BlockMachine

/-!
# What calls and returns do to frames

Most instructions work in the active frame. A call of any kind puts one frame on top of the others or works
in the frame it is made from; a return ends the root, or takes the returning frame away and changes its
caller. Nothing else of the frames is touched.

* `Machine.Works` is what working in the active frame may change;
* `Machine.enter_pushes` is about entering a block, `Machine.perform_called` about calls of all kinds;
* `Frame.Receives` is what a caller gets from its callee, `Machine.leave_returned` is about returns.
-/

namespace Instruction

/-- The first register that the outputs of a call go to. -/
def out? : Instruction → Option Reg
  | call _ _ _ out => some out
  | callKeyed _ _ _ out _ => some out
  | callFunc _ _ out => some out
  | callFuncApply _ _ out => some out
  | callMethod _ _ _ out _ => some out
  | _ => none

/-- The key that a call from a frame is made under, if it is a keyed one. -/
def key? (f : Frame) : Instruction → Option Key
  | callKeyed _ _ _ _ key => (f.registers[key.toNat]?).bind (·.key?)
  | _ => none

end Instruction

/-! ### Working in a frame -/

namespace Frame

/-- What a frame keeps as long as it is there. -/
def fixed (f : Frame) : Frame :=
  { f with registers := #[], pc := {}, outgoing := [], retain := false }

/-- A frame works and becomes another one. If it is left `room`, it keeps a register for every input. -/
structure Becomes (room : Prop) (f f' : Frame) : Prop where
  fixed : f'.fixed = f.fixed
  inputs : room → f.inputCount ≤ f.registers.size → f'.inputCount ≤ f'.registers.size

/-- A frame hangs where a link says, on a stack of some depth. -/
structure HangsOff (depth : Nat) (link : Machine.Link) (f : Frame) : Prop where
  parent : f.parent = if depth = 0 then none else some (depth - 1)
  key : f.key = link.key
  returnTo : f.returnTo = link.returnTo
  bindings : f.bindings = link.bindings
  outgoing : f.outgoing = []
  inputs : f.inputCount ≤ f.registers.size

namespace Becomes

variable {room : Prop} {f f' f'' : Frame}

/-- A frame that does nothing stays itself. -/
theorem refl (f : Frame) : f.Becomes room f :=
  ⟨rfl, fun _ h => h⟩

/-- Work follows on work. -/
theorem trans (h : f.Becomes room f') (h' : f'.Becomes room f'') : f.Becomes room f'' :=
  ⟨h'.fixed.trans h.fixed, fun hroom hf => h'.inputs hroom (h.inputs hroom hf)⟩

/-- Registers are not taken away. -/
theorem of_size (hfixed : f'.fixed = f.fixed) (hsize : f.registers.size ≤ f'.registers.size) :
    f.Becomes room f' := by
  refine ⟨hfixed, fun _ hf => ?_⟩
  have hcount : f'.fixed.inputCount = f.fixed.inputCount := congrArg Frame.inputCount hfixed
  calc f'.inputCount = f.inputCount := hcount
    _ ≤ f.registers.size := hf
    _ ≤ f'.registers.size := hsize

end Becomes

end Frame

namespace Machine

variable {α : Type} {room : Prop} {m m' m'' : Machine}

/-- Only the active frame has changed. -/
structure Works (room : Prop) (m m' : Machine) : Prop where
  config : m'.stack.config = m.stack.config
  frames : match m.stack.frames with
    | [] => m'.stack.frames = []
    | f :: rest => ∃ f', m'.stack.frames = f' :: rest ∧ f.Becomes room f'

namespace Works

/-- Frames are left alone. -/
theorem of_frames (hframes : m'.stack.frames = m.stack.frames)
    (hconfig : m'.stack.config = m.stack.config) : m.Works room m' := by
  refine ⟨hconfig, ?_⟩
  rw [hframes]
  cases m.stack.frames with
  | nil => rfl
  | cons f rest => exact ⟨f, rfl, .refl f⟩

/-- Nothing has changed. -/
theorem refl (m : Machine) : m.Works room m :=
  .of_frames rfl rfl

/-- The active frame is replaced. -/
theorem of_active {f f' : Frame} {rest : List Frame} (hframes : m.stack.frames = f :: rest)
    (hframes' : m'.stack.frames = f' :: rest) (hconfig : m'.stack.config = m.stack.config)
    (hf : f.Becomes room f') : m.Works room m' := by
  refine ⟨hconfig, ?_⟩
  rw [hframes]
  exact ⟨f', hframes', hf⟩

/-- Without frames there is none to work in. -/
theorem nil (h : m.Works room m') (hframes : m.stack.frames = []) : m'.stack.frames = [] := by
  have hsame := h.frames
  rwa [hframes] at hsame

/-- The active frame worked, and those below are as they were. -/
theorem cons (h : m.Works room m') {f : Frame} {rest : List Frame} (hframes : m.stack.frames = f :: rest) :
    ∃ f', m'.stack.frames = f' :: rest ∧ f.Becomes room f' := by
  have hsame := h.frames
  rwa [hframes] at hsame

/-- Work in the active frame follows on work in it. -/
theorem trans (h : m.Works room m') (h' : m'.Works room m'') : m.Works room m'' := by
  have hconfig := h'.config.trans h.config
  cases hframes : m.stack.frames with
  | nil => exact .of_frames ((h'.nil (h.nil hframes)).trans hframes.symm) hconfig
  | cons f rest =>
    obtain ⟨f', hframes', hf⟩ := h.cons hframes
    obtain ⟨f'', hframes'', hf'⟩ := h'.cons hframes'
    exact .of_active hframes hframes'' hconfig (hf.trans hf')

/-- No frame comes or goes. -/
theorem depth (h : m.Works room m') : m'.stack.depth = m.stack.depth := by
  rw [Stack.depth, Stack.depth]
  cases hframes : m.stack.frames with
  | nil => rw [h.nil hframes]
  | cons f rest =>
    obtain ⟨f', hframes', -⟩ := h.cons hframes
    rw [hframes']
    rfl

end Works

/-! ### Entering a block -/

/-- What entering a block may do to the stack. -/
inductive Pushes (link : Link) (m : Machine) : Except Fault Unit × Machine → Prop where
  | refused {e : Fault} {m' : Machine} (h : m'.stack = m.stack) : Pushes link m (.error e, m')
  | entered {f : Frame} {m' : Machine} (hroom : m.stack.depth < m.stack.config.maxFrames)
    (hf : f.HangsOff m.stack.depth link)
    (h : m'.stack = { m.stack with frames := f :: m.stack.frames }) : Pushes link m (.ok (), m')

/-- Casting arguments leaves the stack alone. -/
theorem castArguments_stack (s : Signature) (i : Nat) (args : List Value) :
    Preserves (·.stack) (castArguments s i args) := by
  have hdrawing : ∀ o, Drawing (Still (·.stack) o) := fun o => {
    fresh := by
      rintro ρ m₁ m₂ ⟨rfl, rfl, hm⟩
      exact ⟨.same, le_rfl, fun _ _ => rfl, rfl, rfl, hm⟩ }
  exact .of_mirrors fun o => castArguments_mirrors (hdrawing o) s i
    (List.forall₂_same.2 fun _ _ => Value.like_same.2 rfl)

/-- **Entering a block** pushes a frame or leaves the stack alone. -/
theorem enter_pushes (block : BlockId) (args : List Value) (link : Link) (m : Machine) :
    Pushes link m (enter block args link m) := by
  -- all that comes before the push leaves the stack alone
  have hbind : ∀ {α : Type} {a : Action α} {f : α → Action Unit} (n : Machine), Preserves (·.stack) a →
      n.stack = m.stack → (∀ x n', n'.stack = m.stack → Pushes link m (f x n')) →
      Pushes link m ((a >>= f) n) := by
    intro α a f n ha hn hf
    have hkeep : (a n).2.stack = m.stack := (ha n).trans hn
    rw [Failing.bind_apply]
    generalize a n = r at hkeep
    obtain ⟨_ | x, n'⟩ := r
    · exact .refused hkeep
    · exact hf x n' hkeep
  have hstack : ∀ {f : Stack → Action Unit}, Pushes link m (f m.stack m) →
      Pushes link m ((getStack >>= f) m) := fun h => h
  refine hstack ?_
  dsimp only
  split
  · exact .refused rfl
  next hroom =>
    have hcompile : Preserves (·.stack) (onWorld (World.compile block)) := .onWorld fun _ => rfl
    refine hbind m hcompile rfl fun index m₁ h₁ => ?_
    refine hbind m₁ (program_stack index) h₁ fun program m₂ h₂ => ?_
    split
    · exact .refused h₂
    refine hbind m₂ (castArguments_stack program.signature 0 args) h₂ fun vs m₃ h₃ => ?_
    let f : Frame :=
      { block := block
        program := index
        version := program.version
        registers := Frame.resized vs.toArray (max program.registers args.length)
        pc := ⟨0, program.nodeAt 0⟩
        parent := if m.stack.depth = 0 then none else some (m.stack.depth - 1)
        key := link.key
        incoming := incomingFor m.stack link.key
        bindings := link.bindings
        inputCount := args.length
        returnTo := link.returnTo }
    -- there is a register for every argument
    have hinputs : f.inputCount ≤ f.registers.size := by
      rw [Frame.size_resized]
      exact Nat.le_max_right ..
    have hpushed : { m₃.stack with frames := f :: m₃.stack.frames } =
        { m.stack with frames := f :: m.stack.frames } := by
      rw [h₃]
    exact .entered (f := f) (Nat.lt_of_not_le hroom) ⟨rfl, rfl, rfl, rfl, rfl, hinputs⟩ hpushed

/-! ### Calls -/

/-- What a call may do to the stack. -/
inductive Called (i : Instruction) (m : Machine) : Except Fault Unit × Machine → Prop where
  | stayed {r : Except Fault Unit × Machine} (h : m.Works True r.2) : Called i m r
  | pushed {f : Frame} {link : Link} {m' : Machine}
    (hroom : m.stack.depth < m.stack.config.maxFrames) (hf : f.HangsOff m.stack.depth link)
    (hout : link.returnTo = i.out?)
    (hkey : ∀ caller rest, m.stack.frames = caller :: rest → link.key = i.key? caller)
    (hframes : m'.stack.frames = f :: m.stack.frames) (hconfig : m'.stack.config = m.stack.config) :
    Called i m (.ok (), m')

namespace Called

variable {i : Instruction} {r : Except Fault Unit × Machine}

/-- A call that enters a block pushes a frame where the instruction says. -/
theorem of_pushes {link : Link} (h : Pushes link m r) (hout : link.returnTo = i.out?)
    (hkey : ∀ caller rest, m.stack.frames = caller :: rest → link.key = i.key? caller) :
    Called i m r := by
  cases h with
  | refused h => exact .stayed (.of_frames (congrArg Stack.frames h) (congrArg Stack.config h))
  | entered hroom hf h =>
    have hconfig := congrArg Stack.config h
    exact .pushed hroom hf hout hkey (congrArg Stack.frames h) hconfig

/-- Reading operands comes first. -/
theorem bind {a : Action α} {f : α → Action Unit} (ha : Preserves id a)
    (hf : ∀ x, a m = (.ok x, m) → Called i m (f x m)) : Called i m ((a >>= f) m) := by
  have hm : (a m).2 = m := ha m
  rw [Failing.bind_apply]
  rcases hr : a m with ⟨_ | x, n⟩ <;> rw [hr] at hm <;> obtain rfl : n = m := hm
  · exact .stayed (.refl _)
  · exact hf x hr

/-- A cache may have been filled before. -/
theorem of_caches (hstack : m'.stack.frames = m.stack.frames) (hconfig : m'.stack.config = m.stack.config)
    (h : Called i m' r) : Called i m r := by
  cases h with
  | stayed h => exact .stayed ((Works.of_frames hstack hconfig).trans h)
  | pushed hroom hf hout hkey hframes hconfig' =>
    rw [Stack.depth, hstack, hconfig] at hroom
    rw [Stack.depth, hstack] at hf
    rw [hstack] at hkey hframes
    exact .pushed hroom hf hout hkey hframes (hconfig'.trans hconfig)

end Called

/-- Looking into a pool leaves the machine as it is. -/
theorem entry_machine (pool : Pool) (entries : Array α) (index : UInt16) :
    Preserves id (entry pool entries index) := by
  rw [entry]
  split
  · exact .pure _
  · exact .throw _

/-- Counting registers leaves the machine as it is. -/
theorem offsetRegister_machine (base : Reg) (n : Nat) : Preserves id (offsetRegister base n) := by
  rw [offsetRegister]
  split
  · exact .pure _
  · exact .throw _

/-- Reading arguments leaves the machine as it is. -/
theorem arguments_machine (base : Reg) (count : Nat) : Preserves id (arguments base count) := by
  have hfrom : ∀ start, Preserves id (argumentsFrom base start count) := by
    induction count with
    | zero => exact fun _ => .pure _
    | succ count ih =>
      exact fun start => .bind (offsetRegister_machine base start) fun r =>
        .bind (register_machine r) fun v => .bind (ih (start + 1)) fun vs => .pure _
  exact hfrom 0

/-- Reading a closure leaves the machine as it is. -/
theorem funcRegister_machine (r : Reg) : Preserves id (funcRegister r) := by
  refine .bind (register_machine r) fun v => ?_
  split
  · exact .pure _
  · exact .throw _

/-- Reading a key leaves the machine as it is. -/
theorem keyRegister_machine (r : Reg) : Preserves id (keyRegister r) := by
  refine .bind (register_machine r) fun v => ?_
  split
  · exact .pure _
  · exact .throw _

/-- A key is read from the active frame. -/
theorem keyRegister_ok {r : Reg} {k : Key} (h : keyRegister r m = (.ok k, m)) {f : Frame}
    {rest : List Frame} (hframes : m.stack.frames = f :: rest) :
    (f.registers[r.toNat]?).bind (·.key?) = some k := by
  simp only [keyRegister, register, rawRegister, Failing.bind_apply, active_apply hframes] at h
  cases hv : f.registers[r.toNat]? with
  | none =>
    rw [hv] at h
    cases congrArg Prod.fst h
  | some v =>
    rw [hv] at h
    dsimp only [Failing.pure_apply] at h
    by_cases hmoved : v.isMoved = true
    · rw [if_pos hmoved] at h
      cases congrArg Prod.fst h
    · rw [if_neg hmoved] at h
      dsimp only [Failing.pure_apply] at h
      show v.key? = some k
      cases hk : v.key? with
      | none =>
        rw [hk] at h
        cases congrArg Prod.fst h
      | some k' =>
        rw [hk] at h
        exact congrArg some (Except.ok.inj (congrArg Prod.fst h))

/-- Writing to a register is work in the active frame. -/
theorem setRegister_works (r : Reg) (v : Value) (m : Machine) : m.Works True (setRegister r v m).2 := by
  cases hframes : m.stack.frames with
  | nil =>
    rw [setRegister, Failing.bind_apply, active_apply_nil hframes]
    exact .refl m
  | cons f rest =>
    rw [setRegister, Failing.bind_apply, active_apply hframes]
    dsimp only
    split
    · rw [setActive_apply hframes]
      exact .of_active hframes rfl rfl (.of_size rfl (Nat.le_of_eq Array.size_setIfInBounds.symm))
    · exact .refl m

/-- The line of a send is found without touching frames. -/
theorem sendLine_ok (s : Send) (receiver : Value) (m : Machine) :
    ∃ line m', sendLine s receiver m = (.ok line, m') ∧ m'.stack.frames = m.stack.frames ∧
      m'.stack.config = m.stack.config := by
  cases hcache : m.stack.config.inlineCache with
  | false =>
    refine ⟨m.world.resolvedLine receiver s.name, m, ?_, rfl, rfl⟩
    simp only [sendLine, Failing.bind_apply, Failing.get_apply, hcache]
    rfl
  | true =>
    let asked := m.stack.caches.consult s.program s.site.toNat (m.world.resolvedLine receiver s.name)
    refine ⟨asked.1, { m with stack := { m.stack with caches := asked.2 } }, ?_, rfl, rfl⟩
    simp only [sendLine, Failing.bind_apply, Failing.get_apply, hcache]
    rfl

/-- A send calls a method, or writes what the receiver holds to a register. -/
theorem send_called {i : Instruction} {s : Send} (hout : some s.out = i.out?)
    (hkey : ∀ caller, i.key? caller = none) (m : Machine) : Called i m (send s m) := by
  refine .bind (register_machine s.base) fun receiver _ => ?_
  -- asking a cache may fill it
  obtain ⟨line, m₁, hline, hframes, hconfig⟩ := sendLine_ok s receiver m
  rw [Failing.bind_apply, hline]
  refine .of_caches hframes hconfig ?_
  -- a value that is held under the name is written to a register
  have hheld : Called i m₁ (sendHeld s.name s.out receiver m₁) := by
    rw [sendHeld_apply]
    cases heldValue? m₁.world receiver s.name with
    | some v => exact .stayed (setRegister_works s.out v m₁)
    | none => exact .stayed (.refl _)
  dsimp only
  cases line.kind with
  | method =>
    cases line.target with
    | some block =>
      exact .bind (arguments_machine s.base _) fun args _ =>
        .of_pushes (enter_pushes block args _ m₁) hout fun caller _ _ => (hkey caller).symm
    | none => exact .stayed (.refl _)
  | moduleMember =>
    cases line.target with
    | some block =>
      exact .bind (offsetRegister_machine s.base 1) fun first _ => .bind (arguments_machine first _)
        fun args _ => .of_pushes (enter_pushes block args _ m₁) hout fun caller _ _ => (hkey caller).symm
    | none => exact hheld
  | mapKey => exact hheld
  | notFound => exact .stayed (.refl _)

/-- **A call of any kind** pushes one frame or stays in the frame it is made from. -/
theorem perform_called {host : Embedder} {resume : Action Outcome} {program : Program} {next : Nat}
    {i : Instruction} (hi : i.isCall = true) (m : Machine) :
    Called i m (perform host resume program next i m) := by
  cases i with
  | call block base argc out =>
    exact .bind (entry_machine _ _ block) fun b _ => .bind (arguments_machine base _) fun args _ =>
      .of_pushes (enter_pushes b args _ m) rfl fun _ _ _ => rfl
  | callKeyed block base argc out key =>
    refine .bind (entry_machine _ _ block) fun b _ => .bind (keyRegister_machine key) fun k hk =>
      .bind (arguments_machine base _) fun args _ => .of_pushes (enter_pushes b args _ m) rfl ?_
    exact fun caller rest hframes => (keyRegister_ok hk hframes).symm
  | callFunc base argc out =>
    exact .bind (funcRegister_machine base) fun c _ => .bind (offsetRegister_machine base 1) fun first _ =>
      .bind (arguments_machine first _) fun args _ => .of_pushes (enter_pushes _ args _ m) rfl fun _ _ _ => rfl
  | callFuncApply func args out =>
    refine .bind (funcRegister_machine func) fun c _ => .bind (register_machine args) fun list _ => ?_
    cases list with
    | list id items => exact .of_pushes (enter_pushes _ items _ m) rfl fun _ _ _ => rfl
    | _ => exact .stayed (.refl _)
  | callMethod name base argc out site =>
    exact .bind (entry_machine _ _ name) fun s _ => send_called rfl (fun _ => rfl) m
  | _ => exact nomatch hi

/-! ### Returns -/

end Machine

/-- A value is what the register of an output holds, cast to the declared type. Null is kept for an optional
    output. -/
def Output.Gives (registers : Array Value) (o : Output) (w : Value) : Prop :=
  ∃ v, registers[o.register.toNat]? = some v ∧
    if v.isNull && o.placeholder.isOptional then w = .null
    else ∃ n n', o.placeholder.type.cast v n = .ok (w, n')

/-- What a caller receives when its callee returns: the declared outputs, and what was saved under a key. -/
structure Frame.Receives (declared : List Output) (callee caller caller' : Frame) : Prop where
  same : caller' = { caller with registers := caller'.registers, outgoing := caller'.outgoing }
  outputs : ∃ values, List.Forall₂ (Output.Gives callee.registers) declared values ∧
    caller'.registers = match callee.returnTo with
      | some out => Machine.receive caller.registers out.toNat values
      | none => caller.registers
  saved : match callee.key with
    | some k => ∃ n, caller'.outgoing = (StateTree.merge caller.outgoing k callee.outgoing n).1
    | none => caller'.outgoing = caller.outgoing

namespace Machine

/-- What a cast answered is the cast of its argument, with some buffer numbers. -/
theorem tryCast_ok {ty : Ty} {v w : Value} (h : tryCast ty v m = (.ok (.ok w), m')) :
    ∃ n n', ty.cast v n = .ok (w, n') := by
  rw [tryCast, Failing.bind_apply, Failing.get_apply] at h
  dsimp only at h
  cases hcast : ty.cast v m.world.supply with
  | error e =>
    rw [hcast] at h
    cases Except.ok.inj (congrArg Prod.fst h)
  | ok r =>
    rw [hcast] at h
    obtain rfl : r.1 = w := Except.ok.inj (Except.ok.inj (congrArg Prod.fst h))
    exact ⟨_, _, hcast⟩

/-- Outputs that were cast are what their registers give. -/
theorem castOutputs_gives {program : Program} {registers : Array Value} {declared : List Output} {i : Nat}
    {values : List Value} (h : castOutputs program registers i declared m = (.ok values, m')) :
    List.Forall₂ (Output.Gives registers) declared values := by
  induction declared generalizing i values m m' with
  | nil =>
    obtain rfl : [] = values := Except.ok.inj (congrArg Prod.fst h)
    exact .nil
  | cons o rest ih =>
    have hdone : ∀ {w : Value} {n : Machine}, o.Gives registers w →
        (do return w :: (← castOutputs program registers (i + 1) rest) : Action (List Value)) n =
          (.ok values, m') → List.Forall₂ (Output.Gives registers) (o :: rest) values := by
      intro w n hw h
      obtain ⟨ws, n', hws, h⟩ := bind_ok h
      obtain rfl : w :: ws = values := Except.ok.inj (congrArg Prod.fst h)
      exact .cons hw (ih hws)
    rw [castOutputs] at h
    cases hv : registers[o.register.toNat]? with
    | none =>
      rw [hv] at h
      cases congrArg Prod.fst h
    | some v =>
      rw [hv] at h
      dsimp only at h
      by_cases hnull : (v.isNull && o.placeholder.isOptional) = true
      · rw [if_pos hnull] at h
        exact hdone ⟨v, hv, by rw [if_pos hnull]⟩ h
      · rw [if_neg hnull] at h
        obtain ⟨r, n, hr, h⟩ := bind_ok h
        cases r with
        | error e => cases congrArg Prod.fst h
        | ok w => exact hdone ⟨v, hv, by rw [if_neg hnull]; exact tryCast_ok hr⟩ h

/-- What returning may do to the frames. -/
inductive Returned (declared : List Output) (m : Machine) (f : Frame) (rest : List Frame) :
    Except Fault Bool × Machine → Prop where
  | refused {e : Fault} {m' : Machine} (h : m'.stack = m.stack) : Returned declared m f rest (.error e, m')
  | ended {m' : Machine} (h : m.Works True m') : Returned declared m f rest (.ok true, m')
  /-- The frame is said to have a caller, but there is none. -/
  | orphaned {e : Fault} {m' : Machine} (hrest : rest = []) (hframes : m'.stack.frames = [])
    (hconfig : m'.stack.config = m.stack.config) : Returned declared m f rest (.error e, m')
  | handed {caller caller' : Frame} {below : List Frame} {m' : Machine} (hrest : rest = caller :: below)
    (hframes : m'.stack.frames = caller' :: below) (hconfig : m'.stack.config = m.stack.config)
    (h : Frame.Receives declared f caller caller') : Returned declared m f rest (.ok false, m')

/-- What is handed to a caller is received. -/
theorem deliver_receives {callee caller : Frame} {below : List Frame} {declared : List Output}
    {values : List Value} (hframes : m.stack.frames = caller :: below)
    (hgives : List.Forall₂ (Output.Gives callee.registers) declared values) :
    ∃ caller' m', deliver callee values m = (.ok (), m') ∧ m'.stack.frames = caller' :: below ∧
      m'.stack.config = m.stack.config ∧ Frame.Receives declared callee caller caller' := by
  rw [deliver, Failing.bind_apply, active_apply hframes]
  dsimp only
  cases hkey : callee.key with
  | none =>
    refine ⟨_, _, setActive_apply hframes _, rfl, rfl, rfl, ⟨values, hgives, rfl⟩, ?_⟩
    rw [hkey]
  | some k =>
    let merged := StateTree.merge caller.outgoing k callee.outgoing m.world.supply
    have hallocate : allocate (StateTree.merge caller.outgoing k callee.outgoing) m =
        (.ok merged.1, m.withSupply merged.2) := rfl
    have hframes' : (m.withSupply merged.2).stack.frames = caller :: below := hframes
    dsimp only
    rw [Failing.bind_apply, hallocate]
    refine ⟨_, _, setActive_apply hframes' _, rfl, rfl, rfl, ⟨values, hgives, rfl⟩, ?_⟩
    rw [hkey]
    exact ⟨m.world.supply, rfl⟩

/-- **Returning** ends the root, or hands what a frame gives to its caller. -/
theorem leave_returned (program : Program) {f : Frame} {rest : List Frame}
    (hframes : m.stack.frames = f :: rest) :
    Returned program.signature.outputs m f rest (leave program m) := by
  rw [leave, Failing.bind_apply, active_apply hframes]
  dsimp only
  rw [Failing.bind_apply]
  have hstack : Preserves (·.stack) (castOutputs program f.registers 0 program.signature.outputs) :=
    castOutputs_preserves (fun _ _ => rfl) _ _ _ _
  replace hstack : (castOutputs program f.registers 0 program.signature.outputs m).2.stack = m.stack :=
    hstack m
  rcases hcast : castOutputs program f.registers 0 program.signature.outputs m with ⟨e | values, m₁⟩ <;>
    rw [hcast] at hstack
  · exact .refused hstack
  have hgives := castOutputs_gives hcast
  have hframes₁ : m₁.stack.frames = f :: rest := (congrArg Stack.frames hstack).trans hframes
  have hconfig₁ : m₁.stack.config = m.stack.config := congrArg Stack.config hstack
  dsimp only
  by_cases hroot : f.parent.isNone = true
  · -- the root keeps its outputs, and its registers
    rw [if_pos hroot]
    let f' : Frame := { f with
      registers := placeOutputs f.registers (program.signature.outputs.zip values), outgoing := [] }
    have hframes' : f' :: m₁.stack.frames.tail = f' :: rest := by rw [hframes₁]; rfl
    exact .ended (.of_active hframes hframes' hconfig₁
      (.of_size rfl (Nat.le_of_eq (size_placeOutputs ..).symm)))
  · rw [if_neg hroot]
    -- the frame goes, and its caller is the active one
    let m₂ : Machine := { m₁ with stack := m₁.stack.popFrame.2 }
    obtain ⟨hframes₂, hconfig₂⟩ : m₂.stack.frames = rest ∧ m₂.stack.config = m.stack.config := by
      show m₁.stack.popFrame.2.frames = rest ∧ m₁.stack.popFrame.2.config = m.stack.config
      rw [Stack.popFrame, hframes₁]
      exact ⟨rfl, hconfig₁⟩
    have hpop : ∀ {a : Action Bool}, ((onStack Stack.popFrame >>= fun _ => a) m₁) = a m₂ := fun {_} => rfl
    rw [hpop, Failing.bind_apply]
    cases rest with
    | nil =>
      rw [deliver, Failing.bind_apply, active_apply_nil hframes₂]
      exact .orphaned rfl hframes₂ hconfig₂
    | cons caller below =>
      obtain ⟨caller', m₃, hdeliver, hframes₃, hconfig₃, hreceives⟩ := deliver_receives hframes₂ hgives
      rw [hdeliver]
      exact .handed rfl hframes₃ (hconfig₃.trans hconfig₂) hreceives

/-! ### What a caller gets -/

/-- Resized registers keep what they held; new ones are null. -/
theorem getElem?_resized (registers : Array Value) (count j : Nat) :
    (Frame.resized registers count)[j]? =
      if j < count then some ((registers[j]?).getD .null) else none := by
  rw [Frame.resized, Array.take_eq_extract, Array.getElem?_append, Array.size_extract]
  by_cases hj : j < registers.size
  · rw [Array.getElem?_eq_getElem hj, Option.getD_some]
    by_cases hcount : j < count
    · rw [if_pos (by omega), if_pos hcount, Array.getElem?_extract_of_lt (by omega)]
      simp
    · rw [if_neg (by omega), if_neg hcount, Array.getElem?_eq_none (by simp; omega)]
  · rw [if_neg (by omega), Array.getElem?_eq_none (Nat.le_of_not_lt hj), Option.getD_none,
      Array.getElem?_replicate]
    congr 1
    simp
    omega

/-- Values that are written one after the other, where there are registers for all of them. -/
theorem getElem?_written (values : List Value) (out : Nat) (registers : Array Value) (j : Nat)
    (hsize : out + values.length ≤ registers.size) :
    ((values.zipIdx out).foldl (fun rs (v, i) => rs.setIfInBounds i v) registers)[j]? =
      if out ≤ j ∧ j < out + values.length then values[j - out]? else registers[j]? := by
  induction values generalizing out registers with
  | nil =>
    rw [if_neg (by simp)]
    rfl
  | cons v rest ih =>
    simp only [List.length_cons] at hsize ⊢
    have hrest : out + 1 + rest.length ≤ (registers.setIfInBounds out v).size := by
      rw [Array.size_setIfInBounds]
      omega
    rw [List.zipIdx_cons, List.foldl_cons, ih (out + 1) _ hrest]
    -- those that follow go to registers above `out`
    by_cases hj : j = out
    · subst hj
      rw [if_neg (by omega), if_pos (by omega), Array.getElem?_setIfInBounds_self_of_lt (by omega)]
      simp
    · by_cases hin : out + 1 ≤ j ∧ j < out + 1 + rest.length
      · have hnext : j - out = j - (out + 1) + 1 := by omega
        rw [if_pos hin, if_pos (by omega), hnext, List.getElem?_cons_succ]
      · rw [if_neg hin, if_neg (by omega), Array.getElem?_setIfInBounds_ne (Ne.symm hj)]

/-- There are as many registers as before, or as values need. -/
theorem size_receive (registers : Array Value) (out : Nat) (values : List Value) :
    (receive registers out values).size = max registers.size (out + values.length) := by
  rw [receive, size_written]
  split
  · rw [Frame.size_resized]
    omega
  · omega

/-- **Values are received** in the registers from `out` on; others keep theirs, and new ones are null. -/
theorem getElem?_receive (registers : Array Value) (out : Nat) (values : List Value) (j : Nat) :
    (receive registers out values)[j]? =
      if out ≤ j ∧ j < out + values.length then values[j - out]?
      else if j < registers.size then registers[j]?
      else if j < out + values.length then some .null else none := by
  rw [receive]
  dsimp only
  by_cases hgrown : registers.size < out + values.length
  -- the registers are grown first, so that all values find theirs
  · rw [if_pos hgrown, getElem?_written _ _ _ _ (Nat.le_of_eq (Frame.size_resized ..).symm)]
    split
    · rfl
    rw [getElem?_resized]
    by_cases hj : j < registers.size
    · rw [if_pos hj, if_pos (by omega), Array.getElem?_eq_getElem hj, Option.getD_some]
    · rw [if_neg hj, Array.getElem?_eq_none (Nat.le_of_not_lt hj), Option.getD_none]
  · rw [if_neg hgrown, getElem?_written _ _ _ _ (Nat.le_of_not_lt hgrown)]
    split
    · rfl
    by_cases hj : j < registers.size
    · rw [if_pos hj]
    · rw [if_neg hj, if_neg (by omega), Array.getElem?_eq_none (Nat.le_of_not_lt hj)]

end Machine

end BlockMachine

import BlockMachine.Proofs.Machine.Nesting
import BlockMachine.Proofs.Machine.Outputs

namespace BlockMachine

/-!
# Returning to a caller

What a root returns to the host, the same frame returns to a caller that it was given instead: the caller
receives the outputs, and under its key what was saved.

* `Machine.leave_called` is about returns inside a run, `Machine.leave_root` about the last one;
* `Machine.HandedOver` is what the caller has then;
* `Machine.step_nested` puts single steps together, and **`Machine.execute_nested`** whole runs.
-/

/-- No type accepts a value that was moved away. -/
theorem Ty.Leaves.isMoved_eq {ty : Ty} {v : Value} (h : ty.Leaves v) : v.isMoved = false := by
  cases v with
  | moved =>
    have hcast := leaves_iff.1 h 0
    cases ty with
    | basic b => cases b <;> cases hcast
    | record r =>
      obtain ⟨id, name, decls⟩ := r
      cases hcast
    | module m => cases hcast
  | _ => rfl

/-- Outputs are values that were not moved away. -/
theorem Output.gives_settled {registers : Array Value} {declared : List Output} {ws : List Value}
    (h : List.Forall₂ (Output.Gives registers) declared ws) : ∀ w ∈ ws, w.isMoved = false := by
  induction h with
  | nil => exact List.forall_mem_nil _
  | cons hhead _ ih =>
    refine List.forall_mem_cons.2 ⟨?_, ih⟩
    obtain ⟨v, -, hw⟩ := hhead
    split at hw
    · rw [hw]
      rfl
    · obtain ⟨n, n', hcast⟩ := hw
      exact (Ty.cast_leaves hcast).isMoved_eq

namespace Machine

variable {c : Caller} {ρ ρ' : Matching} {m₁ m₂ : Machine} {p q : Program}

/-! ### Returns -/

theorem receive_like {xs ys : Array Value} (h : Registers.Like ρ xs ys) (out : Nat) {vs ws : List Value}
    (hvs : Items.Like ρ vs ws) : Registers.Like ρ (receive xs out vs) (receive ys out ws) := by
  intro i
  rw [getElem?_receive, getElem?_receive, ← h.size_eq, ← List.Forall₂.length_eq hvs]
  split
  · exact Items.like_iff_getElem?.1 hvs _
  split
  · exact h i
  split
  · exact .some (.atom rfl)
  · exact .none

/-- The outputs of the active frames are cast in step, and nothing else happens to the machines. -/
theorem castOutputs_running (h : Running c p q ρ m₁ m₂) {xs ys : Array Value} (hxs : Registers.Like ρ xs ys) :
    Mirrored (fun _ => True) (Drawn (Running c p q) m₁ m₂) (Drawn (Running c p q) m₁ m₂) ρ Items.Like
      (castOutputs p xs 0 p.signature.outputs m₁) (castOutputs q ys 0 q.signature.outputs m₂) := by
  obtain ⟨hpq, -⟩ := h.programs
  rw [← hpq.signature]
  exact castOutputs_mirrors (running_mirroring.toDrawing.drawn _ _) (congrArg Signature.name hpq.signature)
    hxs 0 _ _ _ ⟨h, ⟨_, rfl⟩, _, rfl⟩

/-- The active frames hand their outputs to frames that are nested as well. -/
theorem deliver_nested (h : Nested c ρ m₁ m₂) {f g : Frame} (hkey : f.key = g.key)
    (hreturn : f.returnTo = g.returnTo) (hsaved : Entries.Like ρ f.outgoing g.outgoing) {vs ws : List Value}
    (hvs : Items.Like ρ vs ws) :
    Mirrored (fun _ => True) (Nested c) (Nested c) ρ Anyhow (deliver f vs m₁) (deliver g ws m₂) := by
  obtain ⟨f₁, rest₁, f₂, rest₂, h₁, h₂, hlike⟩ := h.exists_active
  have hdrawing : Drawing (Nested c) := ⟨fun h => h.draw⟩
  have hdone : ∀ {ρ' n₁ n₂ xs ys}, ρ ≤ ρ' → Nested c ρ' n₁ n₂ → n₁.stack = m₁.stack →
      n₂.stack = m₂.stack → Entries.Like ρ' xs ys → Mirrored (fun _ => True) (Nested c) (Nested c) ρ' Anyhow
        (setActive { f₁ with outgoing := xs, registers := f₁.given f vs } n₁)
        (setActive { f₂ with outgoing := ys, registers := f₂.given g ws } n₂) := by
    intro ρ' n₁ n₂ xs ys hle hn hs₁ hs₂ hxs
    have hn₁ : n₁.stack.frames = f₁ :: rest₁ := hs₁ ▸ h₁
    have hn₂ : n₂.stack.frames = f₂ :: rest₂ := hs₂ ▸ h₂
    rw [setActive_apply hn₁, setActive_apply hn₂]
    refine .ok le_rfl (hn.setFrame hn₁ hn₂ { hlike.mono hle with
      registers := ?_
      outgoing := hxs } ⟨rfl, rfl, rfl, rfl, rfl, rfl⟩ ⟨rfl, rfl, rfl, rfl, rfl, rfl⟩) trivial
    dsimp only [Frame.given]
    rw [hreturn]
    cases g.returnTo with
    | none => exact hlike.registers.mono hle
    | some out => exact receive_like (hlike.registers.mono hle) _ (Items.Like.mono hvs hle)
  rw [deliver, deliver, Failing.bind_apply, Failing.bind_apply, active_apply h₁, active_apply h₂]
  dsimp only
  rw [hkey]
  cases g.key with
  | none => exact hdone le_rfl h rfl rfl hlike.outgoing
  | some k =>
    have hmerge : Mirrors (fun _ => True) (Holding (Nested c) m₁ m₂) ρ
        (allocate (StateTree.merge f₁.outgoing k f.outgoing))
        (allocate (StateTree.merge f₂.outgoing k g.outgoing)) Entries.Like :=
      allocate_mirrors (hdrawing.holding m₁ m₂) fun hT h =>
        StateTree.merge_alike hT h hlike.outgoing k hsaved
    refine ((hmerge m₁ m₂ ⟨h, rfl, rfl⟩).imp (fun _ _ _ _ h => h) (fun _ _ _ _ h => h.1)
      fun _ _ _ _ h => h).bind ?_
    rintro ρ' n₁ n₂ xs ys hle ⟨hn, hs₁, hs₂⟩ hxs
    exact hdone hle hn hs₁ hs₂ hxs

/-- The machine without its active frame. -/
def popped (m : Machine) : Machine :=
  { m with stack := m.stack.popFrame.2 }

theorem popped_frames {m : Machine} {f : Frame} {rest : List Frame} (h : m.stack.frames = f :: rest) :
    m.popped.stack.frames = rest := by
  rw [popped, Stack.popFrame, h]

theorem popped_cancelled (m : Machine) : m.popped.stack.cancelled = m.stack.cancelled := by
  rw [popped, Stack.popFrame]
  cases m.stack.frames <;> rfl

/-- Taking frames away. -/
theorem Abreast.popped (h : Abreast c ρ m₁ m₂) : Abreast c ρ m₁.popped m₂.popped := by
  have hpop : ∀ m : Machine, ∃ frames retained,
      m.popped = { m with stack := { m.stack with frames := frames, retained := retained } } := by
    intro m
    rw [Machine.popped, Stack.popFrame]
    cases m.stack.frames with
    | nil => exact ⟨_, _, rfl⟩
    | cons f rest => exact ⟨_, _, rfl⟩
  obtain ⟨_, _, hm₁⟩ := hpop m₁
  obtain ⟨_, _, hm₂⟩ := hpop m₂
  rw [hm₁, hm₂]
  exact { h with }

/-- How a return goes on once the outputs are cast. -/
theorem leave_apply {m n : Machine} {f : Frame} {rest : List Frame} {program : Program}
    {vs : List Value} (hframes : m.stack.frames = f :: rest)
    (hcast : castOutputs program f.registers 0 program.signature.outputs m = (.ok vs, n)) :
    leave program m = if f.parent.isNone then
      (leaveRoot f (program.signature.outputs.zip vs) >>= fun _ => pure true) n
    else (deliver f vs >>= fun _ => pure false) n.popped := by
  rw [leave, Failing.bind_apply, active_apply hframes]
  dsimp only
  rw [Failing.bind_apply, hcast]
  dsimp only
  split <;> rfl

/-- A return that goes well casts the outputs, and it is the last one if nothing called the frame. -/
theorem leave_ok {m n : Machine} {f : Frame} {rest : List Frame} {program : Program} {last : Bool}
    (hframes : m.stack.frames = f :: rest) (h : leave program m = (.ok last, n)) :
    last = f.parent.isNone ∧ ∃ vs k,
      castOutputs program f.registers 0 program.signature.outputs m = (.ok vs, k) := by
  rcases hcast : castOutputs program f.registers 0 program.signature.outputs m with ⟨e | vs, k⟩
  · rw [leave, Failing.bind_apply, active_apply hframes] at h
    dsimp only at h
    rw [Failing.bind_apply, hcast] at h
    cases congrArg Prod.fst h
  · refine ⟨?_, vs, k, rfl⟩
    rw [leave_apply hframes hcast] at h
    split at h
    next halone =>
      obtain ⟨_, _, -, hlast⟩ := bind_ok h
      rw [halone]
      exact (Except.ok.inj (congrArg Prod.fst hlast)).symm
    next halone =>
      obtain ⟨_, _, -, hlast⟩ := bind_ok h
      rw [(Bool.not_eq_true _).mp halone]
      exact (Except.ok.inj (congrArg Prod.fst hlast)).symm

/-- **Frames that the run of the first machine called return in step.** -/
theorem leave_called (h : Running c p q ρ m₁ m₂) {f : Frame} {rest : List Frame}
    (hframes : m₁.stack.frames = f :: rest) (hcalled : f.parent.isSome = true) :
    Mirrored (fun _ => True) (Nested c) (Nested c) ρ Equally (leave p m₁) (leave q m₂) := by
  obtain ⟨_, _, g, rest₂, h₁, h₂, hlike⟩ := h.exists_active
  obtain ⟨rfl, rfl⟩ := List.cons.inj (hframes.symm.trans h₁)
  have hcasts := castOutputs_running h hlike.registers
  rcases hcast : castOutputs p f.registers 0 p.signature.outputs m₁ with ⟨e | vs, n₁⟩
  · rw [leave, Failing.bind_apply, active_apply hframes]
    dsimp only
    rw [Failing.bind_apply, hcast]
    exact .pass trivial
  rw [hcast] at hcasts
  generalize hcast₂ : castOutputs q g.registers 0 q.signature.outputs m₂ = r at hcasts
  cases hcasts with
  | @ok ρ' _ ws _ n₂ hle hdrawn hvs =>
    obtain ⟨hn, ⟨supply₁, rfl⟩, supply₂, rfl⟩ := hdrawn
    have hnested := hn.frames
    have hfiled₁ := hn.filed₁
    have hfiled₂ := hn.filed₂
    have hn₁ : (m₁.withSupply supply₁).stack.frames = f :: rest := hframes
    have hn₂ : (m₂.withSupply supply₂).stack.frames = g :: rest₂ := h₂
    rw [hn₁, hn₂] at hnested
    rw [hn₁] at hfiled₁
    rw [hn₂] at hfiled₂
    rw [leave_apply hframes hcast, leave_apply h₂ hcast₂]
    -- the frame was called, so it is not the root and has a caller on both sides
    cases hnested with
    | root _ _ alone =>
      rw [alone] at hcalled
      cases hcalled
    | inner like called₁ called₂ key returnTo rest =>
      have hpopped : Nested c ρ' (m₁.withSupply supply₁).popped (m₂.withSupply supply₂).popped := {
        toAbreast := hn.toAbreast.popped
        frames := by
          rw [popped_frames hn₁, popped_frames hn₂]
          exact rest
        filed₁ := by
          rw [popped_frames hn₁]
          exact (List.forall_mem_cons.1 hfiled₁).2
        filed₂ := by
          rw [popped_frames hn₂]
          exact (List.forall_mem_cons.1 hfiled₂).2
        caller := hn.caller }
      have hsome : ∀ {x : Option Nat}, x.isSome = true → ¬x.isNone = true := fun {x} hx hnone => by
        rw [Option.isNone_iff_eq_none.1 hnone] at hx
        cases hx
      rw [if_neg (hsome called₁), if_neg (hsome called₂)]
      refine Mirrored.weaken ?_ hle
      exact (deliver_nested hpopped key returnTo like.outgoing hvs).bind fun _ _ _ _ _ _ hk _ =>
        .ok le_rfl hk rfl

/-- A caller that saved nothing itself gets outputs and saved state. -/
theorem deliver_caller {m : Machine} {child caller : Frame} {k : Key} {out : Reg}
    {saved : List (Key × Value)} {supply : BufferId} (hframes : m.stack.frames = [caller])
    (hsaved : caller.outgoing = []) (hkey : child.key = some k) (hreturn : child.returnTo = some out)
    (hmerge : StateTree.merge [] k child.outgoing m.world.supply = (saved, supply)) (ws : List Value) :
    deliver child ws m = (.ok (), (m.withSupply supply).withFrames
      [{ caller with registers := receive caller.registers out.toNat ws, outgoing := saved }]) := by
  have hallocate : allocate (StateTree.merge [] k child.outgoing) m = (.ok saved, m.withSupply supply) := by
    show (Except.ok (StateTree.merge [] k child.outgoing m.world.supply).1,
      m.withSupply (StateTree.merge [] k child.outgoing m.world.supply).2) = _
    rw [hmerge]
  rw [deliver, Failing.bind_apply, active_apply hframes]
  dsimp only
  rw [hkey, hreturn, hsaved]
  dsimp only
  rw [Failing.bind_apply, hallocate]
  exact setActive_apply (m := m.withSupply supply) hframes _

/-- What a root leaves as the state of its stack, and what a caller stores under a key. -/
def SavedUnder (k : Key) (ρ : Matching) (state : Value) (saved : List (Key × Value)) : Prop :=
  state = .null ∧ saved = [] ∨ state.isNull = false ∧ ∃ v, state.Like ρ v ∧ saved = [(k, v)]

theorem saved_like {xs ys : List (Key × Value)} (h : Entries.Like ρ xs ys) {n₁ n₂ : BufferId}
    (hlink : ρ.links n₁ n₂) (k : Key) : ∃ saved supply, StateTree.merge [] k ys n₂ = (saved, supply) ∧
      SavedUnder k ρ (StateTree.ofOutgoing xs n₁).1 saved := by
  cases h with
  | nil => exact ⟨_, _, rfl, .inl ⟨rfl, rfl⟩⟩
  | cons hhead htail =>
    exact ⟨_, _, rfl, .inr ⟨rfl, _, .of_entries (hlink _ _) (.cons hhead htail), rfl⟩⟩

/-- The called block returned. On the first machine it was the root, and on the second its caller has the
    outputs and what was saved. -/
structure HandedOver (c : Caller) (ρ : Matching) (ws : List Value) (saved : List (Key × Value))
    (n₁ n₂ : Machine) : Prop where
  outputs : Items.Like ρ n₁.outputs ws
  count : ws.length = c.callee.signature.outputs.length
  settled : ∀ w ∈ ws, w.isMoved = false
  state : SavedUnder c.key ρ n₁.stack.state saved
  frames : n₂.stack.frames =
    [{ c.frame with registers := receive c.frame.registers c.out.toNat ws, outgoing := saved }]
  follows : c.frame.Follows n₂.world c.program
  derived : n₂.world.Derived
  going : n₂.stack.cancelled = false

/-- **The root of the first machine returns to the host**, and on the second machine the frame that runs the
    same returns to its caller. -/
theorem leave_root (h : Running c p q ρ m₁ m₂) (hsaved : c.frame.outgoing = []) {n₁ : Machine}
    (hleave : leave p m₁ = (.ok true, n₁)) :
    ∃ ρ' ws saved n₂, ρ ≤ ρ' ∧ leave q m₂ = (.ok false, n₂) ∧ HandedOver c ρ' ws saved n₁ n₂ := by
  obtain ⟨f, rest, g, rest₂, h₁, h₂, hlike⟩ := h.exists_active
  have hcasts := castOutputs_running h hlike.registers
  obtain ⟨halone, vs, k₁, hcast⟩ := leave_ok h₁ hleave
  have hgives := castOutputs_gives hcast
  rw [hcast] at hcasts
  generalize hcast₂ : castOutputs q g.registers 0 q.signature.outputs m₂ = r at hcasts
  rw [leave_apply h₁ hcast] at hleave
  cases hcasts with
  | @ok ρ' _ ws _ k₂ hle hdrawn hvs =>
    obtain ⟨hk, ⟨supply₁, rfl⟩, supply₂, rfl⟩ := hdrawn
    have hk₁ : (m₁.withSupply supply₁).stack.frames = f :: rest := h₁
    have hk₂ : (m₂.withSupply supply₂).stack.frames = g :: rest₂ := h₂
    have hnested := hk.frames
    rw [hk₁, hk₂] at hnested
    -- the first machine leaves its root, so the second leaves the frame called for it
    cases hnested with
    | inner _ called =>
      rw [← Option.not_isNone, ← halone] at called
      cases called
    | root like hblock alone called key returnTo =>
      rw [if_pos (by rw [alone]; rfl)] at hleave
      obtain rfl : (leaveRoot f (p.signature.outputs.zip vs) (m₁.withSupply supply₁)).2 = n₁ :=
        congrArg Prod.snd hleave
      obtain ⟨hq, hversion⟩ := h.runs₁ f [] h₁
      obtain ⟨-, b, hb, hsignature⟩ := h.worlds.derived₁.files_block hq
      obtain rfl : c.callee = b := Option.some.inj (h.callee.symm.trans (hblock ▸ hb))
      -- what the host reads of the first machine are the outputs as they were cast
      have houtputs : (leaveRoot f (p.signature.outputs.zip vs) (m₁.withSupply supply₁)).2.outputs = vs := by
        rw [hsignature] at hgives ⊢
        exact leaveRoot_distinct hb hgives h.distinct
      have hcount : ws.length = c.callee.signature.outputs.length := by
        rw [← List.Forall₂.length_eq hvs, ← hsignature, hgives.length_eq]
      have hgoing : (m₂.withSupply supply₂).popped.stack.cancelled = false :=
        (popped_cancelled _).trans h.going.2
      have hparent : ¬g.parent.isNone = true := by
        cases hp : g.parent with
        | none => rw [hp] at called; cases called
        | some => exact nofun
      obtain ⟨ρ'', hle', hlink, -⟩ := hk.toNested.draw
      obtain ⟨saved, supply, hmerge, hstate⟩ := saved_like (like.outgoing.mono hle') hlink c.key
      -- in the second machine the caller receives them and keeps what was saved under its key
      have hreturned : leave q m₂ = (.ok false, ((m₂.withSupply supply₂).popped.withSupply supply).withFrames
          [{ c.frame with registers := receive c.frame.registers c.out.toNat ws, outgoing := saved }]) := by
        rw [leave_apply h₂ hcast₂, if_neg hparent, Failing.bind_apply,
          deliver_caller (popped_frames hk₂) hsaved key returnTo hmerge]
        rfl
      refine ⟨ρ'', ws, saved, _, le_trans hle hle', hreturned, ?_, hcount,
        Output.gives_settled (castOutputs_gives hcast₂), hstate, rfl, h.caller,
        h.worlds.derived₂.congr rfl rfl, hgoing⟩
      rw [houtputs]
      exact Items.Like.mono hvs hle'

/-! ### The loop -/

/-- The frames of both machines run programs that are filed. -/
theorem Nested.exists_running (h : Nested c ρ m₁ m₂) : ∃ p q, currentProgram m₁ = (.ok p, m₁) ∧
    currentProgram m₂ = (.ok q, m₂) ∧ Running c p q ρ m₁ m₂ := by
  obtain ⟨f, rest, g, rest₂, h₁, h₂, -⟩ := h.exists_active
  obtain ⟨p, hp⟩ := h.filed₁ f (h₁ ▸ List.mem_cons_self)
  obtain ⟨q, hq⟩ := h.filed₂ g (h₂ ▸ List.mem_cons_self)
  have hexecuting₁ : m₁.Executing p := ⟨f, rest, h₁, hp.1.2, hp.2⟩
  have hexecuting₂ : m₂.Executing q := ⟨g, rest₂, h₂, hq.1.2, hq.2⟩
  refine ⟨p, q, hexecuting₁.currentProgram, hexecuting₂.currentProgram, h, fun f' rest' h' => ?_,
    fun g' rest' h' => ?_⟩
  · obtain ⟨rfl, -⟩ := List.cons.inj (h₁.symm.trans h')
    exact hp
  · obtain ⟨rfl, -⟩ := List.cons.inj (h₂.symm.trans h')
    exact hq

theorem step_perform {host : Embedder} {resume : Action Outcome} {program : Program} {next : Nat}
    {i : Instruction} {m n : Machine} (hpause : i ≠ .pause) (hret : i ≠ .ret)
    (h : perform host resume program next i m = (.ok (), n)) :
    step host resume program next i m = (.ok (if i.leavesFrame then .reload else .next), n) := by
  rw [step.eq_3 _ _ _ _ _ hpause hret, Failing.bind_apply, h]
  rfl

theorem step_ret {host : Embedder} {resume : Action Outcome} {program : Program} {next : Nat}
    {m n : Machine} {last : Bool} (h : leave program m = (.ok last, n)) :
    step host resume program next .ret m = (.ok (if last then .finish else .reload), n) := by
  rw [step, Failing.bind_apply, h]
  cases last <;> rfl

/-- Default natives do not run the stack. -/
theorem step_resume {m : Machine} (hnatives : m.world.natives.Only Native.isDefault) (host : Embedder)
    (resume resume' : Action Outcome) (program : Program) (next : Nat) (i : Instruction) :
    step host resume program next i m = step host resume' program next i m := by
  cases i with
  | native index =>
    have hcall : callNative host resume index m = callNative host resume' index m := by
      rw [callNative, callNative, Failing.bind_apply, Failing.bind_apply, Failing.get_apply]
      dsimp only
      cases hentry : m.world.natives.get? index with
      | none => rfl
      | some entry =>
        have hdefault := hnatives entry (Array.mem_of_getElem? hentry)
        obtain ⟨name, f⟩ := entry
        cases f with
        | host | installed => cases hdefault
        | _ => rfl
    show (callNative host resume index >>= fun _ => pure Flow.reload) m =
      (callNative host resume' index >>= fun _ => pure Flow.reload) m
    rw [Failing.bind_apply, Failing.bind_apply, hcall]
  | _ => rfl

/-- What a step of the second machine came to, after one of the first that went well. -/
def Proceeded (c : Caller) (p q : Program) (ρ : Matching) (k₁ : Machine) :
    Flow → Except Fault Flow × Machine → Prop
  | .next, r => ∃ ρ' k₂, ρ ≤ ρ' ∧ r = (.ok .next, k₂) ∧ Running c p q ρ' k₁ k₂
  | .reload, r => ∃ ρ' k₂, ρ ≤ ρ' ∧ r = (.ok .reload, k₂) ∧ Nested c ρ' k₁ k₂
  | .finish, r => ∃ ρ' ws saved k₂, ρ ≤ ρ' ∧ r = (.ok .reload, k₂) ∧ HandedOver c ρ' ws saved k₁ k₂
  | .pause, _ => True

/-- **Steps go in step**, and the return of the root of the first machine is a return to the caller. -/
theorem step_nested {host : Embedder} {resume₁ : Action Outcome} (resume₂ : Action Outcome)
    (hsaved : c.frame.outgoing = []) (h : Running c p q ρ m₁ m₂) {next : Nat} {i : Instruction} {flow : Flow}
    {k₁ : Machine} (hstep : step host resume₁ p next i m₁ = (.ok flow, k₁)) :
    Proceeded c p q ρ k₁ flow (step host resume₂ q next i m₂) := by
  cases stepped hstep with
  | pause => trivial
  | finish hleave =>
    obtain ⟨ρ', ws, saved, k₂, hle, hleave₂, hhanded⟩ := leave_root h hsaved hleave
    exact ⟨ρ', ws, saved, k₂, hle, step_ret hleave₂, hhanded⟩
  | back hleave =>
    obtain ⟨f, rest, -, -, h₁, -, -⟩ := h.exists_active
    have hcalled : f.parent.isSome = true := by
      rw [← Option.not_isNone, ← (leave_ok h₁ hleave).1]
      rfl
    have hreturn := leave_called h h₁ hcalled
    rw [hleave] at hreturn
    generalize hleave₂ : leave q m₂ = r at hreturn
    cases hreturn with
    | ok hle hk hlast =>
      obtain rfl := hlast
      exact ⟨_, _, hle, step_ret hleave₂, hk⟩
  | perform hpause hret hperform =>
    cases hi : i.leavesFrame with
    | false =>
      have hdone := perform_stays host resume₁ resume₂ next hi h
      rw [hperform] at hdone
      generalize hperform₂ : perform host resume₂ q next i m₂ = r at hdone
      cases hdone with
      | ok hle hk =>
        refine ⟨_, _, hle, ?_, hk⟩
        rw [step_perform hpause hret hperform₂, hi]
        rfl
    | true =>
      have hdone := perform_leaves host resume₁ resume₂ next hi h
      rw [hperform] at hdone
      generalize hperform₂ : perform host resume₂ q next i m₂ = r at hdone
      cases hdone with
      | ok hle hk =>
        refine ⟨_, _, hle, ?_, hk⟩
        rw [step_perform hpause hret hperform₂, hi]
        rfl

/-- **A run that finishes goes on one frame deeper until it returns to the caller**, with some number of
    steps. -/
theorem execute_nested {host : Embedder} (hsaved : c.frame.outgoing = []) {fuel : Nat}
    (h : Running c p q ρ m₁ m₂) {n₁ : Machine} (hrun : execute host fuel p m₁ = (.ok .finished, n₁)) :
    ∃ steps ρ' ws saved n₂, ρ ≤ ρ' ∧
      (∀ fuel', execute host (steps + fuel') q m₂ = (currentProgram >>= execute host fuel') n₂) ∧
      HandedOver c ρ' ws saved n₁ n₂ := by
  induction fuel generalizing p q ρ m₁ m₂ with
  | zero => cases congrArg Prod.fst hrun
  | succ fuel ih =>
    obtain ⟨f, rest, g, rest₂, h₁, h₂, hlike⟩ := h.exists_active
    obtain ⟨hpq, -⟩ := h.programs
    have hsucc := fun k => execute_succ host k q h.going.2 h₂
    have hdecode : q.instructionAt g.pc.offset = p.instructionAt f.pc.offset := by
      rw [Program.instructionAt, Program.instructionAt, hpq.code, hlike.offset]
    rw [hdecode] at hsucc
    rw [execute_succ host fuel p h.going.1 h₁] at hrun
    cases hfetch : p.instructionAt f.pc.offset with
    | error e =>
      rw [hfetch] at hrun
      cases congrArg Prod.fst hrun
    | ok found =>
      obtain ⟨i, next⟩ := found
      rw [hfetch] at hrun hsucc
      dsimp only at hrun hsucc
      have hadvanced : Running c p q ρ (m₁.advanced f rest next) (m₂.advanced g rest₂ next) :=
        h.setFrame h₁ h₂ { hlike with offset := rfl } ⟨rfl, rfl, rfl, rfl, rfl, rfl⟩
          ⟨rfl, rfl, rfl, rfl, rfl, rfl⟩
      -- without natives of the host it does not matter how a step would run the machine again
      have hnatives : (m₂.advanced g rest₂ next).world.natives.Only Native.isDefault := by
        rw [hadvanced.worlds.natives]
        exact hadvanced.natives
      replace hsucc : ∀ k, execute host (k + 1) q m₂ = continued host k q rest₂.length g.pc.offset next
          (step host (pure .finished) q next i (m₂.advanced g rest₂ next)) := fun k => by
        rw [hsucc k, step_resume hnatives host _ (pure .finished)]
      rcases hstep : step host (runWith (execute host fuel)) p next i (m₁.advanced f rest next)
        with ⟨fault | flow, k₁⟩ <;> rw [hstep] at hrun
      · cases congrArg Prod.fst hrun
      -- the second machine takes the same step, which is what each case adds to the count of steps
      have hproceeded := step_nested (pure .finished) hsaved hadvanced hstep
      cases flow with
      | pause => cases congrArg Prod.fst hrun
      -- the called root hands over to its caller, which goes on with what fuel is left
      | finish =>
        obtain rfl : k₁ = n₁ := congrArg Prod.snd hrun
        obtain ⟨ρ', ws, saved, k₂, hle, hstep₂, hhanded⟩ := hproceeded
        refine ⟨1, ρ', ws, saved, k₂, hle, fun fuel' => ?_, hhanded⟩
        rw [Nat.add_comm, hsucc, hstep₂, continued]
      | next =>
        obtain ⟨ρ₁, k₂, hle, hstep₂, hk⟩ := hproceeded
        obtain ⟨steps, ρ', ws, saved, n₂, hle', hexecute, hhanded⟩ := ih hk hrun
        refine ⟨steps + 1, ρ', ws, saved, n₂, le_trans hle hle', fun fuel' => ?_, hhanded⟩
        rw [Nat.add_right_comm, hsucc, hstep₂, continued, hexecute]
      | reload =>
        obtain ⟨ρ₁, k₂, hle, hstep₂, hk⟩ := hproceeded
        obtain ⟨p', q', hload₁, hload₂, hrunning⟩ := hk.exists_running
        rw [continued, Failing.bind_apply, hload₁] at hrun
        obtain ⟨steps, ρ', ws, saved, n₂, hle', hexecute, hhanded⟩ := ih hrunning hrun
        refine ⟨steps + 1, ρ', ws, saved, n₂, le_trans hle hle', fun fuel' => ?_, hhanded⟩
        rw [Nat.add_right_comm, hsucc, hstep₂, continued, Failing.bind_apply, hload₂]
        exact hexecute fuel'

end Machine

end BlockMachine

import BlockMachine.Proofs.Machine.Deeds
import BlockMachine.Proofs.Machine.Reframing

namespace BlockMachine

/-!
# Callers are left alone

While a called block runs, with whatever it calls, the frames below its own stay as they are. When it
returns, its caller gets the outputs and, if the call was made under a key, what was saved there; nothing
else of it changes. This takes natives that work in the active frame only.

* `Machine.Shields` says that frames with others on top of them stay, `Machine.Reframes.shields` that they do
  whatever happens;
* `Machine.isolating_lasts` is about sessions;
* `Frame.Answered` is what a return changes in the caller;
* `Machine.caller_isolated` is the law.
-/

namespace Entries

variable {α : Type} {k k' : Key}

/-- A value is found under the key that it was put under. -/
theorem get?_insert_self (k : Key) (a : α) (entries : List (Key × α)) :
    get? k (insert k a entries) = some a := by
  induction entries with
  | nil => simp [insert, get?]
  | cons e rest ih =>
    rw [insert]
    by_cases he : e.1 = k <;> simp [he, get?, ih]

/-- Other keys have what they had. -/
theorem get?_insert_of_ne (hk : k' ≠ k) (a : α) (entries : List (Key × α)) :
    get? k' (insert k a entries) = get? k' entries := by
  induction entries with
  | nil => simp [insert, get?, hk.symm]
  | cons e rest ih =>
    rw [insert]
    by_cases he : e.1 = k
    · simp [he, get?, hk.symm]
    · simp [he, get?, ih]

/-- Other keys have what they had when one is taken out. -/
theorem get?_erase_of_ne (hk : k' ≠ k) (entries : List (Key × α)) :
    get? k' (erase k entries) = get? k' entries := by
  induction entries with
  | nil => rfl
  | cons e rest ih =>
    rw [erase]
    by_cases he : e.1 = k
    · simp [he, get?, hk.symm]
    · simp [he, get?, ih]

end Entries

/-- What a child has saved is put under its key, or the key is taken out if that is nothing. -/
theorem StateTree.merge_eq (outgoing child : List (Key × Value)) (k : Key) (n : BufferId) :
    (merge outgoing k child n).1 =
      if child = [] then Entries.erase k outgoing else Entries.insert k (.map n child) outgoing := by
  cases child <;> rfl

namespace Machine

variable {α : Type} {room : Prop} {m m' : Machine}

/-! ### Frames that others stand on -/

/-- As long as a frame is there, the frames below it are the same, and it is the same activation. -/
def Shields (m m' : Machine) : Prop :=
  ∀ above f below, m.stack.frames = above ++ f :: below → below ≠ [] → below.length < m'.stack.depth →
    ∃ above' f', m'.stack.frames = above' ++ f' :: below ∧ f'.fixed = f.fixed

/-- Work in the active frame leaves those below alone. -/
theorem Works.shields (h : m.Works room m') : m.Shields m' := by
  intro above f below hframes _ _
  cases above with
  | nil =>
    obtain ⟨f', hframes', hf⟩ := h.cons hframes
    exact ⟨[], f', hframes', hf.fixed⟩
  | cons g above =>
    obtain ⟨g', hframes', -⟩ := h.cons hframes
    exact ⟨g' :: above, f, hframes', rfl⟩

/-- **Whatever happens to frames**, those with others on top of them stay. -/
theorem Reframes.shields {r : Except Fault α × Machine} (h : Reframes room m r) : m.Shields r.2 := by
  intro above f below hframes hbelow hdepth
  -- a frame with others below it is not the only one
  have hpos : 0 < below.length := List.length_pos_iff.2 hbelow
  cases h with
  | works h => exact h.shields above f below hframes hbelow hdepth
  | @left g rest _ hframes' h =>
    cases above with
    -- the frame itself is gone, and there are too few left
    | nil =>
      obtain ⟨rfl, rfl⟩ := List.cons.inj (hframes.symm.trans hframes')
      rw [h.depth] at hdepth
      exact absurd hdepth (Nat.lt_irrefl _)
    | cons g' above =>
      obtain ⟨-, hrest⟩ := List.cons.inj (hframes.symm.trans hframes')
      exact h.shields above f below hrest.symm hbelow hdepth
  | cleared hframes' =>
    rw [Stack.depth, hframes'] at hdepth
    exact absurd hdepth (Nat.not_lt_zero _)
  | rooted _ hframes' | renewed _ _ hframes' =>
    rw [Stack.depth, hframes', List.length_singleton] at hdepth
    omega
  | entered _ _ hframes' =>
    rw [hframes] at hframes'
    exact ⟨_ :: above, f, hframes', rfl⟩

/-- Frames stay along moments, as long as there is one on top of them. -/
theorem Shields.along {xs : List Moment} (h : Moment.Chain Shields m xs) {above below : List Frame}
    {f : Frame} (hframes : m.stack.frames = above ++ f :: below) (hbelow : below ≠ [])
    (hdepth : ∀ x ∈ xs, below.length < x.machine.stack.depth) :
    ∀ n, n = Moment.last m xs ∨ (∃ x ∈ xs, n = x.machine) →
      ∃ above' f', n.stack.frames = above' ++ f' :: below ∧ f'.fixed = f.fixed := by
  induction xs generalizing m above f with
  | nil =>
    rintro n (rfl | ⟨x, hx, -⟩)
    · exact ⟨above, f, hframes, rfl⟩
    · exact nomatch hx
  | cons x xs ih =>
    obtain ⟨hmoves, hrest⟩ := h
    obtain ⟨hx, hxs⟩ := List.forall_mem_cons.1 hdepth
    obtain ⟨above', f', hframes', hf⟩ := hmoves above f below hframes hbelow hx
    have hall := ih hrest hframes' hxs
    rintro n (rfl | ⟨y, hy, rfl⟩)
    · obtain ⟨above'', f'', hframes'', hf'⟩ := hall _ (.inl rfl)
      exact ⟨above'', f'', hframes'', hf'.trans hf⟩
    · rcases List.mem_cons.1 hy with rfl | hy
      · exact ⟨above', f', hframes', hf⟩
      · obtain ⟨above'', f'', hframes'', hf'⟩ := hall _ (.inr ⟨y, hy, rfl⟩)
        exact ⟨above'', f'', hframes'', hf'.trans hf⟩

/-! ### Natives that work in the active frame -/

/-- A script of local operations brings no frames and takes none away. -/
theorem local_depth {resume : Action Outcome} {running : Machine → List Deed} (script : Script α)
    (m : Machine) (h : ∀ d ∈ script.deeds true resume running m, d.byNative = true → d.op.isLocal = true) :
    (script.perform resume m).2.stack.depth = m.stack.depth := by
  induction script generalizing m with
  | done r => cases r <;> rfl
  | op o next ih =>
    rw [Script.deeds, List.cons_append, List.forall_mem_cons, List.forall_mem_append] at h
    obtain ⟨ho, -, hrest⟩ := h
    have hdepth := (o.works resume (ho rfl) m).depth
    rw [Script.perform, Failing.bind_apply, attempt]
    generalize o.perform resume m = r at hdepth hrest
    obtain ⟨fault | b, m'⟩ := r
    · cases fault with
      | raised e => exact (ih (.error e) m' hrest).trans hdepth
      | crashed | outOfFuel => exact hdepth
    · exact (ih (.ok b) m' hrest).trans hdepth

/-- A native whose operations work in the active frame neither pushes nor pops. -/
theorem native_depth {host : Embedder} {resume : Action Outcome} {running : Machine → List Deed} (f : Native)
    (h : ∀ d ∈ f.deeds host resume running m, d.byNative = true → d.op.isLocal = true) :
    (invoke host resume f m).2.stack.depth = m.stack.depth := by
  cases f with
  | host f =>
    rw [invoke, invokeHost_eq]
    exact local_depth f.script m h
  | installed code => exact local_depth (host.script code) m h
  | _ => exact (invoke_default_inside host resume rfl m).depth

/-- A step that fails leaves no more frames than there were, if natives work in the active frame. -/
theorem step_failed_depth {host : Embedder} {resume : Action Outcome} {running : Machine → List Deed}
    {program : Program} {next : Nat} {i : Instruction} {f : Frame} {rest : List Frame} {fault : Fault}
    (hframes : m.stack.frames = f :: rest)
    (hdeeds : ∀ d ∈ stepDeeds host resume running i m, d.byNative = true → d.op.isLocal = true)
    (h : step host resume program next i m = (.error fault, m')) : m'.stack.depth ≤ m.stack.depth := by
  by_cases hi : ∃ index, i = .native index
  · obtain ⟨index, rfl⟩ := hi
    rw [step_native_apply] at h
    rw [stepDeeds] at hdeeds
    cases hentry : m.world.natives.get? index with
    | none =>
      rw [hentry] at h
      obtain rfl : m = m' := congrArg Prod.snd h
      exact Nat.le_refl _
    | some entry =>
      rw [hentry] at h hdeeds
      have hdepth := native_depth entry.2 hdeeds
      dsimp only at h
      generalize invoke host resume entry.2 m = r at h hdepth
      -- a native fails by itself, or by the error that it left behind
      obtain ⟨e | _, n⟩ := r
      · obtain rfl : n = m' := congrArg Prod.snd h
        exact Nat.le_of_eq hdepth
      · dsimp only at h
        cases herror : n.stack.error with
        | none =>
          rw [herror] at h
          cases congrArg Prod.fst h
        | some e =>
          rw [herror] at h
          obtain rfl : n = m' := congrArg Prod.snd h
          exact Nat.le_of_eq hdepth
  · have hreframes : Reframes True m (step host resume program next i m) :=
      step_reframes (fun index hindex => hi ⟨index, hindex⟩) hframes
    rw [h] at hreframes
    exact hreframes.depth_le

/-! ### Sessions -/

/-- Frames with others on top of them stay, as long as natives work in the active frame. -/
def isolating : Regime where
  holds _ := True
  fits _ := True
  moves := Shields
  allows d := d.byNative = true → d.op.isLocal = true
  crash := True

/-- What can happen to frames leaves those below the active one alone. -/
theorem isolating_goes {r : Except Fault α × Machine} (h : Reframes True m r) : isolating.Goes m r :=
  ⟨trivial, h.shields, fun _ => trivial⟩

/-- **Nothing that happens in a session touches frames that others stand on.** -/
theorem isolating_lasts : isolating.Lasts where
  refl {m} _ :=
    have hworks : m.Works True m := .refl m
    hworks.shields
  instruction hi _ _ hframes := isolating_goes (step_reframes hi hframes)
  defaultNative hf _ := isolating_goes (.works (invoke_default_inside _ _ hf _))
  operation ho _ _ := ⟨trivial, (HostOp.reframes _ ho _).shields, fun _ => trivial⟩
  pushed _ _ := isolating_goes (push_reframes _ _ _)
  cleared _ := isolating_goes (.cleared rfl rfl)
  started _ := isolating_goes (.works (.of_frames rfl rfl))
  checked _ := isolating_goes (restartIfStale_reframes _)
  loaded _ := isolating_goes (.works (currentProgram_inside _))
  fitting _ _ := trivial
  advanced _ _ hframes :=
    isolating_goes (.works (.of_active hframes rfl rfl (.of_size rfl (Nat.le_refl _))))
  paused _ _ hframes :=
    isolating_goes (.works (placed_works (Nat.le_of_eq (congrArg List.length hframes)) _))
  failed _ _ hframes hdeeds hstep _ := by
    have hdepth := step_failed_depth hframes hdeeds hstep
    rw [Stack.depth, Stack.depth, hframes] at hdepth
    exact isolating_goes (.works (placed_works hdepth _))
  ended _ := isolating_goes (.works (ended_works _))

end Machine

/-! ### The law -/

/-- The program that an instruction is taken from, and the instruction, where the loop takes one. -/
def Moment.taken? (m : Machine) (x : Moment) : Option (Program × Instruction) :=
  match x.cause, m.stack.frames with
  | .fetch held, f :: _ =>
    match held.instructionAt f.pc.offset with
    | .ok (i, _) => some (held, i)
    | .error _ => none
  | _, _ => none

/-- An instruction that was taken at a moment stands at the pc of the active frame. -/
theorem Moment.taken?_eq_some {m : Machine} {x : Moment} {held : Program} {i : Instruction}
    (h : x.taken? m = some (held, i)) : ∃ f rest next, x.cause = .fetch held ∧
      m.stack.frames = f :: rest ∧ held.instructionAt f.pc.offset = .ok (i, next) := by
  rw [taken?] at h
  cases hcause : x.cause with
  | check | other => rw [hcause] at h; exact nomatch h
  | fetch program =>
    rw [hcause] at h
    cases hframes : m.stack.frames with
    | nil => rw [hframes] at h; exact nomatch h
    | cons f rest =>
      rw [hframes] at h
      dsimp only at h
      cases hfetch : program.instructionAt f.pc.offset with
      | error e => rw [hfetch] at h; exact nomatch h
      | ok found =>
        rw [hfetch] at h
        obtain ⟨rfl, rfl⟩ := Prod.mk.inj (Option.some.inj h)
        exact ⟨f, rest, found.2, rfl, rfl, hfetch⟩

/-- What is taken where an instruction is known. -/
theorem Moment.exists_taken {m : Machine} {x : Moment} {i : Instruction}
    (h : (x.taken? m).map (·.2) = some i) : ∃ held, x.taken? m = some (held, i) := by
  obtain ⟨⟨held, j⟩, htaken, rfl⟩ := Option.map_eq_some_iff.1 h
  exact ⟨held, htaken⟩

/-- An instruction that is no native is performed after it was taken. -/
theorem Moment.Performed.taken {m : Machine} {x y : Moment} {rest : List Moment} {held : Program}
    {i : Instruction} (h : Moment.Performed m (x :: y :: rest)) (hx : x.taken? m = some (held, i))
    (hi : ∀ index, i ≠ .native index) :
    (∃ f below, x.machine.stack.frames = f :: below) ∧
      ∃ host resume next, y.machine = (Machine.step host resume held next i x.machine).2 := by
  obtain ⟨f, below, next, hcause, hframes, hfetch⟩ := Moment.taken?_eq_some hx
  obtain ⟨hmachine, y', ys, host, resume, hrest, hy⟩ := h.1 held f below i next hcause hframes hfetch hi
  obtain ⟨rfl, -⟩ := List.cons.inj hrest
  rw [hmachine] at hy ⊢
  exact ⟨⟨_, below, rfl⟩, host, resume, next, hy⟩

/-- What a return changes in the caller: the outputs go to the registers from `out` on, and what the callee
    saved goes under its key. -/
structure Frame.Answered (declared : List Output) (out : Nat) (callee caller caller' : Frame) : Prop where
  same : caller' = { caller with registers := caller'.registers, outgoing := caller'.outgoing }
  outputs : ∃ values, List.Forall₂ (Output.Gives callee.registers) declared values ∧
    caller'.registers.size = max caller.registers.size (out + values.length) ∧
    ∀ j, caller'.registers[j]? =
      if out ≤ j ∧ j < out + values.length then values[j - out]?
      else if j < caller.registers.size then caller.registers[j]?
      else if j < out + values.length then some .null else none
  unkeyed : callee.key = none → caller'.outgoing = caller.outgoing
  others : ∀ k, callee.key = some k → ∀ k', k' ≠ k →
    Entries.get? k' caller'.outgoing = Entries.get? k' caller.outgoing
  saved : ∀ k, callee.key = some k → if callee.outgoing = []
    then caller'.outgoing = Entries.erase k caller.outgoing
    else ∃ id, Entries.get? k caller'.outgoing = some (.map id callee.outgoing)

/-- A caller that wants outputs is answered by what it receives. -/
theorem Frame.Receives.answered {declared : List Output} {out : Reg} {callee caller caller' : Frame}
    (h : Frame.Receives declared callee caller caller') (hout : callee.returnTo = some out) :
    Frame.Answered declared out.toNat callee caller caller' := by
  obtain ⟨values, hgives, hregisters⟩ := h.outputs
  rw [hout] at hregisters
  dsimp only at hregisters
  have hsaved := h.saved
  refine ⟨h.same, ⟨values, hgives, ?_, fun j => ?_⟩, fun hkey => ?_, fun k hkey k' hk' => ?_, fun k hkey => ?_⟩
  · rw [hregisters, Machine.size_receive]
  · rw [hregisters, Machine.getElem?_receive]
  · rw [hkey] at hsaved
    exact hsaved
  · rw [hkey] at hsaved
    obtain ⟨n, hmerge⟩ := hsaved
    rw [hmerge, StateTree.merge_eq]
    split
    · exact Entries.get?_erase_of_ne hk' _
    · exact Entries.get?_insert_of_ne hk' _ _
  · rw [hkey] at hsaved
    obtain ⟨n, hmerge⟩ := hsaved
    rw [hmerge, StateTree.merge_eq]
    split
    · rfl
    · exact ⟨n, Entries.get?_insert_self ..⟩

namespace Machine

variable {α : Type} {m : Machine}

/-- A call that brings a frame pushes it on top of the others. -/
theorem step_call_pushes {host : Embedder} {resume : Action Outcome} {program : Program} {next : Nat}
    {i : Instruction} (hcall : i.isCall = true)
    (hdepth : m.stack.depth < (step host resume program next i m).2.stack.depth) :
    ∃ callee out, i.out? = some out ∧
      (step host resume program next i m).2.stack.frames = callee :: m.stack.frames ∧
      callee.returnTo = some out ∧
      ∀ caller rest, m.stack.frames = caller :: rest → callee.key = i.key? caller := by
  have hstep : (step host resume program next i m).2 = (perform host resume program next i m).2 :=
    step_machine (fun h => by rw [h] at hcall; exact nomatch hcall)
      (fun h => by rw [h] at hcall; exact nomatch hcall) m
  rw [hstep] at hdepth ⊢
  have hcalled : Called i m (perform host resume program next i m) := perform_called hcall m
  generalize perform host resume program next i m = r at hcalled hdepth
  cases hcalled with
  | stayed h => exact absurd h.depth (Nat.ne_of_gt hdepth)
  | @pushed f link m' _ hf hout hkey hframes _ =>
    obtain ⟨out, hi⟩ : ∃ out, i.out? = some out := by
      cases i with
      | call | callKeyed | callFunc | callFuncApply | callMethod => exact ⟨_, rfl⟩
      | _ => exact nomatch hcall
    refine ⟨f, out, hi, hframes, ?_, fun caller rest hcaller => ?_⟩
    · rw [hf.returnTo, hout, hi]
    · rw [hf.key, hkey caller rest hcaller]

/-- A return that takes a frame away answers its caller. -/
theorem step_ret_answers {host : Embedder} {resume : Action Outcome} {program : Program} {next : Nat}
    {f caller : Frame} {below : List Frame} {out : Reg} (hframes : m.stack.frames = f :: caller :: below)
    (hout : f.returnTo = some out)
    (hdepth : (step host resume program next .ret m).2.stack.depth < m.stack.depth) :
    ∃ caller', (step host resume program next .ret m).2.stack.frames = caller' :: below ∧
      Frame.Answered program.signature.outputs out.toNat f caller caller' := by
  have hstep : (step host resume program next .ret m).2 = (leave program m).2 := by
    show ((leave program >>= fun root => pure (if root then Flow.finish else Flow.reload)) m).2 = _
    rw [Failing.bind_apply]
    rcases leave program m with ⟨_ | _, m'⟩ <;> rfl
  rw [hstep] at hdepth ⊢
  have hleave := leave_returned program hframes
  generalize leave program m = r at hleave hdepth
  cases hleave with
  | refused h => exact absurd (congrArg Stack.depth h) (Nat.ne_of_lt hdepth)
  | ended h => exact absurd h.depth (Nat.ne_of_lt hdepth)
  | orphaned hrest => exact nomatch hrest
  | @handed _ caller' _ m' hrest hframes' _ h =>
    obtain ⟨rfl, rfl⟩ := List.cons.inj hrest
    exact ⟨caller', hframes', h.answered hout⟩

/-- **Callers are left alone.** In a session whose natives work in the active frame only, a call that brings
    a frame pushes it on top of the others. As long as that frame is there, whatever it executes and calls,
    the frames below are exactly as they were right after the push. When it returns, only the outputs and
    what was saved under the key of the call change in its caller. -/
theorem caller_isolated {start : Machine} (host : Embedder) (fuel : Nat) (session : Script α)
    (hnatives : ∀ d ∈ session.deeds false (runBy host fuel) (runByDeeds host fuel) start,
      d.byNative = true → d.op.isLocal = true)
    {past during future : List Moment} {x y : Moment} {held : Program} {i : Instruction}
    (hmoments : session.moments (runBy host fuel) (runByMoments host fuel) start =
      past ++ x :: y :: (during ++ future))
    (hcall : i.isCall = true) (hx : x.taken? (Moment.last start past) = some (held, i))
    (hpush : x.machine.stack.depth < y.machine.stack.depth)
    (hduring : ∀ z ∈ during, x.machine.stack.depth < z.machine.stack.depth) :
    ∃ callee out, i.out? = some out ∧ y.machine.stack.frames = callee :: x.machine.stack.frames ∧
      callee.returnTo = some out ∧
      (∀ caller rest, x.machine.stack.frames = caller :: rest → callee.key = i.key? caller) ∧
      (∀ z ∈ during, ∃ above f, z.machine.stack.frames = above ++ f :: x.machine.stack.frames ∧
        f.fixed = callee.fixed) ∧
      ∀ before ret after rest program, during = before ++ [ret] → future = after :: rest →
        ret.taken? (Moment.last y.machine before) = some (program, .ret) →
        ret.machine.stack.depth = x.machine.stack.depth + 1 →
        after.machine.stack.depth ≤ x.machine.stack.depth →
        ∃ f caller caller' below, ret.machine.stack.frames = f :: caller :: below ∧
          x.machine.stack.frames = caller :: below ∧ after.machine.stack.frames = caller' :: below ∧
          f.fixed = callee.fixed ∧
          Frame.Answered program.signature.outputs out.toNat f caller caller' := by
  -- the session moves by moments that shield frames, and takes instructions where it says so
  have hsession := isolating_lasts.session host fuel session start trivial hnatives
  have hchain := hsession.chain
  have hperformed := hsession.performed
  rw [hmoments] at hchain hperformed
  have hnative : ∀ index, i ≠ .native index := by rintro index rfl; cases hcall
  obtain ⟨⟨top, below, htop⟩, host₁, resume₁, next₁, hy⟩ := hperformed.at.taken hx hnative
  rw [hy] at hpush
  obtain ⟨callee, out, hi, hframes, hreturn, hkey⟩ := step_call_pushes hcall hpush
  rw [← hy] at hframes
  -- from the push on, the frames below stay
  obtain ⟨-, -, -, hafter⟩ := Moment.chain_append.1 hchain
  have hpushed : y.machine.stack.frames = [] ++ callee :: x.machine.stack.frames := hframes
  have hbelow : x.machine.stack.frames ≠ [] := by rw [htop]; simp
  have hstays := Shields.along (Moment.chain_append.1 hafter).1 hpushed hbelow hduring
  refine ⟨callee, out, hi, hframes, hreturn, hkey, fun z hz => hstays _ (.inr ⟨z, hz, rfl⟩), ?_⟩
  rintro before ret after rest program rfl rfl hret hdepth hpopped
  -- at the return the callee is the active frame
  obtain ⟨above, f, hframes', hf⟩ := hstays ret.machine (.inr ⟨ret, by simp, rfl⟩)
  obtain rfl : above = [] := by
    rw [Stack.depth, Stack.depth, hframes', List.length_append, List.length_cons] at hdepth
    exact List.length_eq_zero_iff.1 (by omega)
  rw [List.nil_append, htop] at hframes'
  have hreturn' : f.fixed.returnTo = some out := (congrArg Frame.returnTo hf).trans hreturn
  have hlater := hperformed.at.2.2
  rw [List.append_assoc] at hlater
  obtain ⟨-, host₂, resume₂, next₂, hafter₂⟩ := hlater.at.taken hret (by simp)
  have hless : after.machine.stack.depth < ret.machine.stack.depth := by omega
  rw [hafter₂] at hless ⊢
  obtain ⟨caller', hcaller', hanswered⟩ := step_ret_answers hframes' hreturn' hless
  exact ⟨f, top, caller', below, hframes', htop, hcaller', hf, hanswered⟩

end Machine

/-! ### A call under a key -/

namespace Errand

open Machine

def signature : Signature where
  name := "errand"
  inputs := [⟨"n", .basic .int, false⟩]
  outputs := [⟨⟨"x", .basic .int, false⟩, 1⟩]
  locals := 6

/-- Calls itself under a key with one less, as long as there is something to do. Then it calls a native and
    saves what that gave. -/
def body : List Directive :=
  [.load 2 (.int 0), .code (.emit (.binary .lessThan 3 2 0)), .code (.jump (.ifFalse 3) "done"),
    .load 2 (.int 1), .code (.emit (.binary .subInt 4 0 2)), .load 5 (.str "k"), .callKeyed 0 4 1 1 5,
    .code (.bind "done"), .code (.emit (.native 0)), .saveState "s" 1, .code (.emit .ret)]

/-- The native gives seven. -/
def host : Embedder where
  script _ := .op (.setOutput 0 (.int 7)) fun _ => .done (.ok ())

def machine : Machine :=
  ⟨(World.addBlock { natives := ⟨#[("seven", .installed 0)], {}⟩ } signature body).2, .new {}, ""⟩

def session : Script Unit :=
  .op (.push 0 [.int 2]) fun _ => .op .run fun _ => .done (.ok ())

def moments : List Moment :=
  session.moments (runBy host 40) (runByMoments host 40) machine

def moment (n : Nat) : Moment :=
  moments[n]?.getD ⟨.other, machine⟩

/-- The errand has so many moments. -/
theorem length_moments : moments.length = 65 := by
  decide +kernel

/-- From a moment on, the errand is that moment and what is left after it. -/
theorem drop_moments {n : Nat} (h : n < 65) : moments.drop n = moment n :: moments.drop (n + 1) := by
  have hn : n < moments.length := by rwa [length_moments]
  rw [List.drop_eq_getElem_cons hn, moment, List.getElem?_eq_getElem hn]
  rfl

/-- The block calls itself at moment 16, and once more from there. The first of these calls returns at
    moment 53, and its caller goes on. -/
theorem caller_isolated_errand :
    (∀ d ∈ session.deeds false (runBy host 40) (runByDeeds host 40) machine,
      d.byNative = true → d.op.isLocal = true) ∧
    moments = moments.take 16 ++ moment 16 :: moment 17 :: ((moments.drop 18).take 36 ++ moments.drop 54) ∧
    (∃ held, (moment 16).taken? (Moment.last machine (moments.take 16)) =
      some (held, .callKeyed 0 4 1 1 5)) ∧
    (moment 16).machine.stack.depth < (moment 17).machine.stack.depth ∧
    (∀ z ∈ (moments.drop 18).take 36, (moment 16).machine.stack.depth < z.machine.stack.depth) ∧
    ∃ (program : Program) (f caller caller' : Frame) (below : List Frame),
      (moment 53).machine.stack.frames = f :: caller :: below ∧
      (moment 16).machine.stack.frames = caller :: below ∧
      (moment 54).machine.stack.frames = caller' :: below ∧
      Frame.Answered program.signature.outputs 1 f caller caller' := by
  have hnatives : ∀ d ∈ session.deeds false (runBy host 40) (runByDeeds host 40) machine,
      d.byNative = true → d.op.isLocal = true := by
    decide +kernel
  have hmoments : moments =
      moments.take 16 ++ moment 16 :: moment 17 :: ((moments.drop 18).take 36 ++ moments.drop 54) := by
    have hrest : moments.drop 54 = (moments.drop 18).drop 36 := by rw [List.drop_drop]
    rw [hrest, List.take_append_drop, ← drop_moments (by decide), ← drop_moments (by decide),
      List.take_append_drop]
  have hcall := Moment.exists_taken (m := Moment.last machine (moments.take 16)) (x := moment 16)
    (i := .callKeyed 0 4 1 1 5) (by decide +kernel)
  have hpush : (moment 16).machine.stack.depth < (moment 17).machine.stack.depth := by decide +kernel
  have hduring : ∀ z ∈ (moments.drop 18).take 36,
      (moment 16).machine.stack.depth < z.machine.stack.depth := by
    decide +kernel
  refine ⟨hnatives, hmoments, hcall, hpush, hduring, ?_⟩
  obtain ⟨held, hcall⟩ := hcall
  obtain ⟨callee, out, hout, -, -, -, -, hreturn⟩ :=
    caller_isolated host 40 session hnatives hmoments rfl hcall hpush hduring
  obtain rfl : 1 = out := Option.some.inj hout
  have hlast : (moments.drop 18).take 36 = (moments.drop 18).take 35 ++ [moment 53] := by
    rw [List.take_add_one, List.getElem?_drop, moment, List.getElem?_eq_getElem (by rw [length_moments]; decide)]
    rfl
  obtain ⟨program, hret⟩ := Moment.exists_taken (m := Moment.last (moment 17).machine ((moments.drop 18).take 35))
    (x := moment 53) (i := .ret) (by decide +kernel)
  obtain ⟨f, caller, caller', below, hframes, hcaller, hafter, -, hanswered⟩ := hreturn _ _ _ _ program hlast
    (drop_moments (by decide)) hret (by decide +kernel) (by decide +kernel)
  exact ⟨program, f, caller, caller', below, hframes, hcaller, hafter, hanswered⟩

end Errand

end BlockMachine

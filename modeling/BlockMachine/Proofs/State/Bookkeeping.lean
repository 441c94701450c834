import BlockMachine.Proofs.State.Outline

namespace BlockMachine

/-!
# Machines follow their ledgers

A stack that a ledger describes stays described when the events of what happens are posted: by every
instruction, operation and run, whatever natives do, and at every mark in between.

* `Machine.Tracks` relates a computation to its course;
* `Machine.step_tracks`, `HostOp.tracks` and `Script.tracks` are about single steps and hosts;
* `Machine.runBy_tracks` is about whole runs.
-/

/-! ### Described stacks -/

namespace Ledger

variable {l : Ledger} {s s' : Stack} {m m' : Machine} {key : Option Key}

/-- A description is of the tree and of the strands of frames. -/
theorem Describes.congr (h : l.Describes s) (hstate : s'.state = s.state)
    (hframes : s'.frames.map Frame.strand = s.frames.map Frame.strand) : l.Describes s' :=
  ⟨hstate.trans h.tree, hframes.trans h.frames⟩

/-- A description stays right where the outline stays. -/
theorem Describes.of_outline (h : l.Describes m.stack) (ho : m'.outline = m.outline) :
    l.Describes m'.stack :=
  h.congr (congrArg Outline.state ho) (congrArg Outline.strands ho)

/-- The innermost frame has the first account. -/
theorem Describes.cons (h : l.Describes s) {f : Frame} {rest : List Frame}
    (hframes : s.frames = f :: rest) :
    ∃ a as, l.accounts = a :: as ∧ f.strand = ⟨as.isEmpty, a.key, a.incoming, a.outgoing⟩ ∧
      rest.map Frame.strand = strands as := by
  have hstrands := h.frames
  rw [hframes, List.map_cons] at hstrands
  cases haccounts : l.accounts with
  | nil =>
    rw [haccounts] at hstrands
    exact nomatch hstrands
  | cons a as =>
    rw [haccounts] at hstrands
    obtain ⟨hf, hrest⟩ := List.cons.inj hstrands
    exact ⟨a, as, rfl, hf, hrest⟩

/-- There are strands if there are accounts. -/
theorem strands_isEmpty (as : List Account) : (strands as).isEmpty = as.isEmpty := by
  cases as <;> rfl

/-- The strands of the callers are those of their accounts. -/
theorem strands_tail (as : List Account) : strands as.tail = (strands as).tail := by
  cases as <;> rfl

/-- There are as many strands as accounts. -/
theorem strands_length (as : List Account) : (strands as).length = as.length := by
  induction as with
  | nil => rfl
  | cons a as ih => rw [strands, List.length_cons, List.length_cons, ih]

/-- The strands of callers further down are those of their accounts. -/
theorem strands_drop (as : List Account) (n : Nat) : strands (as.drop n) = (strands as).drop n := by
  induction n with
  | zero => rfl
  | succ n ih => rw [← List.tail_drop, strands_tail, ih, List.tail_drop]

/-- A frame that is entered gets an account. -/
theorem Describes.enter (h : l.Describes m.stack) (ho : m'.outline = m.outline.enter key) :
    (l.post (.entered key)).Describes m'.stack := by
  have hincoming : m.outline.incomingFor key = l.incomingFor key := by
    have hstrands : m.outline.strands = strands l.accounts := h.frames
    unfold Outline.incomingFor incomingFor
    rw [hstrands, show m.outline.state = l.tree from h.tree]
    cases l.accounts <;> cases key <;> rfl
  refine ⟨(congrArg Outline.state ho).trans h.tree, (congrArg Outline.strands ho).trans ?_⟩
  show ⟨m.outline.strands.isEmpty, key, m.outline.incomingFor key, []⟩ :: m.outline.strands = _
  rw [hincoming, show m.outline.strands = strands l.accounts from h.frames, strands_isEmpty]
  rfl

/-- Frames that are gone have no account. -/
theorem Describes.clear (h : l.Describes s) (hstate : s'.state = s.state) (hframes : s'.frames = []) :
    (l.post .cleared).Describes s' := by
  refine ⟨hstate.trans h.tree, ?_⟩
  rw [hframes]
  rfl

/-- A tree that is replaced is replaced in the ledger. -/
theorem Describes.replace (h : l.Describes s) (tree : Value) (hstate : s'.state = tree)
    (hframes : s'.frames = s.frames) : (l.post (.replaced tree)).Describes s' := by
  refine ⟨hstate, ?_⟩
  rw [hframes]
  exact h.frames

/-- A course is followed if its parts are, the second one after what the first one told. -/
theorem follows_append {course course' : List Mark} :
    l.Follows (course ++ course') ↔ l.Follows course ∧ (l.replay (Mark.log course)).Follows course' := by
  induction course generalizing l with
  | nil => simp [Follows]
  | cons mark course ih =>
    rw [List.cons_append, Follows, Follows, ih, Mark.log_cons, replay_append, and_assoc]

/-- The ledger at one mark of a course. -/
theorem Follows.describes {past future : List Mark} {mark : Mark}
    (h : l.Follows (past ++ mark :: future)) :
    (l.replay (Mark.log (past ++ [mark]))).Describes mark.machine.stack := by
  rw [Mark.log_append, Mark.log_cons, Mark.log_nil, List.append_nil, replay_append]
  exact (follows_append.1 h).2.1

end Ledger

namespace Machine

open Ledger

variable {α β : Type} {l : Ledger} {m m' : Machine} {key : Option Key}

/-- A computation keeps to its course: a ledger that describes the stack at the start describes all
    machines on the course and the one at the end. -/
def Tracks (a : Action α) (course : Machine → List Mark) : Prop :=
  ∀ (l : Ledger) (m : Machine), l.Describes m.stack →
    l.Follows (course m) ∧ (l.replay (Mark.log (course m))).Describes (a m).2.stack

/-- A course of one mark. -/
theorem Tracks.single {a : Action α} {events : Machine → List Event}
    (h : ∀ (l : Ledger) (m : Machine), l.Describes m.stack → (l.replay (events m)).Describes (a m).2.stack) :
    Tracks a fun m => [⟨events m, (a m).2⟩] := by
  intro l m hl
  have hm := h l m hl
  refine ⟨⟨hm, trivial⟩, ?_⟩
  rwa [Mark.log_cons, Mark.log_nil, List.append_nil]

/-! ### Frames that come -/

/-- There are as many frames as strands. -/
theorem depth_eq_strands (m : Machine) : m.stack.depth = m.outline.strands.length := by
  rw [Stack.depth, outline, List.length_map]

/-- Where the outline stays, nothing was entered. -/
theorem entered_of_outline (h : m'.outline = m.outline) : entered m m' = [] := by
  rw [entered, if_neg]
  rw [depth_eq_strands, depth_eq_strands, h]
  exact Nat.lt_irrefl _

/-- Where it has a frame more, that was entered. -/
theorem entered_of_enter (h : m'.outline = m.outline.enter key) : entered m m' = [.entered key] := by
  have hstrands := congrArg Outline.strands h
  rw [entered, if_pos]
  · cases hframes : m'.stack.frames with
    | nil =>
      rw [outline, hframes] at hstrands
      cases hstrands
    | cons f rest =>
      rw [outline, hframes] at hstrands
      have hkey : f.key = key := congrArg Strand.key (List.cons.inj hstrands).1
      rw [List.head?_cons, Option.bind_some, hkey]
  · rw [depth_eq_strands, depth_eq_strands, hstrands]
    exact Nat.lt_succ_self _

/-- A computation that may push a frame posts it. -/
theorem describes_entered (hl : l.Describes m.stack)
    (h : m'.outline = m.outline ∨ ∃ key, m'.outline = m.outline.enter key) :
    (l.replay (entered m m')).Describes m'.stack := by
  rcases h with h | ⟨key, h⟩
  · rw [entered_of_outline h]
    exact hl.of_outline h
  · rw [entered_of_enter h]
    exact hl.enter h

/-- Entering a block fails or adds a frame to the outline. -/
theorem enter_cases (block : BlockId) (args : List Value) (link : Link) (m : Machine) :
    (enter block args link m).2.outline = m.outline ∨
      ∃ key, (enter block args link m).2.outline = m.outline.enter key := by
  have henter := enter_outline block args link m
  generalize enter block args link m = r at henter
  obtain ⟨_ | _, m'⟩ := r
  · exact .inl henter
  · exact .inr ⟨_, henter⟩

/-! ### Instructions -/

/-- Looking at the active frame leaves the machine as it is. -/
theorem active_machine : Preserves id active := by
  refine .getStack_bind fun m => ?_
  cases m.stack.frames <;> rfl

/-- Reading a register changes nothing. -/
theorem register_machine (r : Reg) : Preserves id (register r) := by
  have hraw : Preserves id (rawRegister r) := by
    refine .bind active_machine fun f => ?_
    cases f.registers[r.toNat]? with
    | none => exact .throw _
    | some v => exact .pure v
  refine .bind hraw fun v => ?_
  split
  · exact .throw _
  · exact .pure v

/-- A save is posted to the account of the frame, which counts it if the frame carries state. -/
theorem describes_saved (hl : l.Describes m.stack) {f : Frame} {rest : List Frame}
    (hframes : m.stack.frames = f :: rest) (name : String) (v : Value) :
    (l.post (.saved name v)).Describes (saveState name v m).2.stack := by
  obtain ⟨a, as, haccounts, hf, hrest⟩ := hl.cons hframes
  have hparent : f.parent.isNone = as.isEmpty := congrArg Strand.isRoot hf
  have hkey : f.key = a.key := congrArg Strand.key hf
  have hincoming : f.incoming = a.incoming := congrArg Strand.incoming hf
  have houtgoing : f.outgoing = a.outgoing := congrArg Strand.outgoing hf
  have hstateful : f.isStateful = (as.isEmpty || a.key.isSome) := by
    rw [Frame.isStateful, hparent, hkey]
  rw [saveState, modifyActive_apply _ hframes]
  refine ⟨hl.tree, ?_⟩
  show Frame.strand _ :: rest.map Frame.strand = strands (saveTop (.own name v) l.accounts)
  -- the account counts the write under the condition under which the frame keeps it
  rw [hrest, haccounts, saveTop_cons, hstateful]
  split
  · simp only [strands, Account.outgoing_record, Frame.strand, hparent, hkey, hincoming, houtgoing]
    rfl
  · simp only [strands, hf]

/-- What a root leaves behind. -/
theorem leaveRoot_stack (f : Frame) (outputs : List (Output × Value)) (m : Machine) :
    (leaveRoot f outputs m).1 = .ok () ∧
      (leaveRoot f outputs m).2.stack.state =
        (StateTree.ofOutgoing f.outgoing m.world.supply).1 ∧
      (leaveRoot f outputs m).2.stack.frames.map Frame.strand =
        { f.strand with outgoing := [] } :: m.stack.frames.tail.map Frame.strand :=
  ⟨rfl, rfl, rfl⟩

/-- What a caller is handed. -/
theorem deliver_stack (child : Frame) (outputs : List Value) {m : Machine} {parent : Frame}
    {rest : List Frame} (h : m.stack.frames = parent :: rest) :
    (deliver child outputs m).1 = .ok () ∧
      (deliver child outputs m).2.stack.state = m.stack.state ∧
      (deliver child outputs m).2.stack.frames.map Frame.strand =
        { parent.strand with
          outgoing := match child.key with
            | some k => (StateTree.merge parent.outgoing k child.outgoing m.world.supply).1
            | none => parent.outgoing } :: rest.map Frame.strand := by
  have htail : m.stack.frames.tail = rest := by rw [h, List.tail_cons]
  rw [deliver, Failing.bind_apply, active_apply h]
  dsimp only
  cases child.key with
  | none =>
    rw [← htail]
    exact ⟨rfl, rfl, rfl⟩
  | some k =>
    rw [← htail]
    exact ⟨rfl, rfl, rfl⟩

/-- A return is posted, and the one of a root makes the tree. -/
theorem describes_left (hl : l.Describes m.stack) (program : Program) :
    (l.replay (left program m)).Describes (leave program m).2.stack := by
  cases hframes : m.stack.frames with
  | nil =>
    rw [left, hframes, leave, Failing.bind_apply, active_apply_nil hframes]
    exact hl
  | cons f rest =>
    obtain ⟨a, as, haccounts, hf, hrest⟩ := hl.cons hframes
    have hparent : f.parent.isNone = as.isEmpty := congrArg Strand.isRoot hf
    have hkey : f.key = a.key := congrArg Strand.key hf
    have houtgoing : f.outgoing = a.outgoing := congrArg Strand.outgoing hf
    have hcast : Preserves (·.stack) (castOutputs program f.registers 0 program.signature.outputs) :=
      castOutputs_preserves (fun _ _ => rfl) _ _ _ _
    replace hcast := hcast m
    rw [left, hframes, leave, Failing.bind_apply, active_apply hframes]
    dsimp only
    rw [Failing.bind_apply]
    rcases hr : castOutputs program f.registers 0 program.signature.outputs m with ⟨e | outputs, m₁⟩
      <;> rw [hr] at hcast
    · -- an output without its declared type changes nothing
      exact hl.congr (congrArg Stack.state hcast) (by rw [show m₁.stack = m.stack from hcast])
    have hstack : m₁.stack = m.stack := hcast
    have hframes₁ : m₁.stack.frames = f :: rest := by rw [hstack, hframes]
    dsimp only
    cases as with
    | nil =>
      have hroot : f.parent.isNone = true := hparent
      rw [if_pos hroot, Failing.bind_apply]
      obtain ⟨hok, hstate, hstrands⟩ :=
        leaveRoot_stack f (program.signature.outputs.zip outputs) m₁
      generalize leaveRoot f (program.signature.outputs.zip outputs) m₁ = r at hok hstate hstrands
      obtain ⟨_ | _, m₂⟩ := r
      · cases hok
      · show (l.post (.finished
          (castOutputs program f.registers 0 program.signature.outputs m).2.world.supply)).Describes
          m₂.stack
        rw [hr]
        refine ⟨?_, ?_⟩
        · rw [hstate, post, haccounts, houtgoing]
        · rw [hstrands, hframes₁, List.tail_cons, hrest, post, haccounts, hf]
          rfl
    | cons parent as =>
      obtain ⟨g, rest', rfl⟩ : ∃ g rest', rest = g :: rest' := by
        cases rest with
        | nil => cases hrest
        | cons g rest' => exact ⟨g, rest', rfl⟩
      obtain ⟨hg, hrest'⟩ := List.cons.inj hrest
      have hgout : g.outgoing = parent.outgoing := congrArg Strand.outgoing hg
      have hroot : f.parent.isNone = false := hparent
      rw [if_neg (by rw [hroot]; exact Bool.false_ne_true), Failing.bind_apply]
      -- the frame is popped, and its caller is the innermost one now
      have hpop : onStack Stack.popFrame m₁ =
          (.ok m₁.stack.popFrame.1, { m₁ with stack := m₁.stack.popFrame.2 }) := rfl
      have hpopped : m₁.stack.popFrame.2.frames = g :: rest' := by
        rw [Stack.popFrame, hframes₁]
      have hkept : m₁.stack.popFrame.2.state = m.stack.state := by
        rw [Stack.popFrame, hframes₁, ← hstack]
      rw [hpop]
      dsimp only
      rw [Failing.bind_apply]
      obtain ⟨hok, hstate, hstrands⟩ := deliver_stack f outputs
        (m := { m₁ with stack := m₁.stack.popFrame.2 }) hpopped
      generalize deliver f outputs { m₁ with stack := m₁.stack.popFrame.2 } = r
        at hok hstate hstrands
      obtain ⟨_ | _, m₃⟩ := r
      · cases hok
      · refine ⟨?_, ?_⟩
        · show m₃.stack.state = l.tree
          rw [hstate, hkept, hl.tree]
        · show m₃.stack.frames.map Frame.strand = strands (returnTop _ l.accounts)
          rw [hstrands, haccounts, hkey, houtgoing, hgout, hrest', hg]
          cases hk : a.key with
          | none => simp only [returnTop, hk, strands]
          | some k =>
            simp only [returnTop, hk, strands, Account.outgoing_record, Saving.collect, hr]
            rfl

/-- After a native only its error is looked at. -/
theorem callNative_machine (host : Embedder) (resume : Action Outcome) (index : UInt16)
    (m : Machine) : (callNative host resume index m).2 =
      match m.world.natives.get? index with
      | some (_, f) => (invoke host resume f m).2
      | none => m := by
  rw [callNative, Failing.bind_apply, Failing.get_apply]
  dsimp only
  cases m.world.natives.get? index with
  | none => rfl
  | some entry =>
    dsimp only
    rw [Failing.bind_apply]
    rcases invoke host resume entry.2 m with ⟨_ | _, m'⟩
    · rfl
    · simp only [getStack, Failing.bind_apply, Failing.get_apply, Failing.pure_apply]
      cases m'.stack.error <;> rfl

/-- A step performs its instruction, and then only tells how to go on. -/
theorem step_machine {host : Embedder} {resume : Action Outcome} {program : Program} {next : Nat}
    {i : Instruction} (hpause : i ≠ .pause) (hret : i ≠ .ret) (m : Machine) :
    (step host resume program next i m).2 = (perform host resume program next i m).2 := by
  rw [step.eq_3 _ _ _ _ _ hpause hret, Failing.bind_apply]
  rcases perform host resume program next i m with ⟨_ | _, m'⟩ <;> rfl

/-- **Instructions are tracked**, given that natives are. -/
theorem step_tracks {host : Embedder} {resume : Action Outcome} {running : Machine → List Mark}
    (hnative : ∀ f : Native, Tracks (invoke host resume f) (f.course host resume running))
    (program : Program) (next : Nat) (i : Instruction) :
    Tracks (step host resume program next i) (stepCourse host resume running program next i) := by
  have hinside : ∀ i : Instruction, i.staysInside = true →
      Tracks (step host resume program next i)
        fun m => [⟨entered m (step host resume program next i m).2,
          (step host resume program next i m).2⟩] := by
    intro i hi
    refine .single fun l m hl => describes_entered hl (.inl ?_)
    rw [step_machine (by rintro rfl; cases hi) (by rintro rfl; cases hi)]
    exact perform_inside_outline next hi m
  have hcall : ∀ i : Instruction, i.isCall = true →
      Tracks (step host resume program next i)
        fun m => [⟨entered m (step host resume program next i m).2,
          (step host resume program next i m).2⟩] := by
    intro i hi
    refine .single fun l m hl => describes_entered hl ?_
    rw [step_machine (by rintro rfl; cases hi) (by rintro rfl; cases hi)]
    exact perform_call_outline next hi m
  cases i with
  | call | callKeyed | callFunc | callFuncApply | callMethod =>
    exact hcall _ rfl
  | native index =>
    intro l m hl
    have hstep : (step host resume program next (.native index) m).2 = _ :=
      step_machine (by simp) (by simp) m
    rw [stepCourse_native, hstep, perform, callNative_machine]
    cases m.world.natives.get? index with
    | none => exact ⟨trivial, hl⟩
    | some entry => exact hnative entry.2 l m hl
  | saveState name src =>
    refine .single fun l m hl => ?_
    have hread := register_machine src m
    have hstep : (step host resume program next (.saveState name src) m).2 = _ :=
      step_machine (by simp) (by simp) m
    rw [hstep, perform, Failing.bind_apply, entry, saved]
    cases program.names[name.toNat]? with
    | none => exact hl
    | some s =>
      dsimp only [Failing.pure_apply]
      rw [Failing.bind_apply]
      rcases hr : register src m with ⟨_ | v, m₁⟩ <;> rw [hr] at hread
      · obtain rfl : m₁ = m := hread
        exact hl
      · obtain rfl : m₁ = m := hread
        cases hframes : m₁.stack.frames with
        | nil =>
          -- a register was read, so there is a frame
          rw [register, rawRegister, Failing.bind_apply, Failing.bind_apply,
            active_apply_nil hframes] at hr
          cases hr
        | cons f rest => exact describes_saved hl hframes s v
  | pause =>
    exact .single fun l m hl => describes_entered hl (.inl rfl)
  | ret =>
    refine .single fun l m hl => ?_
    have hstep : (step host resume program next .ret m).2 = (leave program m).2 := by
      rw [step, Failing.bind_apply]
      rcases leave program m with ⟨_ | _, m'⟩ <;> rfl
    rw [hstep]
    exact describes_left hl program
  | _ => exact hinside _ rfl

end Machine

end BlockMachine

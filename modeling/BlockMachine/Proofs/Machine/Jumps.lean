import BlockMachine.Proofs.Bytecode.Labels
import BlockMachine.Proofs.Machine.Loop

namespace BlockMachine

/-!
# Jumps land where they were bound

A jump is assembled as a distance, and it is executed as a distance; the machine arrives at the position
that the assembler meant.

* `Assembler.goesTo` is the position that a jump is meant to go to;
* `Machine.ReadsRegisters` says that an action does no more than read registers, as the conditions of
  jumps do (`Machine.isTaken_reads`);
* `Machine.execute_jump` is the round of the loop that takes a jump;
* `Machine.jumps_land` puts assembling and executing together.
-/

namespace Assembler

/-- The condition of the jump that a call emits, and the position it is meant to go to: where the calls
    `rest` behind it bind its label next, or the target it is given. -/
def goesTo (before rest : List Call) : Call → Option (Condition × Nat)
  | .jump cond label =>
    (boundAt label (after (before ++ [.jump cond label])) rest).map fun target => (cond, target)
  | .jumpBack cond target => some (cond, (after before).resolve target)
  | _ => none

/-- If a call is a jump back to a number, the assembler has been at this position. A mark, and the bound
    label of a forward jump, is such a position anyway. -/
def TargetSeen (before : List Call) : Call → Prop
  | .jumpBack _ (.offset n) => ∃ front back, before = front ++ back ∧ n = (after front).position
  | _ => True

/-- A loop is left behind the jump that closes it. -/
example : goesTo [.mark "top"]
    [.emit (.increment 1), .jumpBack .always (.mark "top"), .bind "done", .emit .ret]
    (.jump (.ifDone 1 0) "done") = some (.ifDone 1 0, 10) := by rfl

variable {before rest : List Call} {c : Call} {cond : Condition} {target : Nat}

/-- The call emits a jump over the distance from its end to its target. -/
theorem instruction?_of_goesTo (h : goesTo before rest c = some (cond, target)) :
    instruction? (after before) rest c =
      some (.jump cond (jumpOffset (after (before ++ [c])).position target)) := by
  cases c with
  | jump cond' label =>
    obtain ⟨target', hbound, htarget⟩ := Option.map_eq_some_iff.1 h
    obtain ⟨rfl, rfl⟩ := Prod.mk.inj htarget
    rw [after_concat] at hbound ⊢
    change boundAt label ((after before).jump cond' label) rest = some target' at hbound
    simp only [instruction?, offsetTo, hbound]
    rfl
  | jumpBack cond' target' =>
    obtain ⟨rfl, rfl⟩ := Prod.mk.inj (Option.some.inj h)
    rw [after_concat]
    rfl
  | _ => cases h

/-- A jump goes to an instruction of the finished code or to its end. -/
theorem isBoundary_of_goesTo (h : goesTo before rest c = some (cond, target))
    (hseen : TargetSeen before c) : IsBoundary (assemble (before ++ c :: rest)) target := by
  -- the target is the position after some of the calls
  have hat : ∀ {front back}, before ++ c :: rest = front ++ back → target = (after front).position →
      IsBoundary (assemble (before ++ c :: rest)) target := by
    intro front back hsplit htarget
    rw [hsplit, htarget]
    exact isBoundary_position front back
  cases c with
  | jump cond' label =>
    obtain ⟨target', hbound, htarget⟩ := Option.map_eq_some_iff.1 h
    obtain ⟨rfl, rfl⟩ := Prod.mk.inj htarget
    obtain ⟨front, back, rfl, hpos⟩ := boundAt_some hbound
    refine @hat ((before ++ [.jump cond' label]) ++ front) (.bind label :: back) (by simp) ?_
    rw [hpos, after_append _ front]
  | jumpBack cond' target' =>
    obtain ⟨rfl, rfl⟩ := Prod.mk.inj (Option.some.inj h)
    cases target' with
    | offset n =>
      obtain ⟨front, back, rfl, hpos⟩ := hseen
      exact @hat front (back ++ .jumpBack cond' (.offset n) :: rest) (by simp) hpos
    | mark name =>
      cases hname : (after before).marks.lookup name with
      | none => exact @hat [] _ rfl (by rw [resolve, hname]; rfl)
      | some pos =>
        obtain ⟨l₁, l₂, hmarks, -⟩ := List.lookup_eq_some_iff.1 hname
        obtain ⟨front, back, hsplit, hpos⟩ := marks_after before (name, pos) (by simp [hmarks])
        refine @hat front (back ++ .jumpBack cond' (.mark name) :: rest) (by simp [hsplit]) ?_
        simpa [resolve, hname] using hpos
  | _ => cases h

end Assembler

namespace Machine

open Assembler

variable {α β : Type} {m : Machine}

/-! ### Conditions -/

/-- An action that gives what the registers of the innermost frame tell, and changes nothing. -/
def ReadsRegisters (r : Action α) : Prop :=
  ∃ g : Array Value → Except Fault α,
    ∀ {m : Machine} {f : Frame} {rest : List Frame}, m.stack.frames = f :: rest →
      r m = (g f.registers, m)

namespace ReadsRegisters

/-- A value is given back, and nothing is read. -/
theorem pure (a : α) : ReadsRegisters (Pure.pure a) :=
  ⟨fun _ => .ok a, fun _ => rfl⟩

/-- An error is raised, and nothing is read. -/
theorem raise (e : RuntimeError) : ReadsRegisters (Machine.raise e : Action α) :=
  ⟨fun _ => .error (.raised e), fun _ => rfl⟩

/-- Registers are read one after the other. -/
theorem bind {r : Action α} {k : α → Action β} (hr : ReadsRegisters r)
    (hk : ∀ a, ReadsRegisters (k a)) : ReadsRegisters (r >>= k) := by
  obtain ⟨g, hg⟩ := hr
  choose g' hg' using hk
  refine ⟨fun registers => match g registers with
    | .ok a => g' a registers
    | .error fault => .error fault, fun {m f rest} hframes => ?_⟩
  rw [Failing.bind_apply, hg hframes]
  dsimp only
  cases g f.registers with
  | error fault => rfl
  | ok a => exact hg' a hframes

end ReadsRegisters

/-- Reading a register does no more than that. -/
theorem register_reads (r : Reg) : ReadsRegisters (register r) := by
  have hraw : ReadsRegisters (rawRegister r) := by
    refine ⟨fun registers => registers[r.toNat]?.elim
      (.error (.raised (.violation (.registerRange r)))) .ok, fun {m f rest} hframes => ?_⟩
    rw [rawRegister, Failing.bind_apply, active_apply hframes]
    dsimp only
    cases f.registers[r.toNat]? <;> rfl
  refine hraw.bind fun v => ?_
  by_cases hv : v.isMoved
  · rw [if_pos hv]
    exact .raise _
  · rw [if_neg hv]
    exact .pure v

/-- Reading a truth value does no more than read a register. -/
theorem boolRegister_reads (r : Reg) : ReadsRegisters (boolRegister r) := by
  refine (register_reads r).bind fun v => ?_
  cases v.bool? with
  | some b => exact .pure b
  | none => exact .raise _

/-- Reading an integer does no more than read a register. -/
theorem intRegister_reads (r : Reg) : ReadsRegisters (intRegister r) := by
  refine (register_reads r).bind fun v => ?_
  cases v.int? with
  | some i => exact .pure i
  | none => exact .raise _

/-- Asking for a length does no more than read a register. -/
theorem lengthOf_reads (r : Reg) : ReadsRegisters (lengthOf r) := by
  refine (register_reads r).bind fun v => ?_
  cases v.length? with
  | some n => exact .pure n
  | none => exact .raise _

/-- The condition of a jump is looked up in the registers. -/
theorem isTaken_reads (cond : Condition) : ReadsRegisters (isTaken cond) := by
  cases cond with
  | always => exact .pure true
  | ifTrue r => exact boolRegister_reads r
  | ifFalse r => exact (boolRegister_reads r).bind fun b => .pure !b
  | ifDone index container =>
    exact (intRegister_reads index).bind fun i => (lengthOf_reads container).bind fun n => .pure _

/-! ### Jumping -/

variable {host : Embedder} {fuel pc next : Nat} {program : Program} {f : Frame} {rest : List Frame}

/-- A distance that fits an offset leads from where it was taken to its target. -/
theorem jumpOffset_toInt {base target : Nat} (hlow : -32768 ≤ (target : Int) - base)
    (hhigh : (target : Int) - base ≤ 32767) :
    (base : Int) + (jumpOffset base target).toInt = target := by
  rw [jumpOffset, Int16.toInt_ofInt_of_le (by omega) (by omega)]
  omega

/-- A jump whose distance fits sixteen bits leads from behind its instruction to its target. -/
theorem jump_lands {target : Nat} (hframes : m.stack.frames = f :: rest)
    (hlow : -32768 ≤ (target : Int) - next) (hhigh : (target : Int) - next ≤ 32767) :
    jump next (jumpOffset next target) m = (.ok (), m.advanced f rest target) := by
  have hoffset := jumpOffset_toInt hlow hhigh
  rw [jump, hoffset, if_neg (by omega), modifyActive_apply _ hframes]
  rfl

/-- A round of the loop that takes a jump. -/
theorem execute_jump {cond : Condition} {target : Nat} (hcancelled : m.stack.cancelled = false)
    (hframes : m.stack.frames = f :: rest)
    (hi : program.instructionAt f.pc.offset = .ok (.jump cond (jumpOffset next target), next))
    (htaken : (isTaken cond m).1 = .ok true) (hlow : -32768 ≤ (target : Int) - next)
    (hhigh : (target : Int) - next ≤ 32767) :
    execute host (fuel + 1) program m = execute host fuel program (m.advanced f rest target) := by
  have hframes' : (m.advanced f rest next).stack.frames =
      { f with pc := { f.pc with offset := next } } :: rest := rfl
  -- the condition is looked at when the pc is behind the jump already, with the same registers
  have hcond : isTaken cond (m.advanced f rest next) = (.ok true, m.advanced f rest next) := by
    obtain ⟨g, hg⟩ := isTaken_reads cond
    rw [hg hframes] at htaken
    rw [hg hframes']
    exact congrArg (·, _) htaken
  have hjump : jump next (jumpOffset next target) (m.advanced f rest next) =
      (.ok (), m.advanced f rest target) := by
    rw [jump_lands hframes' hlow hhigh]
    rfl
  have hperform : perform host (runWith (execute host fuel)) program next
      (.jump cond (jumpOffset next target)) (m.advanced f rest next) =
      (.ok (), m.advanced f rest target) := by
    rw [perform, Failing.bind_apply, hcond]
    dsimp only
    rw [if_pos rfl, hjump]
  rw [execute_succ host fuel program hcancelled hframes, hi]
  dsimp only
  change continued host fuel program rest.length f.pc.offset next
    ((perform host (runWith (execute host fuel)) program next (.jump cond (jumpOffset next target)) >>=
      fun _ => pure .next) (m.advanced f rest next)) = _
  rw [Failing.bind_apply, hperform]
  rfl

/-- **Jumps land where they were bound.** For all calls of an assembler, with labels that overlap in
    any way: binding a label changes only the two offset bytes of a jump that waits for it. And a jump
    is meant to go to the position where its label is bound, or to the target it is given; if this was
    a position of the assembler, an instruction of the finished code starts there or the code ends.
    When the distance from the end of the jump fits sixteen bits, then every machine that comes to the
    jump and finds its condition true goes on with the pc of its frame at exactly this position. -/
theorem jumps_land (calls : List Call) :
    (∀ before label rest, calls = before ++ .bind label :: rest →
      ((after before).bind label).code.size = (after before).code.size ∧
      ∀ k, ((after before).bind label).code[k]? ≠ (after before).code[k]? →
        ∃ base, LeavesOpen before label base ∧ base ≤ k + 2 ∧ k < base) ∧
    ∀ before c rest cond target, calls = before ++ c :: rest →
      goesTo before rest c = some (cond, target) →
      (TargetSeen before c → IsBoundary (assemble calls) target) ∧
      (-32768 ≤ (target : Int) - (after (before ++ [c])).position →
        (target : Int) - (after (before ++ [c])).position ≤ 32767 →
        ∀ (host : Embedder) (fuel : Nat) (program : Program) (m : Machine) (f : Frame)
          (frames : List Frame), program.code = assemble calls → m.stack.cancelled = false →
          m.stack.frames = f :: frames → f.pc.offset = (after before).position →
          (isTaken cond m).1 = .ok true →
          execute host (fuel + 1) program m =
            execute host fuel program (m.advanced f frames target)) := by
  constructor
  · rintro before label rest -
    exact ⟨(code_bind _ label).symm ▸ size_patchAll _ _ _, fun k => getElem?_bind⟩
  · rintro before c rest cond target rfl hgoes
    refine ⟨isBoundary_of_goesTo hgoes, ?_⟩
    intro hlow hhigh host fuel program m f frames hcode hcancelled hframes hpc htaken
    have hi : program.instructionAt f.pc.offset =
        .ok (.jump cond (jumpOffset (after (before ++ [c])).position target),
          (after (before ++ [c])).position) := by
      rw [Program.instructionAt, hcode, hpc]
      exact decodeAt_call (instruction?_of_goesTo hgoes)
    exact execute_jump hcancelled hframes hi htaken hlow hhigh

end Machine

end BlockMachine

import BlockMachine.Proofs.Bytecode.Assembly
import Mathlib.Data.List.Induction

namespace BlockMachine

/-!
# Labels of assembled code

What jumps have to do with the positions at which labels were bound and offsets were marked.

* `LeavesOpen` says which jumps wait for a label after some calls;
* `getElem?_bind`: binding a label changes two bytes of such a jump;
* `IsBoundary` says that an instruction starts at an offset, or that the code ends there; every position
  of the assembler is such an offset (`isBoundary_position`);
* `decodeAt_call`: in the finished code each instruction stands where its call was made.
-/

/-- An instruction of the code starts at this offset, or the code ends there. -/
def IsBoundary (code : Code) (pc : Nat) : Prop :=
  pc = code.size ∨ ∃ i, (⟨pc, .ok i⟩ : DecodedItem) ∈ (decodeAll code).items

namespace Assembler

/-- The assembler after some calls. -/
def after (calls : List Call) : Assembler :=
  calls.foldl apply {}

theorem after_append (calls more : List Call) :
    after (calls ++ more) = more.foldl apply (after calls) :=
  List.foldl_append

theorem after_concat (calls : List Call) (c : Call) : after (calls ++ [c]) = (after calls).apply c :=
  after_append calls [c]

/-! ### Positions -/

/-- The calls that follow some others are listed behind these, at the position that these reached. -/
theorem listing_append (a : Assembler) (before rest : List Call) :
    ∃ front, listing a (before ++ rest) = front ++ listing (before.foldl apply a) rest ∧
      (before.foldl apply a).position =
        a.position + ((front.map (·.2)).flatMap Instruction.encode).length := by
  induction before generalizing a with
  | nil => exact ⟨[], rfl, rfl⟩
  | cons c before ih =>
    obtain ⟨front, hfront, hpos⟩ := ih (a.apply c)
    refine ⟨((instruction? a (before ++ rest) c).map fun i => (a.position, i)).toList ++ front, ?_, ?_⟩
    · simp [listing, hfront]
    · have hcall := a.position_apply (before ++ rest) c
      cases hi : instruction? a (before ++ rest) c with
      | none =>
        simp only [hi] at hcall
        simpa [hcall] using hpos
      | some i =>
        simp only [hi, Option.toList_some, List.flatMap_singleton] at hcall
        rw [hcall] at hpos
        simpa [Nat.add_assoc] using hpos

/-- **What a call emits stands in the finished code** where the assembler was when the call was made. -/
theorem decodeAt_call {before rest : List Call} {c : Call} {i : Instruction}
    (hi : instruction? (after before) rest c = some i) :
    decodeAt (assemble (before ++ c :: rest)) (after before).position =
      .ok (i, (after (before ++ [c])).position) := by
  have hempty : Holds {} [] := ⟨rfl, rfl, by simp [JumpsWait]⟩
  have hcode := code_foldl_apply (before ++ c :: rest) hempty
  obtain ⟨front, hfront, hpos⟩ := listing_append {} before (c :: rest)
  change (after before).position = _ at hpos
  have hlisted : listing (before.foldl apply {}) (c :: rest) =
      ((after before).position, i) :: listing ((after before).apply c) rest := by
    change listing (after before) (c :: rest) = _
    simp [listing, hi]
  have hsplit : (assemble (before ++ c :: rest)).toList =
      (front.map (·.2)).flatMap Instruction.encode ++ (i.encode ++
        ((listing ((after before).apply c) rest).map (·.2)).flatMap Instruction.encode) := by
    rw [hfront, hlisted] at hcode
    simpa only [assemble, settleAll, List.nil_append, List.map_append, List.map_cons, List.flatMap_append,
      List.flatMap_cons] using hcode
  have hstands : BytesAt (assemble (before ++ c :: rest)) (after before).position i.encode := by
    rw [hpos, show Assembler.position {} = 0 from rfl, Nat.zero_add]
    exact bytesAt_of_toList hsplit
  have hnext := (after before).position_apply rest c
  rw [hi] at hnext
  rw [decodeAt_encode hstands, after_concat, hnext]
  simp

/-- The next instruction is emitted where the assembler is now, or nothing more is emitted. -/
theorem position_listed (a : Assembler) (rest : List Call) :
    a.position = (rest.foldl apply a).position ∨ ∃ i, (a.position, i) ∈ listing a rest := by
  induction rest generalizing a with
  | nil => exact .inl rfl
  | cons c rest ih =>
    cases hi : instruction? a rest c with
    | some i => exact .inr ⟨i, by simp [listing, hi]⟩
    | none =>
      -- a call that emits nothing does not move the assembler
      have hpos : (a.apply c).position = a.position := by
        have := a.position_apply rest c
        simpa [hi] using this
      have hrest := ih (a.apply c)
      rw [hpos] at hrest
      simpa [listing, hi] using hrest

/-- Every position that the assembler was at is the start of an instruction or the end of the code. -/
theorem isBoundary_position (before rest : List Call) :
    IsBoundary (assemble (before ++ rest)) (after before).position := by
  rcases position_listed (after before) rest with hend | ⟨i, hi⟩
  · left
    rw [hend, ← after_append]
    rfl
  · right
    obtain ⟨front, hfront, -⟩ := listing_append {} before rest
    refine ⟨i, ?_⟩
    rw [decodeAll_assemble, hfront]
    simp only [List.mem_toArray, List.mem_map, List.mem_append]
    exact ⟨_, .inr hi, rfl⟩

/-- A label is bound at a position of the assembler. -/
theorem boundAt_some {label : String} {a : Assembler} {rest : List Call} {target : Nat}
    (h : boundAt label a rest = some target) :
    ∃ front back, rest = front ++ .bind label :: back ∧ target = (front.foldl apply a).position := by
  induction rest generalizing a with
  | nil => exact nomatch h
  | cons c rest ih =>
    by_cases hc : c = .bind label
    · subst hc
      simp only [boundAt, if_true, Option.some.injEq] at h
      exact ⟨[], rest, rfl, h.symm⟩
    · have hlater : boundAt label (a.apply c) rest = some target := by
        cases c with
        | bind l =>
          have hl : l ≠ label := fun e => hc (by rw [e])
          simpa [boundAt, hl] using h
        | _ => exact h
      obtain ⟨front, back, rfl, hfront⟩ := ih hlater
      exact ⟨c :: front, back, rfl, hfront⟩

/-- A mark names a position that the assembler was at. -/
theorem marks_after (calls : List Call) : ∀ e ∈ (after calls).marks,
    ∃ front back, calls = front ++ back ∧ e.2 = (after front).position := by
  induction calls using List.reverseRecOn with
  | nil => simp [after]
  | append_singleton calls c ih =>
    have hold : ∀ e ∈ (after calls).marks,
        ∃ front back, calls ++ [c] = front ++ back ∧ e.2 = (after front).position := by
      intro e he
      obtain ⟨front, back, rfl, hpos⟩ := ih e he
      exact ⟨front, back ++ [c], by simp, hpos⟩
    rw [after_concat]
    cases c with
    | mark name =>
      intro e he
      rcases List.mem_cons.1 he with rfl | he
      · exact ⟨calls, [.mark name], rfl, rfl⟩
      · exact hold e he
    | _ => exact hold

/-! ### Jumps that wait -/

/-- Some calls leave a jump open that ends at `base` and waits for `label`: none of them binds the
    label after it. -/
def LeavesOpen (calls : List Call) (label : String) (base : Nat) : Prop :=
  ∃ front cond back, calls = front ++ .jump cond label :: back ∧ .bind label ∉ back ∧
    base = (after (front ++ [.jump cond label])).position

theorem LeavesOpen.concat {calls : List Call} {label : String} {base : Nat}
    (h : LeavesOpen calls label base) {c : Call} (hc : c ≠ .bind label) :
    LeavesOpen (calls ++ [c]) label base := by
  obtain ⟨front, cond, back, rfl, hback, hbase⟩ := h
  refine ⟨front, cond, back ++ [c], by simp, ?_, hbase⟩
  simp [hback, hc.symm]

/-- An assembler keeps the jumps that are open. -/
theorem leavesOpen_of_pending (calls : List Call) :
    ∀ e ∈ (after calls).pending, LeavesOpen calls e.1 e.2 := by
  induction calls using List.reverseRecOn with
  | nil => simp [after]
  | append_singleton calls c ih =>
    rw [after_concat]
    cases c with
    | jump cond label =>
      intro e he
      rcases List.mem_cons.1 he with rfl | he
      · exact ⟨calls, cond, [], rfl, List.not_mem_nil, by rw [after_concat]; rfl⟩
      · exact (ih e he).concat (by simp)
    | bind label =>
      intro e he
      obtain ⟨he, hne⟩ : e ∈ (after calls).pending ∧ e.1 ≠ label := by
        simpa [apply, bind, List.partition_eq_filter_filter] using he
      exact (ih e he).concat (by simpa using hne.symm)
    | _ => exact fun e he => (ih e he).concat (by simp)

theorem getElem?_patchAll {target k : Nat} {code : Code} {jumps : List (String × Nat)}
    (h : ∀ e ∈ jumps, k ≠ e.2 - 2 ∧ k ≠ e.2 - 1) : (patchAll target code jumps)[k]? = code[k]? := by
  induction jumps generalizing code with
  | nil => rfl
  | cons e jumps ih =>
    obtain ⟨⟨htwo, hone⟩, hrest⟩ := List.forall_mem_cons.1 h
    have hpatch : (patch code e.2 (jumpOffset e.2 target))[k]? = code[k]? := by
      rw [patch, Array.getElem?_setIfInBounds_ne hone.symm, Array.getElem?_setIfInBounds_ne htwo.symm]
    exact (ih hrest).trans hpatch

theorem code_bind (a : Assembler) (label : String) :
    (a.bind label).code = patchAll a.position a.code (a.pending.filter (·.1 == label)) := by
  simp [bind, List.partition_eq_filter_filter, patchAll]

/-- **Binding a label changes no byte but the last two of a jump that waits for it.** -/
theorem getElem?_bind {calls : List Call} {label : String} {k : Nat}
    (h : ((after calls).bind label).code[k]? ≠ (after calls).code[k]?) :
    ∃ base, LeavesOpen calls label base ∧ base ≤ k + 2 ∧ k < base := by
  -- otherwise no jump that is patched ends one or two bytes behind
  by_contra hnone
  refine h ?_
  rw [code_bind]
  refine getElem?_patchAll fun e he => ?_
  have hopen : LeavesOpen calls label e.2 := by
    obtain ⟨he, hlabel⟩ := List.mem_filter.1 he
    exact (by simpa using hlabel : e.1 = label) ▸ leavesOpen_of_pending calls e he
  have hlong : 2 ≤ e.2 := by
    obtain ⟨front, cond, back, -, -, hbase⟩ := hopen
    have hpos := position_emit (after front) (.jump cond 0)
    rw [encode_jump, List.length_append] at hpos
    rw [hbase, after_concat]
    change 2 ≤ ((after front).emit (.jump cond 0)).position
    simp only [wordBytes, List.length_cons, List.length_nil] at hpos
    omega
  have : ¬(e.2 ≤ k + 2 ∧ k < e.2) := fun hnear => hnone ⟨e.2, hopen, hnear⟩
  omega

end Assembler

end BlockMachine

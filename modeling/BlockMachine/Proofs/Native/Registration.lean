import BlockMachine.Machine.Step
import BlockMachine.Proofs.Failing
import Mathlib.Data.List.Induction

namespace BlockMachine

/-!
# Registering natives

Bytecode holds bare indices of natives, which outlive any number of later registrations. However natives
are registered and patched, and however many registrations find no room, an index goes on meaning the name
that it was given to, and leads to the native that the name got last.

* `NativeCall` is one of the two calls, `NativeTable.afterAll` the table after many of them;
* `NativeTable.latest?` is the native that a name got last, going by the calls alone;
* `NativeTable.Effect` says what a call does, `NativeTable.Agrees` is the invariant;
* `NativeTable.Lasting` and `NativeTable.afterAll_lasting` are what holds after any calls.
-/

/-- A call that gives a native to a name. -/
inductive NativeCall where
  | register (name : String) (f : Native)
  | patch (name : String) (f : Native)

namespace NativeCall

/-- The name that gets a native. -/
def name : NativeCall → String
  | register name _ => name
  | patch name _ => name

/-- The native that the name gets. -/
def native : NativeCall → Native
  | register _ f => f
  | patch _ f => f

end NativeCall

namespace NativeTable

variable {t t' : NativeTable} {c : NativeCall}

/-! ### Calls -/

/-- The index that a call answers if it succeeds. -/
def answer (t : NativeTable) : NativeCall → Option UInt16
  | .register name f => (t.register name f).1.toOption
  | .patch name f => (t.patch name f).1

/-- The table after a call, whether the call succeeds or fails. -/
def after (t : NativeTable) : NativeCall → NativeTable
  | .register name f => (t.register name f).2
  | .patch name f => (t.patch name f).2

/-- The table after calls, one after the other. -/
def afterAll (t : NativeTable) (calls : List NativeCall) : NativeTable :=
  calls.foldl after t

/-- The calls that succeed. -/
def successes (t : NativeTable) : List NativeCall → List NativeCall
  | [] => []
  | c :: rest => if (t.answer c).isSome then c :: successes (t.after c) rest else successes (t.after c) rest

/-- The native of the last call for a name that succeeds, out of calls on an empty table. -/
def latest? (calls : List NativeCall) (name : String) : Option Native :=
  (((successes {} calls).filter (·.name = name)).getLast?).map (·.native)

/-- Calls are made one list after the other. -/
theorem afterAll_append (t : NativeTable) (calls later : List NativeCall) :
    t.afterAll (calls ++ later) = (t.afterAll calls).afterAll later :=
  List.foldl_append

/-- A further call counts if it found room. -/
theorem successes_concat (t : NativeTable) (calls : List NativeCall) (c : NativeCall) :
    t.successes (calls ++ [c]) =
      t.successes calls ++ if ((t.afterAll calls).answer c).isSome then [c] else [] := by
  induction calls generalizing t with
  | nil => rfl
  | cons d rest ih =>
    rw [List.cons_append, successes, successes, ih]
    split <;> rfl

/-- A call that fails is not the last one for any name. -/
theorem latest?_concat_of_failed {calls : List NativeCall} (h : (afterAll {} calls).answer c = none)
    (name : String) : latest? (calls ++ [c]) name = latest? calls name := by
  rw [latest?, successes_concat, h, latest?]
  simp

/-- A call that found room gives its native to its name. -/
theorem latest?_concat_of_succeeded {calls : List NativeCall} {i : UInt16}
    (h : (afterAll {} calls).answer c = some i) (name : String) :
    latest? (calls ++ [c]) name = if c.name = name then some c.native else latest? calls name := by
  rw [latest?, successes_concat, h, latest?]
  by_cases hname : c.name = name <;> simp [List.filter_append, hname]

/-- What a call answers and leaves: the entry of a known name changes, a new name gets the next index, or the
    call finds no room or no name and does nothing. -/
inductive Effect (t : NativeTable) (c : NativeCall) : Option UInt16 → NativeTable → Prop where
  | changed {i : UInt16} (known : t.indexOf? c.name = some i) :
    Effect t c (some i) { t with entries := t.entries.setIfInBounds i.toNat (c.name, c.native) }
  | added (unknown : t.indexOf? c.name = none) (room : t.size < 65536) :
    Effect t c (some (UInt16.ofNat t.size))
      ⟨t.entries.push (c.name, c.native), t.indices.insert c.name (UInt16.ofNat t.size)⟩
  | refused (unknown : t.indexOf? c.name = none) : Effect t c none t

/-- **What a call does** to a table in order. -/
theorem effect (t : NativeTable) (c : NativeCall) : t.Effect c (t.answer c) (t.after c) := by
  cases c with
  | register name f =>
    rw [answer, after, register]
    cases hi : t.indexOf? name with
    | some i => exact .changed hi
    | none =>
      dsimp only
      split
      next hroom => exact .added hi hroom
      next => exact .refused hi
  | patch name f =>
    rw [answer, after, patch]
    cases hi : t.indexOf? name with
    | some i => exact .changed hi
    | none => exact .refused hi

/-! ### Names and indices -/

/-- Exchanging an entry moves no name. -/
theorem indexOf?_of_set (entries : Array (String × Native)) (name : String) :
    indexOf? { t with entries := entries } name = t.indexOf? name :=
  rfl

/-- An index that is set has the new entry, and the others have theirs. -/
theorem get?_of_set {i : UInt16} {old : String × Native} (h : t.get? i = some old) (entry : String × Native)
    (j : UInt16) : get? { t with entries := t.entries.setIfInBounds i.toNat entry } j =
      if i = j then some entry else t.get? j := by
  obtain ⟨hlt, -⟩ := Array.getElem?_eq_some_iff.1 h
  rw [get?, get?]
  split
  next heq => rw [← heq, Array.getElem?_setIfInBounds_self_of_lt hlt]
  next hne => rw [Array.getElem?_setIfInBounds_ne fun h => hne (UInt16.toNat_inj.1 h)]

/-- As long as there is room, the next index is the number of entries. -/
theorem toNat_next (room : t.size < 65536) : (UInt16.ofNat t.size).toNat = t.entries.size :=
  UInt16.toNat_ofNat_of_lt' room

/-- The next index is not in use. -/
theorem get?_next (room : t.size < 65536) : t.get? (UInt16.ofNat t.size) = none :=
  Array.getElem?_eq_none (Nat.le_of_eq (toNat_next room).symm)

/-- An entry that is added has the next index, and the others have theirs. -/
theorem get?_of_push (room : t.size < 65536) (entry : String × Native) (indices : Std.HashMap String UInt16)
    (j : UInt16) : get? ⟨t.entries.push entry, indices⟩ j =
      if UInt16.ofNat t.size = j then some entry else t.get? j := by
  have hindex : j.toNat = t.entries.size ↔ UInt16.ofNat t.size = j := by
    rw [← toNat_next room, UInt16.toNat_inj, eq_comm]
  rw [get?, get?, Array.getElem?_push]
  simp only [hindex]

/-- A name that is given an index has it, and the others have theirs. -/
theorem indexOf?_of_insert (entries : Array (String × Native)) (name other : String) (i : UInt16) :
    indexOf? ⟨entries, t.indices.insert name i⟩ other =
      if name = other then some i else t.indexOf? other := by
  rw [indexOf?, indexOf?, Std.HashMap.getElem?_insert]
  simp only [beq_iff_eq]

/-- The index of a name is the place of its entry, and no entry is beyond the indices. -/
structure Agrees (t : NativeTable) : Prop where
  size_le : t.size ≤ 65536
  inverse : ∀ name i, t.indexOf? name = some i ↔ ∃ f, t.get? i = some (name, f)

namespace Agrees

/-- An empty table is in order. -/
theorem empty : Agrees {} :=
  ⟨Nat.zero_le _, by simp [indexOf?, get?]⟩

/-- A call keeps it in order. -/
theorem after (h : t.Agrees) (c : NativeCall) : (t.after c).Agrees := by
  have heffect := t.effect c
  generalize t.answer c = answer, t.after c = t' at heffect
  cases heffect with
  | refused => exact h
  | @changed i known =>
    obtain ⟨f, hf⟩ := (h.inverse c.name i).1 known
    refine ⟨?_, fun name j => ?_⟩
    · rw [size, Array.size_setIfInBounds]
      exact h.size_le
    · refine (h.inverse name j).trans ?_
      rw [get?_of_set hf]
      split
      next heq => rw [← heq, hf]; simp
      next => exact Iff.rfl
  | added unknown room =>
    refine ⟨?_, fun name j => ?_⟩
    · rw [size, Array.size_push]
      exact room
    · rw [get?_of_push room, indexOf?_of_insert]
      have hnew := (h.inverse name (UInt16.ofNat t.size)).not.2
      by_cases hj : UInt16.ofNat t.size = j <;> by_cases hname : c.name = name
      · simp [hj, hname]
      · -- no name has the new index
        subst hj
        simpa [hname, get?_next room] using hnew
      · -- the new name has no entry
        subst hname
        have hnone := (h.inverse c.name j).not.1 (by rw [unknown]; nofun)
        simpa [hj] using hnone
      · simpa [hj, hname] using h.inverse name j

/-- Many calls keep a table in order. -/
theorem afterAll (h : t.Agrees) (calls : List NativeCall) : (t.afterAll calls).Agrees := by
  induction calls generalizing t with
  | nil => exact h
  | cons c rest ih => exact ih (h.after c)

end Agrees

/-- A name keeps its index. -/
theorem indexOf?_after {name : String} {i : UInt16} (h : t.indexOf? name = some i) (c : NativeCall) :
    (t.after c).indexOf? name = some i := by
  have heffect := t.effect c
  generalize t.answer c = answer, t.after c = t' at heffect
  cases heffect with
  | refused | changed => exact h
  | added unknown =>
    have hname : c.name ≠ name := by
      rintro rfl
      exact nomatch unknown.symm.trans h
    rw [indexOf?_of_insert, if_neg hname]
    exact h

/-- **A name keeps its index** whatever is registered later. -/
theorem indexOf?_afterAll {name : String} {i : UInt16} (h : t.indexOf? name = some i)
    (calls : List NativeCall) : (t.afterAll calls).indexOf? name = some i := by
  induction calls generalizing t with
  | nil => exact h
  | cons c rest ih => exact ih (indexOf?_after h c)

/-- An index that was answered is the one of the name. -/
theorem indexOf?_of_answer {i : UInt16} (h : t.answer c = some i) : (t.after c).indexOf? c.name = some i := by
  have heffect := t.effect c
  rw [h] at heffect
  generalize t.after c = t' at heffect
  cases heffect with
  | changed known => exact known
  | added => rw [indexOf?_of_insert, if_pos rfl]

/-- A call that fails changes nothing. -/
theorem after_of_failed (h : t.answer c = none) : t.after c = t := by
  have heffect := t.effect c
  rw [h] at heffect
  generalize t.after c = t' at heffect
  cases heffect
  rfl

/-! ### What a name stands for -/

/-- The entry that the index of a name leads to. -/
def entryOf? (t : NativeTable) (name : String) : Option (String × Native) :=
  (t.indexOf? name).bind t.get?

/-- A call that succeeds changes the entry of its name, and of no other name. -/
theorem Agrees.entryOf?_after (h : t.Agrees) {i : UInt16} (hanswer : t.answer c = some i) (name : String) :
    (t.after c).entryOf? name = if c.name = name then some (c.name, c.native) else t.entryOf? name := by
  have heffect := t.effect c
  rw [hanswer] at heffect
  generalize t.after c = t' at heffect
  cases heffect with
  | changed known =>
    obtain ⟨f, hf⟩ := (h.inverse c.name i).1 known
    rw [entryOf?, entryOf?, indexOf?_of_set]
    cases hj : t.indexOf? name with
    | none =>
      have hname : c.name ≠ name := by
        rintro rfl
        exact nomatch known.symm.trans hj
      rw [if_neg hname]
      rfl
    | some j =>
      -- two names with one index have one entry
      have hsame : i = j ↔ c.name = name := by
        refine ⟨fun heq => ?_, fun heq => Option.some.inj (known.symm.trans (heq ▸ hj))⟩
        obtain ⟨g, hg⟩ := (h.inverse name j).1 hj
        exact congrArg Prod.fst (Option.some.inj (hf.symm.trans (heq ▸ hg)))
      simp only [Option.bind_some, get?_of_set hf, hsame]
  | added unknown room =>
    rw [entryOf?, entryOf?, indexOf?_of_insert]
    split
    · rw [Option.bind_some, get?_of_push room, if_pos rfl]
    · cases hj : t.indexOf? name with
      | none => rfl
      | some j =>
        -- the new index is not one that a name had
        have hne : UInt16.ofNat t.size ≠ j := by
          rintro rfl
          obtain ⟨g, hg⟩ := (h.inverse name _).1 hj
          exact nomatch (get?_next room).symm.trans hg
        rw [Option.bind_some, Option.bind_some, get?_of_push room, if_neg hne]

/-- **A name stands for the native that it got last.** -/
theorem entryOf?_afterAll (calls : List NativeCall) (name : String) :
    (afterAll {} calls).entryOf? name = (latest? calls name).map (name, ·) := by
  induction calls using List.reverseRecOn with
  | nil => simp [afterAll, entryOf?, indexOf?, latest?, successes]
  | append_singleton calls c ih =>
    rw [afterAll_append, afterAll, List.foldl_cons, List.foldl_nil]
    cases hanswer : (afterAll {} calls).answer c with
    | none => rw [after_of_failed hanswer, latest?_concat_of_failed hanswer, ih]
    | some i =>
      rw [(Agrees.empty.afterAll calls).entryOf?_after hanswer, latest?_concat_of_succeeded hanswer]
      split
      next hname => rw [hname, Option.map_some]
      next => exact ih

/-- The entry at the index of a name is what the name got last. -/
theorem exists_latest {calls : List NativeCall} {name : String} {i : UInt16}
    (h : (afterAll {} calls).indexOf? name = some i) :
    ∃ f, latest? calls name = some f ∧ (afterAll {} calls).get? i = some (name, f) := by
  obtain ⟨f, hf⟩ := ((Agrees.empty.afterAll calls).inverse name i).1 h
  have hentry := entryOf?_afterAll calls name
  rw [entryOf?, h, Option.bind_some, hf] at hentry
  obtain ⟨g, hg, heq⟩ := Option.map_eq_some_iff.1 hentry.symm
  obtain rfl := congrArg Prod.snd heq
  exact ⟨g, hg, hf⟩

/-- A name that got a native has an index. -/
theorem exists_index {calls : List NativeCall} {name : String} {f : Native} (h : latest? calls name = some f) :
    ∃ i, (afterAll {} calls).indexOf? name = some i := by
  have hentry := entryOf?_afterAll calls name
  rw [h, Option.map_some, entryOf?, Option.bind_eq_some_iff] at hentry
  exact hentry.imp fun _ h => h.1

/-- A registration fails just if the name is new and all indices are given out. -/
theorem Agrees.register_eq_error_iff (h : t.Agrees) (name : String) (f : Native) (e : CompileError) :
    (t.register name f).1 = .error e ↔
      e = .poolOverflow name .native ∧ t.indexOf? name = none ∧ t.size = 65536 := by
  have hsize := h.size_le
  rw [register]
  cases t.indexOf? name with
  | some i => simp
  | none =>
    dsimp only
    split
    · simp
      omega
    · have hfull : t.size = 65536 := by omega
      simp [hfull, eq_comm]

/-! ### Calls of natives -/

/-- Runs a native. One that fails by recording an error and returning ends the run as well; otherwise the
    run goes on with whatever frame is active then. -/
def calling (host : Embedder) (resume : Machine.Action Outcome) (f : Native) : Machine.Action Flow := do
  Machine.invoke host resume f
  match (← Machine.getStack).error with
  | some e => Machine.raise e.error
  | none => return .reload

/-- The instruction with the index of a name calls the native of the name. -/
theorem step_native {m : Machine} {i : UInt16} {name : String} {f : Native}
    (h : m.world.natives.get? i = some (name, f)) (host : Embedder) (resume : Machine.Action Outcome)
    (program : Program) (next : Nat) :
    Machine.step host resume program next (.native i) m = calling host resume f m := by
  rw [Machine.step.eq_3 _ _ _ _ _ (by simp) (by simp), calling, Failing.bind_apply, Failing.bind_apply,
    Machine.perform, Machine.callNative, Failing.bind_apply, Failing.get_apply]
  dsimp only
  rw [h]
  dsimp only
  rw [Failing.bind_apply]
  rcases Machine.invoke host resume f m with ⟨_ | _, m'⟩
  · rfl
  · simp only [Machine.getStack, Failing.bind_apply, Failing.get_apply, Failing.pure_apply]
    cases m'.stack.error <;> rfl

/-- What holds of the table after calls on an empty one, and of all tables that later calls make of it. -/
structure Lasting (calls : List NativeCall) : Prop where
  /-- The index of a name is the place of its entry. -/
  inverse : ∀ name i, (afterAll {} calls).indexOf? name = some i ↔
    ∃ f, (afterAll {} calls).get? i = some (name, f)
  /-- An index that a call answers is the one of its name. -/
  answered : ∀ c i, (afterAll {} calls).answer c = some i →
    ((afterAll {} calls).after c).indexOf? c.name = some i
  /-- A name keeps its index for good. -/
  stable : ∀ name i, (afterAll {} calls).indexOf? name = some i →
    ∀ later, (afterAll {} (calls ++ later)).indexOf? name = some i
  /-- The index of a name leads to the native that the name got last; a name that got none has no index. -/
  latest : ∀ name, ((afterAll {} calls).indexOf? name).bind (afterAll {} calls).get? =
    (latest? calls name).map (name, ·)
  /-- A registration fails just if the name is new and all indices are given out. -/
  full : ∀ name f e, ((afterAll {} calls).register name f).1 = .error e ↔
    e = .poolOverflow name .native ∧ (afterAll {} calls).indexOf? name = none ∧
      (afterAll {} calls).size = 65536
  /-- A call that fails changes nothing. -/
  failed : ∀ c, (afterAll {} calls).answer c = none → (afterAll {} calls).after c = afterAll {} calls
  /-- A call of a native is lowered just if its name has got one. -/
  unknown : ∀ ctx name d, ctx.natives = afterAll {} calls → latest? calls name = none →
    Draft.apply ctx (.native name) d = .error (.unknownNative name)
  /-- Whenever it is executed, the instruction that a call was lowered to calls the native that the name
      has got last by then. -/
  lowered : ∀ ctx name d, ctx.natives = afterAll {} calls → latest? calls name ≠ none →
    ∃ i, Draft.apply ctx (.native name) d =
        .ok ((), { d with assembler := d.assembler.emit (.native i) }) ∧
      ∀ later (m : Machine), m.world.natives = afterAll {} (calls ++ later) →
        ∃ f, latest? (calls ++ later) name = some f ∧ ∀ host resume program next,
          Machine.step host resume program next (.native i) m = calling host resume f m

/-- **Indices of natives last.** However natives were registered and patched, and whatever calls failed,
    names and indices agree, a name keeps its index, and what was lowered with it calls the native that the
    name got last. -/
theorem afterAll_lasting (calls : List NativeCall) : Lasting calls where
  inverse := (Agrees.empty.afterAll calls).inverse
  answered _ _ := indexOf?_of_answer
  stable name i h later := by
    rw [afterAll_append]
    exact indexOf?_afterAll h later
  latest := entryOf?_afterAll calls
  full := (Agrees.empty.afterAll calls).register_eq_error_iff
  failed _ := after_of_failed
  unknown ctx name d hctx hnone := by
    rw [Draft.apply, hctx]
    cases hi : (afterAll {} calls).indexOf? name with
    | none => rfl
    | some i =>
      obtain ⟨f, hf, -⟩ := exists_latest hi
      exact nomatch hnone.symm.trans hf
  lowered ctx name d hctx hsome := by
    obtain ⟨f, hf⟩ := Option.ne_none_iff_exists'.1 hsome
    obtain ⟨i, hi⟩ := exists_index hf
    refine ⟨i, ?_, fun later m hm => ?_⟩
    · rw [Draft.apply, hctx, hi]
      rfl
    · have hkept := indexOf?_afterAll hi later
      rw [← afterAll_append] at hkept
      obtain ⟨g, hg, hget⟩ := exists_latest hkept
      exact ⟨g, hg, step_native (hm ▸ hget)⟩

end NativeTable

end BlockMachine

import BlockMachine.State.Tree
import BlockMachine.Proofs.Value.Cast
import Mathlib.Data.List.Forall2

namespace BlockMachine

/-!
# Closures pointed at another block

Rebinding a value substitutes a block in its closures, and what has no closure over the old block stays
as it is, buffers included.

* `Value.substitute` is the substitution, `Value.Lacks` says that there is no closure over a block;
* `Value.at?` follows a path into a value;
* `Value.Rebound` relates a value to one in which closures were pointed at another block, and
  `Rebound.erase_eq`, `Rebound.lacks` and `Rebound.at?_eq` say what follows from it;
* `Value.rebind_rebound` and `Value.rebind_named` are about `Value.rebind`.
-/

namespace Value

/-! ### Substitution -/

mutual

/-- The value in which every closure over `old` is over `new`. -/
def substitute (old new : BlockId) : Value → Value
  | list id items => list id (substituteItems old new items)
  | map id entries => map id (substituteEntries old new entries)
  | record id type fields => record id type (substituteItems old new fields)
  | func id block bindings =>
    func id (if block = old then new else block) (substituteItems old new bindings)
  | v => v

/-- Substitution in the values of a list. -/
def substituteItems (old new : BlockId) : List Value → List Value
  | [] => []
  | v :: rest => substitute old new v :: substituteItems old new rest

/-- Substitution in the values of a map. -/
def substituteEntries (old new : BlockId) : List (Key × Value) → List (Key × Value)
  | [] => []
  | (k, v) :: rest => (k, substitute old new v) :: substituteEntries old new rest

end

/-- No closure over a block occurs in a value. -/
def Lacks (block : BlockId) (v : Value) : Prop :=
  v.All fun node => ∀ id bindings, node ≠ .func id block bindings

/-- The part of a value at the end of a path, which says at each step which part comes next. -/
def at? : Value → List Nat → Option Value
  | v, [] => some v
  | v, k :: path =>
    match v.parts[k]? with
    | some p => p.at? path
    | none => none

variable {old new : BlockId} {v v' : Value}

/-- Items are substituted one by one. -/
theorem substituteItems_eq (items : List Value) :
    substituteItems old new items = items.map (substitute old new) := by
  induction items with
  | nil => rfl
  | cons v rest ih => rw [substituteItems, ih, List.map_cons]

/-- Entries are substituted value by value. -/
theorem substituteEntries_eq (entries : List (Key × Value)) :
    substituteEntries old new entries = entries.map fun e => (e.1, e.2.substitute old new) := by
  induction entries with
  | nil => rfl
  | cons e rest ih => rw [substituteEntries, ih, List.map_cons]

/-- Items refer to a block if one of them does. -/
theorem anyRefersTo_eq (block : BlockId) (vs : List Value) :
    anyRefersTo block vs = vs.any (refersTo block) := by
  induction vs with
  | nil => rfl
  | cons v rest ih => rw [anyRefersTo, ih, List.any_cons]

/-- Entries refer to a block if one of their values does. -/
theorem entryRefersTo_eq (block : BlockId) (entries : List (Key × Value)) :
    entryRefersTo block entries = anyRefersTo block (entries.map (·.2)) := by
  induction entries with
  | nil => rfl
  | cons e rest ih => rw [entryRefersTo, ih, List.map_cons, anyRefersTo]

/-- A closure over a block occurs as the value itself or in one of its parts. -/
theorem refersTo_eq_false_iff {block : BlockId} : v.refersTo block = false ↔
    (∀ id bindings, v ≠ .func id block bindings) ∧ ∀ p ∈ v.parts, p.refersTo block = false := by
  cases v with
  | map id entries =>
    simp only [refersTo, parts, anyRefersTo_eq, entryRefersTo_eq, List.any_eq_false, Bool.not_eq_true]
    exact ⟨fun h => ⟨by simp, h⟩, fun h => h.2⟩
  | func id b bindings =>
    simp only [refersTo, parts, anyRefersTo_eq, Bool.or_eq_false_iff, beq_eq_false_iff_ne, List.any_eq_false,
      Bool.not_eq_true]
    refine and_congr_left fun _ => ⟨fun hne id' bindings' heq => ?_, fun h heq => ?_⟩
    · cases heq
      exact hne rfl
    · exact h id bindings (heq ▸ rfl)
  | _ => simp [refersTo, parts, anyRefersTo_eq]

/-- The test for closures over a block finds all of them. -/
theorem lacks_iff {block : BlockId} : v.Lacks block ↔ v.refersTo block = false := by
  induction v using induction_parts with
  | h v ih =>
    rw [refersTo_eq_false_iff]
    constructor
    · exact fun h => ⟨h.here, fun p hp => (ih p hp).1 (h.inside p hp)⟩
    · exact fun h => ⟨h.1, fun p hp => (ih p hp).2 (h.2 p hp)⟩

/-- Where there is no closure over the block, the substitution changes nothing. -/
theorem substitute_of_lacks (h : v.refersTo old = false) : v.substitute old new = v := by
  induction v using induction_parts with
  | h v ih =>
    obtain ⟨hself, hparts⟩ := refersTo_eq_false_iff.1 h
    have hsame : ∀ vs : List Value, (∀ p ∈ vs, p ∈ v.parts) → substituteItems old new vs = vs := by
      intro vs hvs
      rw [substituteItems_eq, List.map_congr_left fun p hp => ih p (hvs p hp) (hparts p (hvs p hp)), List.map_id']
    cases v with
    | list id items => rw [substitute, hsame items fun _ hp => hp]
    | map id entries =>
      have hentry : ∀ e ∈ entries, (e.1, e.2.substitute old new) = e := by
        intro e he
        have hpart : e.2 ∈ (map id entries).parts := List.mem_map.2 ⟨e, he, rfl⟩
        rw [ih e.2 hpart (hparts e.2 hpart)]
      rw [substitute, substituteEntries_eq, List.map_congr_left hentry, List.map_id']
    | record id type fields => rw [substitute, hsame fields fun _ hp => hp]
    | func id block bindings =>
      have hblock : block ≠ old := fun heq => hself id bindings (heq ▸ rfl)
      rw [substitute, hsame bindings fun _ hp => hp, if_neg hblock]
    | _ => rfl

/-! ### Values before and after -/

/-- Two containers or closures are alike but for their parts, and a closure over `old` is over `new`. -/
def SameShell (old new : BlockId) : Value → Value → Prop
  | list _ _, list _ _ => True
  | map _ entries, map _ entries' => entries'.map (·.1) = entries.map (·.1)
  | record _ type _, record _ type' _ => type' = type
  | func _ block _, func _ block' _ => block' = if block = old then new else block
  | _, _ => False

/-- Closures over `old` were pointed at `new`: a value without any is the same as before, and in another
    one this was done in all parts. -/
inductive Rebound (old new : BlockId) : Value → Value → Prop where
  | same {v : Value} (h : v.refersTo old = false) : Rebound old new v v
  | node {v v' : Value} (h : v.refersTo old = true) (shell : SameShell old new v v')
    (length : v.parts.length = v'.parts.length)
    (parts : ∀ k (hk : k < v.parts.length) (hk' : k < v'.parts.length),
      Rebound old new v.parts[k] v'.parts[k]) : Rebound old new v v'

namespace Rebound

/-- A value with a closure over the block, once its parts are rebound. -/
theorem of_parts (h : v.refersTo old = true) (hshell : SameShell old new v v')
    (hparts : List.Forall₂ (Rebound old new) v.parts v'.parts) : Rebound old new v v' :=
  have ⟨hlength, hget⟩ := List.forall₂_iff_get.1 hparts
  .node h hshell hlength hget

/-- **Rebinding is substitution**, up to the numbers of buffers. -/
theorem erase_eq (h : Rebound old new v v') : v'.erase = (v.substitute old new).erase := by
  induction h with
  | same h => rw [substitute_of_lacks h]
  | @node v v' h hshell hlength hparts ih =>
    have hmap : v'.parts.map erase = v.parts.map fun p => (p.substitute old new).erase := by
      refine List.ext_getElem (by simp [hlength]) fun k hk' hk => ?_
      simp only [List.length_map] at hk hk'
      simpa using ih k hk hk'
    cases v <;> cases v' <;> simp only [SameShell] at hshell
    case list.list =>
      simpa [erase, substitute, eraseItems_eq, substituteItems_eq, parts, Function.comp_def] using hmap
    case map.map id entries id' entries' =>
      have hentries : entries'.map (fun e => (e.1, e.2.erase)) =
          entries.map fun e => (e.1, (e.2.substitute old new).erase) := by
        have hzip := congrArg₂ List.zip hshell hmap
        simpa [parts, List.zip_map', List.map_map, Function.comp_def] using hzip
      simp [erase, substitute, eraseEntries_eq, substituteEntries_eq, hentries, Function.comp_def]
    case record.record =>
      subst hshell
      simpa [erase, substitute, eraseItems_eq, substituteItems_eq, parts, Function.comp_def] using hmap
    case func.func =>
      subst hshell
      simpa [erase, substitute, eraseItems_eq, substituteItems_eq, parts, Function.comp_def] using hmap

/-- After pointing closures elsewhere there are none over the old block. -/
theorem lacks (hne : old ≠ new) (h : Rebound old new v v') : v'.Lacks old := by
  induction h with
  | same h => exact lacks_iff.2 h
  | @node v v' h hshell hlength hparts ih =>
    refine ⟨fun id bindings heq => ?_, fun p' hp' => ?_⟩
    · subst heq
      cases v <;> simp only [SameShell] at hshell
      split at hshell
      · exact hne hshell
      next hblock => exact hblock hshell.symm
    · obtain ⟨k, hk, rfl⟩ := List.getElem_of_mem hp'
      exact ih k (hlength ▸ hk) hk

/-- What has no closure over the old block is found unchanged, at the same place. -/
theorem at?_eq (h : Rebound old new v v') {path : List Nat} {w : Value} (hw : v.at? path = some w)
    (hlacks : w.Lacks old) : v'.at? path = some w := by
  induction path generalizing v v' with
  | nil =>
    obtain rfl := Option.some.inj hw
    cases h with
    | same _ => rfl
    | node h => exact nomatch h.symm.trans (lacks_iff.1 hlacks)
  | cons k path ih =>
    cases h with
    | same _ => exact hw
    | node h hshell hlength hparts =>
      rw [at?] at hw ⊢
      cases hp : v.parts[k]? with
      | none =>
        rw [hp] at hw
        exact nomatch hw
      | some p =>
        rw [hp] at hw
        obtain ⟨hk, rfl⟩ := List.getElem?_eq_some_iff.1 hp
        rw [List.getElem?_eq_getElem (hlength ▸ hk)]
        exact ih (hparts k hk (hlength ▸ hk)) hw

end Rebound

/-! ### Rebinding -/

/-- Entries are rebound as their values are. -/
theorem rebindEntries_eq (entries : List (Key × Value)) (n : BufferId) :
    rebindEntries old new entries n =
      ((entries.map (·.1)).zip (rebindItems old new (entries.map (·.2)) n).1,
        (rebindItems old new (entries.map (·.2)) n).2) := by
  induction entries generalizing n with
  | nil => rfl
  | cons e rest ih =>
    obtain ⟨k, v⟩ := e
    change ((k, (rebind old new v n).1) :: (rebindEntries old new rest (rebind old new v n).2).1,
      (rebindEntries old new rest (rebind old new v n).2).2) = _
    rw [ih]
    rfl

/-- There are as many items as before. -/
theorem length_rebindItems (vs : List Value) (n : BufferId) :
    (rebindItems old new vs n).1.length = vs.length := by
  induction vs generalizing n with
  | nil => rfl
  | cons v rest ih => exact congrArg (· + 1) (ih (rebind old new v n).2)

/-- A value that does not refer to the block is given back, buffers included. -/
theorem rebind_of_lacks (h : v.refersTo old = false) (n : BufferId) : rebind old new v n = (v, n) := by
  have hnot : ¬v.refersTo old = true := Bool.eq_false_iff.1 h
  cases v with
  | list id items | map id entries | record id type fields | func id block bindings =>
    rw [refersTo] at hnot
    rw [rebind, if_neg hnot]
    rfl
  | _ => rfl

/-- A value with a closure over the block is rebound by rebinding its parts first. -/
theorem rebind_of_refers (new : BlockId) (h : v.refersTo old = true) (n : BufferId) : ∃ v',
    rebind old new v n = (v', (rebindItems old new v.parts n).2 + 1) ∧
      v'.id? = some (rebindItems old new v.parts n).2 ∧ v'.parts = (rebindItems old new v.parts n).1 ∧
      SameShell old new v v' := by
  cases v with
  | list id items =>
    rw [refersTo] at h
    rw [rebind, if_pos h]
    exact ⟨_, rfl, rfl, rfl, trivial⟩
  | map id entries =>
    rw [refersTo] at h
    rw [rebind, if_pos h]
    simp only [bind, StateT.bind, rebindEntries_eq]
    refine ⟨_, rfl, rfl, ?_, ?_⟩
    · exact List.map_snd_zip (by simp [length_rebindItems])
    · exact List.map_fst_zip (by simp [length_rebindItems])
  | record id type fields =>
    rw [refersTo] at h
    rw [rebind, if_pos h]
    exact ⟨_, rfl, rfl, rfl, rfl⟩
  | func id block bindings =>
    rw [refersTo] at h
    rw [rebind, if_pos h]
    exact ⟨_, rfl, rfl, rfl, rfl⟩
  | _ => exact nomatch h

/-- Items are rebound one after the other. -/
theorem rebindItems_rebound {vs : List Value} (hvs : ∀ v ∈ vs, ∀ n, Rebound old new v (rebind old new v n).1)
    (n : BufferId) : List.Forall₂ (Rebound old new) vs (rebindItems old new vs n).1 := by
  induction vs generalizing n with
  | nil => exact .nil
  | cons v rest ih =>
    exact .cons (hvs v List.mem_cons_self n) (ih (fun w hw => hvs w (List.mem_cons_of_mem _ hw)) _)

/-- **Rebinding points closures at the other block**, and keeps what has no closure over the old one. -/
theorem rebind_rebound (v : Value) (n : BufferId) : Rebound old new v (rebind old new v n).1 := by
  induction v using induction_parts generalizing n with
  | h v ih =>
    cases h : v.refersTo old with
    | false =>
      rw [rebind_of_lacks h]
      exact .same h
    | true =>
      obtain ⟨v', hrun, -, hparts, hshell⟩ := rebind_of_refers new h n
      rw [hrun]
      exact .of_parts h hshell (hparts ▸ rebindItems_rebound ih n)

/-! ### Numbers of rebound values -/

section Named

open Ty (KeepsNames)

variable {n n' m : BufferId} {val : BufferId → Value} {w : Value} {ws : List Value}

/-- One value has its numbers, and with these taken the others have theirs. -/
theorem keepsNames_cons (hw : KeepsNames n m val [w])
    (hws : ∀ val', n ≤ m → (∀ j < n, val' j = val j) → KeepsNames m n' val' ws) :
    KeepsNames n n' val (w :: ws) := by
  obtain ⟨hle, val₁, hagree₁, hw⟩ := hw
  obtain ⟨hle', val₂, hagree₂, hws⟩ := hws val₁ hle hagree₁
  refine ⟨Nat.le_trans hle hle', val₂, fun j hj => ?_, List.forall_mem_cons.2 ⟨?_, hws⟩⟩
  · rw [hagree₂ j (Nat.lt_of_lt_of_le hj hle), hagree₁ j hj]
  · exact (hw w List.mem_cons_self).mono hle' hagree₂

/-- A new node over values that have their numbers. -/
theorem keepsNames_node (hid : w.id? = some n') (h : KeepsNames n n' val w.parts) :
    KeepsNames n (n' + 1) val [w] := by
  obtain ⟨hle, val', hagree, hparts⟩ := h
  refine ⟨Nat.le_succ_of_le hle, fun j => if j = n' then w else val' j, fun j hj => ?_, ?_⟩
  · exact (if_neg (Nat.ne_of_lt (Nat.lt_of_lt_of_le hj hle))).trans (hagree j hj)
  · simpa using .node hid hparts

/-- Rebinding gives new numbers to the nodes that it makes, so that all numbers in use stand for what they
    stood for. -/
theorem rebind_named (v : Value) {n : BufferId} {val : BufferId → Value} (hv : v.Named n val) :
    KeepsNames n (rebind old new v n).2 val [(rebind old new v n).1] := by
  induction v using induction_parts generalizing n val with
  | h v ih =>
    have hitems : ∀ vs : List Value, (∀ p ∈ vs, p ∈ v.parts) → ∀ (n : BufferId) (val : BufferId → Value),
        (∀ p ∈ vs, p.Named n val) →
          KeepsNames n (rebindItems old new vs n).2 val (rebindItems old new vs n).1 := by
      intro vs hvs
      induction vs with
      | nil => exact fun n val _ => ⟨Nat.le_refl _, val, fun _ _ => rfl, List.forall_mem_nil _⟩
      | cons p rest ihrest =>
        intro n val hnamed
        obtain ⟨hp, hrest⟩ := List.forall_mem_cons.1 hnamed
        refine keepsNames_cons (ih p (hvs p List.mem_cons_self) hp) fun val' hle hagree => ?_
        exact ihrest (fun q hq => hvs q (List.mem_cons_of_mem _ hq)) _ val'
          fun q hq => (hrest q hq).mono hle hagree
    cases h : v.refersTo old with
    | false =>
      rw [rebind_of_lacks h]
      exact .refl hv
    | true =>
      obtain ⟨v', hrun, hid, hparts, -⟩ := rebind_of_refers new h n
      rw [hrun]
      exact keepsNames_node hid (hparts ▸ hitems v.parts (fun _ hp => hp) n val hv.inside)

end Named

end Value

end BlockMachine

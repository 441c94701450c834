import BlockMachine.Dispatch.Cache
import Mathlib.Data.List.Nodup

namespace BlockMachine

/-!
# Caches in the order of use

A site's slots are a list of lines, the most recently used one first. Nothing stands between the lines
or behind an empty slot, and no two lines are about one type.

* `Recency.insert` and `Recency.lookup` are the rules for such a list, without slots;
* `SiteCache.Keeps` says that a cache keeps a list of lines, and `SiteCache.Keeps.apply` that an operation
  follows the rules;
* `SiteCache.run_recency` is about all operations on a cache that was empty.
-/

/-- What is done with a cache. -/
inductive CacheOp where
  | insert (line : CacheLine)
  | lookup (type : TypeId) (epoch : Nat)
  deriving DecidableEq, Repr

/-! ### The rules -/

namespace Recency

/-- A line comes to the front instead of what was known about its type, and only so many lines are kept. -/
def insert (ls : List CacheLine) (line : CacheLine) : List CacheLine :=
  (line :: ls.filter fun l => l.type ≠ line.type).take cacheLines

/-- The line of a type in an epoch is found and comes to the front; where there is none, nothing changes. -/
def lookup (ls : List CacheLine) (type : TypeId) (epoch : Nat) : Option CacheLine × List CacheLine :=
  match ls.find? fun l => l.type = type ∧ l.epoch = epoch with
  | some line => (some line, line :: ls.erase line)
  | none => (none, ls)

/-- An operation by the rules, and the line that it finds. -/
def apply (ls : List CacheLine) : CacheOp → Option CacheLine × List CacheLine
  | .insert line => (none, insert ls line)
  | .lookup type epoch => lookup ls type epoch

/-- Operations by the rules, and the lines that they find. -/
def run (ls : List CacheLine) : List CacheOp → List (Option CacheLine) × List CacheLine
  | [] => ([], ls)
  | op :: ops =>
    let (found, ls') := apply ls op
    let (rest, last) := run ls' ops
    (found :: rest, last)

end Recency

namespace SiteCache

/-- An operation on a cache, and the line that it finds. -/
def apply (c : SiteCache) : CacheOp → Option CacheLine × SiteCache
  | .insert line => (none, c.insert line)
  | .lookup type epoch => c.lookup type epoch

/-- Operations on a cache, and the lines that they find. -/
def run (c : SiteCache) : List CacheOp → List (Option CacheLine) × SiteCache
  | [] => ([], c)
  | op :: ops =>
    let (found, c') := c.apply op
    let (rest, last) := c'.run ops
    (found :: rest, last)

/-! ### Lists in slots -/

/-- A cache keeps the lines of a list, in order and from the first slot on, and they are about different
    types. -/
structure Keeps (c : SiteCache) (ls : List CacheLine) : Prop where
  slots : c.slots = ls.map some ++ List.replicate (cacheLines - ls.length) none
  length : ls.length ≤ cacheLines
  distinct : (ls.map (·.type)).Nodup

variable {c : SiteCache} {ls : List CacheLine} {i : Nat}

theorem keeps_empty : Keeps {} [] :=
  ⟨rfl, Nat.zero_le _, List.nodup_nil⟩

theorem Keeps.lines (h : c.Keeps ls) : c.lines = ls := by
  simp [SiteCache.lines, h.slots, List.filterMap_append, List.filterMap_map]

theorem Keeps.length_slots (h : c.Keeps ls) : c.slots.length = cacheLines := by
  have := h.length
  rw [h.slots, List.length_append, List.length_map, List.length_replicate]
  omega

/-- Looking through the slots is looking through the lines. -/
theorem Keeps.findIdx? (h : c.Keeps ls) (wanted : CacheLine → Bool) :
    c.slots.findIdx? (holds wanted) = ls.findIdx? wanted := by
  have hempty : (List.replicate (cacheLines - ls.length) none).findIdx? (holds wanted) = none := by
    simp [List.findIdx?_replicate, holds]
  rw [h.slots, List.findIdx?_append, hempty, List.findIdx?_map]
  simp [Function.comp_def, holds]

/-- The slot of a line is taken out by taking out the line. -/
theorem Keeps.eraseIdx (h : c.Keeps ls) (hi : i < ls.length) :
    c.slots.eraseIdx i = (ls.eraseIdx i).map some ++ List.replicate (cacheLines - ls.length) none := by
  rw [h.slots, List.eraseIdx_append_of_lt_length (by simpa using hi)]
  simp only [List.eraseIdx_eq_take_drop_succ, List.map_append, List.map_take, List.map_drop]

theorem Keeps.getElem? (h : c.Keeps ls) (hi : i < ls.length) : c.slots[i]? = some (some ls[i]) := by
  rw [h.slots, List.getElem?_append_left (by simpa using hi), List.getElem?_map,
    List.getElem?_eq_getElem hi]
  rfl

/-- A line is the only one of its type. -/
theorem Keeps.eq_of_type (h : c.Keeps ls) {l l' : CacheLine} (hl : l ∈ ls) (hl' : l' ∈ ls)
    (htype : l.type = l'.type) : l = l' :=
  List.inj_on_of_nodup_map h.distinct hl hl' htype

/-- Taking out a line leaves the lines of the other types. -/
theorem Keeps.eraseIdx_eq_filter (h : c.Keeps ls) (hi : i < ls.length) :
    ls.eraseIdx i = ls.filter fun l => l.type ≠ ls[i].type := by
  have hnodup := List.Nodup.of_map _ h.distinct
  rw [← hnodup.erase_getElem i hi, hnodup.erase_eq_filter]
  refine List.filter_congr fun l hl => ?_
  have heq : l = ls[i] ↔ l.type = ls[i].type :=
    ⟨fun heq => heq ▸ rfl, h.eq_of_type hl (List.getElem_mem hi)⟩
  rw [Bool.eq_iff_iff]
  simp [heq]

/-! ### Operations follow the rules -/

/-- A line that is found comes to the front of the slots. -/
theorem Keeps.lookup (h : c.Keeps ls) (type : TypeId) (epoch : Nat) :
    (c.lookup type epoch).1 = (Recency.lookup ls type epoch).1 ∧
      (c.lookup type epoch).2.Keeps (Recency.lookup ls type epoch).2 := by
  rw [SiteCache.lookup, Recency.lookup, h.findIdx?]
  cases hfind : ls.findIdx? fun l => l.type == type && l.epoch == epoch with
  | none =>
    have hmiss : (ls.find? fun l => l.type = type ∧ l.epoch = epoch) = none := by
      simpa [List.findIdx?_eq_none_iff] using hfind
    rw [hmiss]
    exact ⟨rfl, h⟩
  | some i =>
    obtain ⟨hi, haccepts, hbefore⟩ := List.findIdx?_eq_some_iff_getElem.1 hfind
    have hhit : (ls.find? fun l => l.type = type ∧ l.epoch = epoch) = some ls[i] := by
      refine List.find?_eq_some_iff_getElem.2 ⟨by simpa using haccepts, i, hi, rfl, fun j hj => ?_⟩
      simpa [← not_and_or] using hbefore j hj
    have herase : ls.erase ls[i] = ls.eraseIdx i :=
      (List.Nodup.of_map _ h.distinct).erase_getElem i hi
    simp only [hhit, h.getElem? hi, Option.join_some, true_and]
    refine ⟨?_, ?_, ?_⟩
    · simp only [h.eraseIdx hi, herase, List.map_cons, List.cons_append, List.length_cons,
        List.length_eraseIdx_of_lt hi]
      rw [Nat.sub_add_cancel (Nat.zero_lt_of_lt hi)]
    · simpa [herase, List.length_eraseIdx_of_lt hi, Nat.sub_add_cancel (Nat.zero_lt_of_lt hi)] using h.length
    · exact ((List.perm_cons_erase (List.getElem_mem hi)).map _).nodup_iff.1 h.distinct

/-- A line that makes room leaves an empty slot at the end. -/
theorem Keeps.without (h : c.Keeps ls) (type : TypeId) :
    Keeps
      ⟨match c.slots.findIdx? (holds fun l => l.type == type) with
        | some i => c.slots.eraseIdx i ++ [none]
        | none => c.slots⟩
      (ls.filter fun l => l.type ≠ type) := by
  rw [h.findIdx?]
  have hsublist : (ls.filter fun l => l.type ≠ type).Sublist ls := List.filter_sublist
  have hdistinct := h.distinct.sublist (hsublist.map (·.type))
  cases hfind : ls.findIdx? fun l => l.type == type with
  | none =>
    have hall : (ls.filter fun l => l.type ≠ type) = ls := by
      simpa [List.findIdx?_eq_none_iff, List.filter_eq_self] using hfind
    rw [hall]
    exact h
  | some i =>
    obtain ⟨hi, haccepts, -⟩ := List.findIdx?_eq_some_iff_getElem.1 hfind
    have hrest := h.eraseIdx_eq_filter hi
    rw [beq_iff_eq.1 haccepts] at hrest
    have hlen := h.length
    refine ⟨?_, ?_, hdistinct⟩
    · have hempty : cacheLines - (ls.eraseIdx i).length = cacheLines - ls.length + 1 := by
        rw [List.length_eraseIdx_of_lt hi]
        omega
      simp only [← hrest, h.eraseIdx hi, hempty, List.replicate_succ', List.append_assoc]
    · rw [← hrest, List.length_eraseIdx_of_lt hi]
      omega

/-- A line of a type that is not there pushes out the last slot. -/
theorem Keeps.push (h : c.Keeps ls) {line : CacheLine} (hnew : line.type ∉ ls.map (·.type)) :
    Keeps ⟨some line :: c.slots.dropLast⟩ ((line :: ls).take cacheLines) := by
  refine ⟨?_, List.length_take_le _ _, ?_⟩
  · have hdrop : c.slots.dropLast = c.slots.take 3 := by
      rw [List.dropLast_eq_take, h.length_slots]
      rfl
    have hlen := h.length
    have hempty : min (3 - ls.length) (4 - ls.length) = 4 - min 4 (ls.length + 1) := by
      omega
    rw [hdrop, h.slots, List.take_append, List.length_map, List.take_replicate, cacheLines, hempty,
      List.length_take, List.length_cons, List.take_succ_cons, List.map_cons, List.map_take,
      List.cons_append]
  · have hcons : ((line :: ls).map (·.type)).Nodup := List.nodup_cons.2 ⟨hnew, h.distinct⟩
    exact hcons.sublist ((List.take_sublist _ _).map _)

/-- A line that is put in front takes the place of what was known about its type. -/
theorem Keeps.insert (h : c.Keeps ls) (line : CacheLine) :
    (c.insert line).Keeps (Recency.insert ls line) :=
  (h.without line.type).push (by simp)

/-- **One operation follows the rules.** -/
theorem Keeps.apply (h : c.Keeps ls) (op : CacheOp) :
    (c.apply op).1 = (Recency.apply ls op).1 ∧ (c.apply op).2.Keeps (Recency.apply ls op).2 := by
  cases op with
  | insert line => exact ⟨rfl, h.insert line⟩
  | lookup type epoch => exact h.lookup type epoch

/-- All operations follow the rules. -/
theorem Keeps.run (h : c.Keeps ls) (ops : List CacheOp) :
    (c.run ops).1 = (Recency.run ls ops).1 ∧ (c.run ops).2.Keeps (Recency.run ls ops).2 := by
  induction ops generalizing c ls with
  | nil => exact ⟨rfl, h⟩
  | cons op ops ih =>
    obtain ⟨hfound, hkeeps⟩ := h.apply op
    obtain ⟨hrest, hlast⟩ := ih hkeeps
    refine ⟨?_, hlast⟩
    simp only [SiteCache.run, Recency.run, hfound, hrest]

/-- A line is found in its own epoch and comes to the front; in another epoch its type is not found, and
    nothing changes. -/
theorem Keeps.lookup_mem (h : c.Keeps ls) {l : CacheLine} (hl : l ∈ ls) (epoch : Nat) :
    if l.epoch = epoch then
      (c.lookup l.type epoch).1 = some l ∧ (c.lookup l.type epoch).2.Keeps (l :: ls.erase l)
    else c.lookup l.type epoch = (none, c) := by
  split
  next hepoch =>
    have hfound : (ls.find? fun l' => l'.type = l.type ∧ l'.epoch = epoch) = some l := by
      cases hfind : ls.find? fun l' => l'.type = l.type ∧ l'.epoch = epoch with
      | none =>
        have hnone := List.find?_eq_none.1 hfind l hl
        simp [hepoch] at hnone
      | some l' =>
        have htype : l'.type = l.type ∧ l'.epoch = epoch := by simpa using List.find?_some hfind
        rw [h.eq_of_type (List.mem_of_find?_eq_some hfind) hl htype.1]
    have hlookup := h.lookup l.type epoch
    rwa [Recency.lookup, hfound] at hlookup
  next hepoch =>
    have hmiss : (ls.findIdx? fun l' => l'.type == l.type && l'.epoch == epoch) = none := by
      refine List.findIdx?_eq_none_iff.2 fun l' hl' => ?_
      by_cases htype : l'.type = l.type
      · rw [h.eq_of_type hl' hl htype]
        simp [hepoch]
      · simp [htype]
    rw [SiteCache.lookup, h.findIdx?, hmiss]

/-- **A site's cache is a list in the order of use.** After any operations on a cache that was empty, the
    operations have found what they find by the rules, and the lines are those of the rules. They are
    at most `cacheLines` lines about different types, in the first slots. A line is found in its own
    epoch and comes to the front; in another epoch its type is not found, and nothing changes. -/
theorem run_recency (ops : List CacheOp) :
    (run {} ops).1 = (Recency.run [] ops).1 ∧
    (run {} ops).2.lines = (Recency.run [] ops).2 ∧
    (run {} ops).2.slots = (run {} ops).2.lines.map some ++
      List.replicate (cacheLines - (run {} ops).2.lines.length) none ∧
    (run {} ops).2.lines.length ≤ cacheLines ∧
    ((run {} ops).2.lines.map (·.type)).Nodup ∧
    ∀ l ∈ (run {} ops).2.lines, ∀ epoch,
      if l.epoch = epoch then
        ((run {} ops).2.lookup l.type epoch).1 = some l ∧
          ((run {} ops).2.lookup l.type epoch).2.lines = l :: (run {} ops).2.lines.erase l
      else (run {} ops).2.lookup l.type epoch = (none, (run {} ops).2) := by
  obtain ⟨hfound, h⟩ := keeps_empty.run ops
  rw [h.lines]
  refine ⟨hfound, rfl, h.slots, h.length, h.distinct, fun l hl epoch => ?_⟩
  have hlookup := h.lookup_mem hl epoch
  split
  next hepoch =>
    rw [if_pos hepoch] at hlookup
    exact ⟨hlookup.1, hlookup.2.lines⟩
  next hepoch => rwa [if_neg hepoch] at hlookup

/-- Of five types the one that was not used for the longest time is forgotten. Another one is found in its
    epoch, and in a later epoch it is not. -/
theorem run_recency_evicts :
    let line (type : TypeId) : CacheLine := ⟨type, .method, some 0, 0⟩
    let ops := [.insert (line 1), .insert (line 2), .insert (line 3), .insert (line 4), .lookup 1 0,
      .insert (line 9)]
    (run {} ops).2.lines = [line 9, line 1, line 4, line 3] ∧
      ((run {} ops).2.lookup 4 0).1 = some (line 4) ∧
      (run {} ops).2.lookup 4 1 = (none, (run {} ops).2) := by
  intro line ops
  obtain ⟨-, hlines, -, -, -, hlookup⟩ := run_recency ops
  have hrules : (Recency.run [] ops).2 = [line 9, line 1, line 4, line 3] := by decide
  have hmem : line 4 ∈ (run {} ops).2.lines := by
    rw [hlines, hrules]
    simp
  exact ⟨hlines.trans hrules, (hlookup (line 4) hmem 0).1, hlookup (line 4) hmem 1⟩

end SiteCache

end BlockMachine

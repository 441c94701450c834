import BlockMachine.Value.Type
import Std.Data.HashMap

namespace BlockMachine

/-!
# Method caches of call sites

Every call site remembers what a method name meant for the last few receiver types. Its four
slots are kept in the order of use; a line counts only in the epoch it was filled in.

* `SiteCache.lookup` finds a line and moves it to the front;
* `SiteCache.insert` puts a line in front, dropping the last one if need be;
* `Caches` holds the cache of every site of every program, with hit and miss counts;
* `Caches.consult` asks a site, and lets it remember what it did not know.
-/

/-- What a method name turned out to be. -/
inductive Resolution where
  | method
  | moduleMember
  | mapKey
  | notFound
  deriving DecidableEq, Repr

/-- The name of a resolution. -/
def Resolution.name : Resolution → String
  | method => "Method"
  | moduleMember => "ModuleMember"
  | mapKey => "MapKey"
  | notFound => "NotFound"

/-- A remembered resolution: for which type, what it is, which block it calls, and in which
    epoch it was found. -/
structure CacheLine where
  type : TypeId
  kind : Resolution
  target : Option BlockId
  epoch : Nat
  deriving DecidableEq, Repr

/-- The number of lines a site remembers. -/
def cacheLines : Nat := 4

/-- The cache of one call site: `cacheLines` slots, the most recently used line first. -/
structure SiteCache where
  slots : List (Option CacheLine) := List.replicate cacheLines none
  deriving Repr

namespace SiteCache

/-- Whether a slot holds a line that `wanted` accepts. -/
def holds (wanted : CacheLine → Bool) : Option CacheLine → Bool
  | some line => wanted line
  | none => false

/-- The occupied slots in order. -/
def lines (c : SiteCache) : List CacheLine :=
  c.slots.filterMap id

/-- Finds the line for a type in the current epoch and moves it to the front. -/
def lookup (c : SiteCache) (type : TypeId) (epoch : Nat) : Option CacheLine × SiteCache :=
  match c.slots.findIdx? (holds fun l => l.type == type && l.epoch == epoch) with
  -- a line of an older epoch is not found, and leaves only when others come in
  | none => (none, c)
  | some i =>
    let found := (c.slots[i]?).join
    (found, ⟨found :: c.slots.eraseIdx i⟩)

/-- Puts a line in front. A line of the same type leaves its slot, the slots behind it close
    up, and the last slot is pushed out. -/
def insert (c : SiteCache) (line : CacheLine) : SiteCache :=
  let slots :=
    match c.slots.findIdx? (holds fun l => l.type == line.type) with
    | some i => c.slots.eraseIdx i ++ [none]
    | none => c.slots
  ⟨some line :: slots.dropLast⟩

end SiteCache

/-- The caches of a stack's call sites, by program and site, and how often they helped. -/
structure Caches where
  sites : Std.HashMap (Nat × Nat) SiteCache := {}
  hits : Nat := 0
  misses : Nat := 0

namespace Caches

/-- The cache of a site; a site that was never used has an empty one. -/
def site (c : Caches) (program site : Nat) : SiteCache :=
  c.sites.getD (program, site) {}

/-- Replaces the cache of a site. -/
def setSite (c : Caches) (program site : Nat) (cache : SiteCache) : Caches :=
  { c with sites := c.sites.insert (program, site) cache }

/-- Forgets every site. -/
def clear (c : Caches) : Caches :=
  { c with sites := {} }

/-- What a site remembers for the type and the epoch of `resolved`, the line that a resolution
    from scratch gives. A miss is answered by `resolved`, which is then remembered. -/
def consult (c : Caches) (program site : Nat) (resolved : CacheLine) : CacheLine × Caches :=
  let cache := c.site program site
  match cache.lookup resolved.type resolved.epoch with
  | (some line, cache) => (line, { c.setSite program site cache with hits := c.hits + 1 })
  | (none, _) =>
    (resolved, { c.setSite program site (cache.insert resolved) with misses := c.misses + 1 })

end Caches

end BlockMachine

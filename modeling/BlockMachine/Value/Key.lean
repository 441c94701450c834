namespace BlockMachine

/-!
# Keys

Map entries and the steps of a state path are addressed by keys. `Key.text` is how a key is
shown; `Entries` are key-value pairs in insertion order.
-/

/-- A key of a map, or one step of a state path. -/
inductive Key where
  | name (s : String)
  | index (i : Int64)
  | bool (b : Bool)
  deriving DecidableEq, Repr

/-- A key as shown, without quotes. -/
def Key.text : Key → String
  | name s => s
  | index i => toString i.toInt
  | bool b => if b then "true" else "false"

namespace Entries

variable {α : Type}

/-- The value under a key. -/
def get? (k : Key) : List (Key × α) → Option α
  | [] => none
  | (k', a) :: rest => if k' = k then some a else get? k rest

/-- Puts a value under a key: a present key keeps its place, a new one goes to the end. -/
def insert (k : Key) (a : α) : List (Key × α) → List (Key × α)
  | [] => [(k, a)]
  | (k', a') :: rest => if k' = k then (k', a) :: rest else (k', a') :: insert k a rest

/-- Removes a key; the other entries keep their order. -/
def erase (k : Key) : List (Key × α) → List (Key × α)
  | [] => []
  | (k', a) :: rest => if k' = k then rest else (k', a) :: erase k rest

/-- Entries read one after the other; a repeated key overwrites in place. -/
def ofList (pairs : List (Key × α)) : List (Key × α) :=
  pairs.foldl (fun entries (k, a) => insert k a entries) []

end Entries

end BlockMachine

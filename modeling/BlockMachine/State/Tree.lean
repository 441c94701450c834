import BlockMachine.Value.Basic

namespace BlockMachine

/-!
# The persistent state tree

State is a tree of maps. A stateful frame reads an incoming subtree and collects an outgoing
map; a child under key `k` sees entry `k` of its parent's incoming tree, and its outgoing map is
stored back under `k` when it returns.

* `StateTree.child` and `StateTree.lookup` walk down a tree;
* `StateTree.save` and `StateTree.merge` collect outgoing entries;
* `Value.rebind` points closures from one block at another.
-/

namespace StateTree

/-- The subtree that a child under a key sees; null when there is none. -/
def child (incoming : Value) (k : Key) : Value :=
  match incoming with
  | .map _ entries => (Entries.get? k entries).getD .null
  | _ => .null

/-- The saved value under a name; null when there is none. -/
def read (incoming : Value) (name : String) : Value :=
  child incoming (.name name)

/-- The node at the end of a path. -/
def lookup (tree : Value) : List Key → Option Value
  | [] => some tree
  | k :: path =>
    match tree with
    | .map _ entries =>
      match Entries.get? k entries with
      | some node => lookup node path
      | none => none
    | _ => none

/-- Saves a value under a name; saving null deletes the entry. -/
def save (outgoing : List (Key × Value)) (name : String) (v : Value) : List (Key × Value) :=
  if v.isNull then Entries.erase (.name name) outgoing
  else Entries.insert (.name name) v outgoing

/-- Stores the outgoing map of a returning child under its key; a child that saved nothing
    deletes the entry. -/
def merge (outgoing : List (Key × Value)) (k : Key) (child : List (Key × Value)) :
    Fresh (List (Key × Value)) := do
  if child.isEmpty then return Entries.erase k outgoing
  else return Entries.insert k (← Value.newMap child) outgoing

/-- The tree that a returning root leaves: null when it saved nothing, else its outgoing map. -/
def ofOutgoing (outgoing : List (Key × Value)) : Fresh Value := do
  if outgoing.isEmpty then return .null else Value.newMap outgoing

end StateTree

namespace Value

mutual

/-- Whether a closure over a block occurs anywhere in a value. -/
def refersTo (block : BlockId) : Value → Bool
  | list _ items => anyRefersTo block items
  | map _ entries => entryRefersTo block entries
  | record _ _ fields => anyRefersTo block fields
  | func _ b bindings => b == block || anyRefersTo block bindings
  | _ => false

/-- Whether a closure over a block occurs in one of the values. -/
def anyRefersTo (block : BlockId) : List Value → Bool
  | [] => false
  | v :: rest => refersTo block v || anyRefersTo block rest

/-- Whether a closure over a block occurs in one of the entries. -/
def entryRefersTo (block : BlockId) : List (Key × Value) → Bool
  | [] => false
  | (_, v) :: rest => refersTo block v || entryRefersTo block rest

end

mutual

/-- Points every closure over `old` at `new`. Containers without such a closure stay the same
    buffer, the others are written anew. -/
def rebind (old new : BlockId) : Value → Fresh Value
  | list id items =>
    if anyRefersTo old items then do
      let items ← rebindItems old new items
      newList items
    else return list id items
  | map id entries =>
    if entryRefersTo old entries then do
      let entries ← rebindEntries old new entries
      newMap entries
    else return map id entries
  | record id type fields =>
    if anyRefersTo old fields then do
      let fields ← rebindItems old new fields
      newRecord type fields
    else return record id type fields
  | func id block bindings =>
    if block == old || anyRefersTo old bindings then do
      let bindings ← rebindItems old new bindings
      newFunc (if block = old then new else block) bindings
    else return func id block bindings
  | v => return v

/-- Rebinds every value of a list. -/
def rebindItems (old new : BlockId) : List Value → Fresh (List Value)
  | [] => return []
  | v :: rest => do
    let v ← rebind old new v
    return v :: (← rebindItems old new rest)

/-- Rebinds every value of a map. -/
def rebindEntries (old new : BlockId) : List (Key × Value) → Fresh (List (Key × Value))
  | [] => return []
  | (k, v) :: rest => do
    let v ← rebind old new v
    return (k, v) :: (← rebindEntries old new rest)

end

end Value

end BlockMachine

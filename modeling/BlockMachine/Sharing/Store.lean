import BlockMachine.Value.Basic

namespace BlockMachine

/-!
# The store of shared buffers

A cell holds a small `Slot`: a value without contents, or a handle to a buffer in the `Store`.
Every buffer keeps the number of handles to it; a handle is duplicated by counting it, and a
buffer goes when its last handle is released. Writing goes through `Store.touch`, which makes a
buffer exclusively owned first: one that is shared is duplicated, one that is not stays.

A module is shared as a whole: its slot stands for the module, and copying the slot counts no handle to
what the members of the module hold. The module itself holds those handles (`Holders`) and keeps them
until its last holder lets it go.

* `Store.retain` and `Store.release` keep the counts;
* `Store.build` puts a value into new buffers, `Store.adopt` keeps those it already has;
* `Store.read` is the value a slot stands for;
* `Store.touch` makes the buffer behind a slot exclusively owned, `Store.own` a closure too.
-/

/-- What a cell, or a place inside a buffer, holds. -/
inductive Slot where
  | null
  | int (i : Int64)
  | float (x : Float)
  | bool (b : Bool)
  | module (m : ModuleType)
  | host (n : Nat)
  | error (message : String)
  | moved
  | handle (id : BufferId)

/-- The contents of a buffer. Closures are kept like buffers, though they are never written. -/
inductive Payload where
  | str (s : String)
  | list (items : List Slot)
  | map (entries : List (Key × Slot))
  | record (type : RecordType) (fields : List Slot)
  | func (block : BlockId) (bindings : List Slot)

/-- The slots inside a buffer. -/
def Payload.slots : Payload → List Slot
  | str _ => []
  | list items => items
  | map entries => entries.map (·.2)
  | record _ fields => fields
  | func _ bindings => bindings

/-- Whether the contents are a closure, which is no buffer of its own kind. -/
def Payload.isFunc : Payload → Bool
  | func .. => true
  | _ => false

/-- A buffer with the number of handles to it. -/
structure Buffer where
  count : Nat
  payload : Payload

/-- The live buffers by number, and the next unused number. -/
structure Store where
  buffers : List (BufferId × Buffer) := []
  next : BufferId := 0

namespace Store

/-! ### Buffers by number -/

/-- The buffer with a number. -/
def get? (s : Store) (id : BufferId) : Option Buffer :=
  s.buffers.lookup id

/-- Changes the buffer with a number. -/
def modify (s : Store) (id : BufferId) (f : Buffer → Buffer) : Store :=
  { s with buffers := s.buffers.map fun (i, b) => if i = id then (i, f b) else (i, b) }

/-- Removes the buffer with a number. -/
def erase (s : Store) (id : BufferId) : Store :=
  { s with buffers := s.buffers.filter (·.1 ≠ id) }

/-- The number of handles to a buffer. -/
def count (s : Store) (id : BufferId) : Nat :=
  match s.get? id with
  | some b => b.count
  | none => 0

/-- The number of live buffers, closures left out. -/
def live (s : Store) : Nat :=
  s.buffers.countP fun (_, b) => !b.payload.isFunc

/-! ### Handles -/

/-- Counts one more handle. -/
def retain (s : Store) : Slot → Store
  | .handle id => s.modify id fun b => { b with count := b.count + 1 }
  | _ => s

/-- Counts one more handle for each slot. -/
def retainAll (s : Store) (slots : List Slot) : Store :=
  slots.foldl retain s

/-- Gives handles back. A buffer whose last handle is given back goes, and the handles inside it
    are given back in turn; `fuel` bounds the number of handles. -/
def releaseWith : Nat → List Slot → Store → Store
  | 0, _, s => s
  | _ + 1, [], s => s
  | fuel + 1, slot :: rest, s =>
    match slot with
    | .handle id =>
      match s.get? id with
      | none => releaseWith fuel rest s
      | some b =>
        -- the parts of a buffer that goes are next on the work list
        if b.count ≤ 1 then releaseWith fuel (b.payload.slots ++ rest) (s.erase id)
        else releaseWith fuel rest (s.modify id fun b => { b with count := b.count - 1 })
    | _ => releaseWith fuel rest s

/-- The number of slots inside all live buffers. -/
def slotCount (s : Store) : Nat :=
  (s.buffers.flatMap fun (_, b) => b.payload.slots).length

/-- Gives back the handles of a list of slots. Every slot of the list and every slot inside a
    buffer is visited at most once, which bounds the work. -/
def releaseAll (s : Store) (slots : List Slot) : Store :=
  releaseWith (slots.length + s.slotCount + 1) slots s

/-- Gives back the handle of one slot. -/
def release (s : Store) (slot : Slot) : Store :=
  s.releaseAll [slot]

/-- A new buffer with one handle to it, which is the result. -/
def alloc (payload : Payload) : StateM Store Slot := fun s =>
  (.handle s.next, ⟨(s.next, ⟨1, payload⟩) :: s.buffers, s.next + 1⟩)

/-! ### Values and slots -/

mutual

/-- Puts a value into new buffers, one for each of its containers and closures. -/
def build : Value → StateM Store Slot
  | .null => return .null
  | .int i => return .int i
  | .float x => return .float x
  | .bool b => return .bool b
  | .str _ s => alloc (.str s)
  | .list _ items => do alloc (.list (← buildItems items))
  | .map _ entries => do alloc (.map (← buildEntries entries))
  | .record _ type fields => do alloc (.record type (← buildItems fields))
  | .func _ block bindings => do alloc (.func block (← buildItems bindings))
  | .module m => return .module m
  | .host n => return .host n
  | .error message => return .error message
  | .moved => return .moved

/-- Puts every value of a list into new buffers. -/
def buildItems : List Value → StateM Store (List Slot)
  | [] => return []
  | v :: rest => do
    let slot ← build v
    return slot :: (← buildItems rest)

/-- Puts every value of a map into new buffers. -/
def buildEntries : List (Key × Value) → StateM Store (List (Key × Slot))
  | [] => return []
  | (k, v) :: rest => do
    let slot ← build v
    return (k, slot) :: (← buildEntries rest)

end

/-- A handle to buffer `id`: one more handle if the buffer is live, else a new buffer of that
    number whose contents are made by `contents`. -/
def shareOr (id : BufferId) (contents : StateM Store Payload) : StateM Store Slot := do
  if ((← get).get? id).isSome then
    modifyThe Store (·.retain (.handle id))
  else
    let payload ← contents
    modifyThe Store fun s =>
      { s with buffers := (id, ⟨1, payload⟩) :: s.buffers, next := max s.next (id + 1) }
  return .handle id

mutual

/-- A slot for a value whose live buffers are shared and whose other buffers are new. -/
def adopt : Value → StateM Store Slot
  | .null => return .null
  | .int i => return .int i
  | .float x => return .float x
  | .bool b => return .bool b
  | .str id s => shareOr id (return .str s)
  | .list id items => shareOr id (.list <$> adoptItems items)
  | .map id entries => shareOr id (.map <$> adoptEntries entries)
  | .record id type fields => shareOr id (.record type <$> adoptItems fields)
  | .func id block bindings => shareOr id (.func block <$> adoptItems bindings)
  | .module m => return .module m
  | .host n => return .host n
  | .error message => return .error message
  | .moved => return .moved

/-- Slots for a list of values. -/
def adoptItems : List Value → StateM Store (List Slot)
  | [] => return []
  | v :: rest => do
    let slot ← adopt v
    return slot :: (← adoptItems rest)

/-- Slots for the values of a map. -/
def adoptEntries : List (Key × Value) → StateM Store (List (Key × Slot))
  | [] => return []
  | (k, v) :: rest => do
    let slot ← adopt v
    return (k, slot) :: (← adoptEntries rest)

end

/-- The value of a slot, following handles at most `fuel` deep. -/
def readWith (s : Store) : Nat → Slot → Value
  | _, .null => .null
  | _, .int i => .int i
  | _, .float x => .float x
  | _, .bool b => .bool b
  | _, .module m => .module m
  | _, .host n => .host n
  | _, .error message => .error message
  | _, .moved => .moved
  | 0, .handle _ => .null
  | fuel + 1, .handle id =>
    match s.get? id with
    | none => .null
    | some b =>
      match b.payload with
      | .str text => .str id text
      | .list items => .list id (items.map (readWith s fuel))
      | .map entries => .map id (entries.map fun (k, slot) => (k, readWith s fuel slot))
      | .record type fields => .record id type (fields.map (readWith s fuel))
      | .func block bindings => .func id block (bindings.map (readWith s fuel))

/-- The value that a slot stands for. No buffer holds itself, so the number of live buffers
    bounds the depth. -/
def read (s : Store) (slot : Slot) : Value :=
  readWith s s.buffers.length slot

/-! ### Writing -/

/-- Makes the buffer behind a handle exclusively owned: a shared one gives one handle back and
    is duplicated, which adds a handle to everything inside. The result is the buffer to write. -/
def touch (id : BufferId) : StateM Store BufferId := do
  match (← get).get? id with
  | some b =>
    -- closures are never written through a cell, so they stay shared
    if 1 < b.count && !b.payload.isFunc then
      modifyThe Store fun s =>
        -- the copy holds the same parts, each of which gets one more handle
        (s.modify id fun b => { b with count := b.count - 1 }).retainAll b.payload.slots
      let new := (← get).next
      let _ ← alloc b.payload
      return new
    else return id
  | none => return id

/-- Makes a buffer exclusively owned as `touch` does, and a closure too. -/
def own (id : BufferId) : StateM Store BufferId := do
  match (← get).get? id with
  | some b =>
    if 1 < b.count then
      modifyThe Store fun s =>
        (s.modify id fun b => { b with count := b.count - 1 }).retainAll b.payload.slots
      let new := (← get).next
      let _ ← alloc b.payload
      return new
    else return id
  | none => return id

/-- Replaces the contents of a buffer. -/
def write (id : BufferId) (payload : Payload) : StateM Store Unit :=
  modifyThe Store (·.modify id fun b => { b with payload := payload })

end Store

end BlockMachine

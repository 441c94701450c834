import BlockMachine.Sharing.Store
import BlockMachine.Value.Cast

namespace BlockMachine

/-!
# Cells over shared buffers

An array of cells whose values share buffers, with the operations that a program has on them.
Copying a cell shares its buffer, moving and swapping pass handles on without counting, and
every write touches the written container first.

* `CellOp` lists the operations, `Cells.apply` performs one;
* `Cells.value` is the value of a cell.
-/

/-- An operation on cells, which are given by their position. -/
inductive CellOp where
  | set (i : Nat) (v : Value)
  | copy (i j : Nat)
  | move (i j : Nat)
  | swap (i j : Nat)
  | touch (i : Nat)
  | changeType (i : Nat) (ty : Ty)
  | cast (i : Nat) (ty : Ty) (j : Nat)
  | take (i : Nat)
  | setIndex (i n : Nat) (v : Value)
  | push (i : Nat) (v : Value)
  | pushCell (i j : Nat)
  | strPush (i : Nat) (s : String)
  | mapInsert (i : Nat) (k : Key) (v : Value)
  | recordSet (i n : Nat) (v : Value)

/-- What an operation reports. -/
inductive CellResult where
  | done
  | flag (b : Bool)
  | value (v : Value)
  | replaced (old : Option Value)
  | failed (e : CastError)

/-- Cells with the store of their buffers. -/
structure Cells where
  store : Store := {}
  cells : List Slot := []

namespace Cells

/-- Computations on cells. -/
abbrev Action := StateM Cells

/-- Runs a computation on the store. -/
def onStore {α : Type} (f : StateM Store α) : Action α := fun c =>
  let (a, store) := f c.store
  (a, { c with store := store })

/-- What a cell holds; a cell that does not exist is null. -/
def slot (c : Cells) (i : Nat) : Slot :=
  c.cells[i]?.getD .null

/-- The value of a cell. -/
def value (c : Cells) (i : Nat) : Value :=
  c.store.read (c.slot i)

/-- Overwrites a cell without counting. -/
def putSlot (i : Nat) (slot : Slot) : Action Unit :=
  modifyThe Cells fun c => { c with cells := c.cells.set i slot }

/-- Gives a handle back. -/
def release (slot : Slot) : Action Unit :=
  onStore (modifyThe Store (·.release slot))

/-- Stores a slot in a cell, giving the cell's old handle back. -/
def assign (i : Nat) (slot : Slot) : Action Unit := do
  let old := (← get).slot i
  putSlot i slot
  release old

/-- The contents of the buffer that cell `i` holds, made exclusively owned, when `wanted`
    accepts them. -/
def writable (i : Nat) (wanted : Payload → Bool) : Action (Option (BufferId × Payload)) := do
  match (← get).slot i with
  | .handle id =>
    match (← get).store.get? id with
    | some b =>
      if wanted b.payload then
        let id ← onStore (Store.touch id)
        putSlot i (.handle id)
        return some (id, b.payload)
      else return none
    | none => return none
  | _ => return none

/-- Whether contents are a list or a record. -/
def isIndexed : Payload → Bool
  | .list _ | .record .. => true
  | _ => false

/-- Whether contents are a list. -/
def isList : Payload → Bool
  | .list _ => true
  | _ => false

/-- Whether contents are a record. -/
def isRecord : Payload → Bool
  | .record .. => true
  | _ => false

/-- Whether contents are a map. -/
def isMap : Payload → Bool
  | .map _ => true
  | _ => false

/-- Whether contents are a string. -/
def isStr : Payload → Bool
  | .str _ => true
  | _ => false

/-- Writes position `n` of the list or record in cell `i`, which is touched even when the
    position is out of range. -/
def writeIndex (wanted : Payload → Bool) (i n : Nat) (new : Slot) : Action CellResult := do
  match ← writable i wanted with
  | some (id, payload) =>
    match payload.slots[n]? with
    | some old =>
      let slots := payload.slots.set n new
      match payload with
      | .list _ => onStore (Store.write id (.list slots))
      | .record type _ => onStore (Store.write id (.record type slots))
      | _ => pure ()
      release old
      return .flag true
    | none =>
      release new
      return .flag false
  | none =>
    release new
    return .flag false

/-- Appends a slot to the list in cell `i`. -/
def append (i : Nat) (new : Slot) : Action CellResult := do
  match ← writable i isList with
  | some (id, payload) =>
    onStore (Store.write id (.list (payload.slots ++ [new])))
    return .flag true
  | none =>
    release new
    return .flag false

/-- Performs one operation. -/
def apply : CellOp → Action CellResult
  | .set i v => do
    assign i (← onStore (Store.build v))
    return .done
  | .copy i j => do
    let slot := (← get).slot i
    onStore (modifyThe Store (·.retain slot))
    assign j slot
    return .done
  | .move i j => do
    let slot := (← get).slot i
    -- the mark is left first, so a move onto itself ends with the value
    putSlot i .moved
    assign j slot
    return .done
  | .swap i j => do
    let a := (← get).slot i
    let b := (← get).slot j
    putSlot i b
    putSlot j a
    return .done
  | .touch i => do
    let _ ← writable i (!·.isFunc)
    return .done
  | .changeType i ty => do
    let initial := (ty.initial (← get).store.next).1
    assign i (← onStore (Store.build initial))
    return .done
  | .cast i ty j => do
    let c ← get
    -- parts that the cast kept are shared with the source cell, the others are new
    match ty.cast (c.value i) c.store.next with
    | .ok (v, _) =>
      assign j (← onStore (Store.adopt v))
      return .done
    | .error e => return .failed e
  | .take i => do
    let c ← get
    let v := c.value i
    putSlot i .moved
    release (c.slot i)
    return .value v
  | .setIndex i n v => do
    writeIndex isIndexed i n (← onStore (Store.build v))
  | .push i v => do
    append i (← onStore (Store.build v))
  | .pushCell i j => do
    let slot := (← get).slot j
    onStore (modifyThe Store (·.retain slot))
    append i slot
  | .strPush i s => do
    match ← writable i isStr with
    | some (id, .str text) =>
      onStore (Store.write id (.str (text ++ s)))
      return .flag true
    | _ => return .flag false
  | .mapInsert i k v => do
    -- the new value is built first and given back if the cell holds no map
    let new ← onStore (Store.build v)
    match ← writable i isMap with
    | some (id, .map entries) =>
      let old := Entries.get? k entries
      onStore (Store.write id (.map (Entries.insert k new entries)))
      match old with
      | some slot =>
        let v := (← get).store.read slot
        release slot
        return .replaced (some v)
      | none => return .replaced none
    | _ =>
      release new
      return .flag false
  | .recordSet i n v => do
    writeIndex isRecord i n (← onStore (Store.build v))

/-- Cells that hold the given values, each in buffers of its own. -/
def ofValues (values : List Value) : Cells :=
  let (slots, store) := Store.buildItems values {}
  ⟨store, slots⟩

end Cells

end BlockMachine

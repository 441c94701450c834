import BlockMachine.Sharing.Cells

namespace BlockMachine

/-!
# Cells that share nothing

The same operations on cells that each own a deep copy of their value: an operation changes its
target cells and nothing else. Buffers do not exist here, so values are taken with all buffer
numbers erased.

* `Value.erase` forgets the buffer numbers of a value;
* `Plain.apply` performs one operation on a list of values.
-/

namespace Value

mutual

/-- The value with every buffer number set to zero. -/
def erase : Value → Value
  | str _ s => str 0 s
  | list _ items => list 0 (eraseItems items)
  | map _ entries => map 0 (eraseEntries entries)
  | record _ type fields => record 0 type (eraseItems fields)
  | func _ block bindings => func 0 block (eraseItems bindings)
  | v => v

/-- Erases the buffer numbers of a list of values. -/
def eraseItems : List Value → List Value
  | [] => []
  | v :: rest => erase v :: eraseItems rest

/-- Erases the buffer numbers of the values of a map. -/
def eraseEntries : List (Key × Value) → List (Key × Value)
  | [] => []
  | (k, v) :: rest => (k, erase v) :: eraseEntries rest

end

end Value

namespace Plain

/-- The value of a cell; a cell that does not exist is null. -/
def value (cells : List Value) (i : Nat) : Value :=
  cells[i]?.getD .null

/-- Performs one operation on cells that own their values. -/
def apply (cells : List Value) : CellOp → List Value
  | .set i v => cells.set i v.erase
  | .copy i j => cells.set j (value cells i)
  | .move i j => (cells.set i .moved).set j (value cells i)
  | .swap i j => (cells.set i (value cells j)).set j (value cells i)
  -- exclusive ownership cannot be seen in a tree
  | .touch _ => cells
  | .changeType i ty => cells.set i (ty.initial 0).1.erase
  | .cast i ty j =>
    match ty.cast (value cells i) 0 with
    | .ok (v, _) => cells.set j v.erase
    | .error _ => cells
  | .take i => cells.set i .moved
  | .setIndex i n v =>
    match value cells i with
    | .list b items => cells.set i (.list b (items.set n v.erase))
    | .record b type fields => cells.set i (.record b type (fields.set n v.erase))
    | _ => cells
  | .push i v =>
    match value cells i with
    | .list b items => cells.set i (.list b (items ++ [v.erase]))
    | _ => cells
  | .pushCell i j =>
    match value cells i with
    | .list b items => cells.set i (.list b (items ++ [value cells j]))
    | _ => cells
  | .strPush i s =>
    match value cells i with
    | .str b text => cells.set i (.str b (text ++ s))
    | _ => cells
  | .mapInsert i k v =>
    match value cells i with
    | .map b entries => cells.set i (.map b (Entries.insert k v.erase entries))
    | _ => cells
  | .recordSet i n v =>
    match value cells i with
    | .record b type fields => cells.set i (.record b type (fields.set n v.erase))
    | _ => cells

end Plain

end BlockMachine

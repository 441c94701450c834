import BlockMachine.Value.Key
import BlockMachine.Value.Type

namespace BlockMachine

/-!
# Values

Strings, lists, maps and records live in buffers that several holders may share, and closures
are shared likewise. A `Value` is the tree of its contents in which every shared node carries
the number of its buffer: two nodes with one number are the same buffer. A buffer is never
changed under its number; writing makes a node with a fresh number.

* `Value` is the type of values, `Fresh` hands out buffer numbers;
* `Value.type` is the type of a value;
* `Value.length?` and `Value.item?` are the view of a container by position.
-/

/-- The number of a buffer. -/
abbrev BufferId := Nat

/-- A value. `host` is a pointer of the host, told apart by its number; `moved` is left behind
    in a cell whose value was moved away. -/
inductive Value where
  | null
  | int (i : Int64)
  | float (x : Float)
  | bool (b : Bool)
  | str (id : BufferId) (s : String)
  | list (id : BufferId) (items : List Value)
  | map (id : BufferId) (entries : List (Key × Value))
  | record (id : BufferId) (type : RecordType) (fields : List Value)
  | func (id : BufferId) (block : BlockId) (bindings : List Value)
  | module (m : ModuleType)
  | host (n : Nat)
  | error (message : String)
  | moved

/-- Computations that take buffer numbers from a supply. -/
abbrev Fresh := StateM BufferId

/-- The next unused buffer number. -/
def fresh {m : Type → Type} [Monad m] : StateT BufferId m BufferId := fun next =>
  pure (next, next + 1)

namespace Value

instance : Inhabited Value := ⟨null⟩

/-! ### Values in new buffers -/

/-- A string in a new buffer. -/
def newStr (s : String) : Fresh Value := return str (← fresh) s

/-- A list in a new buffer. -/
def newList (items : List Value) : Fresh Value := return list (← fresh) items

/-- A map in a new buffer. -/
def newMap (entries : List (Key × Value)) : Fresh Value := return map (← fresh) entries

/-- A record in a new buffer. -/
def newRecord (type : RecordType) (fields : List Value) : Fresh Value :=
  return record (← fresh) type fields

/-- A new closure. -/
def newFunc (block : BlockId) (bindings : List Value) : Fresh Value :=
  return func (← fresh) block bindings

/-! ### Types and tags -/

/-- The number of a value's kind. -/
def tag : Value → Nat
  | null => 0
  | int _ => 1
  | float _ => 2
  | bool _ => 3
  | str .. => 4
  | list .. => 5
  | map .. => 6
  | record .. => 7
  | func .. => 8
  | module _ => 9
  | host _ => 10
  | error _ => 11
  | moved => 12

/-- The name of a value's kind. -/
def tagName : Value → String
  | null => "Null"
  | int _ => "Int"
  | float _ => "Float"
  | bool _ => "Bool"
  | str .. => "Str"
  | list .. => "List"
  | map .. => "Map"
  | record .. => "Record"
  | func .. => "Func"
  | module _ => "Module"
  | host _ => "Opaque"
  | error _ => "Error"
  | moved => "Moved"

/-- The type of a value. -/
def type : Value → Ty
  | null => .basic .null
  | int _ => .basic .int
  | float _ => .basic .float
  | bool _ => .basic .bool
  | str .. => .basic .string
  | list .. => .basic .list
  | map .. => .basic .map
  | record _ r _ => .record r
  | func .. => .basic .func
  | module m => .module m
  | host _ => .basic .host
  | error _ => .basic .error
  | moved => .basic .moved

/-- The number of a value's type, by which methods are found. -/
def typeId (v : Value) : TypeId := v.type.id

/-- The name of a value's type. -/
def typeName (v : Value) : String := v.type.name

/-- Whether a value is null. -/
def isNull : Value → Bool
  | null => true
  | _ => false

/-- Whether a value was moved away. -/
def isMoved : Value → Bool
  | moved => true
  | _ => false

/-! ### Parts -/

/-- The integer of an integer value. -/
def int? : Value → Option Int64
  | int i => some i
  | _ => none

/-- The float nearest to an integer. -/
def floatOfInt (i : Int64) : Float :=
  if i < 0 then -(UInt64.toFloat (0 - i.toUInt64)) else UInt64.toFloat i.toUInt64

/-- The number of a value as a float; integers are widened. -/
def float? : Value → Option Float
  | float x => some x
  | int i => some (floatOfInt i)
  | _ => none

/-- The truth value of a boolean. -/
def bool? : Value → Option Bool
  | bool b => some b
  | _ => none

/-- The text of a string. -/
def str? : Value → Option String
  | str _ s => some s
  | _ => none

/-- The items of a list. -/
def list? : Value → Option (List Value)
  | list _ items => some items
  | _ => none

/-- The entries of a map. -/
def map? : Value → Option (List (Key × Value))
  | map _ entries => some entries
  | _ => none

/-- The block and the bindings of a closure. -/
def func? : Value → Option (BlockId × List Value)
  | func _ block bindings => some (block, bindings)
  | _ => none

/-- The fields of a record. -/
def fields? : Value → Option (List Value)
  | record _ _ fields => some fields
  | _ => none

/-- The buffer of a string, list, map or record. -/
def buffer? : Value → Option BufferId
  | str id _ => some id
  | list id _ => some id
  | map id _ => some id
  | record id _ _ => some id
  | _ => none

/-- The number of characters, items, entries or fields. -/
def length? : Value → Option Nat
  | str _ s => some s.length
  | list _ items => some items.length
  | map _ entries => some entries.length
  | record _ _ fields => some fields.length
  | _ => none

/-- The part at a position: a character as a string of its own, an item, the value of an entry
    or a field. -/
def item? (v : Value) (i : Nat) : Fresh (Option Value) :=
  match v with
  | str _ s =>
    match s.toList[i]? with
    | some c => some <$> newStr c.toString
    | none => return none
  | list _ items => return items[i]?
  | map _ entries => return (entries[i]?).map (·.2)
  | record _ _ fields => return fields[i]?
  | _ => return none

/-- The key that a string, integer or boolean stands for. -/
def key? : Value → Option Key
  | str _ s => some (.name s)
  | int i => some (.index i)
  | bool b => some (.bool b)
  | _ => none

end Value

/-- The value that a key stands for. -/
def Key.toValue : Key → Fresh Value
  | name s => Value.newStr s
  | index i => return .int i
  | bool b => return .bool b

end BlockMachine

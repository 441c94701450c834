import BlockMachine.State.Saved
import BlockMachine.Json.Number

namespace BlockMachine

/-!
# The JSON format of saved state

A saved value is an object with a `type` and a `value`; null has no value. Reading takes the two
members in either order and skips others, and also takes a two-item array. A value in front of
its type is kept aside until the type is known, and inside it the type may be spelled in more
ways. A text nests at most 127 arrays and objects.

* `Saved.toJson` and `Saved.ofJson?` convert between saved values and JSON trees;
* `Saved.Origin` tells values read straight from the text from those that were kept aside;
* `toJsonText` and `ofJsonText` convert between values and texts.
-/

/-- Floats are written positionally from `1e-5` up to below `1e16`, and otherwise with a signed
    exponent. A float without digits is written as null. -/
def savedFloat : FloatLayout where
  least := -5
  limit := 16
  plusSign := true
  tie := .even
  nan := "null"
  infinite _ := "null"

namespace Saved

/-! ### Writing -/

/-- A key is written as itself. -/
def keyJson : Key → JsonTree
  | .name s => .text s
  | .index i => .number (toString i.toInt)
  | .bool b => .bool b

/-- An object with a type and a value. -/
def tagged (type : String) (v : JsonTree) : JsonTree :=
  .object [(some "type", .text type), (some "value", v)]

mutual

/-- The JSON tree of a saved value. -/
def toJson : Saved → JsonTree
  | null => .object [(some "type", .text "null")]
  | int i => tagged "int" (.number (toString i.toInt))
  | float x =>
    tagged "float" (if x.isFinite then .number (savedFloat.write x) else .null)
  | bool b => tagged "bool" (.bool b)
  | str s => tagged "str" (.text s)
  | list items => tagged "list" (.array (itemsJson items))
  | map entries => tagged "map" (.array (entriesJson entries))
  | record name fields =>
    tagged "record"
      (.object [(some "name", .text name), (some "fields", .array (itemsJson fields))])
  | error message => tagged "error" (.text message)

/-- The JSON trees of a list of saved values. -/
def itemsJson : List Saved → List JsonTree
  | [] => []
  | v :: rest => toJson v :: itemsJson rest

/-- The entries of a map as pairs. -/
def entriesJson : List (Key × Saved) → List JsonTree
  | [] => []
  | (k, v) :: rest => .array [keyJson k, toJson v] :: entriesJson rest

end

/-! ### Reading -/

mutual

/-- Whether a tree can be kept aside while the type of a value is not known yet: all numbers in
    range, no broken string, and at most `depth` levels. -/
def isKeepable (depth : Nat) : JsonTree → Bool
  | .null | .bool _ | .text _ => true
  | .number spelling =>
    match JsonNumber.ofSpelling spelling with
    | .outOfRange => false
    | _ => true
  | .broken => false
  | .array items => 0 < depth && areKeepable (depth - 1) items
  | .object members => 0 < depth && membersKeepable (depth - 1) members

/-- Whether all trees of a list can be kept aside. -/
def areKeepable (depth : Nat) : List JsonTree → Bool
  | [] => true
  | v :: rest => isKeepable depth v && areKeepable depth rest

/-- Whether all members of an object can be kept aside. -/
def membersKeepable (depth : Nat) : List (Option String × JsonTree) → Bool
  | [] => true
  | (name, v) :: rest => name.isSome && isKeepable depth v && membersKeepable depth rest

end

/-- Where the tree of a value comes from: straight from the text, or from a value that was kept
    aside until its type was known. -/
inductive Origin where
  | text
  | kept
  deriving DecidableEq, Repr

/-- The types of saved values, in the order in which a number selects one. -/
def typeNames : List String :=
  ["null", "int", "float", "bool", "str", "list", "map", "record", "error"]

/-- The type in the member `type`: a string, or an object whose one member has that name and is
    null. In a kept value that member may also be an empty object. -/
def memberTag? (origin : Origin) (depth : Nat) : JsonTree → Option String
  | .text s => some s
  | .object [(some s, .null)] => if 0 < depth then some s else none
  | .object [(some s, .object [])] => if origin = .kept then some s else none
  | _ => none

/-- The type at the front of a two-item array: a string, or in a kept value also the position of
    the type among all types. -/
def itemTag? (origin : Origin) : JsonTree → Option String
  | .text s => some s
  | .number spelling =>
    match origin, JsonNumber.ofSpelling spelling with
    | .kept, .natural n => typeNames[n]?
    | _, _ => none
  | _ => none

/-- A key: a string, a 64-bit integer or a boolean. -/
def key? : JsonTree → Option Key
  | .text s => some (.name s)
  | .number spelling => (JsonNumber.ofSpelling spelling).int?.map .index
  | .bool b => some (.bool b)
  | _ => none

/-- The members of an object with a given name, by their position. -/
def named (name : String) (members : List (Option String × JsonTree)) : List Nat :=
  (List.range members.length).filter fun i => (members[i]?.bind (·.1)) == some name

/-- The type of an object, and where its value comes from: a value in front of the type is kept
    aside first. -/
def header? (origin : Origin) (depth : Nat) (members : List (Option String × JsonTree)) :
    Option (String × Origin) := do
  if !members.all (·.1.isSome) then none
  let [t] := named "type" members | none
  let tag ← memberTag? origin depth (← members[t]?).2
  match named "value" members with
  | [] => if tag == "null" then some (tag, origin) else none
  | [v] =>
    if t < v then some (tag, origin)
    else if isKeepable depth (← members[v]?).2 then some (tag, .kept)
    else none
  | _ => none

mutual

/-- Reads a saved value from a tree of at most `depth` levels. -/
def ofJson? (origin : Origin) (depth : Nat) : JsonTree → Option Saved
  | .object members => do
    if depth = 0 then none
    let (tag, source) ← header? origin (depth - 1) members
    ofMembers? source (depth - 1) tag members
  | .array [t, v] => do
    if depth = 0 then none
    content? origin (depth - 1) (← itemTag? origin t) v
  | _ => none

/-- Reads the member named `value`; without one the value is null. -/
def ofMembers? (origin : Origin) (depth : Nat) (tag : String) :
    List (Option String × JsonTree) → Option Saved
  | [] => some .null
  | (name, v) :: rest =>
    if name == some "value" then content? origin depth tag v
    else ofMembers? origin depth tag rest

/-- Reads the contents of a value of a given type. -/
def content? (origin : Origin) (depth : Nat) (tag : String) : JsonTree → Option Saved
  | .null => if tag == "null" then some .null else none
  | .bool b => if tag == "bool" then some (.bool b) else none
  | .number spelling =>
    let n := JsonNumber.ofSpelling spelling
    if tag == "int" then n.int?.map .int
    else if tag == "float" then n.float?.map .float
    else none
  | .text s =>
    if tag == "str" then some (.str s)
    else if tag == "error" then some (.error s)
    else none
  | .broken => none
  | .array items =>
    if depth = 0 then none
    else if tag == "list" then (ofItems? origin (depth - 1) items).map .list
    else if tag == "map" then (ofPairs? origin (depth - 1) items).map .map
    else none
  | .object members => do
    if depth = 0 then none
    if tag != "record" then none
    -- a key with a broken escape makes the object unreadable
    if !members.all (·.1.isSome) then none
    -- each member stands there once
    let [n] := named "name" members | none
    let [_] := named "fields" members | none
    let (_, .text name) ← members[n]? | none
    let fields ← ofFields? origin (depth - 1) members
    return .record name fields

/-- Reads the member named `fields`. -/
def ofFields? (origin : Origin) (depth : Nat) :
    List (Option String × JsonTree) → Option (List Saved)
  | [] => none
  | (name, .array items) :: rest =>
    if name == some "fields" then
      if depth = 0 then none else ofItems? origin (depth - 1) items
    else ofFields? origin depth rest
  | (name, _) :: rest => if name == some "fields" then none else ofFields? origin depth rest

/-- Reads a list of saved values. -/
def ofItems? (origin : Origin) (depth : Nat) : List JsonTree → Option (List Saved)
  | [] => some []
  | v :: rest => do
    let v ← ofJson? origin depth v
    return v :: (← ofItems? origin depth rest)

/-- Reads a list of pairs. -/
def ofPairs? (origin : Origin) (depth : Nat) : List JsonTree → Option (List (Key × Saved))
  | [] => some []
  | .array [k, v] :: rest => do
    if depth = 0 then none
    let k ← key? k
    let v ← ofJson? origin (depth - 1) v
    return (k, v) :: (← ofPairs? origin depth rest)
  | _ :: _ => none

end

end Saved

/-- The greatest number of nested arrays and objects that a text may have. -/
def maxNesting : Nat := 127

/-- The JSON text of a value. -/
def toJsonText (v : Value) : Except StateError String := do
  let saved ← Saved.ofValue v
  return saved.toJson.pretty

/-- The value of a JSON text; record types are looked up by name. -/
def ofJsonText (types : Registry) (text : String) : StateT BufferId (Except StateError) Value :=
  match (JsonTree.parse? text).bind (Saved.ofJson? .text maxNesting) with
  | some saved => saved.toValue types
  | none => throw .syntaxError

end BlockMachine

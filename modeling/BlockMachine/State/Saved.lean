import BlockMachine.Value.Registry
import BlockMachine.Value.Text

namespace BlockMachine

/-!
# Saved state

The part of a value that can be written down: everything but functions, modules, host pointers
and moved values. Record types are saved by name.

* `Saved.ofValue` takes a value apart, `Saved.toValue` builds it again;
* `StateError` says what can go wrong.
-/

/-- Why a state tree could not be saved or loaded. -/
inductive StateError where
  | notPersistable (type : String)
  | unknownType (name : String)
  | cast (e : CastError)
  /-- The text is not the JSON text of a saved value. -/
  | syntaxError
  /-- There is no text to read. -/
  | missing
  deriving DecidableEq, Repr

/-- The wording of a state error, where this library words it. -/
def StateError.message? : StateError → Option String
  | notPersistable type => some (type ++ " values can't be persisted")
  | unknownType name => some ("unknown record type '" ++ name ++ "'")
  | cast e => some e.message
  | syntaxError => none
  | missing => none

/-- The name of an error's kind, by which a host tells errors apart. -/
def StateError.kind : StateError → String
  | notPersistable _ => "NotPersistable"
  | unknownType _ => "UnknownType"
  | cast _ => "Cast"
  | syntaxError => "Json"
  | missing => "Io"

/-- A value that can be written down. -/
inductive Saved where
  | null
  | int (i : Int64)
  | float (x : Float)
  | bool (b : Bool)
  | str (s : String)
  | list (items : List Saved)
  | map (entries : List (Key × Saved))
  | record (name : String) (fields : List Saved)
  | error (message : String)

namespace Saved

mutual

/-- The saved form of a value. -/
def ofValue : Value → Except StateError Saved
  | .null => return .null
  | .int i => return .int i
  | .float x => return .float x
  | .bool b => return .bool b
  | .str _ s => return .str s
  | .list _ items => return .list (← ofItems items)
  | .map _ entries => return .map (← ofEntries entries)
  | .record _ r fields => return .record r.name (← ofItems fields)
  | .error message => return .error message
  | .func .. => throw (.notPersistable Builtin.func.name)
  | .module m => throw (.notPersistable m.name)
  | .host _ => throw (.notPersistable Builtin.host.name)
  | .moved => throw (.notPersistable Builtin.moved.name)

/-- The saved forms of a list of values. -/
def ofItems : List Value → Except StateError (List Saved)
  | [] => return []
  | v :: rest => do
    let v ← ofValue v
    return v :: (← ofItems rest)

/-- The saved forms of the entries of a map. -/
def ofEntries : List (Key × Value) → Except StateError (List (Key × Saved))
  | [] => return []
  | (k, v) :: rest => do
    let v ← ofValue v
    return (k, v) :: (← ofEntries rest)

end

mutual

/-- The value of a saved form. A record's type is the one now declared under its name, and is
    found before its fields are built. -/
def toValue (types : Registry) : Saved → StateT BufferId (Except StateError) Value
  | null => return .null
  | int i => return .int i
  | float x => return .float x
  | bool b => return .bool b
  | str s => return .str (← fresh) s
  | list items => do
    let items ← toItems types items
    return .list (← fresh) items
  | map entries => do
    let entries ← toEntries types entries
    return .map (← fresh) (Entries.ofList entries)
  | record name fields => do
    match (types.byName? name).filter (·.isRecord) with
    | none => throw (.unknownType name)
    | some ty =>
      let fields ← toItems types fields
      let plain := Value.list (← fresh) fields
      fun next =>
        match ty.cast plain next with
        | .ok result => .ok result
        | .error e => .error (.cast e)
  | error message => return .error message

/-- The values of a list of saved forms. -/
def toItems (types : Registry) : List Saved → StateT BufferId (Except StateError) (List Value)
  | [] => return []
  | v :: rest => do
    let v ← toValue types v
    return v :: (← toItems types rest)

/-- The entries of a map of saved forms. -/
def toEntries (types : Registry) :
    List (Key × Saved) → StateT BufferId (Except StateError) (List (Key × Value))
  | [] => return []
  | (k, v) :: rest => do
    let v ← toValue types v
    return (k, v) :: (← toEntries types rest)

end

end Saved

end BlockMachine

import BlockMachine.Value.Registry

namespace BlockMachine

/-!
# Literals

A `Literal` is a written value: records and initial values name their type, modules are given
by the order of their creation. Evaluating it looks the names up and puts every container into
a buffer of its own.
-/

/-- A written value. -/
inductive Literal where
  | null
  | int (i : Int64)
  | float (x : Float)
  | bool (b : Bool)
  | str (s : String)
  | list (items : List Literal)
  | map (entries : List (Key × Literal))
  | record (type : String) (fields : List Literal)
  | func (block : BlockId) (bindings : List Literal)
  | error (message : String)
  | moved
  | host (n : Nat)
  | module (index : Nat)
  | initial (type : String)

/-- What the names in a literal stand for. -/
structure Scope where
  registry : Registry
  modules : List ModuleType

namespace Scope

/-- The type under a name, or the reason why there is none. -/
def type (scope : Scope) (name : String) : Except String Ty :=
  match scope.registry.byName? name with
  | some ty => .ok ty
  | none => .error s!"no type '{name}'"

end Scope

namespace Literal

mutual

/-- The value of a literal, or the reason why it has none. -/
def eval (scope : Scope) : Literal → StateT BufferId (Except String) Value
  | null => return .null
  | int i => return .int i
  | float x => return .float x
  | bool b => return .bool b
  | str s => return .str (← fresh) s
  | list items => do
    let items ← evalItems scope items
    return .list (← fresh) items
  | map entries => do
    let entries ← evalEntries scope entries
    return .map (← fresh) (Entries.ofList entries)
  | record name fields => do
    let ty ← scope.type name
    let fields ← evalItems scope fields
    -- a record is cast from a list of its fields
    let plain := Value.list (← fresh) fields
    fun next =>
      match ty.cast plain next with
      | .ok result => .ok result
      | .error e => .error e.message
  | func block bindings => do
    let bindings ← evalItems scope bindings
    return .func (← fresh) block bindings
  | error message => return .error message
  | moved => return .moved
  | host n => return .host n
  | module index =>
    match scope.modules[index]? with
    | some m => return .module m
    | none => throw s!"no module {index}"
  | initial name => do
    let ty ← scope.type name
    fun next => .ok (ty.initial next)

/-- The values of a list of literals. -/
def evalItems (scope : Scope) : List Literal → StateT BufferId (Except String) (List Value)
  | [] => return []
  | v :: rest => do
    let v ← eval scope v
    return v :: (← evalItems scope rest)

/-- The values of the entries of a map. -/
def evalEntries (scope : Scope) :
    List (Key × Literal) → StateT BufferId (Except String) (List (Key × Value))
  | [] => return []
  | (k, v) :: rest => do
    let v ← eval scope v
    return (k, v) :: (← evalEntries scope rest)

end

end Literal

end BlockMachine

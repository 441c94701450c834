namespace BlockMachine

/-!
# Types

Every value has a type. Thirteen types are built in; records and modules are declared later and
carry their number, so two declarations of one name stay apart.

* `Builtin` lists the built-in types in the order of their numbers;
* `Ty` is a type: built in, a record or the private type of a module;
* `Ty.id` and `Ty.name` are its number and its name.
-/

/-- The number of a type. -/
abbrev TypeId := Nat

/-- The number of a block. -/
abbrev BlockId := Nat

/-- The built-in types, in the order of their numbers. -/
inductive Builtin where
  | null
  | int
  | float
  | bool
  | string
  | list
  | map
  | func
  | module
  | host
  | error
  | any
  | moved
  deriving DecidableEq, Repr

namespace Builtin

/-- All built-in types, each at the index of its number. -/
def all : List Builtin :=
  [null, int, float, bool, string, list, map, func, module, host, error, any, moved]

/-- The number of a built-in type. -/
def id (b : Builtin) : TypeId :=
  b.ctorIdx

/-- The name of a built-in type. -/
def name : Builtin → String
  | null => "null"
  | int => "int"
  | float => "float"
  | bool => "bool"
  | string => "string"
  | list => "list"
  | map => "map"
  | func => "func"
  | module => "module"
  | host => "opaque"
  | error => "error"
  | any => "any"
  | moved => "moved"

end Builtin

/-- A record declaration over field types `τ`: its number, its name and its named fields. -/
structure RecordOf (τ : Type) where
  id : TypeId
  name : String
  fields : List (String × τ)

/-- The private type of one module. -/
structure ModuleType where
  id : TypeId
  name : String
  deriving DecidableEq, Repr

/-- A type. The field types of a record are types declared before it. -/
inductive Ty where
  | basic (b : Builtin)
  | record (r : RecordOf Ty)
  | module (m : ModuleType)

/-- A record type. -/
abbrev RecordType := RecordOf Ty

namespace Ty

/-- The number of a type. -/
def id : Ty → TypeId
  | basic b => b.id
  | record r => r.id
  | module m => m.id

/-- The name of a type. -/
def name : Ty → String
  | basic b => b.name
  | record r => r.name
  | module m => m.name

/-- The declared fields of a record type; other types have none. -/
def fields : Ty → List (String × Ty)
  | record r => r.fields
  | _ => []

/-- Whether a type is a record type. -/
def isRecord : Ty → Bool
  | record _ => true
  | _ => false

/-- A type with its number, as shown in diagnostics. -/
def describe (ty : Ty) : String :=
  "Type(" ++ ty.name ++ " #" ++ toString ty.id ++ ")"

instance : Inhabited Ty := ⟨basic .null⟩

end Ty

end BlockMachine

import BlockMachine.Value.Cast

namespace BlockMachine

/-!
# Declared types

A `Registry` holds the built-in types and those declared since, each at the index of its
number, and the methods of every type. The latest declaration of a name wins.
-/

/-- The known types and their methods. -/
structure Registry where
  types : List Ty := Builtin.all.map .basic
  methods : List ((TypeId × String) × BlockId) := []

namespace Registry

/-- The number that the next declared type gets. -/
def nextId (r : Registry) : TypeId :=
  r.types.length

/-- Declares a record type. -/
def addRecord (r : Registry) (name : String) (fields : List (String × Ty)) :
    RecordType × Registry :=
  let type : RecordType := ⟨r.nextId, name, fields⟩
  (type, { r with types := r.types ++ [.record type] })

/-- Declares the private type of a module. -/
def addModule (r : Registry) (name : String) : ModuleType × Registry :=
  let type : ModuleType := ⟨r.nextId, name⟩
  (type, { r with types := r.types ++ [.module type] })

/-- The type with a number. -/
def get? (r : Registry) (id : TypeId) : Option Ty :=
  r.types[id]?

/-- The latest type declared under a name. -/
def byName? (r : Registry) (name : String) : Option Ty :=
  r.types.reverse.find? (·.name == name)

/-- Declares a method of a type, replacing an earlier one of the same name. -/
def addMethod (r : Registry) (id : TypeId) (name : String) (block : BlockId) : Registry :=
  { r with methods := ((id, name), block) :: r.methods }

/-- The block of a type's method. -/
def method? (r : Registry) (id : TypeId) (name : String) : Option BlockId :=
  r.methods.lookup (id, name)

end Registry

end BlockMachine

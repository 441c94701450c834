import BlockMachine.Value.Basic
import BlockMachine.Number.Shortest

namespace BlockMachine

/-!
# Initial values and casts

`Ty.initial` is the value a cell of a type starts with. `Ty.cast` turns a value into one of a
type: most types take only their own values, numbers convert when nothing is lost, records and
lists convert field by field, and `any` takes all but moved values.
-/

/-- Why a value could not be cast: the names of its type and of the target type. -/
structure CastError where
  source : String
  target : String
  deriving DecidableEq, Repr

/-- The wording of a cast error. -/
def CastError.message (e : CastError) : String :=
  "couldn't cast " ++ e.source ++ " to type " ++ e.target

namespace Ty

/-! ### Initial values -/

/-- The initial value of a built-in type. -/
def initialBasic : Builtin → Fresh Value
  | .int => return .int 0
  | .float => return .float 0.0
  | .bool => return .bool false
  | .string => Value.newStr ""
  | .list => Value.newList []
  | .map => Value.newMap []
  | .error => return .error ""
  | _ => return .null

mutual

/-- The value a cell of a type starts with. -/
def initial : Ty → Fresh Value
  | basic b => initialBasic b
  | record ⟨id, name, decls⟩ => do
    let fields ← initialFields decls
    Value.newRecord ⟨id, name, decls⟩ fields
  | module _ => return .null

/-- The initial values of a record's fields. -/
def initialFields : List (String × Ty) → Fresh (List Value)
  | [] => return []
  | (_, ty) :: rest => do
    let v ← initial ty
    return v :: (← initialFields rest)

end

/-! ### Casts -/

/-- The integer equal to a float, if there is one among the 64-bit integers. -/
def exactInt? (x : Float) : Option Int64 :=
  match Binary64.ofFloat x with
  | .finite negative m q =>
    if 0 ≤ q || m % Nat.pow 2 (-q).toNat == 0 then
      let size : Nat := m * Nat.pow 2 q.toNat / Nat.pow 2 (-q).toNat
      let n : Int := if negative then -(size : Int) else size
      if Int64.minValue.toInt ≤ n && n ≤ Int64.maxValue.toInt then some (Int64.ofInt n) else none
    else none
  | _ => none

/-- Casts to a built-in type. -/
def castBasic (b : Builtin) (v : Value) : StateT BufferId Option Value :=
  match b, v with
  | .any, .moved => failure
  | .any, v => return v
  | .moved, _ => failure
  | .int, .float x =>
    match exactInt? x with
    | some i => return .int i
    | none => failure
  | .float, .int i => return .float (Value.floatOfInt i)
  -- the fields become the items as they are, without a cast
  | .list, .record _ _ fields => return .list (← fresh) fields
  | .module, .module m => return .module m
  | b, v => if v.typeId = b.id then return v else failure

mutual

/-- Casts a value to a type, taking buffer numbers for new containers; `none` when the type does
    not accept the value. -/
def cast? : Ty → Value → StateT BufferId Option Value
  | basic b, v => castBasic b v
  | module m, v =>
    match v with
    | .module n => if n.id = m.id then return v else failure
    | _ => failure
  | record ⟨id, name, decls⟩, v =>
    match v with
    | .record b r fields =>
      -- a record of the type itself is taken as it is, its fields unchecked
      if r.id = id then return .record b r fields
      else do
        let cast ← castFields decls fields
        return .record (← fresh) ⟨id, name, decls⟩ cast
    | .list _ items => do
      let cast ← castFields decls items
      return .record (← fresh) ⟨id, name, decls⟩ cast
    | _ => failure

/-- Casts as many values as there are fields, each to its field's type. -/
def castFields : List (String × Ty) → List Value → StateT BufferId Option (List Value)
  | [], [] => return []
  | (_, ty) :: decls, v :: rest => do
    let w ← cast? ty v
    return w :: (← castFields decls rest)
  | _, _ => failure

end

/-- Casts a value to a type. -/
def cast (ty : Ty) (v : Value) : StateT BufferId (Except CastError) Value := fun next =>
  match cast? ty v next with
  | some result => .ok result
  | none => .error ⟨v.typeName, ty.name⟩

end Ty

end BlockMachine

import BlockMachine.Dispatch.Cache
import BlockMachine.World

namespace BlockMachine

/-!
# Method resolution

What a name means for a receiver: a method of its type comes first, then a member of a module or
an entry of a map.
-/

namespace World

/-- What a name means for a receiver, and the block it calls if it calls one. Whether a map has
    the entry is left to the send, because it differs between maps. -/
def resolve (w : World) (receiver : Value) (name : String) : Resolution × Option BlockId :=
  match w.registry.method? receiver.typeId name with
  | some block => (.method, some block)
  | none =>
    match receiver with
    | .module type =>
      match (w.module? type).bind (·.member? name) with
      | some (.function block) => (.moduleMember, some block)
      | some (.value _) => (.moduleMember, none)
      | none => (.notFound, none)
    | .map .. => (.mapKey, none)
    | _ => (.notFound, none)

/-- The resolution as a line to remember. -/
def resolvedLine (w : World) (receiver : Value) (name : String) : CacheLine :=
  let (kind, target) := w.resolve receiver name
  ⟨receiver.typeId, kind, target, w.epoch⟩

end World

end BlockMachine

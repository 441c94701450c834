import BlockMachine.Sharing.Store
import BlockMachine.State.Tree

namespace BlockMachine

/-!
# Closures pointed at another block, in place

`Value.rebind` for a value in a store. The containers and closures on the way to a closure over the old
block are made exclusively owned and changed where they are; all others are left alone.

* `Payload.rebound` are the contents of a buffer with other slots inside;
* `Store.rebind` points the closures in a slot at another block.
-/

namespace Payload

/-- The contents with nothing inside. -/
def emptied : Payload → Payload
  | str s => str s
  | list _ => list []
  | map _ => map []
  | record type _ => record type []
  | func block _ => func block []

/-- The contents with other slots inside, as a closure over `new` if it was one over `old`. -/
def rebound (old new : BlockId) (slots : List Slot) : Payload → Payload
  | str s => str s
  | list _ => list slots
  | map entries => map ((entries.map (·.1)).zip slots)
  | record type _ => record type slots
  | func block _ => func (if block = old then new else block) slots

end Payload

namespace Store

/-- Points the closures over `old` in a slot at `new`, following handles at most `fuel` deep. While what is
    inside a buffer is changed, it is taken out of the buffer. -/
def rebindWith (old new : BlockId) : Nat → Slot → StateM Store Slot
  | fuel + 1, .handle id => do
    if ((← get).read (.handle id)).refersTo old then
      let id ← own id
      match (← get).get? id with
      | some b =>
        write id b.payload.emptied
        let slots ← b.payload.slots.mapM (rebindWith old new fuel)
        write id (b.payload.rebound old new slots)
        return .handle id
      | none => return .handle id
    else return .handle id
  | _, slot => return slot

/-- Points the closures over `old` in a slot at `new`. No buffer holds itself, so the number of live buffers
    bounds the depth. -/
def rebind (old new : BlockId) (slot : Slot) : StateM Store Slot := do
  rebindWith old new (← get).buffers.length slot

end Store

end BlockMachine

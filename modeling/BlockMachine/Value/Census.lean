import BlockMachine.Value.Basic
import Std.Data.HashMap

namespace BlockMachine

/-!
# Counting handles

How many holders a buffer has is not written in a value: it is the number of places, among the
roots and inside the distinct buffers reachable from them, that hold it. `census` walks every
buffer once, however many holders it has, and counts the handles to each.
-/

/-- The number of handles found for each buffer. -/
abbrev Census := Std.HashMap BufferId Nat

namespace Census

/-- The number of handles to a buffer. -/
def count (c : Census) (id : BufferId) : Nat :=
  c.getD id 0

/-- Adds one handle to a buffer. -/
def add (c : Census) (id : BufferId) : Census :=
  c.insert id (c.count id + 1)

mutual

/-- Counts a handle held by a root or by a place inside a buffer. A buffer's contents are
    counted when its first handle is found. -/
def visit : Value → Census → Census
  | .str id _, c => c.add id
  | .list id items, c => if c.contains id then c.add id else visitItems items (c.add id)
  | .map id entries, c => if c.contains id then c.add id else visitEntries entries (c.add id)
  | .record id _ fields, c => if c.contains id then c.add id else visitItems fields (c.add id)
  | .func id _ bindings, c => if c.contains id then c.add id else visitItems bindings (c.add id)
  | _, c => c

/-- Counts the handles of a list of values. -/
def visitItems : List Value → Census → Census
  | [], c => c
  | v :: rest, c => visitItems rest (visit v c)

/-- Counts the handles of the values of a map. -/
def visitEntries : List (Key × Value) → Census → Census
  | [], c => c
  | (_, v) :: rest, c => visitEntries rest (visit v c)

end

end Census

/-- The handles to every buffer reachable from the roots. -/
def census (roots : List Value) : Census :=
  Census.visitItems roots {}

/-- The number of holders of a value's buffer, given a census of all holders; values without a
    buffer have none. -/
def Value.shareCount? (c : Census) (v : Value) : Option Nat :=
  v.buffer?.map c.count

end BlockMachine

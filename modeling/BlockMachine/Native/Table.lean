import BlockMachine.Native.Basic
import BlockMachine.Program.Error
import BlockMachine.Text.Quoted
import Std.Data.HashMap

namespace BlockMachine

/-!
# The table of natives

Natives are registered under names and called by index. An index, once given to a name, stays
with it; registering or patching the name again changes the function behind the index.

* `NativeTable.register` adds or patches, `NativeTable.patch` only patches;
* `NativeTable.get?` finds by index, `NativeTable.indexOf?` by name.
-/

/-- Natives by index, and the index of each name. -/
structure NativeTable where
  entries : Array (String × Native) := #[]
  indices : Std.HashMap String UInt16 := {}

namespace NativeTable

/-- The index of a name. -/
def indexOf? (t : NativeTable) (name : String) : Option UInt16 :=
  t.indices[name]?

/-- The entry at an index. -/
def get? (t : NativeTable) (index : UInt16) : Option (String × Native) :=
  t.entries[index.toNat]?

/-- The number of entries. -/
def size (t : NativeTable) : Nat :=
  t.entries.size

/-- Changes the function under a known name, giving its index; an unknown name changes nothing. -/
def patch (t : NativeTable) (name : String) (f : Native) : Option UInt16 × NativeTable :=
  match t.indexOf? name with
  | some index => (some index, { t with entries := t.entries.setIfInBounds index.toNat (name, f) })
  | none => (none, t)

/-- Registers a function under a name: a known name is patched, a new one gets the next index
    as long as indices last. -/
def register (t : NativeTable) (name : String) (f : Native) :
    Except CompileError UInt16 × NativeTable :=
  match t.indexOf? name with
  | some index => (.ok index, { t with entries := t.entries.setIfInBounds index.toNat (name, f) })
  | none =>
    if t.size < 65536 then
      let index := UInt16.ofNat t.size
      (.ok index, ⟨t.entries.push (name, f), t.indices.insert name index⟩)
    else (.error (.poolOverflow name .native), t)

/-- Registers functions one after the other, leaving out those that find no room. -/
def registerAll (t : NativeTable) (natives : List (String × Native)) : NativeTable :=
  natives.foldl (fun t (name, f) => (t.register name f).2) t

/-- How an entry is shown in diagnostics. -/
def describe (entry : String × Native) : String :=
  "NativeDesc(" ++ Text.quoted entry.1 ++ ")"

end NativeTable

end BlockMachine

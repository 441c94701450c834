import BlockMachine.Sharing.Cells

namespace BlockMachine

/-!
# Modules beside cells

A module owns the values among its members, and with them handles to their buffers. A cell that holds
a module holds no handle to these: copying the module to another cell shares it as a whole. So the
members of a module count as long as the module lives, whoever holds it.

* `LiveModule` is a module with the slots of its members, `Holders` are cells and the modules beside
  them;
* `HolderOp` lists what happens to both, `Holders.apply` performs it.
-/

/-- A module that lives, with the slots of the values among its members. -/
structure LiveModule where
  type : ModuleType
  members : List Slot

/-- Cells, and the modules that live beside them. -/
structure Holders where
  cells : Cells := {}
  modules : List LiveModule := []

/-- What happens to cells and modules. -/
inductive HolderOp where
  | cell (op : CellOp)
  /-- Makes a module of copies of cells, and puts it into cell `i`. -/
  | create (type : ModuleType) (members : List Nat) (i : Nat)
  /-- Copies member `k` of a module to cell `j`. -/
  | member (type : TypeId) (k j : Nat)
  /-- The last holder of a module lets it go. -/
  | drop (type : TypeId)

namespace Holders

/-- The slots of the members of all modules. -/
def members (h : Holders) : List Slot :=
  h.modules.flatMap (·.members)

/-- The slots that hold handles from outside of buffers. -/
def roots (h : Holders) : List Slot :=
  h.members ++ h.cells.cells

/-- Member `k` of a module. -/
def member? (h : Holders) (type : TypeId) (k : Nat) : Option Slot :=
  (h.modules.find? (·.type.id == type)).bind (·.members[k]?)

/-- Performs one step. -/
def apply (h : Holders) : HolderOp → Holders
  | .cell op => { h with cells := (Cells.apply op h.cells).2 }
  | .create type members i =>
    let slots := members.map h.cells.slot
    let cells := { h.cells with store := h.cells.store.retainAll slots }
    ⟨(Cells.assign i (.module type) cells).2, ⟨type, slots⟩ :: h.modules⟩
  | .member type k j =>
    match h.member? type k with
    | some slot =>
      let cells := { h.cells with store := h.cells.store.retain slot }
      { h with cells := (Cells.assign j slot cells).2 }
    | none => h
  | .drop type =>
    let (gone, modules) := h.modules.partition (·.type.id == type)
    ⟨{ h.cells with store := h.cells.store.releaseAll (gone.flatMap (·.members)) }, modules⟩

/-- Performs steps one after the other. -/
def run (h : Holders) (ops : List HolderOp) : Holders :=
  ops.foldl apply h

end Holders

end BlockMachine

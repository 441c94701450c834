import BlockMachine.Program.Lowering
import BlockMachine.Text.Quoted

namespace BlockMachine

/-!
# Worlds

A world is everything that stacks run against: blocks, their programs, natives, types, methods
and modules. A block is lowered when its program is first needed; replacing a block drops its
program, and the next use lowers the new body under the same program index.

* `World.addBlock` and `World.replaceBlock` define blocks;
* `World.compile` and `World.program` give the program of a block, `World.compileBy` and
  `World.programBy` for lowerings that are no list of directives;
* `World.addMethod` and `World.addModule` extend what sends can reach.
-/

/-- A block: its signature, its body, and how often it was replaced. -/
structure Block where
  id : BlockId
  version : Nat
  signature : Signature
  body : List Directive

/-- A block as shown in diagnostics. -/
def Block.describe (b : Block) : String :=
  "Block \x7b id: BlockId(" ++ toString b.id ++ "), name: " ++ Text.quoted b.signature.name ++
    ", version: " ++ toString b.version ++ " \x7d"

/-- What a name of a module stands for. -/
inductive Member where
  | function (block : BlockId)
  | value (v : Value)

/-- A module: its private type and its members in order. -/
structure Module where
  type : ModuleType
  members : List (String × Member)

namespace Module

/-- Adds a member; a repeated name overwrites in place. -/
def insertMember (name : String) (m : Member) : List (String × Member) → List (String × Member)
  | [] => [(name, m)]
  | (n, m') :: rest => if n = name then (n, m) :: rest else (n, m') :: insertMember name m rest

/-- The member under a name. -/
def member? (m : Module) (name : String) : Option Member :=
  m.members.lookup name

/-- A module as shown in diagnostics. -/
def describe (m : Module) : String :=
  "Module \x7b name: " ++ Text.quoted m.type.name ++ ", members: " ++ toString m.members.length ++
    " \x7d"

end Module

/-- The place of a block's program; empty until it is compiled, and again once the block was
    replaced. -/
structure ProgramSlot where
  block : BlockId
  program : Option Program

/-- The program index of every compiled block, and the programs by index. -/
structure ProgramTable where
  indices : Std.HashMap BlockId Nat := {}
  slots : Array ProgramSlot := #[]

/-- Empties the program slot of a block. -/
def ProgramTable.drop (t : ProgramTable) (id : BlockId) : ProgramTable :=
  match t.indices[id]? with
  | some i => { t with slots := t.slots.modify i fun slot => { slot with program := none } }
  | none => t

/-- Blocks, programs, natives, types, methods and modules. The epoch counts the changes that may
    alter what a send reaches; `supply` is the next unused buffer number. -/
structure World where
  blocks : Array Block := #[]
  programs : ProgramTable := {}
  natives : NativeTable := NativeTable.registerAll {} Native.defaults
  registry : Registry := {}
  modules : List Module := []
  epoch : Nat := 0
  supply : BufferId := 0

namespace World

/-- Computations that change a world, also when they fail. -/
abbrev Action := ExceptT CompileError (StateM World)

/-- What names in literals stand for. -/
def scope (w : World) : Scope :=
  ⟨w.registry, w.modules.map (·.type)⟩

/-! ### Blocks -/

/-- The block with a number. -/
def block? (w : World) (id : BlockId) : Except CompileError Block :=
  match w.blocks[id]? with
  | some b => .ok b
  | none => .error (.unknownBlock id)

/-- Defines a new block. -/
def addBlock (w : World) (signature : Signature) (body : List Directive) : BlockId × World :=
  let id := w.blocks.size
  (id, { w with blocks := w.blocks.push ⟨id, 0, signature, body⟩ })

/-- A body that calls one native and returns. -/
def nativeBody (native : String) : List Directive :=
  [.native native, .code (.emit .ret)]

/-- Gives a block a new definition, and tells its new version. -/
def replaceBlock (id : BlockId) (signature : Signature) (body : List Directive) : Action Nat := do
  let w ← get
  let b ← w.block? id
  let version := b.version + 1
  set { w with
    blocks := w.blocks.setIfInBounds id ⟨id, version, signature, body⟩
    programs := w.programs.drop id
    epoch := w.epoch + 1 }
  return version

/-! ### Programs -/

/-- The program of a lowered body. -/
def finish (b : Block) (index : Nat) (d : Draft) : Program where
  index := index
  block := b.id
  version := b.version
  signature := b.signature
  code := d.assembler.code
  constants := d.constants
  blocks := d.blocks
  types := d.types
  names := d.names
  callSites := d.callSites
  registers := b.signature.registerCount
  sourceMap := d.sourceMap.encode?.getD []

/-- The program index of a block, which is given out on first use. -/
def programIndex (id : BlockId) : StateM World Nat := do
  let w ← get
  match w.programs.indices[id]? with
  | some i => return i
  | none =>
    let i := w.programs.slots.size
    set { w with programs :=
      ⟨w.programs.indices.insert id i, w.programs.slots.push ⟨id, none⟩⟩ }
    return i

/-- The program in a slot. -/
def slotProgram? (w : World) (index : Nat) : Option Program :=
  w.programs.slots[index]?.bind (·.program)

/-- Lowers the body of a block. -/
def draft (b : Block) : Action Draft := do
  let w ← get
  let d ← lower ⟨b.signature.name, w.scope, w.natives⟩ b.body w.supply
  set { w with supply := d.supply }
  return d

/-- Compiles a block by a lowering, unless its current version is compiled already. A block that
    cannot be lowered keeps its index and an empty slot. The lowering may change the world too; when
    it replaced its own block the new definition wins, and the program is thrown away. -/
def compileBy (lowering : Block → Action Draft) (id : BlockId) : Action Nat := do
  let b ← (← get).block? id
  -- the index is given out even if the body turns out not to lower
  let index ← programIndex id
  match (← get).slotProgram? index with
  | some p => if p.version = b.version then return index
  | none => pure ()
  let d ← lowering b
  let w ← get
  let current ← w.block? id
  -- the lowering may have replaced the block it was called for
  if current.version = b.version then
    set { w with programs := { w.programs with
      slots := w.programs.slots.modify index fun slot =>
        { slot with program := some (finish b index d) } } }
  return index

/-- The current program at an index, compiled anew by a lowering if its block was replaced. -/
def programBy (lowering : Block → Action Draft) (index : Nat) : Action Program := do
  let some slot := (← get).programs.slots[index]? | throw (.unknownProgram index)
  match slot.program with
  | some p => return p
  | none =>
    let _ ← compileBy lowering slot.block
    match (← get).slotProgram? index with
    | some p => return p
    | none => throw (.unknownProgram index)

/-- Compiles a block, lowering its body. -/
def compile (id : BlockId) : Action Nat :=
  compileBy draft id

/-- The current program at an index, whose block's body is lowered if need be. -/
def program (index : Nat) : Action Program :=
  programBy draft index

/-- The block of a program index. -/
def programBlock (w : World) (index : Nat) : Except CompileError BlockId :=
  match w.programs.slots[index]? with
  | some slot => .ok slot.block
  | none => .error (.unknownProgram index)

/-! ### Natives, types, methods, modules -/

/-- Registers a native. -/
def registerNative (name : String) (f : Native) : Action UInt16 := do
  let w ← get
  let (r, natives) := w.natives.register name f
  set { w with natives := natives }
  match r with
  | .ok i => return i
  | .error e => throw e

/-- Changes the function behind a registered native. -/
def patchNative (name : String) (f : Native) : Action UInt16 := do
  let w ← get
  let (i, natives) := w.natives.patch name f
  set { w with natives := natives }
  match i with
  | some i => return i
  | none => throw (.unknownNative name)

/-- Declares a record type. -/
def addRecord (w : World) (name : String) (fields : List (String × Ty)) : RecordType × World :=
  let (type, registry) := w.registry.addRecord name fields
  (type, { w with registry := registry })

/-- Declares a method of a type. -/
def addMethod (w : World) (type : TypeId) (name : String) (block : BlockId) : World :=
  { w with registry := w.registry.addMethod type name block, epoch := w.epoch + 1 }

/-- Makes a module, which gets a type of its own. -/
def addModule (w : World) (name : String) (members : List (String × Member)) : Module × World :=
  let (type, registry) := w.registry.addModule name
  -- of members with one name the last stays
  let m : Module := ⟨type, members.foldl (fun ms (n, m) => Module.insertMember n m ms) []⟩
  (m, { w with registry := registry, modules := w.modules ++ [m] })

/-- The module with a private type. -/
def module? (w : World) (type : ModuleType) : Option Module :=
  w.modules.find? (·.type.id == type.id)

/-- A world as shown in diagnostics. -/
def describe (w : World) : String :=
  "World \x7b blocks: " ++ toString w.blocks.size ++ ", programs: " ++
    toString w.programs.slots.size ++ ", natives: " ++ toString w.natives.size ++ ", types: " ++
    toString w.registry.types.length ++ ", epoch: " ++ toString w.epoch ++ " \x7d"

/-- The values that a world holds: the constants of its programs and the values of its modules. -/
def roots (w : World) : List Value :=
  (w.programs.slots.toList.flatMap fun slot =>
    match slot.program with
    | some p => p.constants.toList
    | none => []) ++
  w.modules.flatMap fun m => m.members.filterMap fun (_, member) =>
    match member with
    | .value v => some v
    | .function _ => none

end World

end BlockMachine

import BlockMachine.Bytecode.Assembler
import BlockMachine.Native.Table
import BlockMachine.Program.Basic
import BlockMachine.Value.Equality
import BlockMachine.Value.Literal

namespace BlockMachine

/-!
# Lowering of block bodies

The body of a block is a list of directives. Lowering turns them into code and fills the pools:
equal constants of one kind, blocks, types and names are entered once.

* `Directive` is one step of a body;
* `Draft` is a program under construction, `Draft.apply` performs a directive;
* `lower` makes the program of a whole body.
-/

/-- One step of a body. -/
inductive Directive where
  /-- A raw instruction, jump, label or mark. -/
  | code (c : Assembler.Call)
  /-- Loads a value by the shortest encoding. -/
  | load (dst : Reg) (v : Literal)
  /-- Enters a constant without using it. -/
  | constant (v : Literal)
  | blockRef (block : BlockId)
  | typeRef (type : String)
  | nameRef (name : String)
  | call (block : BlockId) (base : Reg) (argc : UInt8) (out : Reg)
  | callKeyed (block : BlockId) (base : Reg) (argc : UInt8) (out key : Reg)
  /-- Calls a method through a call site of its own. -/
  | send (name : String) (base : Reg) (argc : UInt8) (out : Reg)
  | makeFunc (dst : Reg) (block : BlockId) (first : Reg) (count : UInt8)
  | cast (dst src : Reg) (type : String)
  | getState (dst : Reg) (name : String)
  | saveState (name : String) (src : Reg)
  | native (name : String)
  /-- The instructions from here on belong to a graph node. -/
  | node (n : UInt32)
  /-- Refuses to lower. -/
  | fail (message : String)
  /-- Loads the name of the block itself. -/
  | selfName (dst : Reg)
  /-- Enters the integers below a number as constants. -/
  | fillConstants (n : Nat)

/-- What a body is lowered against. -/
structure LoweringContext where
  block : String
  scope : Scope
  natives : NativeTable

/-- A program under construction. -/
structure Draft where
  assembler : Assembler := {}
  constants : Array Value := #[]
  blocks : Array BlockId := #[]
  types : Array Ty := #[]
  names : Array String := #[]
  callSites : Nat := 0
  sourceMap : SourceMap := {}
  supply : BufferId

/-- Computations that build a program. -/
abbrev Lowering := StateT Draft (Except CompileError)

namespace Draft

variable (ctx : LoweringContext)

/-- Appends an instruction. -/
def emit (i : Instruction) : Lowering Unit :=
  modify fun d => { d with assembler := d.assembler.emit i }

/-- A position in a pool as an index. -/
def poolIndex (pool : Pool) (n : Nat) : Lowering UInt16 :=
  if n < 65536 then return UInt16.ofNat n else throw (.poolOverflow ctx.block pool)

/-- The index of a constant; one of the same kind that equals it is used again. -/
def constant (v : Value) : Lowering UInt16 := do
  let d ← get
  -- equality takes the two zeros for one, so the first of them stands for both
  match d.constants.findIdx? fun c => c.tag == v.tag && c.equals v with
  | some i => poolIndex ctx .constant i
  | none =>
    let i ← poolIndex ctx .constant d.constants.size
    set { d with constants := d.constants.push v }
    return i

/-- The index of a block. -/
def blockRef (block : BlockId) : Lowering UInt16 := do
  let d ← get
  match d.blocks.findIdx? (· == block) with
  | some i => poolIndex ctx .block i
  | none =>
    let i ← poolIndex ctx .block d.blocks.size
    set { d with blocks := d.blocks.push block }
    return i

/-- The index of a type. -/
def typeRef (ty : Ty) : Lowering UInt16 := do
  let d ← get
  match d.types.findIdx? (·.id == ty.id) with
  | some i => poolIndex ctx .type i
  | none =>
    let i ← poolIndex ctx .type d.types.size
    set { d with types := d.types.push ty }
    return i

/-- The index of a name. -/
def nameRef (name : String) : Lowering UInt16 := do
  let d ← get
  match d.names.findIdx? (· == name) with
  | some i => poolIndex ctx .name i
  | none =>
    let i ← poolIndex ctx .name d.names.size
    set { d with names := d.names.push name }
    return i

/-- A new call site. -/
def callSite : Lowering UInt16 := do
  let d ← get
  -- one site fewer than the entries of a pool
  if d.callSites < 65535 then
    set { d with callSites := d.callSites + 1 }
    return UInt16.ofNat d.callSites
  else throw (.poolOverflow ctx.block .callSite)

/-- Turns the reason why a part of the body means nothing into an error of the block. -/
def orFail {α : Type} (r : Except String α) : Lowering α :=
  match r with
  | .ok a => return a
  | .error why => throw (.lowering ctx.block ("bad body: " ++ why))

/-- The value of a literal. -/
def literal (v : Literal) : Lowering Value := do
  let d ← get
  let (v, supply) ← orFail ctx (v.eval ctx.scope d.supply)
  set { d with supply := supply }
  return v

/-- The type under a name. -/
def namedType (name : String) : Lowering Ty :=
  orFail ctx (ctx.scope.type name)

/-- Loads a value: null and small integers by an instruction of their own, all else from the
    constant pool. -/
def load (dst : Reg) (v : Value) : Lowering Unit := do
  match v with
  | .null => emit (.setNull dst)
  | .int i =>
    if Instruction.fits 32 i.toInt then emit (.loadInt dst i.toInt32)
    else emit (.loadConst dst (← constant ctx v))
  | v => emit (.loadConst dst (← constant ctx v))

/-- Enters the integers from `i` on as constants, `count` of them. -/
def fillConstants : Nat → Nat → Lowering Unit
  | 0, _ => return ()
  | count + 1, i => do
    let _ ← constant ctx (.int (Int64.ofNat i))
    fillConstants count (i + 1)

/-- Performs one directive. -/
def apply : Directive → Lowering Unit
  | .code c => modify fun d => { d with assembler := d.assembler.apply c }
  | .load dst v => do load ctx dst (← literal ctx v)
  | .constant v => do
    let _ ← constant ctx (← literal ctx v)
  | .blockRef block => do
    let _ ← blockRef ctx block
  | .typeRef type => do
    let _ ← typeRef ctx (← namedType ctx type)
  | .nameRef name => do
    let _ ← nameRef ctx name
  | .call block base argc out => do emit (.call (← blockRef ctx block) base argc out)
  | .callKeyed block base argc out key => do
    emit (.callKeyed (← blockRef ctx block) base argc out key)
  | .send name base argc out => do
    let name ← nameRef ctx name
    emit (.callMethod name base argc out (← callSite ctx))
  | .makeFunc dst block first count => do
    emit (.makeFunc dst (← blockRef ctx block) first count)
  | .cast dst src type => do
    emit (.cast dst src (← typeRef ctx (← namedType ctx type)))
  | .getState dst name => do emit (.getState dst (← nameRef ctx name))
  | .saveState name src => do emit (.saveState (← nameRef ctx name) src)
  | .native name =>
    match ctx.natives.indexOf? name with
    | some i => emit (.native i)
    | none => throw (.unknownNative name)
  | .node n => modify fun d =>
    { d with sourceMap := d.sourceMap.add (UInt32.ofNat d.assembler.position) n }
  | .fail message => throw (.lowering ctx.block message)
  | .selfName dst => do load ctx dst (← literal ctx (.str ctx.block))
  | .fillConstants n => fillConstants ctx n 0

end Draft

/-- The draft of a whole body, whose values take buffer numbers from `supply` on. -/
def lower (ctx : LoweringContext) (body : List Directive) (supply : BufferId) :
    Except CompileError Draft := do
  let (_, d) ← (body.forM (Draft.apply ctx)) { supply := supply }
  return d

end BlockMachine

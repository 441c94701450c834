import BlockMachine.World

namespace BlockMachine

/-!
# Lowerings by code of the host

A host may lower its blocks by code of its own instead of a list of directives. Such code sees the
world, and nothing keeps it from changing the world while it builds a program: it may define blocks,
have others compiled, register natives, or replace the very block that it lowers.

* `LoweringScript` is such a lowering: calls on the world, one after the other, each chosen by the
  answers so far;
* `LoweringScript.perform` follows it, `World.lowerBy` lowers blocks by their scripts;
* `LoweringScript.ofBody` is the script of a list of directives.
-/

/-- A lowering: done with a draft or an error, or a call and how to go on with its answer. -/
inductive LoweringScript where
  | done (r : Except CompileError Draft)
  | look (next : World → LoweringScript)
  | add (signature : Signature) (body : List Directive) (next : BlockId → LoweringScript)
  | replace (id : BlockId) (signature : Signature) (body : List Directive)
    (next : Except CompileError Nat → LoweringScript)
  | compile (id : BlockId) (next : Except CompileError Nat → LoweringScript)
  | fetch (index : Nat) (next : Except CompileError Program → LoweringScript)
  /-- Changes natives, types, methods, modules or the supply of buffer numbers. -/
  | change (f : World → World) (next : LoweringScript)

namespace World

/-- A world with other natives, types, methods or modules, which may begin a new epoch. -/
def changed (w : World) (f : World → World) : World :=
  { f w with blocks := w.blocks, programs := w.programs, epoch := max w.epoch (f w).epoch }

/-- A computation with its error as an answer. -/
def answer {α : Type} (x : Action α) : Action (Except CompileError α) :=
  fun w => (.ok (x w).1, (x w).2)

end World

namespace LoweringScript

open World

/-- Follows a script. Blocks that it has compiled are lowered by `nested`. -/
def perform (nested : Block → Action Draft) : LoweringScript → Action Draft
  | .done r => liftM r
  | .look next => do (next (← get)).perform nested
  | .add signature body next => do
    let (id, w) := (← get).addBlock signature body
    set w
    (next id).perform nested
  | .replace id signature body next => do
    (next (← answer (replaceBlock id signature body))).perform nested
  | .compile id next => do (next (← answer (compileBy nested id))).perform nested
  | .fetch index next => do (next (← answer (programBy nested index))).perform nested
  | .change f next => do
    set ((← get).changed f)
    next.perform nested

/-- The script of a body: it reads the names in scope and takes buffer numbers. -/
def ofBody (b : Block) : LoweringScript :=
  .look fun w =>
    match lower ⟨b.signature.name, w.scope, w.natives⟩ b.body w.supply with
    | .ok d => .change (fun w => { w with supply := d.supply }) (.done (.ok d))
    | .error e => .done (.error e)

end LoweringScript

/-- Lowers a block by its script. The depth bounds how often a lowering may have a block compiled
    whose lowering has a block compiled, and so on. -/
def World.lowerBy (scripts : Block → LoweringScript) : Nat → Block → Action Draft
  | 0, b => throw (.lowering b.signature.name "nested too deep")
  | depth + 1, b => (scripts b).perform (lowerBy scripts depth)

end BlockMachine

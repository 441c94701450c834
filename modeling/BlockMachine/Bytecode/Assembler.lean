import BlockMachine.Bytecode.Encode

namespace BlockMachine

/-!
# Assembling bytecode

Code is assembled by a sequence of `Assembler.Call`s. A forward jump names a label and is
patched when the label is bound; a backward jump names an earlier offset.

* `Assembler.apply` performs one call, `assemble` a whole sequence;
* `Assembler.bind` writes the distance into every jump that waits for a label.
-/

/-- A jump offset from the end of its instruction to a target, wrapped to sixteen bits. -/
def jumpOffset (base target : Nat) : Int16 :=
  Int16.ofInt ((target : Int) - (base : Int))

/-- Code under construction. -/
structure Assembler where
  /-- The bytes emitted so far. -/
  code : Code := #[]
  /-- Labels of the forward jumps not bound yet, each with the offset where the jump ends. -/
  pending : List (String × Nat) := []
  /-- Named offsets for backward jumps. -/
  marks : List (String × Nat) := []

namespace Assembler

/-- Where a backward jump goes: a byte offset or a named one. -/
inductive Target where
  | offset (n : Nat)
  | mark (name : String)

/-- One step of assembling. -/
inductive Call where
  | emit (i : Instruction)
  | jump (cond : Condition) (label : String)
  | jumpBack (cond : Condition) (target : Target)
  | bind (label : String)
  | mark (name : String)

/-- The offset of the next instruction. -/
def position (a : Assembler) : Nat :=
  a.code.size

/-- Appends the shortest encoding of an instruction. -/
def emit (a : Assembler) (i : Instruction) : Assembler :=
  { a with code := i.encode.foldl Array.push a.code }

/-- Appends a jump with offset zero that waits for `label`. -/
def jump (a : Assembler) (cond : Condition) (label : String) : Assembler :=
  let b := a.emit (.jump cond 0)
  { b with pending := (label, b.position) :: b.pending }

/-- The offset a backward jump goes to; a name that was never marked stands for the start. -/
def resolve (a : Assembler) : Target → Nat
  | .offset n => n
  | .mark name => (a.marks.lookup name).getD 0

/-- Appends a jump to an earlier offset. -/
def jumpBack (a : Assembler) (cond : Condition) (target : Target) : Assembler :=
  let base := a.position + (Instruction.jump cond 0).encode.length
  a.emit (.jump cond (jumpOffset base (a.resolve target)))

/-- Overwrites the offset bytes of the jump that ends at `base`. -/
def patch (code : Code) (base : Nat) (offset : Int16) : Code :=
  (code.setIfInBounds (base - 2) offset.toUInt16.toUInt8).setIfInBounds (base - 1)
    (offset.toUInt16 >>> 8).toUInt8

/-- Makes every jump that waits for `label` go to the current position. -/
def bind (a : Assembler) (label : String) : Assembler :=
  let target := a.position
  let (mine, others) := a.pending.partition (·.1 == label)
  { a with
    -- a patched jump keeps its size, so no offset moves
    code := mine.foldl (fun code (_, base) => patch code base (jumpOffset base target)) a.code
    pending := others }

/-- Names the current position. -/
def mark (a : Assembler) (name : String) : Assembler :=
  { a with marks := (name, a.position) :: a.marks }

/-- Performs one call. -/
def apply (a : Assembler) : Call → Assembler
  | .emit i => a.emit i
  | .jump cond label => a.jump cond label
  | .jumpBack cond target => a.jumpBack cond target
  | .bind label => a.bind label
  | .mark name => a.mark name

end Assembler

/-- The code that a sequence of calls assembles. -/
def assemble (calls : List Assembler.Call) : Code :=
  (calls.foldl Assembler.apply {}).code

end BlockMachine

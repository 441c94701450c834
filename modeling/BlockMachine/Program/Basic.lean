import BlockMachine.Block.Signature
import BlockMachine.Bytecode.Decode
import BlockMachine.Bytecode.Listing
import BlockMachine.Bytecode.SourceMap
import BlockMachine.Value.Text

namespace BlockMachine

/-!
# Programs

A program is the code of one block with the pools that its instructions index into.

* `Program.instructionAt` and `Program.nodeAt` read the code and the source map at an offset;
* `Program.listing` is the program as text.
-/

/-- The code of one block. `version` is the version of the block it was lowered from. -/
structure Program where
  index : Nat
  block : BlockId
  version : Nat
  signature : Signature
  code : Code
  constants : Array Value
  blocks : Array BlockId
  types : Array Ty
  names : Array String
  callSites : Nat
  registers : Nat
  sourceMap : List UInt8

/-- A block number as shown. -/
def blockText (id : BlockId) : String :=
  "@" ++ toString id

/-- Text with blanks in front of it up to a width. -/
def padLeft (width : Nat) (s : String) : String :=
  "".pushn ' ' (width - s.length) ++ s

namespace Program

/-- The name of the program's block. -/
def name (p : Program) : String :=
  p.signature.name

/-- The instruction at an offset, and the offset after it. -/
def instructionAt (p : Program) (pc : Nat) : Except DecodeError (Instruction × Nat) :=
  decodeAt p.code pc

/-- The graph node that the instruction at an offset belongs to. -/
def nodeAt (p : Program) (pc : Nat) : Option UInt32 :=
  SourceMap.lookup p.sourceMap (UInt32.ofNat pc)

/-- What a pool index of an instruction refers to, as a comment of the listing. -/
def comment? (p : Program) : Instruction → Option String
  | .call block .. => p.blocks[block.toNat]?.map blockText
  | .callKeyed block .. => p.blocks[block.toNat]?.map blockText
  | .makeFunc _ block .. => p.blocks[block.toNat]?.map blockText
  | .callMethod name .. => p.names[name.toNat]?
  | .getState _ name => p.names[name.toNat]?
  | .saveState name _ => p.names[name.toNat]?
  | .cast _ _ type => p.types[type.toNat]?.map (·.name)
  | _ => none

/-- The lines of the listing from offset `pc` on, ending with the first decode error; `fuel`
    bounds the number of instructions. -/
def linesFrom (p : Program) : Nat → Nat → List String
  | 0, _ => []
  | fuel + 1, pc =>
    if p.code.size ≤ pc then []
    else
      let start := padLeft 5 (toString pc) ++ "  "
      match p.instructionAt pc with
      | .ok (i, next) =>
        let comment := match p.comment? i with
          | some c => "  ; " ++ c
          | none => ""
        (start ++ i.listing ++ comment) :: linesFrom p fuel next
      | .error e => [start ++ "<" ++ e.message ++ ">"]

/-- A heading, one line for each instruction and one for each constant. -/
def listing (p : Program) : String :=
  let heading := s!"{p.name} (v{p.version}, {p.registers} registers, {p.callSites} sites)"
  let constants := p.constants.toList.zipIdx.map fun (c, i) => s!"  #{i} = {c.text}"
  String.join ((heading :: p.linesFrom p.code.size 0 ++ constants).map (· ++ "\n"))

end Program

end BlockMachine

import BlockMachine.Value.Basic
import BlockMachine.Bytecode.Instruction

namespace BlockMachine

/-!
# Frames

A frame is one activation of a block: its registers, where it is in its program, and the part
of the state tree that it reads and writes.
-/

/-- An instruction offset and the graph node that it belongs to. -/
structure Pc where
  offset : Nat := 0
  node : Option UInt32 := none
  deriving DecidableEq, Repr

/-- One activation of a block. -/
structure Frame where
  block : BlockId
  /-- Index of the program that runs. -/
  program : Nat
  /-- Version of the program that the pc points into. -/
  version : Nat
  registers : Array Value
  pc : Pc := {}
  /-- Position of the caller's frame, counted from the root. -/
  parent : Option Nat := none
  /-- The key under which the frame's state lives in its parent's. -/
  key : Option Key := none
  /-- The part of the state tree that the frame reads. -/
  incoming : Value := .null
  /-- What the frame saved so far. -/
  outgoing : List (Key × Value) := []
  /-- The values that a called closure closed over. -/
  bindings : List Value := []
  /-- Whether a snapshot is kept when the frame is popped. -/
  retain : Bool := false
  inputCount : Nat := 0
  /-- First register of the caller that receives the outputs. -/
  returnTo : Option Reg := none

namespace Frame

/-- The first `count` registers; missing ones are null. -/
def resized (registers : Array Value) (count : Nat) : Array Value :=
  registers.take count ++ Array.replicate (count - registers.size) .null

/-- Grows or shrinks the registers. -/
def resize (f : Frame) (count : Nat) : Frame :=
  { f with registers := resized f.registers count }

/-- A root and a frame under a key carry state; others see none and drop what they save. -/
def isStateful (f : Frame) : Bool :=
  f.parent.isNone || f.key.isSome

end Frame

/-- What is kept of a retained frame when it is popped. -/
structure Snapshot where
  block : BlockId
  registers : Array Value
  incoming : Value
  outgoing : List (Key × Value)

/-- The snapshot of a frame. -/
def Frame.snapshot (f : Frame) : Snapshot :=
  ⟨f.block, f.registers, f.incoming, f.outgoing⟩

end BlockMachine

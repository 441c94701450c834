import BlockMachine.World

namespace BlockMachine

/-!
# Demonstration programs

Three small programs: a counted loop, a counter in the state tree, and sends to records of two
types. `Demo.setup` makes the world of a program, its main block and the inputs of that block.
-/

/-- The demonstration programs. -/
inductive Demo where
  /-- Sums a list with a counted loop. -/
  | sum
  /-- Counts up a number kept in the state tree. -/
  | counter
  /-- Sends one message to records of two types. -/
  | dispatch
  deriving DecidableEq, Repr

/-- A world, the block to run in it and its inputs. -/
structure Setup where
  world : World
  main : BlockId
  inputs : List Value

namespace Demo

/-- The name of a demonstration. -/
def name : Demo → String
  | sum => "sum"
  | counter => "counter"
  | dispatch => "dispatch"

/-- The demonstration with a name. -/
def ofName? (s : String) : Option Demo :=
  [sum, counter, dispatch].find? (·.name == s)

/-- An instruction of a body. -/
def ins (i : Instruction) : Directive :=
  .code (.emit i)

/-- An input or output of a built-in type. -/
def place (name : String) (type : Builtin) : Placeholder :=
  { name := name, type := .basic type }

/-! ### Summing a list -/

/-- A list goes in, the sum of its integers comes out. -/
def sumSignature : Signature where
  name := "sum"
  inputs := [place "items" .list]
  outputs := [⟨place "total" .int, 2⟩]
  locals := 4

/-- Register 1 counts through the list in register 0, register 2 collects the sum. -/
def sumBody : List Directive :=
  [.node 1, ins (.loadInt 1 0), ins (.loadInt 2 0), .code (.mark "top"),
    .node 2, .code (.jump (.ifDone 1 0) "done"), ins (.getIndex 3 0 1),
    ins (.binary .addInt 2 2 3), ins (.increment 1), .code (.jumpBack .always (.mark "top")),
    .code (.bind "done"), .node 3, ins .ret]

/-- Sums the numbers from one to ten. -/
def sumSetup : Setup :=
  let (main, w) := ({} : World).addBlock sumSignature sumBody
  let items := (List.range 10).map fun i => Value.int (Int64.ofNat (i + 1))
  let (list, supply) := Value.newList items w.supply
  ⟨{ w with supply := supply }, main, [list]⟩

/-! ### Counting in the state tree -/

/-- The count comes out. -/
def tickSignature : Signature where
  name := "tick"
  outputs := [⟨place "count" .int, 0⟩]
  locals := 3

/-- Counts up the saved number, which starts at zero. -/
def tickBody : List Directive :=
  [.getState 0 "count", ins (.setNull 1), ins (.binary .equals 2 0 1),
    .code (.jump (.ifFalse 2) "seen"), ins (.loadInt 0 0), .code (.bind "seen"),
    ins (.increment 0), .saveState "count" 0, ins .ret]

/-- The count comes out. -/
def counterSignature : Signature where
  name := "main"
  outputs := [⟨place "ticks" .int, 1⟩]
  locals := 2

/-- Calls a block under the key `tick`. -/
def counterBody (tick : BlockId) : List Directive :=
  [.load 0 (.str "tick"), .callKeyed tick 0 0 1 0, ins .ret]

/-- Counts up one saved number. -/
def counterSetup : Setup :=
  let (tick, w) := ({} : World).addBlock tickSignature tickBody
  let (main, w) := w.addBlock counterSignature (counterBody tick)
  ⟨w, main, []⟩

/-! ### Sending to records -/

/-- The ratio of a circle's circumference to its diameter. -/
def pi : Float :=
  Float.ofBits 0x400921fb54442d18

/-- A method that computes an area into a register. -/
def areaSignature (name : String) (out locals : UInt16) : Signature where
  name := name
  inputs := [place "self" .any]
  outputs := [⟨place "area" .float, out⟩]
  locals := locals

/-- The area of a circle. -/
def circleBody : List Directive :=
  [ins (.loadInt 1 0), ins (.getIndex 2 0 1), ins (.binary .mulFloat 3 2 2),
    .load 2 (.float pi), ins (.binary .mulFloat 3 3 2), ins .ret]

/-- The area of a square. -/
def squareBody : List Directive :=
  [ins (.loadInt 1 0), ins (.getIndex 2 0 1), ins (.binary .mulFloat 2 2 2), ins .ret]

/-- Takes any number of values. -/
def printSignature : Signature where
  name := "print"
  inputs := [place "value" .any]
  isVariadic := true

/-- Shapes and a module to print with go in, the total area comes out. -/
def areasSignature : Signature where
  name := "areas"
  inputs := [place "shapes" .list, place "io" .any]
  outputs := [⟨place "total" .float, 2⟩]
  locals := 6

/-- Asks every shape for its area, prints it and adds it up. -/
def areasBody : List Directive :=
  [.load 2 (.float 0.0), ins (.loadInt 3 0), .code (.mark "top"),
    .code (.jump (.ifDone 3 0) "done"), ins (.getIndex 4 0 3), .send "area" 4 1 5,
    ins (.binary .addFloat 2 2 5), ins (.copy 4 1), .send "print" 4 2 5, ins (.increment 3),
    .code (.jumpBack .always (.mark "top")), .code (.bind "done"), ins .ret]

/-- Circles and squares of growing size, in turn. -/
def shapes (circle square : RecordType) : Fresh (List Value) :=
  [(circle, 0.5), (square, 2.0), (circle, 1.5), (square, 4.0), (circle, 2.5), (square, 6.0)].mapM
    fun (type, size) => Value.newRecord type [.float size]

/-- Adds up the areas of circles and squares. -/
def dispatchSetup : Setup :=
  let number : Ty := .basic .float
  let (circle, w) := ({} : World).addRecord "Circle" [("r", number)]
  let (square, w) := w.addRecord "Square" [("side", number)]
  let (circleArea, w) := w.addBlock (areaSignature "Circle.area" 3 4) circleBody
  let (squareArea, w) := w.addBlock (areaSignature "Square.area" 2 3) squareBody
  let w := w.addMethod circle.id "area" circleArea
  let w := w.addMethod square.id "area" squareArea
  let (print, w) := w.addBlock printSignature (World.nativeBody "print")
  let (module, w) := w.addModule "shapes" [("print", .function print)]
  let (main, w) := w.addBlock areasSignature areasBody
  let (list, supply) := (do Value.newList (← shapes circle square) : Fresh Value) w.supply
  ⟨{ w with supply := supply }, main, [list, .module module.type]⟩

/-- The world of a demonstration. -/
def setup : Demo → Setup
  | sum => sumSetup
  | counter => counterSetup
  | dispatch => dispatchSetup

end Demo

end BlockMachine

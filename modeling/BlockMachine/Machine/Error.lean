import BlockMachine.Program.Error
import BlockMachine.Bytecode.Listing
import BlockMachine.Value.Cast

namespace BlockMachine

/-!
# Errors of a run

* `Outcome` is how a run ends when nothing fails;
* `Violation` lists what only malformed code or a misused stack can cause;
* `RuntimeError` lists all errors that end a run, `RuntimeError.message` words them;
* `Fault` is what can interrupt a computation on a machine.
-/

/-- How a run ended. -/
inductive Outcome where
  | finished
  | paused
  | cancelled
  deriving DecidableEq, Repr

/-- The name of an outcome. -/
def Outcome.name : Outcome → String
  | finished => "Finished"
  | paused => "Paused"
  | cancelled => "Cancelled"

/-- A use of a stack that its rules exclude. -/
inductive Violation where
  | noActiveFrame
  | registerRange (r : Reg)
  | movedRead (r : Reg)
  | swapRange (a b : Reg)
  | offsetRange (base : Reg) (by' : Nat)
  | inputRange (index : Nat)
  | outputUndeclared (index : Nat)
  | outputRange (r : Reg)
  | jumpRange (offset : Int16) (pc : Nat)
  | poolRange (pool : Pool) (index : UInt16)
  | bindingCount (expected found : Nat)
  | varargsRange (first : Nat)
  | nativeArgument (index : Nat)
  | alreadyRunning
  | noFrame
  | framesEmptied
  | replacedWhileRunning (name : String)
  | didNotFinish (block : BlockId) (outcome : Outcome)
  deriving DecidableEq, Repr

/-- The wording of a violation. -/
def Violation.message : Violation → String
  | noActiveFrame => "no active frame"
  | registerRange r => s!"register r{r.toNat} out of range"
  | movedRead r => s!"read of moved register r{r.toNat}"
  | swapRange a b => s!"swap r{a.toNat}, r{b.toNat} out of range"
  | offsetRange base n => s!"register r{base.toNat}+{n} out of range"
  | inputRange index => s!"input {index} out of range"
  | outputUndeclared index => s!"output {index} not declared"
  | outputRange r => s!"output register r{r.toNat} out of range"
  | jumpRange offset pc => s!"jump {signedText offset.toInt} from {pc} leaves the program"
  | poolRange pool index => s!"{pool.label} pool index {index.toNat} out of range"
  | bindingCount expected found => s!"expected {expected} bindings, frame has {found}"
  | varargsRange first => s!"varargs start r{first} out of range"
  | nativeArgument index => s!"native argument {index} missing"
  | alreadyRunning => "stack is already running"
  | noFrame => "no frame to run"
  | framesEmptied => "frame list emptied while running"
  | replacedWhileRunning name => s!"'{name}' was replaced while running"
  | didNotFinish block outcome => s!"'@{block}' did not finish: {outcome.name}"

/-- An error that ends a run. -/
inductive RuntimeError where
  | typeMismatch (expected got : String)
  | outputTypeMismatch (block : String) (index : Nat) (expected got : String)
  | arityMismatch (block : String) (expected got : Nat)
  | methodNotFound (name receiver : String)
  | divisionByZero
  | indexOutOfRange (index : Int64) (length : Nat)
  | stackOverflow (depth : Nat)
  | violation (v : Violation)
  | hostRaised (message : String)
  | compile (e : CompileError)
  deriving DecidableEq, Repr

/-- The wording of a runtime error. -/
def RuntimeError.message : RuntimeError → String
  | typeMismatch expected got => s!"type mismatch: expected {expected}, got {got}"
  | outputTypeMismatch block index expected got =>
    s!"output {index} of '{block}': couldn't cast {got} to type {expected}"
  | arityMismatch block expected got => s!"'{block}' takes {expected} inputs, got {got}"
  | methodNotFound name receiver => s!"method '{name}' not found on {receiver}"
  | divisionByZero => "division by zero"
  | indexOutOfRange index length => s!"index {index.toInt} out of range for length {length}"
  | stackOverflow depth => s!"stack overflow at depth {depth}"
  | violation v => s!"internal invariant violated: {v.message}"
  | hostRaised message => message
  | compile e => e.message

/-- The name of an error's kind, by which a host tells errors apart. -/
def RuntimeError.kind : RuntimeError → String
  | typeMismatch .. => "TypeMismatch"
  | outputTypeMismatch .. => "OutputTypeMismatch"
  | arityMismatch .. => "ArityMismatch"
  | methodNotFound .. => "MethodNotFound"
  | divisionByZero => "DivisionByZero"
  | indexOutOfRange .. => "IndexOutOfRange"
  | stackOverflow .. => "StackOverflow"
  | violation _ => "InternalInvariantViolation"
  | hostRaised _ => "HostRaised"
  | compile _ => "Compile"

/-- A failed cast of an argument or a register is a type mismatch. -/
def RuntimeError.ofCast (e : CastError) : RuntimeError :=
  typeMismatch e.target e.source

/-- What interrupts a computation on a machine. A crash is a read beyond the registers of a frame
    that its host cut short; running out of fuel says nothing about the program. -/
inductive Fault where
  | raised (e : RuntimeError)
  | crashed
  | outOfFuel
  deriving DecidableEq, Repr

end BlockMachine

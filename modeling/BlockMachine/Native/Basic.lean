namespace BlockMachine

/-!
# Native functions

Functions of the host that a program can call. `Native` lists the default ones, wraps
`HostFunction`, small functions an embedder installs that each use one operation of the stack,
and leaves codes for functions that an embedder gives itself.
-/

/-- A function of the embedder that uses one operation of the stack it is called on. -/
inductive HostFunction where
  /-- Sets output 0 to one. -/
  | one
  /-- Sets output 0 to two. -/
  | two
  /-- Raises an error and returns normally. -/
  | softFail
  /-- Returns an error without raising it. -/
  | hardFail
  /-- Sets output 0 to the number of inputs. -/
  | countInputs
  /-- Sets output 0 to the second input, then output 1 to the first. -/
  | cross
  /-- Asks the stack to stop. -/
  | cancel
  /-- Leaves one register. -/
  | shrink
  /-- Makes ten registers. -/
  | grow
  /-- Overwrites input 0. -/
  | poke
  /-- Overwrites an input that is far out of range. -/
  | pokeFar
  /-- Pops the active frame. -/
  | pop
  /-- Resets the stack, keeping its state. -/
  | reset
  /-- Runs the stack. -/
  | run
  /-- Pushes the block that input 0 numbers. -/
  | enter
  /-- Calls the block that input 0 numbers. -/
  | call
  /-- Migrates to the block that input 0 numbers. -/
  | migrate
  /-- Replaces the block that input 0 numbers by an empty one. -/
  | replace
  /-- Makes input 0 the state tree. -/
  | setState
  /-- Counts up an environment entry. -/
  | envBump
  deriving DecidableEq, Repr

/-- All functions of the embedder. -/
def HostFunction.all : List HostFunction :=
  [.one, .two, .softFail, .hardFail, .countInputs, .cross, .cancel, .shrink, .grow, .poke,
    .pokeFar, .pop, .reset, .run, .enter, .call, .migrate, .replace, .setState, .envBump]

/-- The name an embedder knows a function by. -/
def HostFunction.name : HostFunction → String
  | one => "one"
  | two => "two"
  | softFail => "soft_fail"
  | hardFail => "hard_fail"
  | countInputs => "count_inputs"
  | cross => "cross"
  | cancel => "cancel"
  | shrink => "shrink"
  | grow => "grow"
  | poke => "poke"
  | pokeFar => "poke_far"
  | pop => "pop"
  | reset => "reset"
  | run => "run"
  | enter => "enter"
  | call => "call"
  | migrate => "migrate"
  | replace => "replace"
  | setState => "set_state"
  | envBump => "env_bump"

/-- The function of the embedder with a name. -/
def HostFunction.ofName? (name : String) : Option HostFunction :=
  HostFunction.all.find? (·.name == name)

/-- A function that a program can call. -/
inductive Native where
  | print
  | toText
  | length
  | random
  | env
  | error
  | hash
  | emit
  | host (f : HostFunction)
  /-- A function that the embedder gives under a code. -/
  | installed (code : Nat)
  deriving DecidableEq, Repr

/-- The functions every world starts with, under their names. -/
def Native.defaults : List (String × Native) :=
  [("print", .print), ("to_string", .toText), ("length", .length), ("rand", .random),
    ("env", .env), ("error", .error), ("hash", .hash), ("emit", .emit)]

end BlockMachine

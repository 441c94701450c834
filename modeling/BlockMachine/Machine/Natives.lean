import BlockMachine.Machine.Embedder

namespace BlockMachine

/-!
# What natives do

Natives work on the active frame: their arguments are its inputs, their results its outputs.
`Machine.invoke` is the effect of a native; a native that runs the stack does so by `resume`.
-/

namespace Machine

/-- Argument `index` of a native. -/
def argument (index : Nat) : Action Value := do
  match (← get).input? index with
  | some v => return v
  | none => violate (.nativeArgument index)

/-- Argument `index` of a native as an integer. -/
def intArgument (index : Nat) : Action Int64 := do
  let v ← argument index
  match v.int? with
  | some i => return i
  | none => mismatch "int" v

/-- Argument `index` of a native as a key, which the error calls `what`. -/
def keyArgument (index : Nat) (what : String) : Action Key := do
  let v ← argument index
  match v.key? with
  | some k => return k
  | none => mismatch what v

/-- Prints the inputs on a line of their own. -/
def printInputs : Action Unit := do
  let m ← get
  let texts := ((List.range m.inputCount).filterMap m.input?).map (·.text)
  set { m with printed := m.printed ++ " ".intercalate texts ++ "\n" }

/-- A random float, or a random integer when two bounds are given. -/
def drawRandom (libraries : Libraries) : Action Unit := do
  if (← get).inputCount < 2 then
    let x ← onStack fun s =>
      let (x, random) := libraries.float s.random
      (x, { s with random := random })
    setOutput 0 (.float x)
  else
    let lo ← intArgument 0
    let hi ← intArgument 1
    if lo < hi then
      let n ← onStack fun s =>
        let (n, random) := libraries.int lo hi s.random
        (n, { s with random := random })
      setOutput 0 (.int n)
    else
      raise (← raiseError s!"rand: empty range {lo.toInt}..{hi.toInt}")

/-- The block that input 0 numbers. -/
def blockInput : Action BlockId := do
  match ((← get).input? 0).bind (·.int?) with
  | some i => return i.toUInt64.toUInt32.toNat
  | none => raise (.hostRaised "no block input")

/-- The effect of a function of the embedder. -/
def invokeHost (resume : Action Outcome) : HostFunction → Action Unit
  | .one => setOutput 0 (.int 1)
  | .two => setOutput 0 (.int 2)
  | .softFail => do
    let _ ← raiseError "soft"
  | .hardFail => raise (.hostRaised "hard")
  | .countInputs => do setOutput 0 (.int (Int64.ofNat (← get).inputCount))
  | .cross => do
    let m ← get
    setOutput 0 ((m.input? 1).getD .null)
    setOutput 1 ((m.input? 0).getD .null)
  | .cancel => cancel
  | .shrink => resize 1
  | .grow => resize 10
  | .poke => setInput 0 (.int 77)
  | .pokeFar => setInput 1000 .null
  | .pop => do
    let _ ← pop
  | .reset => reset false
  | .run => do
    let _ ← resume
  | .enter => do push (← blockInput) []
  | .call => do
    let _ ← callWith resume (← blockInput) []
  | .migrate => do migrateTo (← blockInput) []
  | .replace => do
    let _ ← onWorld (World.replaceBlock (← blockInput) { name := "swapped" } [.code (.emit .ret)])
  | .setState => do setState (((← get).input? 0).getD .null)
  | .envBump => do
    let hits := ((Entries.get? (.name "hits") (← getStack).env).bind (·.int?)).getD 0
    modifyStack (·.setEnv (.name "hits") (.int (hits + 1)))

/-- The effect of a native. -/
def invoke (host : Embedder) (resume : Action Outcome) : Native → Action Unit
  | .print => printInputs
  | .toText => do setOutput 0 (← allocate (Value.newStr (← argument 0).text))
  | .length => do
    let v ← argument 0
    match v.length? with
    | some n => setOutput 0 (.int (Int64.ofNat n))
    | none => mismatch "container" v
  | .random => drawRandom host.libraries
  | .env => do
    let k ← keyArgument 0 "string"
    setOutput 0 ((Entries.get? k (← getStack).env).getD .null)
  | .error => do raise (← raiseError (← argument 0).text)
  | .hash => do
    setOutput 0 (.int (host.libraries.hash (← argument 0)).toInt64)
  | .emit => do
    let channel ← keyArgument 0 "channel key"
    let message ← argument 1
    let _ ← onStack (·.emit channel message)
  | .host f => invokeHost resume f
  | .installed code => (host.script code).perform resume

end Machine

end BlockMachine

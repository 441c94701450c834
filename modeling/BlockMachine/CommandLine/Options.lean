import BlockMachine.Demo

namespace BlockMachine

/-!
# Command-line options

Options are written `--name`, `--name value` or `--name=value`, each at most once and in any
order; there are no other arguments. `Options.parse?` reads the arguments of the command.
-/

/-- What the command is asked to do. -/
structure Options where
  demo : Demo := .sum
  /-- Whether the listing of every block is printed first. -/
  listing : Bool := false
  /-- Where the state tree is read from and written back to. -/
  stateFile : Option String := none
  inlineCache : Bool := true
  /-- How often the program is run. -/
  iterations : Nat := 1
  deriving Repr

/-- The options of the command. -/
inductive OptionName where
  | demo
  | disassemble
  | stateFile
  | noInlineCache
  | iterations
  deriving DecidableEq, Repr

namespace OptionName

/-- All options. -/
def all : List OptionName :=
  [demo, disassemble, stateFile, noInlineCache, iterations]

/-- How an option is written, without the dashes. -/
def text : OptionName → String
  | demo => "demo"
  | disassemble => "disassemble"
  | stateFile => "state-file"
  | noInlineCache => "no-inline-cache"
  | iterations => "iterations"

/-- Whether an option takes a value. -/
def takesValue : OptionName → Bool
  | demo | stateFile | iterations => true
  | disassemble | noInlineCache => false

end OptionName

namespace Options

/-- A count: decimal digits, perhaps after a plus sign, below 2^64. -/
def count? (s : String) : Option Nat :=
  let digits := match s.toList with
    | '+' :: rest => rest
    | all => all
  if digits.isEmpty || !digits.all Char.isDigit then none
  else
    let n := digits.foldl (fun n c => 10 * n + (c.toNat - 48)) 0
    if n < UInt64.size then some n else none

/-- Splits a text at its first equals sign. -/
def splitEquals : List Char → List Char × Option (List Char)
  | [] => ([], none)
  | '=' :: rest => ([], some rest)
  | c :: rest =>
    let (before, after) := splitEquals rest
    (c :: before, after)

/-- Whether an argument is an option and so cannot be the value of one. -/
def isOption (arg : String) : Bool :=
  match arg.toList with
  | '-' :: _ :: _ => true
  | _ => false

/-- The options among the arguments with their values, or `none` when some argument is no option
    or a value is missing or out of place. Two dashes end the options, and nothing may follow. -/
def read? : List String → Option (List (OptionName × String))
  | [] => some []
  | arg :: rest =>
    match arg.toList with
    | ['-', '-'] => if rest.isEmpty then some [] else none
    | '-' :: '-' :: body =>
      let (name, value) := splitEquals body
      match OptionName.all.find? (·.text.toList == name) with
      | none => none
      | some option =>
        match option.takesValue, value with
        | false, none => (read? rest).map ((option, "") :: ·)
        | false, some _ => none
        | true, some v => (read? rest).map ((option, String.ofList v) :: ·)
        | true, none =>
          match rest with
          | [] => none
          | v :: rest => if isOption v then none else (read? rest).map ((option, v) :: ·)
    | _ => none

/-- Sets an option to a value, which must be one that it accepts. -/
def apply (o : Options) : OptionName × String → Option Options
  | (.demo, v) => (Demo.ofName? v).map fun demo => { o with demo := demo }
  | (.disassemble, _) => some { o with listing := true }
  | (.stateFile, v) => if v.isEmpty then none else some { o with stateFile := some v }
  | (.noInlineCache, _) => some { o with inlineCache := false }
  | (.iterations, v) => (count? v).map fun n => { o with iterations := n }

/-- The options that the arguments ask for; `none` for a wrong use of the command. -/
def parse? (args : List String) : Option Options := do
  let settings ← read? args
  if (settings.map (·.1)).Nodup then settings.foldlM apply {} else none

end Options

end BlockMachine

import BlockMachine.Value.Basic
import BlockMachine.Text.Quoted
import BlockMachine.Number.Layout

namespace BlockMachine

/-!
# Values as text

`Value.text` is how a value is shown: strings plain on their own and quoted inside containers,
floats with their shortest digits.
-/

/-- Floats are shown positionally from `1e-4` up to below `1e16`, and otherwise with a bare
    exponent. -/
def shownFloat : FloatLayout where
  least := -4
  limit := 16
  plusSign := false
  tie := .up
  nan := "NaN"
  infinite negative := if negative then "-inf" else "inf"

namespace Value

mutual

/-- A value as shown on its own. -/
def text : Value → String
  | null => "null"
  | int i => toString i.toInt
  | float x => shownFloat.write x
  | bool b => if b then "true" else "false"
  | str _ s => s
  | list _ items => "[" ++ ", ".intercalate (itemTexts items) ++ "]"
  | map _ entries => "\x7b" ++ ", ".intercalate (entryTexts entries) ++ "\x7d"
  | record _ r fields =>
    r.name ++ "(" ++ ", ".intercalate (fieldTexts (r.fields.map (·.1)) fields) ++ ")"
  | func _ block _ => "<func #" ++ toString block ++ ">"
  | module m => "<module " ++ m.name ++ ">"
  | host _ => "<opaque>"
  | error message => "error: " ++ message
  | moved => "<moved>"

/-- The items of a list as shown. -/
def itemTexts : List Value → List String
  | [] => []
  | .str _ s :: rest => Text.quoted s :: itemTexts rest
  | v :: rest => text v :: itemTexts rest

/-- The entries of a map as shown. -/
def entryTexts : List (Key × Value) → List String
  | [] => []
  | (k, .str _ s) :: rest => (k.text ++ ": " ++ Text.quoted s) :: entryTexts rest
  | (k, v) :: rest => (k.text ++ ": " ++ text v) :: entryTexts rest

/-- The fields of a record as shown, each under its name. -/
def fieldTexts : List String → List Value → List String
  | name :: names, .str _ s :: rest => (name ++ ": " ++ Text.quoted s) :: fieldTexts names rest
  | name :: names, v :: rest => (name ++ ": " ++ text v) :: fieldTexts names rest
  | _, _ => []

end

end Value

end BlockMachine

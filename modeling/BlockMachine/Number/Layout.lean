import BlockMachine.Number.Shortest

namespace BlockMachine

/-!
# Written floats

A `FloatLayout` says how the shortest digits of a float are set: which magnitudes are written
positionally, how exponents look, and what stands for the values without digits.
-/

/-- The decisions of a written float format. -/
structure FloatLayout where
  /-- Least exponent of the leading digit that is written positionally. -/
  least : Int
  /-- First exponent of the leading digit that is no longer written positionally. -/
  limit : Int
  /-- Whether a positive exponent carries a sign. -/
  plusSign : Bool
  /-- Which of two equally near digit strings is taken. -/
  tie : Shortest.Tie
  /-- The text of a value that is not a number. -/
  nan : String
  /-- The text of a positive and of a negative infinity. -/
  infinite : Bool → String

namespace FloatLayout

/-- Digits with a point `point` places from their left end; zeros fill the gaps, and a number
    without fraction digits ends in `.0`. -/
def positional (digits : String) (point : Int) : String :=
  let n : Int := digits.length
  if point ≤ 0 then "0." ++ "".pushn '0' (-point).toNat ++ digits
  else if n ≤ point then digits ++ "".pushn '0' (point - n).toNat ++ ".0"
  else String.ofList (digits.toList.take point.toNat) ++ "." ++
    String.ofList (digits.toList.drop point.toNat)

/-- One digit before the point, the rest after it, then the exponent. -/
def scientific (plusSign : Bool) (digits : String) (exponent : Int) : String :=
  let rest := String.ofList (digits.toList.drop 1)
  let mantissa := String.ofList (digits.toList.take 1) ++ (if rest.isEmpty then "" else "." ++ rest)
  let sign := if plusSign && 0 ≤ exponent then "+" else ""
  mantissa ++ "e" ++ sign ++ toString exponent

/-- A float in this layout. -/
def write (f : FloatLayout) (x : Float) : String :=
  match Binary64.ofFloat x with
  | .nan => f.nan
  | .infinite negative => f.infinite negative
  | .finite negative m q =>
    let sign := if negative then "-" else ""
    if m = 0 then sign ++ "0.0"
    else
      let d := Shortest.digits f.tie m q
      let digits := toString d.digits
      let top := d.exponent + digits.length - 1
      sign ++
        if f.least ≤ top && top < f.limit then positional digits (top + 1)
        else scientific f.plusSign digits top

end FloatLayout

end BlockMachine

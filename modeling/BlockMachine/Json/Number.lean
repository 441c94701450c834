import BlockMachine.Json.Tree

namespace BlockMachine

/-!
# JSON numbers

A number without fraction and exponent is an integer as long as it fits 64 bits. Any other is a
float: its digits are gathered into a 64-bit significand, further digits only count towards the
exponent, and the significand is then multiplied or divided by a power of ten.

* `JsonNumber` is what a spelling stands for;
* `JsonNumber.ofSpelling` finds it.
-/

/-- What the spelling of a number stands for. -/
inductive JsonNumber where
  | natural (n : Nat)
  | negative (n : Nat)
  | float (x : Float)
  | outOfRange

namespace JsonNumber

/-- The value of a decimal digit. -/
def digit (c : Char) : Nat :=
  c.toNat - 48

/-- Digits in front of the point: the significand, and how many digits no longer fitted. -/
def wholePart : List Char → Nat → Nat × Nat
  | [], acc => (acc, 0)
  | c :: rest, acc =>
    let next := acc * 10 + digit c
    if next < UInt64.size then wholePart rest next else (acc, rest.length + 1)

/-- Digits behind the point, up to the first that does not fit: the significand, and how many
    digits fitted. -/
def fractionPart : List Char → Nat → Nat → Nat × Nat
  | [], acc, count => (acc, count)
  | c :: rest, acc, count =>
    let next := acc * 10 + digit c
    if next < UInt64.size then fractionPart rest next (count + 1) else (acc, count)

/-- The number of digits read as a decimal. -/
def ofDigits (ds : List Char) : Nat :=
  ds.foldl (fun n c => n * 10 + digit c) 0

/-- A power of ten as a float. -/
def powerOfTen (n : Nat) : Float :=
  Float.ofScientific 1 false n

/-- Divides by powers of ten as long as the exponent is below -308, then applies the last one;
    `none` when the result is infinite. `fuel` bounds the number of divisions. -/
def scale : Nat → Float → Int → Option Float
  | 0, f, _ => some f
  | fuel + 1, f, e =>
    if e.natAbs ≤ 308 then
      if 0 ≤ e then
        let g := f * powerOfTen e.toNat
        if g.isInf then none else some g
      else some (f / powerOfTen e.natAbs)
    else if f == 0.0 then some f
    else if 0 ≤ e then none
    else scale fuel (f / powerOfTen 308) (e + 308)

/-- The least and the greatest exponent that is kept apart. -/
def clampExponent (e : Int) : Int :=
  max Int32.minValue.toInt (min Int32.maxValue.toInt e)

/-- The float with a significand and a decimal exponent. A nonzero float runs out after a few
    divisions. -/
def ofParts (isNegative : Bool) (significand : Nat) (exponent : Int) : JsonNumber :=
  match scale 8 (UInt64.toFloat (UInt64.ofNat significand)) exponent with
  | some f => float (if isNegative then -f else f)
  | none => outOfRange

/-- A float with an exponent part: an exponent too large for 32 bits overflows or vanishes. -/
def withExponent (isNegative : Bool) (significand : Nat) (start : Int) (sign : Bool)
    (ds : List Char) : JsonNumber :=
  let e := ofDigits ds
  if (e : Int) ≤ Int32.maxValue.toInt then
    let e : Int := if sign then start - e else start + e
    ofParts isNegative significand (clampExponent e)
  else if significand ≠ 0 && !sign then outOfRange
  else float (if isNegative then -0.0 else 0.0)

/-- What a spelling stands for. -/
def ofSpelling (spelling : String) : JsonNumber :=
  let cs := spelling.toList
  let isNegative := cs.head? = some '-'
  let cs := if isNegative then cs.drop 1 else cs
  let whole := cs.takeWhile Char.isDigit
  let rest := cs.dropWhile Char.isDigit
  let (significand, dropped) := wholePart whole 0
  let (significand, exponent, rest) := match rest with
    | '.' :: rest =>
      let (significand, count) := fractionPart (rest.takeWhile Char.isDigit) significand 0
      (significand, (dropped : Int) - count, rest.dropWhile Char.isDigit)
    | rest => (significand, (dropped : Int), rest)
  match rest with
  | [] =>
    if cs.length = whole.length && dropped = 0 then
      if !isNegative then natural significand
      else if 0 < significand && Int64.minValue.toInt ≤ -(significand : Int) then negative significand
      else float (-(UInt64.toFloat (UInt64.ofNat significand)))
    else ofParts isNegative significand exponent
  | _ :: '-' :: ds => withExponent isNegative significand exponent true ds
  | _ :: '+' :: ds => withExponent isNegative significand exponent false ds
  | _ :: ds => withExponent isNegative significand exponent false ds

/-- The 64-bit integer that a number stands for. -/
def int? : JsonNumber → Option Int64
  | natural n => if (n : Int) ≤ Int64.maxValue.toInt then some (Int64.ofNat n) else none
  | negative n => some (Int64.ofInt (-(n : Int)))
  | _ => none

/-- The float that a number stands for; integers are widened. -/
def float? : JsonNumber → Option Float
  | natural n => some (UInt64.toFloat (UInt64.ofNat n))
  | negative n => some (-(UInt64.toFloat (UInt64.ofNat n)))
  | float x => some x
  | outOfRange => none

end JsonNumber

end BlockMachine

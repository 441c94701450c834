namespace BlockMachine

/-!
# Shortest decimal digits of a float

A finite float is `m · 2 ^ q` for natural `m`. All reals within half a unit of the last place
read back as that float, the ends of the interval included when `m` is even. `Shortest.digits`
finds the fewest decimal digits that name a real in the interval, and of those the nearest.

* `Binary64` is a float taken apart into sign, mantissa and exponent;
* `Decimal` is a decimal number `digits · 10 ^ exponent`;
* `Shortest.digits` is the search.
-/

/-- The parts of a 64-bit float, `± mantissa · 2 ^ exponent`, with the two special classes. -/
inductive Binary64 where
  | nan
  | infinite (negative : Bool)
  | finite (negative : Bool) (mantissa : Nat) (exponent : Int)
  deriving DecidableEq, Repr

/-- Takes the bits of a float apart: one sign bit, eleven exponent bits, 52 fraction bits. -/
def Binary64.ofBits (bits : UInt64) : Binary64 :=
  let negative : Bool := Nat.pow 2 63 ≤ bits.toNat
  let exponent : Nat := bits.toNat / Nat.pow 2 52 % Nat.pow 2 11
  let fraction : Nat := bits.toNat % Nat.pow 2 52
  if exponent = 2047 then if fraction = 0 then .infinite negative else .nan
  else if exponent = 0 then .finite negative fraction (-1074)
  else .finite negative (Nat.pow 2 52 + fraction) ((exponent : Int) - 1075)

/-- The parts of a float. -/
def Binary64.ofFloat (x : Float) : Binary64 :=
  .ofBits x.toBits

/-- A decimal number `digits · 10 ^ exponent`. -/
structure Decimal where
  digits : Nat
  exponent : Int
  deriving DecidableEq, Repr

namespace Shortest

/-- Which of two equally near decimals is taken. -/
inductive Tie where
  | up
  | even
  deriving DecidableEq, Repr

/-- The number of decimal digits of a positive number. -/
def length (n : Nat) : Nat :=
  (Nat.toDigits 10 n).length

/-- The exponent of the leading digit of `m · 2 ^ q`, for a positive `m` of a 64-bit float.
    Scaling by `10 ^ 400` makes every such number at least one. -/
def leading (m : Nat) (q : Int) : Int :=
  let scaled := m * Nat.pow 2 q.toNat * Nat.pow 10 400 / Nat.pow 2 (-q).toNat
  (length scaled : Int) - 1 - 400

/-- The decimal of grid `10 ^ k` that `m · 2 ^ q` should be written as, if one of its two
    neighbours on the grid reads back as it. `low` and `high` bound, in quarters of the last
    place, the reals that do. -/
def onGrid (tie : Tie) (m : Nat) (q k : Int) : Option Nat :=
  let up := Nat.pow 2 (q - 2).toNat * Nat.pow 10 (-k).toNat
  let down := Nat.pow 2 (2 - q).toNat * Nat.pow 10 k.toNat
  let value := 4 * m * up
  let low := (if m = Nat.pow 2 52 ∧ -1074 < q then 4 * m - 1 else 4 * m - 2) * up
  let high := (4 * m + 2) * up
  let inside (n : Nat) : Bool :=
    if m % 2 = 0 then low ≤ n * down && n * down ≤ high else low < n * down && n * down < high
  let below := value / down
  let above := below + 1
  match inside below, inside above with
  | false, false => none
  | true, false => some below
  | false, true => some above
  | true, true =>
    let toBelow := value - below * down
    let toAbove := above * down - value
    if toBelow < toAbove then some below
    else if toAbove < toBelow then some above
    else match tie with
      | .up => some above
      | .even => if below % 2 = 0 then some below else some above

/-- Drops trailing zeros; `fuel` bounds their number. -/
def trim : Nat → Decimal → Decimal
  | 0, d => d
  | fuel + 1, d =>
    if d.digits % 10 = 0 then trim fuel ⟨d.digits / 10, d.exponent + 1⟩ else d

/-- Tries grids with `count` digits and more, `fuel` of them. -/
def search (tie : Tie) (m : Nat) (q top : Int) : Nat → Nat → Decimal
  | 0, _ => ⟨m, q⟩
  | fuel + 1, count =>
    let k := top - count + 1
    match onGrid tie m q k with
    | some n => trim 20 ⟨n, k⟩
    | none => search tie m q top fuel (count + 1)

/-- The fewest digits that read back as `m · 2 ^ q`, for a positive `m`; seventeen always do. -/
def digits (tie : Tie) (m : Nat) (q : Int) : Decimal :=
  search tie m q (leading m q) 17 1

end Shortest

end BlockMachine

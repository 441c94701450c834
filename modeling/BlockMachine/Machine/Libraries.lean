import BlockMachine.Machine.Random
import BlockMachine.Value.Fingerprint

namespace BlockMachine

/-!
# Libraries

What natives take from libraries: the numbers that a generator yields and the hashes of words. A machine
runs with any functions here; `Libraries.simple` are some to try it with.
-/

/-- The functions that natives take from libraries. -/
structure Libraries where
  /-- The float, from zero up to below one, that a generator yields next. -/
  nextFloat : Random → Float
  /-- The integer, from a bound up to below another, that a generator yields next. -/
  nextInt : Random → Int64 → Int64 → Int64
  /-- The hash of the words of a map's entry. -/
  entryHash : List HashWord → UInt64
  /-- The hash of the words of a value. -/
  valueHash : List HashWord → UInt64

namespace Libraries

/-- Draws a float. -/
def float (l : Libraries) (r : Random) : Float × Random :=
  (l.nextFloat r, r.after .float)

/-- Draws an integer from `lo` up to below `hi`. -/
def int (l : Libraries) (lo hi : Int64) (r : Random) : Int64 × Random :=
  (l.nextInt r lo hi, r.after (.int lo hi))

/-- The hash of a value. -/
def hash (l : Libraries) (v : Value) : UInt64 :=
  l.valueHash (v.fingerprintBy l.entryHash)

/-! ### Simple functions -/

/-- A simple 64-bit number for a generator: its seed and the number of draws, with all bits mixed. -/
def simpleBits (r : Random) : UInt64 :=
  let word := r.seed + 0x9e3779b97f4a7c15 * (r.drawn.length + 1).toUInt64
  let z := (word ^^^ (word >>> 30)) * 0xbf58476d1ce4e5b9
  let z := (z ^^^ (z >>> 27)) * 0x94d049bb133111eb
  z ^^^ (z >>> 31)

/-- Simple functions to run a machine with. -/
def simple : Libraries where
  nextFloat r := UInt64.toFloat (simpleBits r >>> 11) / 9007199254740992.0
  nextInt r lo hi :=
    let width := hi.toInt - lo.toInt
    Int64.ofInt (lo.toInt + ((simpleBits r).toNat : Int) % width)
  entryHash := HashWord.simpleHash
  valueHash := HashWord.simpleHash

end Libraries

end BlockMachine

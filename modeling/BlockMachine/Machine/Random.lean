namespace BlockMachine

/-!
# Random numbers

A generator is known by its seed and by what was drawn from it since. What the next number is only the
library knows that the generator comes from.
-/

/-- Something drawn from a generator. -/
inductive Draw where
  | float
  /-- An integer from `lo` up to below `hi`. -/
  | int (lo hi : Int64)
  /-- What else a host does with the generator, by a number of its own. -/
  | other (n : Nat)
  deriving DecidableEq, Repr

/-- A generator: its seed and what was drawn from it, oldest first. -/
structure Random where
  seed : UInt64
  drawn : List Draw := []
  deriving DecidableEq, Repr

/-- The generator after one more draw. -/
def Random.after (r : Random) (draw : Draw) : Random :=
  { r with drawn := r.drawn ++ [draw] }

end BlockMachine

import BlockMachine.Value.Basic

namespace BlockMachine

/-!
# Equality of values

Values are equal by contents, with a short cut for one and the same buffer: a list that holds a
NaN equals its own copies and no other list. Integers and floats mix, maps compare without
regard to order, modules and host pointers are equal only to themselves, and a moved value
equals nothing.
-/

/-- A value under a key is smaller than the entries it is found among. -/
theorem Entries.sizeOf_lt_of_get? {k : Key} {xs : List (Key × Value)} {v : Value}
    (h : get? k xs = some v) : sizeOf v < sizeOf xs := by
  induction xs with
  | nil => cases h
  | cons x rest ih =>
    obtain ⟨k', w⟩ := x
    rw [get?] at h
    split at h
    · obtain rfl := Option.some.inj h
      simp only [List.cons.sizeOf_spec, Prod.mk.sizeOf_spec]
      omega
    · have hrest := ih h
      simp only [List.cons.sizeOf_spec]
      omega

namespace Value

mutual

/-- Equality of two values. -/
@[semireducible]
def equals : Value → Value → Bool
  | null, null => true
  | int a, int b => a == b
  | float x, float y => x == y
  | int a, float y => floatOfInt a == y
  | float x, int b => floatOfInt b == x
  | bool a, bool b => a == b
  | str a s, str b t => a == b || s == t
  | list a xs, list b ys => a == b || equalItems xs ys
  | map a xs, map b ys => a == b || (xs.length == ys.length && includedIn ys xs)
  | record a r xs, record b s ys => a == b || (r.id == s.id && equalItems xs ys)
  | func a f xs, func b g ys => a == b || (f == g && equalItems xs ys)
  | module m, module n => m.id == n.id
  | host a, host b => a == b
  | error s, error t => s == t
  | _, _ => false
termination_by v w => sizeOf v + sizeOf w

/-- Equality item by item. -/
@[semireducible]
def equalItems : List Value → List Value → Bool
  | [], [] => true
  | x :: xs, y :: ys => equals x y && equalItems xs ys
  | _, _ => false
termination_by xs ys => sizeOf xs + sizeOf ys

/-- Whether `ys` has, under every key of the second list, a value that equals the one there. -/
@[semireducible]
def includedIn (ys : List (Key × Value)) : List (Key × Value) → Bool
  | [] => true
  | (k, x) :: xs =>
    (match _h : Entries.get? k ys with
      | some y => equals y x
      | none => false) && includedIn ys xs
termination_by xs => sizeOf ys + sizeOf xs
decreasing_by
  · have := Entries.sizeOf_lt_of_get? _h
    simp only [List.cons.sizeOf_spec, Prod.mk.sizeOf_spec]
    omega
  · simp only [List.cons.sizeOf_spec, Prod.mk.sizeOf_spec]
    omega

end

end Value

end BlockMachine

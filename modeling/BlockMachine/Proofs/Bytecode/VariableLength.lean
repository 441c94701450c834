import BlockMachine.Bytecode.SourceMap
import Mathlib.Algebra.Group.Int.Defs
import Mathlib.Algebra.Group.Nat.Defs

namespace BlockMachine

/-!
# Variable-length numbers

A number that was written is read back, whatever follows it, and a difference that was folded into a
number is found again if it is small.

* `SourceMap.readNumber_writeNumber` is the round trip of numbers;
* `SourceMap.IsSmall` says which differences are found again, `SourceMap.unzigzag_zigzag` that they are;
* `SourceMap.ofInt_add_unzigzag` says where any other difference leads.
-/

namespace SourceMap

/-! ### Seven bits a byte -/

/-- The bits that a byte adds to a number stand above those that were read before. -/
theorem toNat_accumulate {acc shift : UInt32} {b : UInt8} (hacc : acc.toNat < 2 ^ shift.toNat)
    (hshift : shift.toNat < 32) (hfits : b.toNat * 2 ^ shift.toNat < 2 ^ 32) :
    (acc ||| (b.toUInt32 <<< shift)).toNat = acc.toNat + b.toNat * 2 ^ shift.toNat := by
  rw [UInt32.toNat_or, UInt32.toNat_shiftLeft, UInt8.toNat_toUInt32, Nat.mod_eq_of_lt hshift,
    Nat.shiftLeft_eq, Nat.mod_eq_of_lt hfits, Nat.mul_comm, Nat.or_comm,
    ← Nat.two_pow_add_eq_or_of_lt hacc, Nat.add_comm]

theorem toNat_low (b : UInt8) : (b &&& 127).toNat = b.toNat % 128 := by
  have hmask : (127 : UInt8).toNat = 2 ^ 7 - 1 := rfl
  rw [UInt8.toNat_and, hmask, Nat.and_two_pow_sub_one_eq_mod]

/-- A byte that another one follows has its high bit set and seven bits of the number. -/
theorem toNat_marked (v : UInt32) : (v.toUInt8 ||| 128).toNat = v.toNat % 128 + 128 := by
  have hbit : (128 : UInt8).toNat = 2 ^ 7 * 1 := rfl
  have hmod : (v.toUInt8 ||| 128).toNat % 2 ^ 7 = v.toNat % 128 := by
    rw [UInt8.toNat_or, hbit, Nat.or_mod_two_pow]
    simp
  have hge : 128 ≤ (v.toUInt8 ||| 128).toNat := by
    rw [UInt8.toNat_or, hbit]
    exact Nat.right_le_or
  have hlt := (v.toUInt8 ||| 128).toNat_lt
  omega

theorem writeNumber_ne_nil (v : UInt32) : writeNumber v ≠ [] := by
  unfold writeNumber
  split <;> exact List.cons_ne_nil _ _

theorem writeNumber_of_lt {v : UInt32} (h : v < 128) : writeNumber v = [v.toUInt8] := by
  rw [writeNumber, dif_pos h]

theorem writeNumber_of_not_lt {v : UInt32} (h : ¬v < 128) :
    writeNumber v = (v.toUInt8 ||| 128) :: writeNumber (v >>> 7) := by
  rw [writeNumber, dif_neg h]

/-- A byte with its high bit set is not the last one. -/
theorem readNumberAt_marked (fuel : Nat) (shift acc v : UInt32) (rest : List UInt8) :
    readNumberAt (fuel + 1) shift acc ((v.toUInt8 ||| 128) :: rest) =
      readNumberAt fuel (shift + 7) (acc ||| (((v.toUInt8 ||| 128) &&& 127).toUInt32 <<< shift)) rest := by
  have hmarked : ¬(v.toUInt8 ||| 128) < 128 := by
    rw [UInt8.lt_iff_toNat_lt, toNat_marked]
    exact Nat.not_lt.2 (Nat.le_add_left ..)
  rw [readNumberAt, if_neg hmarked]

/-- The last byte of a number completes it. -/
theorem readNumberAt_last (fuel : Nat) {shift acc v : UInt32} (rest : List UInt8) (hv : v < 128)
    (hshift : shift.toNat < 32) (hacc : acc.toNat < 2 ^ shift.toNat)
    (hfits : v.toNat * 2 ^ shift.toNat < 2 ^ 32) :
    ∃ w, readNumberAt (fuel + 1) shift acc (writeNumber v ++ rest) = some (w, rest) ∧
      w.toNat = acc.toNat + v.toNat * 2 ^ shift.toNat := by
  have hlt : v.toNat < 128 := UInt32.lt_iff_toNat_lt.1 hv
  have hbyte : v.toUInt8.toNat = v.toNat := by
    rw [UInt32.toNat_toUInt8]
    omega
  have hlow : (v.toUInt8 &&& 127).toNat = v.toNat := by
    rw [toNat_low, hbyte]
    omega
  have hend : v.toUInt8 < 128 := UInt8.lt_iff_toNat_lt.2 (by rw [hbyte]; exact hlt)
  rw [writeNumber_of_lt hv, List.singleton_append, readNumberAt, if_pos hend]
  exact ⟨_, rfl, by rw [toNat_accumulate hacc hshift (by rwa [hlow]), hlow]⟩

/-- A number that fits above `shift` is read on top of what was read before. -/
theorem readNumberAt_writeNumber {fuel : Nat} {shift acc v : UInt32} (rest : List UInt8)
    (hshift : shift.toNat + 7 * fuel = 28) (hacc : acc.toNat < 2 ^ shift.toNat)
    (hfits : v.toNat * 2 ^ shift.toNat < 2 ^ 32) :
    ∃ w, readNumberAt (fuel + 1) shift acc (writeNumber v ++ rest) = some (w, rest) ∧
      w.toNat = acc.toNat + v.toNat * 2 ^ shift.toNat := by
  induction fuel generalizing shift acc v with
  | zero =>
    -- above 28 bits there is room for four more, so this is the last byte
    have hv : v < 128 := by
      rw [show shift.toNat = 28 by omega] at hfits
      exact UInt32.lt_iff_toNat_lt.2 (show v.toNat < 128 by omega)
    exact readNumberAt_last 0 rest hv (by omega) hacc hfits
  | succ fuel ih =>
    by_cases hv : v < 128
    · exact readNumberAt_last (fuel + 1) rest hv (by omega) hacc hfits
    · have hlow : ((v.toUInt8 ||| 128) &&& 127).toNat = v.toNat % 128 := by
        rw [toNat_low, toNat_marked]
        omega
      have hshift' : (shift + 7).toNat = shift.toNat + 7 := by
        rw [UInt32.toNat_add]
        exact Nat.mod_eq_of_lt (by simp; omega)
      have hv' : (v >>> 7).toNat = v.toNat / 128 := by
        simp [Nat.shiftRight_eq_div_pow]
      -- the number is split into the seven bits of this byte and what the next bytes hold
      have hsplit : v.toNat % 128 * 2 ^ shift.toNat + (v >>> 7).toNat * 2 ^ (shift + 7).toNat =
          v.toNat * 2 ^ shift.toNat := by
        rw [hv', hshift', Nat.pow_add, Nat.mul_comm (2 ^ shift.toNat), ← Nat.mul_assoc, ← Nat.add_mul]
        congr 1
        omega
      have hsum := toNat_accumulate (b := (v.toUInt8 ||| 128) &&& 127) hacc (by omega)
        (by rw [hlow]; omega)
      rw [hlow] at hsum
      have hacc' : (acc ||| (((v.toUInt8 ||| 128) &&& 127).toUInt32 <<< shift)).toNat <
          2 ^ (shift + 7).toNat := by
        have hmod : v.toNat % 128 + 1 ≤ 128 := Nat.mod_lt _ (by decide)
        calc (acc ||| (((v.toUInt8 ||| 128) &&& 127).toUInt32 <<< shift)).toNat
            < (v.toNat % 128 + 1) * 2 ^ shift.toNat := by rw [hsum, Nat.add_mul]; omega
          _ ≤ 128 * 2 ^ shift.toNat := Nat.mul_le_mul_right _ hmod
          _ = 2 ^ (shift + 7).toNat := by rw [hshift', Nat.pow_add, Nat.mul_comm]
      have hfits' : (v >>> 7).toNat * 2 ^ (shift + 7).toNat < 2 ^ 32 := by omega
      obtain ⟨w, hread, hw⟩ := ih (by omega) hacc' hfits'
      rw [writeNumber_of_not_lt hv, List.cons_append, readNumberAt_marked]
      exact ⟨w, hread, by omega⟩

/-- A number is read back, whatever follows it. -/
theorem readNumber_writeNumber (v : UInt32) (rest : List UInt8) :
    readNumber (writeNumber v ++ rest) = some (v, rest) := by
  have hroom : (0 : UInt32).toNat + 7 * 4 = 28 := rfl
  have hfits : v.toNat * 2 ^ (0 : UInt32).toNat < 2 ^ 32 := by simpa using v.toNat_lt
  have hzero : (0 : UInt32).toNat < 2 ^ (0 : UInt32).toNat := by decide
  obtain ⟨w, hread, hw⟩ := readNumberAt_writeNumber rest hroom hzero hfits
  have heq : w = v := UInt32.toNat_inj.1 (by simpa using hw)
  rw [readNumber, hread, heq]

/-! ### Folded differences -/

/-- A difference of 32-bit numbers that is read back from its folded form. -/
def IsSmall (d : Int) : Prop :=
  -2 ^ 31 ≤ d ∧ d < 2 ^ 31

instance (d : Int) : Decidable (IsSmall d) :=
  inferInstanceAs (Decidable (_ ∧ _))

theorem toNat_ofInt (d : Int) : ((UInt32.ofInt d).toNat : Int) = d % 2 ^ 32 := by
  rw [UInt32.ofInt, UInt32.toNat_ofNat']
  omega

theorem unzigzag_zigzag {d : Int} (h : IsSmall d) : unzigzag (zigzag d) = d := by
  obtain ⟨hlow, hhigh⟩ := h
  rw [unzigzag, zigzag]
  by_cases hd : 0 ≤ d
  · have := toNat_ofInt (2 * d)
    rw [if_pos hd]
    omega
  · have := toNat_ofInt (-2 * d - 1)
    rw [if_neg hd]
    omega

/-- A larger difference is read back half the range of numbers away. -/
theorem unzigzag_zigzag_of_not_isSmall {d : Int} (h : ¬IsSmall d) (hlow : -2 ^ 32 < d) (hhigh : d < 2 ^ 32) :
    unzigzag (zigzag d) = d - 2 ^ 31 ∨ unzigzag (zigzag d) = d + 2 ^ 31 := by
  rw [IsSmall] at h
  rw [unzigzag, zigzag]
  by_cases hd : 0 ≤ d
  · have := toNat_ofInt (2 * d)
    rw [if_pos hd]
    omega
  · have := toNat_ofInt (-2 * d - 1)
    rw [if_neg hd]
    omega

/-- The node that is read for a difference that is not small. -/
theorem ofInt_add_unzigzag {node next : UInt32} (h : ¬IsSmall ((next.toNat : Int) - node.toNat)) :
    UInt32.ofInt (node.toNat + unzigzag (zigzag ((next.toNat : Int) - node.toNat))) =
      next + 2147483648 := by
  have hnode := node.toNat_lt
  have hnext := next.toNat_lt
  have hhalf : (next + 2147483648).toNat = (next.toNat + 2147483648) % 2 ^ 32 := UInt32.toNat_add ..
  apply UInt32.toNat_inj.1
  rw [hhalf]
  rcases unzigzag_zigzag_of_not_isSmall h (by omega) (by omega) with hread | hread <;> rw [hread]
  · have := toNat_ofInt (node.toNat + ((next.toNat : Int) - node.toNat - 2 ^ 31))
    omega
  · have := toNat_ofInt (node.toNat + ((next.toNat : Int) - node.toNat + 2 ^ 31))
    omega

end SourceMap

end BlockMachine

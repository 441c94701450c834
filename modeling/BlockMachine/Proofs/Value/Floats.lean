import BlockMachine.Value.Basic
import Mathlib

namespace BlockMachine

/-!
# Comparison of floats

Two floats are equal when they are one number, or both are zeros.

* `beq_iff` states this, and `zeros_or_toBits_eq` that equal floats have the same bits, zeros apart;
* `IsWhole` says that a float is a whole number with all its digits, and `floatOfInt_inj` that
  integers of at most fifty-three digits are told apart as floats.
-/

open Float.Model (UnpackedFloat)
open Float.Model.UnpackedFloat (Sign packComponents shiftToTargetExponent)
open Value (floatOfInt)

namespace Binary64

/-! ### Equality -/

/-- A zero of either sign. -/
def Zero (x : Float) : Prop :=
  x = 0 ∨ x = -0

theorem Zero.ne_nan {x : Float} (h : Zero x) : x ≠ Float.nan := by
  rcases h with rfl | rfl
  · exact Float.beq_self_iff.1 rfl
  · exact Float.beq_self_iff.1 rfl

/-- Two floats are equal when they are one number, or both are zeros. -/
theorem beq_iff {x y : Float} :
    (x == y) = true ↔ x = y ∧ x ≠ Float.nan ∨ Zero x ∧ Zero y := by
  rw [Float.beq_iff_ne_nan_and_eq]
  constructor
  · rintro ⟨hx, -, rfl | ⟨rfl, rfl⟩ | ⟨rfl, rfl⟩⟩
    · exact .inl ⟨rfl, hx⟩
    · exact .inr ⟨.inl rfl, .inr rfl⟩
    · exact .inr ⟨.inr rfl, .inl rfl⟩
  · rintro (⟨rfl, hx⟩ | ⟨hx, hy⟩)
    · exact ⟨hx, hx, .inl rfl⟩
    · refine ⟨hx.ne_nan, hy.ne_nan, ?_⟩
      rcases hx with rfl | rfl <;> rcases hy with rfl | rfl <;> simp

theorem beq_zero_iff {x : Float} : (x == 0.0) = true ↔ Zero x := by
  have hzero : Zero 0.0 := .inl rfl
  rw [beq_iff]
  constructor
  · rintro (⟨rfl, -⟩ | ⟨h, -⟩)
    · exact hzero
    · exact h
  · exact fun h => .inr ⟨h, hzero⟩

theorem zero_of_beq {x y : Float} (h : (x == y) = true) (hx : Zero x) : Zero y := by
  rcases beq_iff.1 h with ⟨rfl, -⟩ | ⟨-, hy⟩
  · exact hx
  · exact hy

/-- Equal floats are both zeros, or have the same bits. -/
theorem zeros_or_toBits_eq {x y : Float} (h : (x == y) = true) :
    (x == 0.0) = true ∧ (y == 0.0) = true ∨ x.toBits = y.toBits := by
  rcases beq_iff.1 h with ⟨rfl, -⟩ | ⟨hx, hy⟩
  · exact .inr rfl
  · exact .inl ⟨beq_zero_iff.2 hx, beq_zero_iff.2 hy⟩

/-! ### Integers as floats -/

/-- A normal float is its sign, a mantissa that starts with a one, and an exponent. -/
theorem unpack_packComponents_normal (s : Sign) {e : BitVec 11} (m : BitVec 52) (h0 : e ≠ 0#11)
    (h1 : e ≠ -1#11) : ∃ hpos, UnpackedFloat.unpack .binary64 (packComponents .binary64 s e m) =
      .finite s (2 ^ 52 + m.toNat) (e.toNat - 1075) hpos := by
  refine ⟨by omega, ?_⟩
  have hmantissa : (1#1 ++ m).toNat = 2 ^ 52 + m.toNat := by
    rw [BitVec.toNat_append, ← Nat.shiftLeft_add_eq_or_of_lt m.isLt]
    rfl
  have hbias : Float.Model.Format.binary64.exponentBias = 1023 := rfl
  simp only [UnpackedFloat.unpack, UnpackedFloat.unpackExponent_packComponents,
    UnpackedFloat.unpackMantissa_packComponents, UnpackedFloat.unpackSign_packComponents,
    Sign.ofBitVec_toBitVec, if_neg h0, if_neg h1, hmantissa, hbias]
  rfl

/-- A normal float is packed without loss. -/
theorem unpack_pack_normal (s : Sign) {m : Nat} {e : Int} (hpos : 0 < m) (hlow : 2 ^ 52 ≤ m)
    (hhigh : m < 2 ^ 53) (helow : -1074 ≤ e) (hehigh : e ≤ 971) :
    (Float.Model.pack (.finite s m e hpos)).unpack = .finite s m e hpos := by
  have hlog : m.log2 + 1 = Float.Model.Format.binary64.mantissaBits := by
    have h52 := (Nat.le_log2 hpos.ne').2 hlow
    have h53 := (Nat.log2_lt hpos.ne').2 hhigh
    show _ = 53
    omega
  have hbias : Float.Model.Format.binary64.exponentBias = 1023 := rfl
  have hexp : (e + (1023 : Nat) + (52 : Nat)).toNat = (e + 1075).toNat := by
    omega
  have hpack : UnpackedFloat.pack .binary64 (.finite s m e hpos) =
      packComponents .binary64 s (.ofNat 11 (e + 1075).toNat) (.ofNat 52 m) := by
    rw [UnpackedFloat.pack]
    dsimp only
    rw [hbias, hexp, if_neg (by omega), if_pos hlog]
  have hfield : (BitVec.ofNat 11 (e + 1075).toNat).toNat = (e + 1075).toNat := by
    rw [BitVec.toNat_ofNat]
    omega
  have hne {b : BitVec 11} (hb : b.toNat ≠ (e + 1075).toNat) :
      BitVec.ofNat 11 (e + 1075).toNat ≠ b := fun h => hb (h ▸ hfield)
  show UnpackedFloat.unpack .binary64 (UnpackedFloat.pack .binary64 _) = _
  rw [hpack]
  obtain ⟨_, hunpack⟩ := unpack_packComponents_normal s (.ofNat 52 m)
    (hne (b := 0#11) (show 0 ≠ _ by omega)) (hne (b := -1#11) (show 2047 ≠ _ by omega))
  rw [hunpack]
  simp only [UnpackedFloat.finite.injEq, true_and, hfield, BitVec.toNat_ofNat]
  omega

/-- A mantissa of full length stays where it is. -/
theorem shiftToTargetExponent_full {m : Nat} {e : Int} (hlog : m.log2 = 52) (helow : -1074 ≤ e) :
    shiftToTargetExponent .binary64 m e .exact = (⟨m, false, false⟩, e) := by
  have htarget : Float.Model.Format.binary64.targetExponent (Float.Model.totalExponent m e) = e := by
    show max ((m.log2 + 1 + e : Int) - (53 : Nat)) (-1074) = e
    omega
  rw [shiftToTargetExponent, htarget, UnpackedFloat.shiftToExponent, Int.sub_self]
  exact Prod.ext rfl (Int.add_zero e)

/-- A number of at most fifty-three digits is a float: its digits are moved up, and nothing is
    rounded. -/
theorem ofNat_exact {n : Nat} (hpos : 0 < n) (h : n < 2 ^ 53) :
    ∃ m d hpos, UnpackedFloat.ofNat .binary64 n = .finite .positive m (-(d : Nat)) hpos ∧
      2 ^ 52 ≤ m ∧ m < 2 ^ 53 ∧ d ≤ 52 ∧ m = n * 2 ^ d := by
  have hlog : n.log2 ≤ 52 := by
    have := (Nat.log2_lt hpos.ne').2 h
    omega
  obtain ⟨d, hd⟩ : ∃ d, n.log2 + d = 52 := ⟨52 - n.log2, by omega⟩
  have hpos' : n * 2 ^ d ≠ 0 := (Nat.mul_pos hpos (Nat.two_pow_pos d)).ne'
  have hlow : 2 ^ 52 ≤ n * 2 ^ d := calc
    2 ^ 52 = 2 ^ n.log2 * 2 ^ d := by rw [← Nat.pow_add, hd]
    _ ≤ n * 2 ^ d := Nat.mul_le_mul_right _ (Nat.log2_self_le hpos.ne')
  have hhigh : n * 2 ^ d < 2 ^ 53 := calc
    n * 2 ^ d < 2 ^ (n.log2 + 1) * 2 ^ d :=
      Nat.mul_lt_mul_of_pos_right Nat.lt_log2_self (Nat.two_pow_pos d)
    _ = 2 ^ 53 := by rw [← Nat.pow_add, show n.log2 + 1 + d = 53 by omega]
  have hlog' : (n * 2 ^ d).log2 = 52 := by
    have h52 := (Nat.le_log2 hpos').2 hlow
    have h53 := (Nat.log2_lt hpos').2 hhigh
    omega
  refine ⟨n * 2 ^ d, d, Nat.pos_of_ne_zero hpos', ?_, hlow, hhigh, by omega, rfl⟩
  have htarget : Float.Model.Format.binary64.targetExponent (Float.Model.totalExponent n 0) =
      -(d : Int) := by
    show max ((n.log2 + 1 + 0 : Int) - (53 : Nat)) (-1074) = _
    omega
  have hdecrease : UnpackedFloat.decreaseExponent n 0 (-(d : Int)) = (n * 2 ^ d, -(d : Int)) := by
    have hshift : (0 - -(d : Int)).toNat = d := by omega
    rw [UnpackedFloat.decreaseExponent, hshift, Nat.shiftLeft_eq, Int.zero_sub]
  have hshift := shiftToTargetExponent_full hlog' (e := -(d : Int)) (by omega)
  rw [UnpackedFloat.ofNat, UnpackedFloat.ofInt, UnpackedFloat.normalize]
  have hgt : compare (n : Int) 0 = .gt := compare_gt_iff_gt.2 (by omega)
  rw [hgt]
  dsimp only
  rw [UnpackedFloat.round, Int.toNat_natCast, htarget, hdecrease]
  dsimp only
  rw [UnpackedFloat.roundWithAccuracy, hshift]
  dsimp only
  have hround : UnpackedFloat.ExtendedMantissa.roundedMantissa ⟨n * 2 ^ d, false, false⟩ =
    n * 2 ^ d := rfl
  rw [hround, hshift]
  exact dif_neg hpos'

/-- A float that is a sign and a whole number of units, written with all its digits. -/
def IsWhole (x : Float) (s : Sign) (n : Nat) : Prop :=
  ∃ m e hpos, x.toModel.unpack = .finite s m e hpos ∧ m < 2 ^ 53 ∧ 2 ^ 52 ≤ m ∧
    -52 ≤ e ∧ e ≤ 1 ∧ m * 2 ^ (e + 52).toNat = n * 2 ^ 52

theorem toFloat_isWhole {n : UInt64} (hpos : 0 < n.toNat) (h : n.toNat ≤ 2 ^ 53) :
    IsWhole n.toFloat .positive n.toNat := by
  rcases Nat.lt_or_eq_of_le h with hlt | heq
  · obtain ⟨m, d, hm, hofNat, hlow, hhigh, hd, hval⟩ := ofNat_exact hpos hlt
    have hpack := unpack_pack_normal .positive (e := -(d : Int)) hm hlow hhigh (by omega) (by omega)
    refine ⟨m, -(d : Int), hm, ?_, hhigh, hlow, by omega, by omega, ?_⟩
    · show (Float.Model.pack (UnpackedFloat.ofNat .binary64 n.toNat)).unpack = _
      rw [hofNat, hpack]
    · have hexp : (-(d : Int) + 52).toNat = 52 - d := by omega
      rw [hval, hexp, Nat.mul_assoc, ← Nat.pow_add, Nat.add_sub_cancel' hd]
  · obtain rfl : n = 9007199254740992 := UInt64.toNat_inj.1 heq
    exact ⟨4503599627370496, 1, by decide, rfl, by decide, by decide, by decide, by decide,
      by decide⟩

theorem IsWhole.neg {x : Float} {n : Nat} (h : IsWhole x .positive n) :
    IsWhole (-x) .negative n := by
  obtain ⟨m, e, hpos, hunpack, hhigh, hlow, helow, hehigh, hval⟩ := h
  refine ⟨m, e, hpos, ?_, hhigh, hlow, helow, hehigh, hval⟩
  show (Float.Model.pack x.toModel.unpack.neg).unpack = _
  rw [hunpack]
  exact unpack_pack_normal _ hpos hlow hhigh (by omega) (by omega)

/-- Floats that are equal are the same number of units. -/
theorem IsWhole.inj {x y : Float} {s t : Sign} {n k : Nat} (hx : IsWhole x s n)
    (hy : IsWhole y t k) (h : (x == y) = true) : s = t ∧ n = k := by
  obtain ⟨m, e, _, hunpack, -, -, -, -, hval⟩ := hx
  obtain ⟨m', e', _, hunpack', -, -, -, -, hval'⟩ := hy
  rcases beq_iff.1 h with ⟨rfl, -⟩ | ⟨hzero, -⟩
  · obtain ⟨rfl, rfl, rfl⟩ := UnpackedFloat.finite.inj (hunpack.symm.trans hunpack')
    exact ⟨rfl, Nat.eq_of_mul_eq_mul_right (by decide) (hval.symm.trans hval')⟩
  · rcases hzero with rfl | rfl <;> exact nomatch hunpack

theorem floatOfInt_isWhole {i : Int64} (h0 : i ≠ 0) (h : i.toInt.natAbs ≤ 2 ^ 53) :
    IsWhole (floatOfInt i) (if i < 0 then .negative else .positive) i.toInt.natAbs := by
  have hbits : i.toInt = if 2 * i.toUInt64.toNat < 2 ^ 64 then (i.toUInt64.toNat : Int)
      else (i.toUInt64.toNat : Int) - (2 ^ 64 : Nat) := BitVec.toInt_eq_toNat_cond i.toBitVec
  have hsize := i.toUInt64.toNat_lt
  have hsign : i < 0 ↔ i.toInt < 0 := Int64.lt_iff_toInt_lt
  have hne : i.toInt ≠ 0 := fun heq => h0 (Int64.toInt_inj.1 heq)
  rw [floatOfInt]
  split
  · next hneg =>
    have hlow := hsign.1 hneg
    have hval : (0 - i.toUInt64).toNat = i.toInt.natAbs := by
      rw [UInt64.toNat_sub, UInt64.toNat_zero]
      split at hbits <;> omega
    rw [← hval] at h ⊢
    exact (toFloat_isWhole (by omega) h).neg
  · next hpos =>
    have hlow := mt hsign.2 hpos
    have hval : i.toUInt64.toNat = i.toInt.natAbs := by
      split at hbits <;> omega
    rw [← hval] at h ⊢
    exact toFloat_isWhole (by omega) h

/-- Integers of at most fifty-three digits are told apart as floats. -/
theorem floatOfInt_inj {i j : Int64} (hi : i.toInt.natAbs ≤ 2 ^ 53) (hj : j.toInt.natAbs ≤ 2 ^ 53)
    (h : (floatOfInt i == floatOfInt j) = true) : i = j := by
  have hzero {k : Int64} (hk : k.toInt.natAbs ≤ 2 ^ 53) (h : Zero (floatOfInt k)) : k = 0 := by
    by_contra h0
    obtain ⟨_, _, _, hunpack, -⟩ := floatOfInt_isWhole h0 hk
    rcases h with h | h
    all_goals
      rw [h] at hunpack
      exact nomatch hunpack
  have hzero' : Zero (floatOfInt 0) := .inl rfl
  by_cases hi0 : i = 0
  · subst hi0
    exact (hzero hj (zero_of_beq h hzero')).symm
  by_cases hj0 : j = 0
  · subst hj0
    exact hzero hi (zero_of_beq (BEq.symm h) hzero')
  obtain ⟨hsign, habs⟩ := (floatOfInt_isWhole hi0 hi).inj (floatOfInt_isWhole hj0 hj) h
  have hsame : i.toInt < 0 ↔ j.toInt < 0 := by
    rw [← Int64.toInt_zero, ← Int64.lt_iff_toInt_lt, ← Int64.lt_iff_toInt_lt]
    split at hsign <;> split at hsign
    · exact iff_of_true ‹_› ‹_›
    · exact nomatch hsign
    · exact nomatch hsign
    · exact iff_of_false ‹_› ‹_›
  apply Int64.toInt_inj.1
  omega

end Binary64

end BlockMachine

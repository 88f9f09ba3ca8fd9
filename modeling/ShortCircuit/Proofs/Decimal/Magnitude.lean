/-
  ShortCircuit.Proofs.Decimal.Magnitude

  The magnitudes of the finite numbers of the binary format, as rationals.  Each
  has a significand and a scale that are canonical, and so a rank among all of
  them, which its bits spell out.  Around each magnitude lie the decimals that
  are nearer to it than to any other; these intervals do not overlap, so that
  what is nearest to a smaller number is smaller.
-/

import Mathlib.Algebra.Order.Field.Power
import Mathlib.Tactic.Linarith
import Mathlib.Tactic.NormNum
import Mathlib.Tactic.Positivity
import Mathlib.Tactic.Ring
import ShortCircuit.Decimal.Shortest

namespace ShortCircuit.Binary64

variable {x y : Binary64} {v w : ℚ}

/-! ## Fields -/

theorem exponentField_eq (x : Binary64) : x.exponentField = x.bits.toNat / 2 ^ 52 % 2 ^ 11 := by
  have hmask : (0x7FF : Nat) = 2 ^ 11 - 1 := by decide
  rw [exponentField, UInt64.toNat_and, UInt64.toNat_shiftRight]
  simp only [UInt64.reduceToNat]
  rw [hmask, Nat.and_two_pow_sub_one_eq_mod, Nat.shiftRight_eq_div_pow]

theorem fractionField_eq (x : Binary64) : x.fractionField = x.bits.toNat % 2 ^ 52 := by
  have hmask : (0xFFFFFFFFFFFFF : Nat) = 2 ^ 52 - 1 := by decide
  rw [fractionField, UInt64.toNat_and]
  simp only [UInt64.reduceToNat]
  rw [hmask, Nat.and_two_pow_sub_one_eq_mod]

theorem fractionField_lt (x : Binary64) : x.fractionField < 2 ^ 52 := by
  rw [fractionField_eq]
  exact Nat.mod_lt _ (by decide)

theorem toNat_isNegative (x : Binary64) : x.isNegative.toNat = x.bits.toNat / 2 ^ 63 := by
  have hbits := x.bits.toNat_lt
  have h : x.isNegative = true ↔ x.bits.toNat / 2 ^ 63 = 1 := by
    rw [isNegative, decide_eq_true_eq, ← UInt64.toNat_inj, UInt64.toNat_shiftRight]
    simp only [UInt64.reduceToNat]
    rw [Nat.shiftRight_eq_div_pow]
  cases hx : x.isNegative with
  | true => exact (h.1 hx).symm
  | false =>
    have hne : x.bits.toNat / 2 ^ 63 ≠ 1 := fun heq => Bool.false_ne_true (hx.symm.trans (h.2 heq))
    rw [Bool.toNat_false]
    omega

theorem toNat_signBit (negative : Bool) : (signBit negative).toNat = 2 ^ 63 * negative.toNat := by
  cases negative <;> rfl

/-! ## Significands and scales -/

theorem significand_of_zero (h : x.exponentField = 0) : x.significand = x.fractionField :=
  if_pos h

theorem significand_of_ne (h : x.exponentField ≠ 0) :
    x.significand = 2 ^ 52 + x.fractionField := by
  rw [significand, if_neg h, Nat.pow_eq]

theorem significand_lt (x : Binary64) : x.significand < 2 ^ 53 := by
  have hfraction := x.fractionField_lt
  by_cases h : x.exponentField = 0
  · rw [significand_of_zero h]
    omega
  · rw [significand_of_ne h]
    omega

theorem significand_le (x : Binary64) : (x.significand : ℚ) ≤ 2 ^ 53 - 1 := by
  have hle : ((x.significand + 1 : ℕ) : ℚ) ≤ (2 ^ 53 : ℕ) := Nat.cast_le.2 x.significand_lt
  push_cast at hle
  linarith

theorem le_scale (x : Binary64) : -1074 ≤ x.scale := by
  rw [scale]
  omega

theorem scale_le (finite : x.isFinite = true) : x.scale ≤ 971 := by
  have h := of_decide_eq_true finite
  rw [scale]
  omega

/-- Only at the least scale may a significand be short. -/
theorem le_significand (h : -1074 < x.scale) : 2 ^ 52 ≤ x.significand := by
  rw [scale] at h
  rw [significand_of_ne (by omega)]
  exact Nat.le_add_right ..

theorem significand_pos (h : x.isZero = false) : 0 < x.significand := by
  rw [isZero, Bool.and_eq_false_iff, beq_eq_false_iff_ne, beq_eq_false_iff_ne] at h
  by_cases hexponent : x.exponentField = 0
  · rw [significand_of_zero hexponent]
    omega
  · rw [significand_of_ne hexponent]
    omega

theorem isNarrowBelow_iff : x.isNarrowBelow = true ↔ x.significand = 2 ^ 52 ∧ -1074 < x.scale := by
  have hfraction := x.fractionField_lt
  rw [isNarrowBelow, Bool.and_eq_true, beq_iff_eq, decide_eq_true_eq, scale]
  by_cases h : x.exponentField = 0
  · rw [significand_of_zero h]
    omega
  · rw [significand_of_ne h]
    omega

/-! ## Ranks -/

/-- The place of a magnitude among all of them, counted from zero. -/
def rank (significand : Nat) (scale : Int) : Nat := (scale + 1074).toNat * 2 ^ 52 + significand

/-- A finite number is that of its sign at its rank. -/
theorem ofMagnitude_rank (finite : x.isFinite = true) :
    ofMagnitude x.isNegative (rank x.significand x.scale) = x := by
  have hbits := x.bits.toNat_lt
  have hexponent := x.exponentField_eq
  have hfraction := x.fractionField_eq
  have hneg := x.toNat_isNegative
  have hrank : rank x.significand x.scale = x.bits.toNat % 2 ^ 63 := by
    rw [rank, scale]
    by_cases h : x.exponentField = 0
    · rw [significand_of_zero h]
      omega
    · rw [significand_of_ne h]
      omega
  have hlt : rank x.significand x.scale < 0x7FF0000000000000 := by
    have hfinite := of_decide_eq_true finite
    omega
  have htoNat : (rank x.significand x.scale).toUInt64.toNat = rank x.significand x.scale := by
    rw [Nat.toUInt64_eq, UInt64.toNat_ofNat', Nat.mod_eq_of_lt (by omega)]
  rw [ofMagnitude, if_pos hlt]
  refine congrArg Binary64.mk (UInt64.toNat_inj.1 ?_)
  -- The sign is a bit above all those of the rank.
  rw [UInt64.toNat_or, toNat_signBit, htoNat, ← Nat.two_pow_add_eq_or_of_lt (by omega)]
  omega

/-! ## Magnitudes -/

def magnitude (x : Binary64) : ℚ := x.significand * 2 ^ x.scale

/-- What lies half way to the number above. -/
def upper (x : Binary64) : ℚ := (x.significand + 1 / 2) * 2 ^ x.scale

/-- What lies half way to the number below. -/
def lower (x : Binary64) : ℚ :=
  (x.significand - if x.isNarrowBelow then 1 / 4 else 1 / 2) * 2 ^ x.scale

theorem magnitude_lt_upper (x : Binary64) : x.magnitude < x.upper := by
  have hpow : (0 : ℚ) < 2 ^ x.scale := by positivity
  rw [magnitude, upper]
  exact mul_lt_mul_of_pos_right (by linarith) hpow

theorem lower_lt_magnitude (x : Binary64) : x.lower < x.magnitude := by
  have hpow : (0 : ℚ) < 2 ^ x.scale := by positivity
  rw [magnitude, lower]
  refine mul_lt_mul_of_pos_right ?_ hpow
  split <;> linarith

/-- The number below is at most one unit away. -/
theorem half_unit_le_lower (x : Binary64) : (x.significand - 1 / 2) * 2 ^ x.scale ≤ x.lower := by
  rw [lower]
  refine mul_le_mul_of_nonneg_right ?_ (by positivity)
  split <;> linarith

theorem lower_pos (h : x.isZero = false) : 0 < x.lower := by
  have hpos : (1 : ℚ) ≤ x.significand := by exact_mod_cast significand_pos h
  have hpow : (0 : ℚ) < 2 ^ x.scale := by positivity
  exact (mul_pos (by linarith) hpow).trans_le x.half_unit_le_lower

/-- A number that is not less does not have a lesser scale. -/
theorem scale_le_of_le (h : x.magnitude ≤ y.magnitude) : x.scale ≤ y.scale := by
  by_contra hlt
  have hscale : y.scale + 1 ≤ x.scale := by omega
  have hm : (2 ^ 52 : ℚ) ≤ x.significand := by
    have hbound := y.le_scale
    exact_mod_cast le_significand (x := x) (by omega)
  have hn : (y.significand : ℚ) < 2 ^ 53 := by exact_mod_cast y.significand_lt
  have hpow : (2 : ℚ) ^ (y.scale + 1) ≤ 2 ^ x.scale := zpow_le_zpow_right₀ one_le_two hscale
  have hlt : y.magnitude < x.magnitude := by
    calc y.magnitude
      _ < 2 ^ 53 * 2 ^ y.scale := mul_lt_mul_of_pos_right hn (by positivity)
      _ = 2 ^ 52 * 2 ^ (y.scale + 1) := by rw [zpow_add_one₀ two_ne_zero]; ring
      _ ≤ x.magnitude := mul_le_mul hm hpow (by positivity) (by positivity)
  exact absurd hlt h.not_gt

/-- A magnitude has one significand and one scale. -/
theorem eq_of_magnitude_eq (h : x.magnitude = y.magnitude) :
    x.significand = y.significand ∧ x.scale = y.scale := by
  have hscale := le_antisymm (scale_le_of_le h.le) (scale_le_of_le h.ge)
  refine ⟨?_, hscale⟩
  rw [magnitude, magnitude, hscale] at h
  exact_mod_cast mul_right_cancel₀ (zpow_ne_zero _ two_ne_zero) h

/-- Between a number and a greater one there are the numbers half way to the next ones. -/
theorem upper_le_lower (h : x.magnitude < y.magnitude) : x.upper ≤ y.lower := by
  have hpow : (0 : ℚ) < 2 ^ x.scale := by positivity
  have hm := x.significand_le
  have hscale : x.scale ≤ y.scale := scale_le_of_le h.le
  -- In units of the lesser one, the greater magnitude is an integer.
  obtain ⟨k, hk⟩ := Int.le.dest hscale
  have hy : (2 : ℚ) ^ y.scale = 2 ^ k * 2 ^ x.scale := by
    rw [← hk, zpow_add₀ two_ne_zero, zpow_natCast, mul_comm]
  rw [upper, lower, hy, ← mul_assoc]
  refine mul_le_mul_of_nonneg_right ?_ hpow.le
  rcases Nat.eq_zero_or_pos k with rfl | hk'
  · -- At one scale the significands differ by one at least.
    have hlt : x.significand < y.significand := by
      rw [magnitude, magnitude, hy, pow_zero, one_mul] at h
      exact_mod_cast lt_of_mul_lt_mul_right h hpow.le
    have hle : ((x.significand + 1 : ℕ) : ℚ) ≤ y.significand := Nat.cast_le.2 hlt
    push_cast at hle
    split <;> linarith
  · -- A greater scale makes up for all of the significand.
    have htwo : (2 : ℚ) ≤ 2 ^ k := by
      calc (2 : ℚ)
        _ = 2 ^ 1 := (pow_one 2).symm
        _ ≤ 2 ^ k := pow_le_pow_right₀ one_le_two hk'
    have hnormal : -1074 < y.scale := by
      have := x.le_scale
      omega
    have hn : (2 ^ 52 - 1 / 4 : ℚ) ≤ y.significand - if y.isNarrowBelow then 1 / 4 else 1 / 2 := by
      have hle := le_significand hnormal
      rcases Nat.eq_or_lt_of_le hle with heq | hlt
      · rw [if_pos (isNarrowBelow_iff.2 ⟨heq.symm, hnormal⟩), ← heq]
        norm_num
      · have hlt' : ((2 ^ 52 + 1 : ℕ) : ℚ) ≤ y.significand := Nat.cast_le.2 hlt
        push_cast at hlt'
        split <;> linarith
    calc (x.significand + 1 / 2 : ℚ)
      _ ≤ 2 * (2 ^ 52 - 1 / 4) := by linarith
      _ ≤ 2 ^ k * (2 ^ 52 - 1 / 4) := mul_le_mul_of_nonneg_right htwo (by norm_num)
      _ = (2 ^ 52 - 1 / 4) * 2 ^ k := mul_comm _ _
      _ ≤ _ := mul_le_mul_of_nonneg_right hn (by positivity)

/-! ## Reals that are nearest -/

/-- A rational is read as a number of this magnitude: it lies between the numbers half way to the
    next ones, which themselves belong to the one with the even significand. -/
structure Rounds (x : Binary64) (v : ℚ) : Prop where
  above : x.lower < v ∨ x.significand % 2 = 0 ∧ x.lower = v
  below : v < x.upper ∨ x.significand % 2 = 0 ∧ v = x.upper

namespace Rounds

theorem self (x : Binary64) : x.Rounds x.magnitude :=
  ⟨.inl x.lower_lt_magnitude, .inl x.magnitude_lt_upper⟩

theorem lower_le (h : x.Rounds v) : x.lower ≤ v := by
  rcases h.above with h | ⟨-, h⟩
  · exact h.le
  · exact h.le

theorem le_upper (h : x.Rounds v) : v ≤ x.upper := by
  rcases h.below with h | ⟨-, h⟩
  · exact h.le
  · exact h.le

theorem pos (h : x.Rounds v) (hzero : x.isZero = false) : 0 < v :=
  (lower_pos hzero).trans_le h.lower_le

/-- What is read as a lesser number is less. -/
theorem lt_of_lt (h : x.Rounds v) (hlt : x.magnitude < y.magnitude) : v < y.magnitude :=
  calc v
    _ ≤ x.upper := h.le_upper
    _ ≤ y.lower := upper_le_lower hlt
    _ < y.magnitude := y.lower_lt_magnitude

/-- What is read as a greater number is greater. -/
theorem gt_of_lt (h : y.Rounds v) (hlt : x.magnitude < y.magnitude) : x.magnitude < v :=
  calc x.magnitude
    _ < x.upper := x.magnitude_lt_upper
    _ ≤ y.lower := upper_le_lower hlt
    _ ≤ v := h.lower_le

end Rounds

end ShortCircuit.Binary64

/-
  ShortCircuit.Proofs.Decimal.Rounding

  The number that a decimal is read as.  A quotient is rounded at the scale at
  which its integer part has fifty-three bits, or at the least one.  So whatever
  lies nearest to the magnitude of a finite number is read as that number, even
  where it lies below a power of two and is rounded up to it.
-/

import Mathlib.Tactic.FieldSimp
import ShortCircuit.Proofs.Decimal.Digits
import ShortCircuit.Proofs.Decimal.Magnitude

namespace ShortCircuit

/-! ## Powers on either side -/

/-- A power with a negative exponent is its inverse on the other side. -/
theorem cast_pow_toNat {b : ℕ} (hb : b ≠ 0) (e : ℤ) :
    ((Nat.pow b e.toNat : ℕ) : ℚ) = (b : ℚ) ^ e * (Nat.pow b (-e).toNat : ℕ) := by
  have hb' : (b : ℚ) ≠ 0 := Nat.cast_ne_zero.2 hb
  obtain ⟨n, rfl | rfl⟩ := e.eq_nat_or_neg
  · simp
  · simp [hb']

/-- What is scaled down by a power of two before it is divided. -/
theorem cast_div_scaled {num den : ℕ} (hden : 0 < den) (q : ℤ) :
    ((num * Nat.pow 2 (-q).toNat : ℕ) : ℚ) / (den * Nat.pow 2 q.toNat : ℕ) =
      num / den / 2 ^ q := by
  have hpow : ((Nat.pow 2 (-q).toNat : ℕ) : ℚ) ≠ 0 := by
    exact_mod_cast (Nat.pow_pos (Nat.two_pos)).ne'
  have hden' : (den : ℚ) ≠ 0 := Nat.cast_ne_zero.2 hden.ne'
  rw [Nat.cast_mul, Nat.cast_mul, cast_pow_toNat two_ne_zero q, Nat.cast_two]
  field_simp

namespace Binary64

variable {x : Binary64} {num den m : ℕ} {e q : ℤ} {v : ℚ}

/-! ## Leading powers -/

theorem powerFits_iff (hden : 0 < den) : powerFits num den e = true ↔ (2 : ℚ) ^ e ≤ num / den := by
  have hpow : (0 : ℚ) < (Nat.pow 2 (-e).toNat : ℕ) := by exact_mod_cast Nat.pow_pos Nat.two_pos
  have hden' : (0 : ℚ) < den := Nat.cast_pos.2 hden
  rw [powerFits, decide_eq_true_eq, ← Nat.cast_le (α := ℚ), Nat.cast_mul, Nat.cast_mul,
    cast_pow_toNat two_ne_zero e, Nat.cast_two, ← mul_assoc, mul_le_mul_iff_left₀ hpow,
    le_div_iff₀ hden', mul_comm]

/-- The leading power is the greatest that is not above the quotient. -/
theorem leadingExponent_spec (hnum : 0 < num) (hden : 0 < den) :
    (2 : ℚ) ^ leadingExponent num den ≤ num / den ∧
      (num / den : ℚ) < 2 ^ (leadingExponent num den + 1) := by
  have hden' : (0 : ℚ) < den := Nat.cast_pos.2 hden
  have hnumle : (2 : ℚ) ^ (num.log2 : ℤ) ≤ num := by exact_mod_cast Nat.log2_self_le hnum.ne'
  have hnumlt : (num : ℚ) < 2 ^ (num.log2 + 1 : ℤ) := by exact_mod_cast Nat.lt_log2_self
  have hdenle : (2 : ℚ) ^ (den.log2 : ℤ) ≤ den := by exact_mod_cast Nat.log2_self_le hden.ne'
  have hdenlt : (den : ℚ) < 2 ^ (den.log2 + 1 : ℤ) := by exact_mod_cast Nat.lt_log2_self
  -- The logarithms leave a choice of two powers.
  have hbelow : (2 : ℚ) ^ ((num.log2 : ℤ) - den.log2 - 1) ≤ num / den := by
    rw [le_div_iff₀ hden']
    calc (2 : ℚ) ^ ((num.log2 : ℤ) - den.log2 - 1) * den
      _ ≤ 2 ^ ((num.log2 : ℤ) - den.log2 - 1) * 2 ^ (den.log2 + 1 : ℤ) := by gcongr
      _ = 2 ^ (num.log2 : ℤ) := by rw [← zpow_add₀ two_ne_zero]; ring_nf
      _ ≤ num := hnumle
  have habove : (num / den : ℚ) < 2 ^ ((num.log2 : ℤ) - den.log2 + 1) := by
    rw [div_lt_iff₀ hden']
    calc (num : ℚ)
      _ < 2 ^ (num.log2 + 1 : ℤ) := hnumlt
      _ = 2 ^ ((num.log2 : ℤ) - den.log2 + 1) * 2 ^ (den.log2 : ℤ) := by
        rw [← zpow_add₀ two_ne_zero]
        ring_nf
      _ ≤ 2 ^ ((num.log2 : ℤ) - den.log2 + 1) * den := by gcongr
  rw [leadingExponent]
  split
  · rename_i h
    exact ⟨(powerFits_iff hden).1 h, habove⟩
  · rename_i h
    refine ⟨hbelow, ?_⟩
    rw [sub_add_cancel]
    exact not_le.1 fun hle => h ((powerFits_iff hden).2 hle)

/-! ## Quotients -/

/-- The integer that a rational is rounded to: it is not further away than a half, and where there
    are two such integers it is the even one. -/
structure Nearest (w : ℚ) (m : ℕ) : Prop where
  low : (m - 1 / 2 : ℚ) ≤ w
  high : w ≤ m + 1 / 2
  even : w = m - 1 / 2 ∨ w = m + 1 / 2 → m % 2 = 0

/-- Where the halves are cleared, rounding is a matter of natural numbers. -/
theorem Nearest.cleared (hden : 0 < den) (h : Nearest (num / den) m) :
    2 * (den * m) ≤ 2 * num + den ∧ 2 * num ≤ 2 * (den * m) + den ∧
      (2 * (den * m) = 2 * num + den ∨ 2 * num = 2 * (den * m) + den → m % 2 = 0) := by
  have hden' : (0 : ℚ) < den := Nat.cast_pos.2 hden
  have hdiv : (num / den : ℚ) * den = num := div_mul_cancel₀ _ hden'.ne'
  refine ⟨?_, ?_, ?_⟩
  · have hle := mul_le_mul_of_nonneg_right h.low hden'.le
    rw [hdiv] at hle
    exact_mod_cast (by linarith : (2 * (den * m) : ℚ) ≤ 2 * num + den)
  · have hle := mul_le_mul_of_nonneg_right h.high hden'.le
    rw [hdiv] at hle
    exact_mod_cast (by linarith : (2 * num : ℚ) ≤ 2 * (den * m) + den)
  · rintro (heq | heq)
    · refine h.even (.inl ?_)
      rw [div_eq_iff hden'.ne']
      have heq' : (2 * (den * m) : ℚ) = 2 * num + den := by exact_mod_cast heq
      linarith
    · refine h.even (.inr ?_)
      rw [div_eq_iff hden'.ne']
      have heq' : (2 * num : ℚ) = 2 * (den * m) + den := by exact_mod_cast heq
      linarith

theorem roundedQuotient_eq (hden : 0 < den) (h : Nearest (num / den) m) :
    roundedQuotient num den = m := by
  obtain ⟨hlow, hhigh, heven⟩ := h.cleared hden
  have hmod := Nat.div_add_mod num den
  have hremainder := Nat.mod_lt num hden
  rw [roundedQuotient]
  simp only [Bool.or_eq_true, Bool.and_eq_true, decide_eq_true_eq, beq_iff_eq]
  generalize num / den = quotient at *
  generalize num % den = remainder at *
  -- The quotient is `m`, or it is one less and the remainder is not below a half.
  rcases Nat.lt_trichotomy m quotient with hlt | rfl | hgt
  · have hle := Nat.mul_le_mul_left den hlt
    rw [Nat.mul_succ] at hle
    omega
  · split
    · rfl
    · omega
  · rcases Nat.eq_or_lt_of_le hgt with rfl | hgt
    · rw [Nat.mul_succ] at hlow hhigh heven
      split
      · omega
      · rfl
    · have hle := Nat.mul_le_mul_left den hgt
      rw [Nat.mul_succ, Nat.mul_succ] at hle
      omega

/-- A quotient is rounded at the scale at which it has fifty-three bits, or at the least one. -/
theorem ofRatio_eq (negative : Bool) (hnum : 0 < num) (hden : 0 < den) (hscale : -1074 ≤ q)
    (hlong : 2 ^ 52 ≤ (num / den / 2 ^ q : ℚ) ∨ q = -1074)
    (hshort : (num / den / 2 ^ q : ℚ) < 2 ^ 53) (h : Nearest (num / den / 2 ^ q) m) :
    ofRatio negative num den = ofMagnitude negative (rank m q) := by
  have hpow : (0 : ℚ) < 2 ^ q := by positivity
  obtain ⟨hle, hlt⟩ := leadingExponent_spec hnum hden
  -- The leading power fixes the scale, unless that is the least one.
  have hbelow : leadingExponent num den < 53 + q := by
    rw [div_lt_iff₀ hpow, ← zpow_natCast, ← zpow_add₀ two_ne_zero] at hshort
    exact (zpow_lt_zpow_iff_right₀ one_lt_two).1 (hle.trans_lt hshort)
  have hscale_eq : max (leadingExponent num den - 52) (-1074) = q := by
    rcases hlong with hlong | hleast
    · rw [le_div_iff₀ hpow, ← zpow_natCast, ← zpow_add₀ two_ne_zero] at hlong
      have habove := (zpow_lt_zpow_iff_right₀ (one_lt_two (α := ℚ))).1 (hlong.trans_lt hlt)
      push_cast at habove
      omega
    · omega
  have hquotient : roundedQuotient (num * Nat.pow 2 (-q).toNat) (den * Nat.pow 2 q.toNat) = m := by
    refine roundedQuotient_eq (Nat.mul_pos hden (Nat.pow_pos Nat.two_pos)) ?_
    rwa [cast_div_scaled hden]
  rw [ofRatio, if_neg hnum.ne']
  simp only [hscale_eq, hquotient]
  rfl

/-- In units of the last place, what lies nearest is rounded to the significand. -/
theorem Rounds.nearest (h : x.Rounds v) : Nearest (v / 2 ^ x.scale) x.significand := by
  have hpow : (0 : ℚ) < 2 ^ x.scale := by positivity
  refine ⟨(le_div_iff₀ hpow).2 (x.half_unit_le_lower.trans h.lower_le),
    (div_le_iff₀ hpow).2 h.le_upper, ?_⟩
  rintro (heq | heq)
  · rw [div_eq_iff hpow.ne'] at heq
    refine (h.above.resolve_left fun hlt => ?_).1
    exact absurd (x.half_unit_le_lower.trans_lt hlt) heq.not_gt
  · rw [div_eq_iff hpow.ne'] at heq
    exact (h.below.resolve_left fun hlt => absurd hlt heq.not_lt).1

/-- What has fewer bits lies below a power of two; in halves of the last place it is rounded up to
    that power. -/
theorem Rounds.below_power (h : x.Rounds v) (hlt : v / 2 ^ x.scale < 2 ^ 52)
    (hscale : -1074 < x.scale) :
    x.significand = 2 ^ 52 ∧ 2 ^ 53 - 1 / 2 ≤ v / 2 ^ (x.scale - 1) ∧
      v / 2 ^ (x.scale - 1) < 2 ^ 53 := by
  have hpow : (0 : ℚ) < 2 ^ x.scale := by positivity
  have hsignificand : x.significand = 2 ^ 52 := by
    refine le_antisymm ?_ (le_significand hscale)
    have hlt' : (x.significand : ℚ) < (2 ^ 52 + 1 : ℕ) := by
      have hlow := h.nearest.low
      push_cast
      linarith
    exact Nat.lt_succ_iff.1 (Nat.cast_lt.1 hlt')
  have hquarter : (2 ^ 52 - 1 / 4 : ℚ) ≤ v / 2 ^ x.scale := by
    have hlower := h.lower_le
    rw [lower, if_pos (isNarrowBelow_iff.2 ⟨hsignificand, hscale⟩), ← le_div_iff₀ hpow,
      hsignificand] at hlower
    exact_mod_cast hlower
  have hdouble : v / 2 ^ (x.scale - 1) = 2 * (v / 2 ^ x.scale) := by
    rw [zpow_sub_one₀ two_ne_zero]
    field_simp
  rw [hdouble]
  exact ⟨hsignificand, by linarith, by linarith⟩

/-- Whatever lies nearest to the magnitude of a finite number is read as that number. -/
theorem ofRatio_of_rounds (finite : x.isFinite = true) (hzero : x.isZero = false) (hden : 0 < den)
    (h : x.Rounds (num / den)) : ofRatio x.isNegative num den = x := by
  have hnum : 0 < num :=
    Nat.cast_pos.1 ((div_pos_iff_of_pos_right (Nat.cast_pos.2 hden)).1 (h.pos hzero))
  have nearest := h.nearest
  by_cases hlong : 2 ^ 52 ≤ (num / den / 2 ^ x.scale : ℚ) ∨ x.scale = -1074
  · have hshort : (num / den / 2 ^ x.scale : ℚ) < 2 ^ 53 := by
      have hhigh := nearest.high
      have hm := x.significand_le
      linarith
    rw [ofRatio_eq x.isNegative hnum hden x.le_scale hlong hshort nearest, ofMagnitude_rank finite]
  · -- Below a power of two the next lesser scale is taken, and rounded up from.
    rw [not_or, not_le] at hlong
    have hscale : -1074 < x.scale := lt_of_le_of_ne x.le_scale (Ne.symm hlong.2)
    obtain ⟨hsignificand, hlow, hhigh⟩ := h.below_power hlong.1 hscale
    have nearest' : Nearest (num / den / 2 ^ (x.scale - 1)) (2 ^ 53) :=
      ⟨by push_cast; linarith, by push_cast; linarith, fun _ => by decide⟩
    have hrank : rank (2 ^ 53) (x.scale - 1) = rank x.significand x.scale := by
      rw [rank, rank, hsignificand]
      omega
    rw [ofRatio_eq x.isNegative hnum hden (by omega) (.inl (by linarith)) hhigh nearest', hrank,
      ofMagnitude_rank finite]

/-! ## Decimals -/

/-- The nearest decimals are neither so great nor so small that they are not looked at. -/
theorem leading_of_rounds {d : Decimal} (finite : x.isFinite = true) (hzero : x.isZero = false)
    (hd : 0 < d.digits) (h : x.Rounds d.value) : -331 < d.leading ∧ d.leading < 310 := by
  have hten : (1 : ℚ) < 10 := by norm_num
  constructor
  · have hsmall : (10 : ℚ) ^ (-331 + 1 : ℤ) ≤ d.value := by
      have hsignificand : (1 : ℚ) ≤ x.significand := by exact_mod_cast significand_pos hzero
      have hscale : (2 : ℚ) ^ (-1074 : ℤ) ≤ 2 ^ x.scale :=
        zpow_le_zpow_right₀ one_le_two x.le_scale
      have hpowers : (2 ^ 1075 : ℕ) ≤ 10 ^ 330 := by decide +kernel
      calc (10 : ℚ) ^ (-331 + 1 : ℤ)
        _ = (10 ^ 330)⁻¹ := zpow_neg 10 330
        _ ≤ (2 ^ 1075)⁻¹ := inv_anti₀ (by positivity) (by exact_mod_cast hpowers)
        _ = 1 / 2 * 2 ^ (-1074 : ℤ) := by rw [zpow_neg, pow_succ, mul_inv, mul_comm, one_div]; rfl
        _ ≤ (x.significand - 1 / 2) * 2 ^ x.scale :=
          mul_le_mul (by linarith) hscale (by positivity) (by linarith)
        _ ≤ x.lower := x.half_unit_le_lower
        _ ≤ d.value := h.lower_le
    have hlt := (zpow_lt_zpow_iff_right₀ hten).1 (hsmall.trans_lt d.value_lt)
    omega
  · have hgreat : d.value < 10 ^ (310 : ℤ) := by
      have hsignificand : (x.significand : ℚ) < 2 ^ 53 := by exact_mod_cast x.significand_lt
      have hscale : (2 : ℚ) ^ x.scale ≤ 2 ^ (971 : ℤ) :=
        zpow_le_zpow_right₀ one_le_two (scale_le finite)
      have hpowers : (2 ^ 1025 : ℕ) < 10 ^ 310 := by decide +kernel
      calc d.value
        _ ≤ (x.significand + 1 / 2) * 2 ^ x.scale := h.le_upper
        _ ≤ 2 ^ 54 * 2 ^ (971 : ℤ) :=
          mul_le_mul (by linarith) hscale (by positivity) (by positivity)
        _ = 2 ^ 1025 := by rw [← zpow_natCast, ← zpow_natCast, ← zpow_add₀ two_ne_zero]; rfl
        _ < 10 ^ 310 := by exact_mod_cast hpowers
        _ = 10 ^ (310 : ℤ) := (zpow_natCast 10 310).symm
    exact (zpow_lt_zpow_iff_right₀ hten).1 ((Decimal.le_value hd).trans_lt hgreat)

/-- A decimal that lies nearest to the magnitude of a finite number is read as that number. -/
theorem ofDecimal_of_rounds {d : Decimal} (finite : x.isFinite = true) (hzero : x.isZero = false)
    (h : x.Rounds d.value) : ofDecimal x.isNegative d.digits d.exponent = x := by
  have hd := Decimal.digits_pos (h.pos hzero)
  have hpow : 0 < Nat.pow 10 (-d.exponent).toNat := Nat.pow_pos (by decide)
  have hratio : ((d.digits * Nat.pow 10 d.exponent.toNat : ℕ) : ℚ) /
      (Nat.pow 10 (-d.exponent).toNat : ℕ) = d.value := by
    rw [Nat.cast_mul, cast_pow_toNat (by decide) d.exponent, Decimal.value,
      div_eq_iff (Nat.cast_ne_zero.2 hpow.ne'), Nat.cast_ofNat, mul_assoc]
  obtain ⟨hsmall, hgreat⟩ := leading_of_rounds finite hzero hd h
  rw [Decimal.leading] at hsmall hgreat
  have hnonzero : ¬(decide (d.digits = 0) ||
      decide (((Nat.toDigits 10 d.digits).length : ℤ) + d.exponent < -330)) = true := by
    rw [Bool.or_eq_true, decide_eq_true_eq, decide_eq_true_eq]
    omega
  rw [ofDecimal, if_neg hnonzero, if_neg (by omega)]
  exact ofRatio_of_rounds finite hzero hpow (hratio.symm ▸ h)

end Binary64

end ShortCircuit

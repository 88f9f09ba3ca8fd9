/-
  ShortCircuit.Proofs.Decimal.Shortest

  The decimal that a number is written as.  Whatever the search comes to reads
  back to the number.  It is written with a point and without an exponent exactly
  if the number is neither too great nor too small, since ten to the sixteenth is
  a number of the format itself, and ten to the minus fourth is nearest to one that is
  written like it.
-/

import ShortCircuit.Proofs.Decimal.Rounding

namespace ShortCircuit.Binary64

variable {x y : Binary64} {d : Decimal} {a b : ℕ} {i j e : ℤ}

/-! ## Comparing -/

/-- The products that are compared are the decimal and the binary one, in the same units. -/
theorem exists_compareScaled (a : ℕ) (i : ℤ) (b : ℕ) (j : ℤ) :
    ∃ left right : ℕ, compareScaled a i b j = compare left right ∧ ∃ unit : ℚ, 0 < unit ∧
      (left : ℚ) = a * 10 ^ i * unit ∧ (right : ℚ) = b * 2 ^ j * unit := by
  refine ⟨_, _, rfl, (Nat.pow 10 (-i).toNat : ℕ) * (Nat.pow 2 (-j).toNat : ℕ), ?_, ?_, ?_⟩
  · have hten : 0 < Nat.pow 10 (-i).toNat := Nat.pow_pos (by decide)
    have htwo : 0 < Nat.pow 2 (-j).toNat := Nat.pow_pos (by decide)
    exact mul_pos (Nat.cast_pos.2 hten) (Nat.cast_pos.2 htwo)
  · rw [Nat.cast_mul, Nat.cast_mul, cast_pow_toNat (by decide) i, Nat.cast_ofNat]
    ring
  · rw [Nat.cast_mul, Nat.cast_mul, cast_pow_toNat (by decide) j, Nat.cast_ofNat]
    ring

theorem compareScaled_eq_gt_iff :
    compareScaled a i b j = .gt ↔ (b * 2 ^ j : ℚ) < a * 10 ^ i := by
  obtain ⟨left, right, heq, unit, hunit, hleft, hright⟩ := exists_compareScaled a i b j
  rw [heq, Nat.compare_eq_gt, ← Nat.cast_lt (α := ℚ), hleft, hright, mul_lt_mul_iff_left₀ hunit]

theorem compareScaled_eq_lt_iff :
    compareScaled a i b j = .lt ↔ (a * 10 ^ i : ℚ) < b * 2 ^ j := by
  obtain ⟨left, right, heq, unit, hunit, hleft, hright⟩ := exists_compareScaled a i b j
  rw [heq, Nat.compare_eq_lt, ← Nat.cast_lt (α := ℚ), hleft, hright, mul_lt_mul_iff_left₀ hunit]

theorem compareScaled_eq_eq_iff :
    compareScaled a i b j = .eq ↔ (a * 10 ^ i : ℚ) = b * 2 ^ j := by
  obtain ⟨left, right, heq, unit, hunit, hleft, hright⟩ := exists_compareScaled a i b j
  rw [heq, Nat.compare_eq_eq, ← Nat.cast_inj (R := ℚ), hleft, hright,
    mul_left_inj' hunit.ne']

/-! ## Reading back -/

/-- The check whether a decimal reads back is one for the reals that are nearest. -/
theorem readsBack_iff (hzero : x.isZero = false) : x.readsBack d = true ↔ x.Rounds d.value := by
  have hpos := significand_pos hzero
  have hquarters : (2 : ℚ) ^ x.scale = 4 * 2 ^ (x.scale - 2) := by
    rw [zpow_sub₀ two_ne_zero]
    ring
  have hlower : ((4 * x.significand - (if x.isNarrowBelow then 1 else 2) : ℕ) : ℚ) *
      2 ^ (x.scale - 2) = x.lower := by
    rw [lower, hquarters, Nat.cast_sub (by split <;> omega)]
    split <;> push_cast <;> ring
  have hupper : ((4 * x.significand + 2 : ℕ) : ℚ) * 2 ^ (x.scale - 2) = x.upper := by
    rw [upper, hquarters]
    push_cast
    ring
  simp only [readsBack, Bool.and_eq_true, Bool.or_eq_true, beq_iff_eq, compareScaled_eq_gt_iff,
    compareScaled_eq_lt_iff, compareScaled_eq_eq_iff, hlower, hupper]
  constructor
  · rintro ⟨habove, hbelow⟩
    exact ⟨habove.imp_right fun h => ⟨h.1, h.2.symm⟩, hbelow⟩
  · rintro ⟨habove, hbelow⟩
    exact ⟨habove.imp_right fun h => ⟨h.1, h.2.symm⟩, hbelow⟩

theorem readsBack_of_onGrid? (h : x.onGrid? e = some d) : x.readsBack d = true := by
  unfold onGrid? at h
  simp only at h
  split at h
  · rename_i hdown hup
    split at h
    · cases h
      exact hup
    · cases h
      exact hdown
    · split at h
      · cases h
        exact hdown
      · cases h
        exact hup
  · rename_i hdown hup
    cases h
    exact hdown
  · rename_i hdown hup
    cases h
    exact hup
  · cases h

theorem value_exactDecimal (x : Binary64) : x.exactDecimal.value = x.magnitude := by
  rw [Decimal.value, exactDecimal, magnitude]
  obtain ⟨n, hn | hn⟩ := x.scale.eq_nat_or_neg
  · simp [hn]
  · -- A power of two below the line is one of five above it, over one of ten.
    have hfive : (10 : ℚ) ^ n = 5 ^ n * 2 ^ n := by rw [← mul_pow]; norm_num
    have hmin : min (-(n : ℤ)) 0 = -n := by omega
    rw [hn, hmin]
    simp [hfive]
    field_simp

/-- What the search for the shortest decimal comes to is nearest to the number. -/
theorem rounds_shortest (hzero : x.isZero = false) : x.Rounds x.shortest.value := by
  rw [shortest]
  cases hfound : (List.range 17).findSome? fun n => x.onGrid? (x.decimalPoint - (n + 1 : Nat)) with
  | none =>
    rw [Option.getD_none, value_exactDecimal]
    exact .self x
  | some d =>
    obtain ⟨n, -, hgrid⟩ := List.exists_of_findSome?_eq_some hfound
    exact (readsBack_iff hzero).1 (readsBack_of_onGrid? hgrid)

theorem digits_shortest_pos (hzero : x.isZero = false) : 0 < x.shortest.digits :=
  Decimal.digits_pos ((rounds_shortest hzero).pos hzero)

/-! ## Where an exponent is needed -/

/-- Numbers of one magnitude are written alike. -/
theorem shortest_congr (h : x.magnitude = y.magnitude) : x.shortest = y.shortest := by
  obtain ⟨hsignificand, hscale⟩ := eq_of_magnitude_eq h
  have hnarrow : x.isNarrowBelow = y.isNarrowBelow := by
    rw [Bool.eq_iff_iff, isNarrowBelow_iff, isNarrowBelow_iff, hsignificand, hscale]
  have hreads (d : Decimal) : x.readsBack d = y.readsBack d := by
    rw [readsBack, readsBack, hsignificand, hscale, hnarrow]
  have hgrid (e : ℤ) : x.onGrid? e = y.onGrid? e := by
    rw [onGrid?, onGrid?, unitsBelow, unitsBelow, hsignificand, hscale, hreads, hreads]
  have hbelow : x.isBelowPower = y.isBelowPower := by
    funext k
    rw [isBelowPower, isBelowPower, hsignificand, hscale]
  have hpoint : x.decimalPoint = y.decimalPoint := by
    rw [decimalPoint, decimalPoint, hbelow, hsignificand, hscale]
  rw [shortest, shortest, hpoint, funext fun n => hgrid _, exactDecimal, exactDecimal, hsignificand,
    hscale]

/-- Ten to the sixteenth. -/
def greatest : Binary64 := ⟨0x4341C37937E08000⟩

theorem magnitude_greatest : greatest.magnitude = 10 ^ 16 := by
  have hsignificand : greatest.significand = 5000000000000000 := by decide
  have hscale : greatest.scale = 1 := by decide
  rw [magnitude, hsignificand, hscale]
  norm_num

/-- The least number that is not below ten to the minus fourth. -/
def least : Binary64 := ⟨0x3F1A36E2EB1C432D⟩

theorem lower_least : least.lower < 10 ^ (-4 : ℤ) ∧ 10 ^ (-4 : ℤ) < least.magnitude := by
  have hsignificand : least.significand = 7378697629483821 := by decide
  have hscale : least.scale = -66 := by decide
  have hnarrow : least.isNarrowBelow = false := by decide
  rw [magnitude, lower, hsignificand, hscale, hnarrow]
  norm_num

theorem value_shortest_lt_iff (hzero : x.isZero = false) :
    x.shortest.value < 10 ^ 16 ↔ x.magnitude < 10 ^ 16 := by
  have h := rounds_shortest hzero
  rw [← magnitude_greatest]
  rcases lt_trichotomy x.magnitude greatest.magnitude with hlt | heq | hgt
  · exact iff_of_true (h.lt_of_lt hlt) hlt
  · -- At the border itself the search is run.
    have hvalue : greatest.shortest = ⟨1, 16⟩ := by decide +kernel
    rw [shortest_congr heq, hvalue, heq, magnitude_greatest, Decimal.value]
    norm_num
  · exact iff_of_false (h.gt_of_lt hgt).not_gt hgt.not_gt

theorem le_value_shortest_iff (hzero : x.isZero = false) :
    10 ^ (-4 : ℤ) ≤ x.shortest.value ↔ 10 ^ (-4 : ℤ) ≤ x.magnitude := by
  have h := rounds_shortest hzero
  obtain ⟨hlower, hleast⟩ := lower_least
  rcases lt_trichotomy x.magnitude least.magnitude with hlt | heq | hgt
  · -- Whatever is nearest to a lesser number is below the border too.
    have hupper := (upper_le_lower hlt).trans_lt hlower
    exact iff_of_false (h.le_upper.trans_lt hupper).not_ge
      (x.magnitude_lt_upper.trans hupper).not_ge
  · have hvalue : least.shortest = ⟨1, -4⟩ := by decide +kernel
    rw [shortest_congr heq, hvalue, heq, Decimal.value]
    exact iff_of_true (by norm_num) hleast.le
  · exact iff_of_true (hleast.trans (h.gt_of_lt hgt)).le (hleast.trans hgt).le

/-- A number is written without an exponent exactly if it is neither too small nor too great. -/
theorem leading_shortest_iff (hzero : x.isZero = false) :
    -4 ≤ x.shortest.leading ∧ x.shortest.leading < 16 ↔
      1 / 10 ^ 4 ≤ x.magnitude ∧ x.magnitude < 10 ^ 16 := by
  have hd := digits_shortest_pos hzero
  have hfour : (1 / 10 ^ 4 : ℚ) = 10 ^ (-4 : ℤ) := by norm_num
  have hsixteen : (10 : ℚ) ^ (16 : ℤ) = 10 ^ 16 := zpow_natCast 10 16
  rw [← not_le (a := 16), Decimal.le_leading_iff hd, Decimal.le_leading_iff hd, not_le, hfour,
    hsixteen, le_value_shortest_iff hzero, value_shortest_lt_iff hzero]

end ShortCircuit.Binary64

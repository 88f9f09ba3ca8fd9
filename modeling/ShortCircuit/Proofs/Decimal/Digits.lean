/-
  ShortCircuit.Proofs.Decimal.Digits

  Decimal digits as they are written.  The digits of a number tell how great it
  is, zeros at the end can be dropped and put back, and wherever the point is put
  among digits, or zeros before or behind them, what is written still stands for
  the same decimal.
-/

import Mathlib.Algebra.Order.Field.Power
import Mathlib.Tactic.NormNum
import Mathlib.Tactic.Positivity
import Mathlib.Tactic.Ring
import ShortCircuit.Decimal.Numeral
import ShortCircuit.Decimal.Shortest
import ShortCircuit.Text.Digit

namespace ShortCircuit

variable {s digits : List Char} {n : ℕ} {e : ℤ}

/-! ## How many digits there are -/

theorem lt_pow_length_toDigits (n : ℕ) : n < 10 ^ (Nat.toDigits 10 n).length :=
  (Nat.length_toDigits_le_iff (by decide) Nat.length_toDigits_pos).1 le_rfl

theorem pow_length_toDigits_le (hn : 0 < n) : 10 ^ ((Nat.toDigits 10 n).length - 1) ≤ n := by
  rcases Nat.eq_zero_or_pos ((Nat.toDigits 10 n).length - 1) with hlength | hlength
  · rw [hlength]
    exact hn
  · by_contra hlt
    have hle := (Nat.length_toDigits_le_iff (by decide) hlength).2 (Nat.not_le.1 hlt)
    have hpos := Nat.length_toDigits_pos (b := 10) (n := n)
    omega

namespace Decimal

/-- The rational that a decimal stands for. -/
def value (d : Decimal) : ℚ := d.digits * 10 ^ d.exponent

/-- The power of ten that the first digit of a decimal stands for. -/
def leading (d : Decimal) : ℤ := d.exponent + (Nat.toDigits 10 d.digits).length - 1

theorem value_lt (d : Decimal) : d.value < 10 ^ (d.leading + 1) := by
  have hlt : (d.digits : ℚ) < 10 ^ (Nat.toDigits 10 d.digits).length := by
    exact_mod_cast lt_pow_length_toDigits d.digits
  have hleading : d.leading + 1 = (Nat.toDigits 10 d.digits).length + d.exponent := by
    rw [leading]
    omega
  rw [value, hleading, zpow_add₀ (by norm_num), zpow_natCast]
  exact mul_lt_mul_of_pos_right hlt (by positivity)

theorem digits_pos {d : Decimal} (h : 0 < d.value) : 0 < d.digits :=
  Nat.cast_pos.1 ((mul_pos_iff_of_pos_right (by positivity)).1 h)

theorem le_value {d : Decimal} (hd : 0 < d.digits) : 10 ^ d.leading ≤ d.value := by
  have hpos := Nat.length_toDigits_pos (b := 10) (n := d.digits)
  have hle : (10 : ℚ) ^ ((Nat.toDigits 10 d.digits).length - 1) ≤ d.digits := by
    exact_mod_cast pow_length_toDigits_le hd
  have hleading : d.leading = ((Nat.toDigits 10 d.digits).length - 1 : ℕ) + d.exponent := by
    rw [leading]
    omega
  rw [value, hleading, zpow_add₀ (by norm_num), zpow_natCast]
  exact mul_le_mul_of_nonneg_right hle (by positivity)

theorem le_leading_iff {d : Decimal} (hd : 0 < d.digits) : e ≤ d.leading ↔ 10 ^ e ≤ d.value := by
  have hten : (1 : ℚ) < 10 := by norm_num
  constructor
  · intro h
    exact ((zpow_le_zpow_iff_right₀ hten).2 h).trans (le_value hd)
  · intro h
    exact Int.lt_add_one_iff.1 ((zpow_lt_zpow_iff_right₀ hten).1 (h.trans_lt d.value_lt))

end Decimal

/-! ## What digits stand for -/

namespace Decimal

theorem natOfDigits_append (xs ys : List ℕ) :
    natOfDigits (xs ++ ys) = natOfDigits xs * 10 ^ ys.length + natOfDigits ys := by
  have hfrom (n : ℕ) :
      ys.foldl (fun n d => 10 * n + d) n = n * 10 ^ ys.length + natOfDigits ys := by
    -- From the last digit, since that is the one the fold takes last.
    induction ys using List.reverseRecOn with
    | nil => simp [natOfDigits]
    | append_singleton ys d ih =>
      simp only [natOfDigits, List.foldl_append, List.foldl_cons, List.foldl_nil] at ih ⊢
      rw [ih, List.length_append, List.length_singleton, pow_succ]
      ring
  rw [natOfDigits, List.foldl_append]
  exact hfrom _

/-- The number that characters stand for, if they are ASCII digits. -/
def numeral (s : List Char) : ℕ := natOfDigits (s.map fun c => c.toNat - '0'.toNat)

theorem numeral_append (s t : List Char) :
    numeral (s ++ t) = numeral s * 10 ^ t.length + numeral t := by
  rw [numeral, List.map_append, natOfDigits_append, List.length_map]
  rfl

@[simp] theorem numeral_zeros (n : ℕ) : numeral (List.replicate n '0') = 0 := by
  induction n with
  | zero => rfl
  | succ n ih =>
    rw [List.replicate_succ', numeral_append, ih]
    rfl

theorem numeral_toDigits (n : ℕ) : numeral (Nat.toDigits 10 n) = n :=
  natOfDigits_natText n

end Decimal

/-! ## Which characters are digits -/

theorem isDigit_range {c : Char} (h : c.isDigit = true) : 48 ≤ c.toNat ∧ c.toNat ≤ 57 := by
  rw [Char.isDigit, Bool.and_eq_true, decide_eq_true_eq, decide_eq_true_eq] at h
  exact h

theorem digitValue?_of_isDigit {c : Char} (h : c.isDigit = true) :
    Text.digitValue? c = some (c.toNat - '0'.toNat) := by
  have hrange := isDigit_range h
  have hfirst : Text.zeros = 0x30 :: Text.zeros.tail := rfl
  rw [Text.digitValue?, hfirst, List.find?_cons_of_pos]
  · rfl
  · rw [Bool.and_eq_true, decide_eq_true_eq, decide_eq_true_eq]
    omega

/-! ## Zeros at the end -/

/-- Dropping the zeros at the end changes digits by zeros only. -/
theorem exists_zeros (digits : List Char) :
    ∃ n, digits = Binary64.dropTrailingZeros digits ++ List.replicate n '0' := by
  have hzeros : (digits.reverse.takeWhile (· == '0')).reverse =
      List.replicate (digits.reverse.takeWhile (· == '0')).length '0' := by
    refine List.eq_replicate_iff.2 ⟨List.length_reverse, fun c hc => ?_⟩
    exact beq_iff_eq.1 (List.all_eq_true.1 List.all_takeWhile c (List.mem_reverse.1 hc))
  refine ⟨(digits.reverse.takeWhile (· == '0')).length, ?_⟩
  rw [Binary64.dropTrailingZeros, ← hzeros, ← List.reverse_append, List.takeWhile_append_dropWhile,
    List.reverse_reverse]

end ShortCircuit

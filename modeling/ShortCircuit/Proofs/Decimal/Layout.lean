/-
  ShortCircuit.Proofs.Decimal.Layout

  Where the point stands in a decimal that is written out.  Without an exponent
  there are digits on both sides of it, and together they stand for the decimal.
  With an exponent there is a letter in the text, which begins and ends with a
  digit all the same.
-/

import ShortCircuit.Proofs.Decimal.Digits

namespace ShortCircuit

variable {digits s : List Char} {d : Decimal} {e : ℤ}

/-! ## Texts with a point -/

/-- Digits before and behind a point that stand for a rational. -/
structure Pointed (whole fraction : List Char) (v : ℚ) : Prop where
  whole_ne : whole ≠ []
  fraction_ne : fraction ≠ []
  whole_digit : ∀ c ∈ whole, c.isDigit = true
  fraction_digit : ∀ c ∈ fraction, c.isDigit = true
  value : Decimal.value ⟨Decimal.numeral (whole ++ fraction), -fraction.length⟩ = v

namespace Binary64

theorem isDigit_of_mem_zeros {n : ℕ} {c : Char} (h : c ∈ List.replicate n '0') :
    c.isDigit = true := by
  rw [List.eq_of_mem_replicate h]
  rfl

section

variable (hne : digits ≠ []) (hdigits : ∀ c ∈ digits, c.isDigit = true)
include hne hdigits

/-- Behind the point, digits stand with zeros in front of them. -/
theorem pointed_behind (n : ℕ) : Pointed ['0'] (List.replicate n '0' ++ digits)
    (Decimal.numeral digits * 10 ^ (-(n + digits.length) : ℤ)) := by
  refine ⟨by simp, by simp [hne], by simp, fun c hc => ?_, ?_⟩
  · rcases List.mem_append.1 hc with hc | hc
    · exact isDigit_of_mem_zeros hc
    · exact hdigits c hc
  · have hzeros : ['0'] ++ (List.replicate n '0' ++ digits) =
        List.replicate (n + 1) '0' ++ digits := rfl
    rw [hzeros, Decimal.value, Decimal.numeral_append, Decimal.numeral_zeros]
    simp

/-- The point can stand among digits. -/
theorem pointed_among {n : ℕ} (hn : 0 < n) (hlt : n < digits.length) :
    Pointed (digits.take n) (digits.drop n)
      (Decimal.numeral digits * 10 ^ (n - digits.length : ℤ)) := by
  refine ⟨?_, ?_, fun c hc => hdigits c (List.mem_of_mem_take hc),
    fun c hc => hdigits c (List.mem_of_mem_drop hc), ?_⟩
  · rw [Ne, List.take_eq_nil_iff, not_or]
    exact ⟨hn.ne', hne⟩
  · rw [Ne, List.drop_eq_nil_iff]
    omega
  · have hexponent : -((digits.drop n).length : ℤ) = n - digits.length := by
      rw [List.length_drop]
      omega
    rw [hexponent, List.take_append_drop, Decimal.value]

/-- Before the point, digits stand with zeros behind them, and another zero behind the point. -/
theorem pointed_before (n : ℕ) :
    Pointed (digits ++ List.replicate n '0') ['0'] (Decimal.numeral digits * 10 ^ n) := by
  refine ⟨by simp [hne], by simp, fun c hc => ?_, by simp, ?_⟩
  · rcases List.mem_append.1 hc with hc | hc
    · exact hdigits c hc
    · exact isDigit_of_mem_zeros hc
  · have hzero : Decimal.numeral ['0'] = 0 := rfl
    rw [Decimal.value, Decimal.numeral_append, Decimal.numeral_append, Decimal.numeral_zeros, hzero]
    simp

/-- Digits whose first one is not far from the point are written around it. -/
theorem exists_pointed_of_layOut (he : -4 ≤ e ∧ e < 16) :
    ∃ whole fraction, layOut digits e = whole ++ '.' :: fraction ∧
      Pointed whole fraction (Decimal.numeral digits * 10 ^ (e + 1 - digits.length)) := by
  by_cases hnegative : e < 0
  · have hexponent : e + 1 - digits.length = -((-e - 1).toNat + digits.length) := by omega
    rw [layOut, if_pos ⟨he.1, hnegative⟩, hexponent]
    exact ⟨_, _, rfl, pointed_behind hne hdigits _⟩
  · obtain ⟨n, hn⟩ := Int.eq_ofNat_of_zero_le (show 0 ≤ e + 1 by omega)
    have htoNat : (e + 1).toNat = n := by omega
    have hlayOut : layOut digits e = digits.take n ++ List.replicate (n - digits.length) '0' ++
        '.' :: if (digits.drop n).isEmpty then ['0'] else digits.drop n := by
      rw [layOut, if_neg (fun h => hnegative h.2), if_pos ⟨by omega, he.2⟩, htoNat]
    rw [hlayOut, hn]
    rcases Nat.lt_or_ge n digits.length with hlt | hle
    · have pointed := pointed_among hne hdigits (n := n) (by omega) hlt
      rw [List.isEmpty_eq_false_iff.2 pointed.fraction_ne, if_neg Bool.false_ne_true,
        Nat.sub_eq_zero_of_le hlt.le, List.replicate_zero, List.append_nil]
      exact ⟨_, _, rfl, pointed⟩
    · have hexponent : (n : ℤ) - digits.length = (n - digits.length : ℕ) := by omega
      rw [List.drop_eq_nil_of_le hle, List.isEmpty_nil, if_pos rfl, List.take_of_length_le hle,
        hexponent, zpow_natCast]
      exact ⟨_, _, rfl, pointed_before hne hdigits _⟩

end

/-! ## Texts with an exponent -/

/-- A digit stands first, another one last, and the letter of the exponent between them. -/
inductive Scientific : List Char → Prop
  | intro {first last : Char} {front back : List Char} (first_digit : first.isDigit = true)
    (last_digit : last.isDigit = true) : Scientific (first :: front ++ 'e' :: back ++ [last])

theorem isDigit_of_mem_toDigits {n : ℕ} {c : Char} (h : c ∈ Nat.toDigits 10 n) :
    c.isDigit = true :=
  Nat.isDigit_of_mem_toDigits (by decide) (by decide) h

theorem exists_exponentText (e : ℤ) :
    ∃ front last, exponentText e = front ++ [last] ∧ last.isDigit = true := by
  obtain ⟨front, last, hdigits⟩ :=
    (List.eq_nil_or_concat' (Nat.toDigits 10 e.natAbs)).resolve_left Nat.toDigits_ne_nil
  have hlast : last.isDigit = true := by
    apply isDigit_of_mem_toDigits (n := e.natAbs)
    rw [hdigits]
    exact List.mem_append_right _ (List.mem_singleton_self last)
  rw [exponentText, hdigits]
  by_cases hlength : (front ++ [last]).length < 2
  · rw [if_pos hlength]
    exact ⟨_ :: '0' :: front, last, rfl, hlast⟩
  · rw [if_neg hlength]
    exact ⟨_ :: front, last, rfl, hlast⟩

theorem scientific_layOut (hne : digits ≠ []) (hdigits : ∀ c ∈ digits, c.isDigit = true)
    (he : ¬(-4 ≤ e ∧ e < 16)) : Scientific (layOut digits e) := by
  obtain ⟨first, rest, rfl⟩ := List.exists_cons_of_ne_nil hne
  obtain ⟨back, last, hback, hlast⟩ := exists_exponentText e
  have hlayOut : layOut (first :: rest) e =
      first :: (if rest.isEmpty then [] else '.' :: rest) ++ 'e' :: back ++ [last] := by
    rw [layOut, if_neg (by omega), if_neg (by omega), hback]
    simp
  rw [hlayOut]
  exact .intro (hdigits first (List.mem_cons_self ..)) hlast

/-! ## Decimals as they are written -/

theorem dropTrailingZeros_toDigits {n : ℕ} (hn : 0 < n) :
    dropTrailingZeros (Nat.toDigits 10 n) ≠ [] ∧
      ∀ c ∈ dropTrailingZeros (Nat.toDigits 10 n), c.isDigit = true := by
  obtain ⟨k, hk⟩ := exists_zeros (Nat.toDigits 10 n)
  refine ⟨fun hnil => ?_, fun c hc => ?_⟩
  · rw [hnil, List.nil_append] at hk
    have hzero := Decimal.numeral_toDigits n
    rw [hk, Decimal.numeral_zeros] at hzero
    exact hn.ne hzero
  · apply isDigit_of_mem_toDigits (n := n)
    rw [hk]
    exact List.mem_append_left _ hc

/-- A decimal that is not far from the point is written with digits around the point. -/
theorem exists_pointed (hd : 0 < d.digits) (h : -4 ≤ d.leading ∧ d.leading < 16) :
    ∃ whole fraction, layOut (dropTrailingZeros (Nat.toDigits 10 d.digits)) d.leading =
      whole ++ '.' :: fraction ∧ Pointed whole fraction d.value := by
  obtain ⟨hne, hdigits⟩ := dropTrailingZeros_toDigits hd
  obtain ⟨whole, fraction, hlayOut, pointed⟩ := exists_pointed_of_layOut hne hdigits h
  obtain ⟨k, hk⟩ := exists_zeros (Nat.toDigits 10 d.digits)
  refine ⟨whole, fraction, hlayOut, ?_⟩
  have hlength := congrArg List.length hk
  rw [List.length_append, List.length_replicate] at hlength
  have hexponent : d.leading + 1 - (dropTrailingZeros (Nat.toDigits 10 d.digits)).length =
      k + d.exponent := by
    rw [Decimal.leading]
    omega
  have hnumeral := Decimal.numeral_toDigits d.digits
  rw [hk, Decimal.numeral_append, Decimal.numeral_zeros, List.length_replicate] at hnumeral
  have hvalue : (Decimal.numeral (dropTrailingZeros (Nat.toDigits 10 d.digits)) : ℚ) *
      10 ^ (d.leading + 1 - (dropTrailingZeros (Nat.toDigits 10 d.digits)).length) = d.value := by
    have hcast : (Decimal.numeral (dropTrailingZeros (Nat.toDigits 10 d.digits)) : ℚ) * 10 ^ k =
        d.digits := by exact_mod_cast hnumeral
    rw [hexponent, zpow_add₀ (by norm_num), zpow_natCast, ← mul_assoc, hcast, Decimal.value]
  exact hvalue ▸ pointed

end Binary64

end ShortCircuit

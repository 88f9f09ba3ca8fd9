/-
  ShortCircuit.Proofs.Literal.Numbers

  Numbers as they are written, read again.  What an integer is written as spells
  it.  What a number of the binary format is written as spells it, to the bit, as
  long as there is no exponent in the text; an exponent is not understood.
-/

import ShortCircuit.Proofs.Decimal.Layout
import ShortCircuit.Proofs.Decimal.Shortest
import ShortCircuit.Proofs.Literal.Spelling

namespace ShortCircuit

variable {x : Binary64} {body s whole fraction : List Char} {v : ℚ} {negative : Bool} {c : Char}
  {n : ℤ}

/-! ## The ends of numbers -/

theorem isBlank_of_isDigit (h : c.isDigit = true) : Text.isBlank c = false := by
  have hrange := isDigit_range h
  simp [Text.isBlank, Text.blanks, Text.inRanges]
  omega

/-- A text with a digit at either end. -/
structure Framed (body : List Char) : Prop where
  first : ∃ c ∈ body.head?, c.isDigit = true
  last : ∃ c ∈ body.getLast?, c.isDigit = true

theorem Pointed.framed (h : Pointed whole fraction v) : Framed (whole ++ '.' :: fraction) := by
  obtain ⟨first, rest, rfl⟩ := List.exists_cons_of_ne_nil h.whole_ne
  obtain ⟨front, last, rfl⟩ := (List.eq_nil_or_concat' fraction).resolve_left h.fraction_ne
  refine ⟨⟨first, rfl, h.whole_digit _ (List.mem_cons_self ..)⟩, ⟨last, ?_, ?_⟩⟩
  · rw [← List.cons_append, ← List.append_assoc, List.getLast?_concat]
    rfl
  · exact h.fraction_digit _ (List.mem_append_right _ (List.mem_singleton_self last))

theorem Binary64.Scientific.framed (h : Binary64.Scientific body) : Framed body := by
  cases h with
  | @intro first last front back first_digit last_digit =>
    refine ⟨⟨first, rfl, first_digit⟩, ⟨last, ?_, last_digit⟩⟩
    rw [List.getLast?_concat]
    rfl

theorem framed_of_digits (hne : body ≠ []) (h : ∀ c ∈ body, c.isDigit = true) : Framed body := by
  obtain ⟨first, rest, hfirst⟩ := List.exists_cons_of_ne_nil hne
  obtain ⟨front, last, hlast⟩ := (List.eq_nil_or_concat' body).resolve_left hne
  refine ⟨⟨first, by rw [hfirst]; rfl, h _ (hfirst ▸ List.mem_cons_self ..)⟩, ⟨last, ?_, ?_⟩⟩
  · rw [hlast, List.getLast?_concat]
    rfl
  · exact h _ (hlast ▸ List.mem_append_right _ (List.mem_singleton_self last))

namespace Framed

open Literal (minus)

variable (framed : Framed body)
include framed

/-- Before the digits there may be a sign. -/
theorem head_cases (negative : Bool) :
    ∃ c ∈ (minus negative ++ body).head?, c = '-' ∨ c.isDigit = true := by
  cases negative with
  | true => exact ⟨'-', rfl, .inl rfl⟩
  | false =>
    obtain ⟨c, hc, hdigit⟩ := framed.first
    exact ⟨c, hc, .inr hdigit⟩

theorem strip_eq (negative : Bool) :
    Text.strip (minus negative ++ body) = minus negative ++ body := by
  refine Text.strip_eq_iff.2 ⟨[], [], by simp, by simp, by simp, ?_, ?_⟩
  · intro c hc
    obtain ⟨d, hd, hcases⟩ := framed.head_cases negative
    rw [Option.mem_unique hc hd]
    rcases hcases with rfl | hdigit
    · decide
    · exact isBlank_of_isDigit hdigit
  · intro c hc
    obtain ⟨d, hd, hdigit⟩ := framed.last
    have hlast : d ∈ (minus negative ++ body).getLast? := by
      rw [Option.mem_def] at hd ⊢
      rw [List.getLast?_append, hd]
      rfl
    rw [Option.mem_unique hc hlast]
    exact isBlank_of_isDigit hdigit

/-- Numbers are not read as anything else. -/
theorem ne_of_head (negative : Bool) {other : Char} {rest : List Char} (hsign : other ≠ '-')
    (hdigit : other.isDigit = false) : minus negative ++ body ≠ other :: rest := by
  intro heq
  obtain ⟨c, hc, hcases⟩ := framed.head_cases negative
  rw [heq] at hc
  cases hc
  rcases hcases with h | h
  · exact hsign h
  · exact Bool.false_ne_true (hdigit.symm.trans h)

end Framed

/-! ## Numbers without an exponent -/

theorem digits_of_isDigit (h : ∀ c ∈ s, c.isDigit = true) :
    Text.Digits s (s.map fun c => c.toNat - '0'.toNat) :=
  List.forall₂_map_right_iff.2 (List.forall₂_same.2 fun c hc => digitValue?_of_isDigit (h c hc))

theorem Pointed.spells (h : Pointed whole fraction v) (negative : Bool) :
    Literal.Spells (Literal.minus negative ++ (whole ++ '.' :: fraction))
      (.float (.ofDecimal negative (Decimal.numeral (whole ++ fraction)) (-fraction.length))) := by
  have spells := Literal.Spells.float negative (digits_of_isDigit h.whole_digit) h.whole_ne
    (digits_of_isDigit h.fraction_digit) h.fraction_ne
  rwa [← List.map_append, List.length_map, List.append_assoc] at spells

namespace Binary64

/-- Zero, and the numbers that are neither so small nor so great that they are written with an
    exponent. -/
def Moderate (x : Binary64) : Prop :=
  x.isZero = true ∨ 1 / 10 ^ 4 ≤ x.magnitude ∧ x.magnitude < 10 ^ 16

theorem text_of_finite (finite : x.isFinite = true) :
    x.text = Literal.minus x.isNegative ++ x.magnitudeText := by
  have hnan : x.isNaN = false := by rw [isNaN, finite, Bool.not_true, Bool.false_and]
  rw [text, hnan, finite]
  rfl

theorem magnitudeText_eq (hzero : x.isZero = false) :
    x.magnitudeText =
      layOut (dropTrailingZeros (Nat.toDigits 10 x.shortest.digits)) x.shortest.leading := by
  rw [magnitudeText, hzero, if_neg Bool.false_ne_true, Decimal.leading]

theorem ofDecimal_zero (finite : x.isFinite = true) (hzero : x.isZero = true) (e : ℤ) :
    ofDecimal x.isNegative 0 e = x := by
  rw [isZero, Bool.and_eq_true, beq_iff_eq, beq_iff_eq] at hzero
  have hrank : rank x.significand x.scale = 0 := by
    rw [rank, significand_of_zero hzero.1, hzero.2, scale, hzero.1]
    rfl
  have hself := ofMagnitude_rank finite
  rw [hrank] at hself
  rw [ofDecimal, if_pos (by simp), hself]

/-- The digits around the point are read as the number itself. -/
theorem exists_pointed_of_moderate (finite : x.isFinite = true) (moderate : x.Moderate) :
    ∃ whole fraction v, x.magnitudeText = whole ++ '.' :: fraction ∧ Pointed whole fraction v ∧
      ofDecimal x.isNegative (Decimal.numeral (whole ++ fraction)) (-fraction.length) = x := by
  cases hzero : x.isZero with
  | true =>
    refine ⟨['0'], ['0'], 0, ?_, ?_, ofDecimal_zero finite hzero _⟩
    · rw [magnitudeText, hzero]
      rfl
    · refine ⟨by simp, by simp, by simp, by simp, ?_⟩
      have hnumeral : Decimal.numeral (['0'] ++ ['0']) = 0 := rfl
      rw [hnumeral, Decimal.value, Nat.cast_zero, zero_mul]
  | false =>
    have hrange := (leading_shortest_iff hzero).2
      (moderate.resolve_left (Bool.eq_false_iff.1 hzero))
    obtain ⟨whole, fraction, htext, pointed⟩ := exists_pointed (digits_shortest_pos hzero) hrange
    have rounds := rounds_shortest hzero
    rw [← pointed.value] at rounds
    exact ⟨whole, fraction, _, (magnitudeText_eq hzero).trans htext, pointed,
      ofDecimal_of_rounds finite hzero rounds⟩

/-- A number that is written without an exponent is spelled by what is written. -/
theorem spells_text (finite : x.isFinite = true) (moderate : x.Moderate) :
    Literal.Spells x.text (.float x) ∧ Text.strip x.text = x.text := by
  obtain ⟨whole, fraction, v, htext, pointed, hvalue⟩ := exists_pointed_of_moderate finite moderate
  have spells := pointed.spells x.isNegative
  rw [hvalue] at spells
  rw [text_of_finite finite, htext]
  exact ⟨spells, pointed.framed.strip_eq x.isNegative⟩

/-! ## Numbers with an exponent -/

theorem scientific_of_not_moderate (h : ¬x.Moderate) : Scientific x.magnitudeText := by
  rw [Moderate, not_or] at h
  obtain ⟨hzero, hrange⟩ := h
  rw [Bool.not_eq_true] at hzero
  obtain ⟨hne, hdigits⟩ := dropTrailingZeros_toDigits (digits_shortest_pos hzero)
  rw [← leading_shortest_iff hzero] at hrange
  rw [magnitudeText_eq hzero]
  exact scientific_layOut hne hdigits hrange

end Binary64

namespace Literal

/-- In a number there are digits, a sign and a point, and no letter. -/
theorem not_mem_of_numeral {outcome : Except Fault Literal} (h : Numeral s outcome) : 'e' ∉ s := by
  have hnone : Text.digitValue? 'e' = none := by decide
  have hdigits {digits : List Char} {values : List ℕ} (h : Text.Digits digits values) :
      'e' ∉ digits := by
    induction h with
    | nil => exact List.not_mem_nil
    | cons hd rest ih =>
      rw [List.mem_cons, not_or]
      refine ⟨?_, ih⟩
      rintro rfl
      rw [hnone] at hd
      cases hd
  have hminus (negative : Bool) : 'e' ∉ minus negative := by cases negative <;> decide
  cases h with
  | int negative digit nonempty =>
    rw [List.mem_append, not_or]
    exact ⟨hminus negative, hdigits digit⟩
  | float negative wholeDigit wholeNonempty fractionDigit fractionNonempty =>
    rw [List.mem_append, List.mem_append, List.mem_cons, not_or, not_or, not_or]
    exact ⟨⟨hminus negative, hdigits wholeDigit⟩, by decide, hdigits fractionDigit⟩

/-- An exponent is not understood. -/
theorem read_scientific (h : Binary64.Scientific body) (negative : Bool) :
    read (minus negative ++ body) =
      .error (.notALiteral (String.ofList (minus negative ++ body))) := by
  have framed := h.framed
  have hletter : 'e' ∈ minus negative ++ body := by
    cases h
    simp
  -- The letter keeps it from being a number, the first character from being anything else.
  have hnumber : readNumber? (minus negative ++ body) = none := by
    cases hread : readNumber? (minus negative ++ body) with
    | none => rfl
    | some outcome => exact absurd hletter (not_mem_of_numeral (numeral_of_readNumber? hread))
  have htext : readText? (minus negative ++ body) = none := by
    cases hread : readText? (minus negative ++ body) with
    | none => rfl
    | some outcome =>
      obtain ⟨content, heq, -⟩ := readText?_eq_some_iff.1 hread
      exact absurd heq (framed.ne_of_head negative (by decide) (by decide))
  have htrue : minus negative ++ body ≠ "true".toList :=
    framed.ne_of_head negative (by decide) (by decide)
  have hfalse : minus negative ++ body ≠ "false".toList :=
    framed.ne_of_head negative (by decide) (by decide)
  rw [read, if_neg htrue, if_neg hfalse, hnumber, htext]
  rfl

end Literal

/-- A number that is written with an exponent is refused. -/
theorem Binary64.ofSource_text (finite : x.isFinite = true) (h : ¬x.Moderate) :
    Kind.ofSource x.text = .error (.notALiteral (String.ofList x.text)) := by
  have scientific := scientific_of_not_moderate h
  have framed := scientific.framed
  rw [text_of_finite finite]
  have hunit : Literal.minus x.isNegative ++ x.magnitudeText ≠ "()".toList :=
    framed.ne_of_head _ (by decide) (by decide)
  rw [Kind.ofSource, framed.strip_eq]
  simp only [if_neg hunit, Literal.read_scientific scientific]
  rfl

/-! ## Integers -/

/-- An integer that can be written is spelled by what is written. -/
theorem Decimal.spells_intText (h : (natText n.natAbs).length ≤ Fault.digitLimit) :
    Literal.Spells (intText n) (.int n) ∧ Text.strip (intText n) = intText n := by
  have hdigits : ∀ c ∈ natText n.natAbs, c.isDigit = true :=
    fun c hc => Binary64.isDigit_of_mem_toDigits hc
  have hne : natText n.natAbs ≠ [] := Nat.toDigits_ne_nil
  have htext : intText n = Literal.minus (decide (n < 0)) ++ natText n.natAbs := by
    by_cases hn : n < 0
    · rw [intText, if_pos hn, decide_eq_true hn]
      rfl
    · rw [intText, if_neg hn, decide_eq_false hn]
      rfl
  have spells := Literal.Spells.int (decide (n < 0)) (digits_of_isDigit hdigits) hne h
  have hvalue : (if decide (n < 0) then -(n.natAbs : ℤ) else n.natAbs) = n := by
    by_cases hn : n < 0
    · rw [decide_eq_true hn, if_pos rfl]
      omega
    · rw [decide_eq_false hn, if_neg Bool.false_ne_true]
      omega
  rw [natOfDigits_natText, hvalue] at spells
  rw [htext]
  exact ⟨spells, (framed_of_digits hne hdigits).strip_eq _⟩

end ShortCircuit

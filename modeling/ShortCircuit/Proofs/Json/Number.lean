/-
  ShortCircuit.Proofs.Json.Number

  Numbers in JSON: a sign, digits without zeros in front, and maybe a fraction and
  an exponent.  The reader takes as much of a text for a number as it can, and
  fails on nothing but an integer that is too long.
-/

import ShortCircuit.Json.Reader
import ShortCircuit.Proofs.Literal.Spelling
import ShortCircuit.Proofs.Text.Characters

namespace ShortCircuit

variable {s rest front digits : List Char} {values : List Nat}

/-! ## Digits -/

namespace Decimal

/-- Whether all characters are digits. -/
def AllDigits (s : List Char) : Prop := ∀ c ∈ s, isAsciiDigit c = true

/-- The values of digits. -/
def valuesOf (digits : List Char) : List Nat := digits.map fun c => c.toNat - '0'.toNat

/-- A span takes all digits up to the first character that is none. -/
theorem spanDigits_eq_iff :
    spanDigits s = (values, rest) ↔
      ∃ digits, s = digits ++ rest ∧ AllDigits digits ∧ values = valuesOf digits ∧
        ∀ c ∈ rest.head?, isAsciiDigit c = false := by
  constructor
  · intro h
    obtain ⟨hvalues, rfl⟩ := Prod.mk.inj h
    refine ⟨s.takeWhile isAsciiDigit, List.takeWhile_append_dropWhile.symm, ?_, hvalues.symm, ?_⟩
    · exact fun c hc => List.all_eq_true.1 List.all_takeWhile c hc
    · intro c hc
      have hnot := List.head?_dropWhile_not isAsciiDigit s
      rw [hc] at hnot
      simpa using hnot
  · rintro ⟨digits, rfl, hdigits, rfl, hstop⟩
    have hall : (digits ++ rest).takeWhile isAsciiDigit = digits ++ rest.takeWhile isAsciiDigit :=
      List.takeWhile_append_of_pos hdigits
    have hnone : rest.takeWhile isAsciiDigit = [] ∧ rest.dropWhile isAsciiDigit = rest := by
      cases rest with
      | nil => exact ⟨rfl, rfl⟩
      | cons c rest =>
        have hc := hstop c rfl
        exact ⟨by simp [hc], by simp [hc]⟩
    rw [spanDigits, hall, List.dropWhile_append_of_pos hdigits, hnone.1, hnone.2, List.append_nil]
    rfl

end Decimal

namespace Json

open Decimal (AllDigits Tail exponent? exponentSign fraction? isAsciiDigit natOfDigits nearest
  spanDigits spanDigits_eq_iff spanTail valuesOf)
open Literal (minus)

/-! ## What numbers look like -/

/-- The digits before any point: a zero alone, or digits of which the first is another one. -/
inductive Whole : List Char → Prop
  | zero : Whole ['0']
  | digits {first : Char} {rest : List Char} (digit : isAsciiDigit first = true)
    (notZero : first ≠ '0') (digits : AllDigits rest) : Whole (first :: rest)

/-- A point and the digits behind it, or nothing. -/
inductive Fraction : List Char → Option (List Nat) → Prop
  | none : Fraction [] none
  | some {digits : List Char} (nonempty : digits ≠ []) (all : AllDigits digits) :
    Fraction ('.' :: digits) (some (valuesOf digits))

/-- The sign of an exponent, which may be missing. -/
inductive Sign : List Char → Bool → Prop
  | none : Sign [] false
  | plus : Sign ['+'] false
  | minus : Sign ['-'] true

/-- An exponent, or nothing. -/
inductive Exponent : List Char → Option Int → Prop
  | none : Exponent [] none
  | some {mark : Char} {sign digits : List Char} {negative : Bool}
    (marked : mark = 'e' ∨ mark = 'E') (signed : Sign sign negative) (nonempty : digits ≠ [])
    (all : AllDigits digits) :
    Exponent (mark :: (sign ++ digits))
      (some (if negative then -(natOfDigits (valuesOf digits) : Int)
        else natOfDigits (valuesOf digits)))

/-- A number, and what it is: an integer, which must not be too long, or with a fraction or an
    exponent the nearest number of the binary format. -/
inductive Number : List Char → Scalar → Prop
  | int (negative : Bool) {whole : List Char} (isWhole : Whole whole)
    (few : whole.length ≤ Fault.digitLimit) :
    Number (minus negative ++ whole)
      (.int (if negative then -(natOfDigits (valuesOf whole) : Int)
        else natOfDigits (valuesOf whole)))
  | float (negative : Bool) {whole fraction exponent : List Char} {tail : Tail}
    (isWhole : Whole whole) (isFraction : Fraction fraction tail.fraction)
    (isExponent : Exponent exponent tail.exponent)
    (some : tail.isEmpty = false) :
    Number (minus negative ++ (whole ++ (fraction ++ exponent)))
      (.float (nearest negative (valuesOf whole) tail))

variable {whole fraction exponent : List Char} {tail : Tail} {negative : Bool}

/-! ## What may follow a value -/

/-- A text that does not go on with anything that could belong to a value. -/
def Ends (rest : List Char) : Prop :=
  ∀ c ∈ rest.head?, c ∈ [' ', '\t', '\n', '\r', ',', ']', '\x7d']

theorem Ends.noDigit (h : Ends rest) : ∀ c ∈ rest.head?, isAsciiDigit c = false := by
  have hall : ∀ c ∈ [' ', '\t', '\n', '\r', ',', ']', '\x7d'], isAsciiDigit c = false := by decide
  exact fun c hc => hall c (h c hc)

theorem Ends.ne (h : Ends rest) : ∀ c ∈ rest.head?, c ≠ '.' ∧ c ≠ 'e' ∧ c ≠ 'E' := by
  have hall : ∀ c ∈ [' ', '\t', '\n', '\r', ',', ']', '\x7d'], c ≠ '.' ∧ c ≠ 'e' ∧ c ≠ 'E' := by
    decide
  exact fun c hc => hall c (h c hc)

/-! ## Digits before the point -/

theorem exists_of_wholeDigits (h : wholeDigits s = (values, rest)) (hne : values ≠ []) :
    ∃ whole, s = whole ++ rest ∧ Whole whole ∧ values = valuesOf whole ∧
      (whole = ['0'] ∨ ∀ c ∈ rest.head?, isAsciiDigit c = false) := by
  unfold wholeDigits at h
  split at h
  · cases h
    exact ⟨['0'], rfl, .zero, rfl, .inl rfl⟩
  · rename_i hzero
    obtain ⟨digits, rfl, hdigits, rfl, hstop⟩ := spanDigits_eq_iff.1 h
    cases digits with
    | nil => exact absurd rfl hne
    | cons first digits =>
      obtain ⟨hfirst, hdigits⟩ := List.forall_mem_cons.1 hdigits
      refine ⟨_, rfl, .digits hfirst ?_ hdigits, rfl, .inr hstop⟩
      rintro rfl
      exact hzero _ rfl

theorem Whole.wholeDigits_eq (h : Whole whole)
    (hstop : whole = ['0'] ∨ ∀ c ∈ rest.head?, isAsciiDigit c = false) :
    wholeDigits (whole ++ rest) = (valuesOf whole, rest) := by
  cases h with
  | zero => rfl
  | @digits first rest' digit notZero digits =>
    have hstop : ∀ c ∈ rest.head?, isAsciiDigit c = false :=
      hstop.resolve_left fun heq => notZero (List.cons.inj heq).1
    rw [List.cons_append, wholeDigits]
    · exact spanDigits_eq_iff.2
        ⟨first :: rest', rfl, List.forall_mem_cons.2 ⟨digit, digits⟩, rfl, hstop⟩
    · rintro _ heq
      exact notZero (List.cons.inj heq).1

theorem Whole.valuesOf_ne_nil (h : Whole whole) : valuesOf whole ≠ [] := by
  cases h <;> exact List.cons_ne_nil _ _

/-! ## Fractions and exponents -/

theorem fraction?_eq_some_iff :
    fraction? s = some (values, rest) ↔
      ∃ fraction, s = fraction ++ rest ∧ Fraction fraction (some values) ∧
        ∀ c ∈ rest.head?, isAsciiDigit c = false := by
  constructor
  · intro h
    unfold fraction? at h
    split at h
    · rename_i back
      split at h
      · cases h
      · rename_i hne
        obtain ⟨digits, rfl, hdigits, rfl, hstop⟩ := spanDigits_eq_iff.1 (Option.some.inj h)
        refine ⟨'.' :: digits, rfl, .some ?_ hdigits, hstop⟩
        rintro rfl
        exact hne _ (Option.some.inj h)
    · cases h
  · rintro ⟨fraction, rfl, isFraction, hstop⟩
    cases isFraction with
    | @some digits nonempty all =>
      have hspan := spanDigits_eq_iff.2 ⟨digits, rfl, all, rfl, hstop⟩
      rw [List.cons_append, fraction?, hspan]
      cases digits with
      | nil => exact absurd rfl nonempty
      | cons first digits => rfl

/-- Where a fraction begins, one is read. -/
theorem fraction?_isSome_iff :
    (fraction? s).isSome = true ↔
      ∃ fraction values rest, s = fraction ++ rest ∧ Fraction fraction (some values) := by
  constructor
  · intro h
    obtain ⟨⟨values, rest⟩, hfound⟩ := Option.isSome_iff_exists.1 h
    obtain ⟨fraction, hs, isFraction, -⟩ := fraction?_eq_some_iff.1 hfound
    exact ⟨fraction, values, rest, hs, isFraction⟩
  · rintro ⟨fraction, values, rest, rfl, isFraction⟩
    cases isFraction with
    | @some digits nonempty all =>
      cases digits with
      | nil => exact absurd rfl nonempty
      | cons first digits =>
        have hfirst := all first (List.mem_cons_self ..)
        rw [List.cons_append, List.cons_append, fraction?, spanDigits,
          List.takeWhile_cons_of_pos hfirst]
        rfl

theorem exists_of_exponentSign (h : exponentSign s = (negative, rest)) :
    ∃ sign, s = sign ++ rest ∧ Sign sign negative := by
  unfold exponentSign at h
  split at h <;> cases h
  · exact ⟨['-'], rfl, .minus⟩
  · exact ⟨['+'], rfl, .plus⟩
  · exact ⟨[], rfl, .none⟩

/-- A sign in front of a digit is taken off. -/
theorem Sign.exponentSign_eq {sign : List Char} (h : Sign sign negative) {c : Char}
    (hc : isAsciiDigit c = true) (rest : List Char) :
    exponentSign (sign ++ c :: rest) = (negative, c :: rest) := by
  cases h with
  | minus => rfl
  | plus => rfl
  | none =>
    rw [List.nil_append, exponentSign]
    · rintro _ heq
      obtain ⟨rfl, -⟩ := List.cons.inj heq
      exact absurd hc (by decide)
    · rintro _ heq
      obtain ⟨rfl, -⟩ := List.cons.inj heq
      exact absurd hc (by decide)

theorem exponent?_eq_some_iff {n : Int} :
    exponent? s = some (n, rest) ↔
      ∃ exponent, s = exponent ++ rest ∧ Exponent exponent (some n) ∧
        ∀ c ∈ rest.head?, isAsciiDigit c = false := by
  constructor
  · intro h
    unfold exponent? at h
    split at h
    · rename_i mark back
      split at h
      · rename_i hmark
        rcases hsign : exponentSign back with ⟨negative, back'⟩
        obtain ⟨sign, rfl, signed⟩ := exists_of_exponentSign hsign
        rw [hsign] at h
        rcases hspan : spanDigits back' with ⟨values, back⟩
        obtain ⟨digits, rfl, all, rfl, hstop⟩ := spanDigits_eq_iff.1 hspan
        simp only [hspan] at h
        split at h
        · cases h
        · rename_i hne heq
          cases heq
          cases h
          refine ⟨mark :: (sign ++ digits), by simp,
            .some (by simpa using hmark) signed ?_ all, hstop⟩
          rintro rfl
          exact hne rfl
      · cases h
    · cases h
  · rintro ⟨exponent, rfl, isExponent, hstop⟩
    cases isExponent with
    | @some mark sign digits negative marked signed nonempty all =>
      cases digits with
      | nil => exact absurd rfl nonempty
      | cons first digits =>
        have hfirst := all first (List.mem_cons_self ..)
        have hspan := spanDigits_eq_iff.2 ⟨first :: digits, rfl, all, rfl, hstop⟩
        have hsign := signed.exponentSign_eq hfirst (digits ++ rest)
        have hmark : (decide (mark = 'e') || decide (mark = 'E')) = true := by simpa using marked
        rw [List.cons_append, List.append_assoc, List.cons_append, exponent?, if_pos hmark, hsign]
        simp only [← List.cons_append, hspan]
        rfl

/-- Where an exponent begins, one is read. -/
theorem exponent?_isSome_iff :
    (exponent? s).isSome = true ↔
      ∃ exponent n rest, s = exponent ++ rest ∧ Exponent exponent (some n) := by
  constructor
  · intro h
    obtain ⟨⟨n, rest⟩, hfound⟩ := Option.isSome_iff_exists.1 h
    obtain ⟨exponent, hs, isExponent, -⟩ := exponent?_eq_some_iff.1 hfound
    exact ⟨exponent, n, rest, hs, isExponent⟩
  · rintro ⟨exponent, n, rest, rfl, isExponent⟩
    -- The reader takes all digits that follow, which are more perhaps.
    cases isExponent with
    | @some mark sign digits negative marked signed nonempty all =>
      obtain ⟨more, back, rfl, hmore, hstop⟩ : ∃ more back, rest = more ++ back ∧
          AllDigits more ∧ ∀ c ∈ back.head?, isAsciiDigit c = false := by
        obtain ⟨more, hrest, hmore, -, hstop⟩ := spanDigits_eq_iff.1 (Eq.refl (spanDigits rest))
        exact ⟨more, _, hrest, hmore, hstop⟩
      rw [Option.isSome_iff_exists]
      exact ⟨(_, back), exponent?_eq_some_iff.2 ⟨mark :: (sign ++ (digits ++ more)), by simp,
        .some marked signed (by simp [nonempty]) (List.forall_mem_append.2 ⟨all, hmore⟩), hstop⟩⟩

theorem fraction?_eq_none (h : ∀ c ∈ s.head?, c ≠ '.') : fraction? s = none := by
  unfold fraction?
  split
  · exact absurd rfl (h _ rfl)
  · rfl

theorem exponent?_eq_none (h : ∀ c ∈ s.head?, c ≠ 'e' ∧ c ≠ 'E') : exponent? s = none := by
  unfold exponent?
  split
  · rename_i mark rest
    rw [if_neg (by simpa using h mark rfl)]
  · rfl

/-- The fraction is read first, and the exponent from what is left. -/
theorem spanTail_of_fraction {back : List Char} (found : Option (List Nat))
    (h : fraction? s = found.map (·, back)) (hback : found = none → back = s) :
    spanTail s = match exponent? back with
      | some (n, rest) => (⟨found, some n⟩, rest)
      | none => (⟨found, none⟩, back) := by
  rw [spanTail, h]
  cases found with
  | none =>
    rw [hback rfl]
    rfl
  | some values => rfl

theorem exists_of_spanTail (h : spanTail s = (tail, rest)) :
    ∃ fraction exponent, s = fraction ++ (exponent ++ rest) ∧ Fraction fraction tail.fraction ∧
      Exponent exponent tail.exponent := by
  have hback {fraction back : List Char} {found : Option (List Nat)}
      (isFraction : Fraction fraction found) (hspan : spanTail s = match exponent? back with
        | some (n, rest) => (⟨found, some n⟩, rest)
        | none => (⟨found, none⟩, back)) (hs : s = fraction ++ back) :
      ∃ fraction exponent, s = fraction ++ (exponent ++ rest) ∧ Fraction fraction tail.fraction ∧
        Exponent exponent tail.exponent := by
    rw [hspan] at h
    split at h
    · rename_i hexponent
      obtain ⟨exponent, rfl, isExponent, -⟩ := exponent?_eq_some_iff.1 hexponent
      cases h
      exact ⟨fraction, exponent, hs, isFraction, isExponent⟩
    · cases h
      exact ⟨fraction, [], hs, isFraction, .none⟩
  cases hfraction : fraction? s with
  | none => exact hback .none (spanTail_of_fraction none hfraction fun _ => rfl) rfl
  | some found =>
    obtain ⟨values, back⟩ := found
    obtain ⟨fraction, hs, isFraction, -⟩ := fraction?_eq_some_iff.1 hfraction
    exact hback isFraction (spanTail_of_fraction (some values) hfraction (by simp)) hs

/-- No digit and no point stands in front of an exponent. -/
theorem Exponent.head {power : Option Int} (h : Exponent exponent power) (ends : Ends rest) :
    ∀ c ∈ (exponent ++ rest).head?, c ≠ '.' ∧ isAsciiDigit c = false := by
  cases h with
  | none => exact fun c hc => ⟨(ends.ne c hc).1, ends.noDigit c hc⟩
  | some marked =>
    rintro c hc
    cases hc
    rcases marked with rfl | rfl <;> decide

/-- A tail is read up to where it ends. -/
theorem spanTail_eq {found : Option (List Nat)} {power : Option Int}
    (isFraction : Fraction fraction found) (isExponent : Exponent exponent power)
    (ends : Ends rest) : spanTail (fraction ++ (exponent ++ rest)) = (⟨found, power⟩, rest) := by
  have hhead := isExponent.head ends
  have hfraction :
      fraction? (fraction ++ (exponent ++ rest)) = found.map (·, exponent ++ rest) := by
    cases isFraction with
    | none => exact fraction?_eq_none fun c hc => (hhead c hc).1
    | some nonempty all =>
      exact fraction?_eq_some_iff.2 ⟨_, rfl, .some nonempty all, fun c hc => (hhead c hc).2⟩
  have hexponent : exponent? (exponent ++ rest) = power.map (·, rest) := by
    cases isExponent with
    | none => exact exponent?_eq_none fun c hc => (ends.ne c hc).2
    | some marked signed nonempty all =>
      exact exponent?_eq_some_iff.2 ⟨_, rfl, .some marked signed nonempty all, ends.noDigit⟩
  rw [spanTail_of_fraction found hfraction, hexponent]
  · cases isExponent <;> rfl
  · rintro rfl
    cases isFraction
    rfl

/-! ## Reading numbers -/

/-- A text that does not go on with more of a number. -/
structure Bare (rest : List Char) : Prop where
  digit : ∀ c ∈ rest.head?, isAsciiDigit c = false
  fraction : ∀ fraction values back, rest = fraction ++ back → ¬Fraction fraction (some values)
  exponent : ∀ exponent n back, rest = exponent ++ back → ¬Exponent exponent (some n)

theorem spanTail_of_bare (h : Bare rest) : spanTail rest = (⟨none, none⟩, rest) := by
  have hfraction : fraction? rest = none := by
    rw [← Option.not_isSome_iff_eq_none, fraction?_isSome_iff]
    rintro ⟨fraction, values, back, heq, isFraction⟩
    exact h.fraction _ _ _ heq isFraction
  have hexponent : exponent? rest = none := by
    rw [← Option.not_isSome_iff_eq_none, exponent?_isSome_iff]
    rintro ⟨exponent, n, back, heq, isExponent⟩
    exact h.exponent _ _ _ heq isExponent
  rw [spanTail_of_fraction none hfraction fun _ => rfl, hexponent]

theorem bare_of_spanTail (hdigit : ∀ c ∈ rest.head?, isAsciiDigit c = false)
    (h : (spanTail rest).1.isEmpty = true) : Bare rest := by
  have hfraction : fraction? rest = none := by
    rw [Option.eq_none_iff_forall_ne_some]
    rintro ⟨values, back⟩ hfound
    rw [spanTail_of_fraction (some values) hfound (by simp)] at h
    split at h <;> simp [Tail.isEmpty] at h
  have hexponent : exponent? rest = none := by
    rw [Option.eq_none_iff_forall_ne_some]
    rintro ⟨n, back⟩ hfound
    rw [spanTail_of_fraction none hfraction fun _ => rfl, hfound] at h
    simp [Tail.isEmpty] at h
  refine ⟨hdigit, fun fraction values back heq isFraction => ?_,
    fun exponent n back heq isExponent => ?_⟩
  · have hsome := fraction?_isSome_iff.2 ⟨_, _, _, heq, isFraction⟩
    rw [hfraction] at hsome
    cases hsome
  · have hsome := exponent?_isSome_iff.2 ⟨_, _, _, heq, isExponent⟩
    rw [hexponent] at hsome
    cases hsome

theorem readUnsigned_of_whole (isWhole : Whole whole)
    (hwhole : wholeDigits s = (valuesOf whole, rest)) :
    readUnsigned negative s =
      if (spanTail rest).1.isEmpty then
        if whole.length ≤ Fault.digitLimit then
          .ok (.int (if negative then -(natOfDigits (valuesOf whole) : Int)
            else natOfDigits (valuesOf whole)), (spanTail rest).2)
        else .error (.fault (.numeralTooLong whole.length))
      else
        .ok (.float (nearest negative (valuesOf whole) (spanTail rest).1), (spanTail rest).2) := by
  have hlength : (valuesOf whole).length = whole.length := List.length_map ..
  have hne := isWhole.valuesOf_ne_nil
  rw [readUnsigned, hwhole, ← hlength]
  cases hvalues : valuesOf whole with
  | nil => exact absurd hvalues hne
  | cons d digits =>
    rcases htail : spanTail rest with ⟨tail, back⟩
    simp only [htail, Decimal.readInt]
    by_cases few : (d :: digits).length ≤ Fault.digitLimit
    · simp only [if_pos few]
    · simp only [if_neg few]

/-- What the reader takes for a number is one. -/
theorem exists_of_readUnsigned {x : Scalar} (h : readUnsigned negative s = .ok (x, rest)) :
    ∃ front, s = front ++ rest ∧ Number (minus negative ++ front) x := by
  rcases hwhole : wholeDigits s with ⟨values, back⟩
  by_cases hne : values = []
  · rw [readUnsigned, hwhole, hne] at h
    cases h
  obtain ⟨whole, rfl, isWhole, rfl, -⟩ := exists_of_wholeDigits hwhole hne
  rw [readUnsigned_of_whole isWhole hwhole] at h
  rcases htail : spanTail back with ⟨tail, rest'⟩
  obtain ⟨fraction, exponent, rfl, isFraction, isExponent⟩ := exists_of_spanTail htail
  rw [htail] at h
  split at h
  · rename_i hempty
    split at h
    · rename_i few
      cases h
      have hempty : tail.fraction = none ∧ tail.exponent = none := by
        simpa [Tail.isEmpty] using hempty
      rw [hempty.1] at isFraction
      rw [hempty.2] at isExponent
      cases isFraction
      cases isExponent
      exact ⟨whole, rfl, .int negative isWhole few⟩
    · cases h
  · rename_i hsome
    cases h
    exact ⟨whole ++ (fraction ++ exponent), by simp,
      .float negative isWhole isFraction isExponent (by simpa using hsome)⟩

theorem readUnsigned_fault_iff {cause : Fault} :
    readUnsigned negative s = .error (.fault cause) ↔
      ∃ whole rest, s = whole ++ rest ∧ Whole whole ∧ Fault.digitLimit < whole.length ∧
        Bare rest ∧ cause = .numeralTooLong whole.length := by
  constructor
  · intro h
    rcases hwhole : wholeDigits s with ⟨values, back⟩
    by_cases hne : values = []
    · rw [readUnsigned, hwhole, hne] at h
      cases h
    obtain ⟨whole, rfl, isWhole, rfl, hstop⟩ := exists_of_wholeDigits hwhole hne
    rw [readUnsigned_of_whole isWhole hwhole] at h
    split at h
    · rename_i hempty
      split at h
      · cases h
      · rename_i hmany
        cases h
        refine ⟨whole, back, rfl, isWhole, Nat.not_le.1 hmany, bare_of_spanTail ?_ hempty, rfl⟩
        refine hstop.resolve_left ?_
        rintro rfl
        exact hmany (by decide)
    · cases h
  · rintro ⟨whole, rest, rfl, isWhole, hmany, bare, rfl⟩
    have hwhole := isWhole.wholeDigits_eq (.inr bare.digit)
    rw [readUnsigned_of_whole isWhole hwhole, spanTail_of_bare bare]
    exact if_neg (Nat.not_le.2 hmany)

theorem Whole.ne_minus (h : Whole whole) (rest : List Char) :
    ∀ c ∈ (whole ++ rest).head?, c ≠ '-' := by
  cases h with
  | zero => simp
  | digits digit =>
    rintro c hc rfl
    cases hc
    exact absurd digit (by decide)

theorem readNumber_minus (negative : Bool) (h : ∀ c ∈ s.head?, c ≠ '-') :
    readNumber (minus negative ++ s) = readUnsigned negative s := by
  cases negative with
  | true => rfl
  | false =>
    rw [minus, if_neg Bool.false_ne_true, List.nil_append, readNumber]
    rintro rest rfl
    exact h '-' rfl rfl

/-- With its sign taken off, a number begins with a digit. -/
theorem exists_minus (s : List Char) :
    ∃ negative back, s = minus negative ++ back ∧ readNumber s = readUnsigned negative back := by
  unfold readNumber
  split
  · rename_i rest
    exact ⟨true, rest, rfl, rfl⟩
  · exact ⟨false, s, rfl, rfl⟩

theorem exists_of_readNumber {x : Scalar} (h : readNumber s = .ok (x, rest)) :
    ∃ front, s = front ++ rest ∧ Number front x := by
  obtain ⟨negative, back, rfl, hread⟩ := exists_minus s
  rw [hread] at h
  obtain ⟨front, rfl, number⟩ := exists_of_readUnsigned h
  exact ⟨minus negative ++ front, by rw [List.append_assoc], number⟩

/-- A number is read up to where it ends. -/
theorem Number.readNumber_eq {x : Scalar} (h : Number front x) (ends : Ends rest) :
    readNumber (front ++ rest) = .ok (x, rest) := by
  cases h with
  | @int negative whole isWhole few =>
    have htail : spanTail rest = (⟨none, none⟩, rest) := spanTail_eq .none .none ends
    rw [List.append_assoc, readNumber_minus negative (isWhole.ne_minus rest),
      readUnsigned_of_whole isWhole (isWhole.wholeDigits_eq (.inr ends.noDigit)), htail]
    exact if_pos few
  | @float negative whole fraction exponent tail isWhole isFraction isExponent some =>
    have htail : spanTail (fraction ++ (exponent ++ rest)) = (tail, rest) :=
      spanTail_eq isFraction isExponent ends
    have hstop : ∀ c ∈ (fraction ++ (exponent ++ rest)).head?, isAsciiDigit c = false := by
      revert isFraction
      generalize tail.fraction = found
      rintro (_ | _) c hc
      · exact (isExponent.head ends c hc).2
      · cases hc
        decide
    have hback : whole ++ (fraction ++ exponent) ++ rest =
        whole ++ (fraction ++ (exponent ++ rest)) := by simp
    rw [List.append_assoc, hback, readNumber_minus negative (isWhole.ne_minus _),
      readUnsigned_of_whole isWhole (isWhole.wholeDigits_eq (.inr hstop)), htail, some]
    rfl

/-- A text that begins with an integer of too many digits, and how reading it fails. -/
def Overlong (s : List Char) (cause : Fault) : Prop :=
  ∃ negative whole rest, s = minus negative ++ (whole ++ rest) ∧ Whole whole ∧
    Fault.digitLimit < whole.length ∧ Bare rest ∧ cause = .numeralTooLong whole.length

/-- The only numbers that cannot be read are integers that are too long. -/
theorem readNumber_fault_iff {cause : Fault} :
    readNumber s = .error (.fault cause) ↔ Overlong s cause := by
  constructor
  · intro h
    obtain ⟨negative, back, rfl, hread⟩ := exists_minus s
    rw [hread] at h
    obtain ⟨whole, rest, rfl, isWhole, hmany, bare, rfl⟩ := readUnsigned_fault_iff.1 h
    exact ⟨negative, whole, rest, rfl, isWhole, hmany, bare, rfl⟩
  · rintro ⟨negative, whole, rest, rfl, isWhole, hmany, bare, rfl⟩
    rw [readNumber_minus negative (isWhole.ne_minus rest)]
    exact readUnsigned_fault_iff.2 ⟨whole, rest, rfl, isWhole, hmany, bare, rfl⟩

end Json

end ShortCircuit

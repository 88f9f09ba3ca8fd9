/-
  ShortCircuit.Proofs.Literal.Spelling

  The spellings of constants, as a grammar that says nothing of how they are
  read.  Reading accepts them all, with the value that each one spells, and
  nothing else; what it does not accept it refuses for one of four causes.
-/

import Mathlib.Data.List.Forall2
import ShortCircuit.Kind.Constant
import ShortCircuit.Proofs.Literal.Content

namespace ShortCircuit

open Failing

namespace Text

variable {s rest : List Char} {values : List Nat}

/-! ## Blanks -/

theorem dropWhile_isBlank {before : List Char} (hbefore : ∀ c ∈ before, isBlank c = true)
    (hrest : ∀ c ∈ rest.head?, isBlank c = false) : (before ++ rest).dropWhile isBlank = rest := by
  rw [List.dropWhile_append_of_pos hbefore]
  cases rest with
  | nil => rfl
  | cons c rest => simp [hrest c rfl]

theorem not_isBlank_of_head? {c : Char} (h : c ∈ (s.dropWhile isBlank).head?) :
    isBlank c = false := by
  induction s with
  | nil => simp at h
  | cons d s ih =>
    cases hd : isBlank d with
    | true => exact ih (by simpa [hd] using h)
    | false =>
      have hcd : d = c := by simpa [hd] using h
      rw [← hcd]
      exact hd

/-- To strip a text is to take the blanks at its ends, and nothing else. -/
theorem strip_eq_iff {inner : List Char} :
    strip s = inner ↔
      ∃ before after, s = before ++ inner ++ after ∧ (∀ c ∈ before, isBlank c = true) ∧
        (∀ c ∈ after, isBlank c = true) ∧ (∀ c ∈ inner.head?, isBlank c = false) ∧
        ∀ c ∈ inner.getLast?, isBlank c = false := by
  constructor
  · rintro rfl
    have hfront := List.takeWhile_append_dropWhile (p := isBlank) (l := s)
    generalize hbody : s.dropWhile isBlank = body at hfront
    have hback := List.takeWhile_append_dropWhile (p := isBlank) (l := body.reverse)
    have hinner : strip s = (body.reverse.dropWhile isBlank).reverse := by rw [strip, hbody]
    have hsplit : body = strip s ++ (body.reverse.takeWhile isBlank).reverse := by
      rw [hinner, ← List.reverse_append, hback, List.reverse_reverse]
    refine ⟨s.takeWhile isBlank, (body.reverse.takeWhile isBlank).reverse, ?_, ?_, ?_, ?_, ?_⟩
    · rw [List.append_assoc, ← hsplit, hfront]
    · exact List.all_eq_true.1 List.all_takeWhile
    · intro c hc
      exact List.all_eq_true.1 List.all_takeWhile c (List.mem_reverse.1 hc)
    · -- The text without its blanks begins where the blanks in front of it end.
      intro c hc
      obtain ⟨rest, hrest⟩ := List.head?_eq_some_iff.1 hc
      apply not_isBlank_of_head? (s := s)
      rw [hbody, hsplit, hrest]
      rfl
    · intro c hc
      apply not_isBlank_of_head? (s := body.reverse)
      rwa [hinner, List.getLast?_reverse] at hc
  · rintro ⟨before, after, rfl, hbefore, hafter, hfirst, hlast⟩
    unfold strip
    cases inner with
    | nil =>
      have hblank : ∀ c ∈ before ++ after, isBlank c = true := by
        intro c hc
        exact (List.mem_append.1 hc).elim (hbefore c) (hafter c)
      have hall : (before ++ after ++ []).dropWhile isBlank = [] :=
        dropWhile_isBlank hblank (by simp)
      rw [List.append_nil] at hall
      rw [List.append_nil, hall]
      rfl
    | cons c inner =>
      have hfront : (before ++ (c :: inner ++ after)).dropWhile isBlank = c :: inner ++ after :=
        dropWhile_isBlank hbefore (by simpa using hfirst)
      rw [← List.head?_reverse] at hlast
      have hback : (after.reverse ++ (c :: inner).reverse).dropWhile isBlank =
          (c :: inner).reverse := dropWhile_isBlank (by simpa using hafter) hlast
      rw [List.append_assoc, hfront, List.reverse_append, hback, List.reverse_reverse]

/-! ## Digits -/

/-- Decimal digits of any script, and their values. -/
def Digits (s : List Char) (values : List Nat) : Prop :=
  List.Forall₂ (fun c d => digitValue? c = some d) s values

theorem Digits.nonempty (h : Digits s values) (hne : s ≠ []) : values ≠ [] := by
  cases h with
  | nil => exact absurd rfl hne
  | cons hd rest => exact List.cons_ne_nil _ _

/-- A span takes all digits up to the first character that is none. -/
theorem spanDigits_eq_iff :
    spanDigits s = (values, rest) ↔
      ∃ digits, s = digits ++ rest ∧ Digits digits values ∧
        ∀ c ∈ rest.head?, digitValue? c = none := by
  constructor
  · intro h
    induction s generalizing values with
    | nil =>
      cases h
      exact ⟨[], rfl, .nil, by simp⟩
    | cons c s ih =>
      cases hd : digitValue? c with
      | none =>
        simp only [spanDigits, hd, Prod.mk.injEq] at h
        obtain ⟨rfl, rfl⟩ := h
        exact ⟨[], rfl, .nil, by simp [hd]⟩
      | some d =>
        simp only [spanDigits, hd, Prod.mk.injEq] at h
        obtain ⟨rfl, hrest⟩ := h
        obtain ⟨digits, hs, hdigits, hstop⟩ := ih (Prod.ext rfl hrest)
        exact ⟨c :: digits, by rw [hs, List.cons_append], .cons hd hdigits, hstop⟩
  · rintro ⟨digits, rfl, hdigits, hstop⟩
    induction hdigits with
    | nil =>
      cases rest with
      | nil => rfl
      | cons c rest => simp [spanDigits, hstop c rfl]
    | cons hd hdigits ih => simp [spanDigits, hd, ih]

end Text

namespace Literal

open Text (Digits digitValue? spanDigits spanDigits_eq_iff)

variable {s : List Char} {value : Literal} {outcome : Except Fault Literal}
  {fault : Fault}

/-! ## Numbers -/

/-- The sign of a number; none is written where it is not negative. -/
def minus (negative : Bool) : List Char := if negative then ['-'] else []

theorem eq_of_splitSign {negative : Bool} {rest : List Char} (h : splitSign s = (negative, rest)) :
    s = minus negative ++ rest := by
  unfold splitSign at h
  split at h
  · cases h
    rfl
  · cases h
    rfl

theorem splitSign_of_digits (negative : Bool) {values : List Nat} (h : Digits s values)
    (hne : s ≠ []) (rest : List Char) :
    splitSign (minus negative ++ (s ++ rest)) = (negative, s ++ rest) := by
  cases h with
  | nil => exact absurd rfl hne
  | @cons c d s values hd hs =>
    have hminus : c ≠ '-' := by
      rintro rfl
      have hnone : digitValue? '-' = none := by decide
      rw [hnone] at hd
      cases hd
    cases negative with
    | true => rfl
    | false =>
      show splitSign (c :: (s ++ rest)) = _
      unfold splitSign
      split
      · rename_i heq
        cases heq
        exact absurd rfl hminus
      · rfl

/-- Numbers as they are written, and what comes of reading them: an integer may be too long. -/
inductive Numeral : List Char → Except Fault Literal → Prop
  | int (negative : Bool) {digits : List Char} {values : List Nat}
    (digit : Digits digits values) (nonempty : digits ≠ []) :
    Numeral (minus negative ++ digits) ((Decimal.readInt negative values).map .int)
  | float (negative : Bool) {whole fraction : List Char} {wholeValues fractionValues : List Nat}
    (wholeDigit : Digits whole wholeValues) (wholeNonempty : whole ≠ [])
    (fractionDigit : Digits fraction fractionValues) (fractionNonempty : fraction ≠ []) :
    Numeral (minus negative ++ whole ++ '.' :: fraction)
      (.ok (.float (.ofDecimal negative (Decimal.natOfDigits (wholeValues ++ fractionValues))
        (-fractionValues.length))))

theorem numeral_of_readNumber? (h : readNumber? s = some outcome) : Numeral s outcome := by
  rcases hsign : splitSign s with ⟨negative, body⟩
  rw [eq_of_splitSign hsign]
  unfold readNumber? at h
  rw [hsign] at h
  simp only at h
  split at h
  · cases h
  · -- The digits go on to the end.
    rename_i values hne hspan
    obtain ⟨digits, hbody, hdigits, -⟩ := spanDigits_eq_iff.1 hspan
    rw [List.append_nil] at hbody
    subst hbody
    cases h
    refine .int negative hdigits ?_
    rintro rfl
    cases hdigits
    exact hne rfl
  · -- They go on to a point, and those behind it to the end.
    rename_i wholeValues rest hne hspan
    obtain ⟨whole, hbody, hwhole, -⟩ := spanDigits_eq_iff.1 hspan
    subst hbody
    split at h
    · cases h
    · rename_i fractionValues hne' hspan'
      obtain ⟨fraction, hrest, hfraction, -⟩ := spanDigits_eq_iff.1 hspan'
      rw [List.append_nil] at hrest
      subst hrest
      cases h
      rw [← List.append_assoc]
      refine .float negative hwhole ?_ hfraction ?_
      · rintro rfl
        cases hwhole
        exact hne rfl
      · rintro rfl
        cases hfraction
        exact hne' rfl
    · cases h
  · cases h

theorem readNumber?_of_numeral (h : Numeral s outcome) : readNumber? s = some outcome := by
  cases h with
  | @int negative digits values digit nonempty =>
    have hsign := splitSign_of_digits negative digit nonempty []
    have hspan : spanDigits digits = (values, []) :=
      spanDigits_eq_iff.2 ⟨digits, by simp, digit, by simp⟩
    obtain ⟨d, values, rfl⟩ := List.exists_cons_of_ne_nil (digit.nonempty nonempty)
    rw [List.append_nil] at hsign
    rw [readNumber?, hsign]
    simp only [hspan]
  | @float negative whole fraction wholeValues fractionValues wholeDigit wholeNonempty
      fractionDigit fractionNonempty =>
    have hsign := splitSign_of_digits negative wholeDigit wholeNonempty
      ('.' :: fraction)
    have hpoint : digitValue? '.' = none := by decide
    have hspan : spanDigits (whole ++ '.' :: fraction) = (wholeValues, '.' :: fraction) :=
      spanDigits_eq_iff.2 ⟨whole, rfl, wholeDigit, by simp [hpoint]⟩
    have hspan' : spanDigits fraction = (fractionValues, []) :=
      spanDigits_eq_iff.2 ⟨fraction, by simp, fractionDigit, by simp⟩
    obtain ⟨d, wholeValues, rfl⟩ :=
      List.exists_cons_of_ne_nil (wholeDigit.nonempty wholeNonempty)
    obtain ⟨d', fractionValues, rfl⟩ :=
      List.exists_cons_of_ne_nil (fractionDigit.nonempty fractionNonempty)
    rw [readNumber?, List.append_assoc, hsign]
    simp only [hspan, hspan']

/-! ## Texts -/

theorem readText?_eq_some_iff :
    readText? s = some outcome ↔
      ∃ content, s = '"' :: content ++ ['"'] ∧ content? (content ++ ['"']) = some content ∧
        outcome = (unescape content).map fun chars => .text (String.ofList chars) := by
  constructor
  · intro h
    unfold readText? at h
    split at h
    · obtain ⟨content, hcontent, rfl⟩ := Option.map_eq_some_iff.1 h
      have heq := content?_eq_append hcontent
      subst heq
      refine ⟨content, rfl, hcontent, ?_⟩
      cases unescape content <;> rfl
    · cases h
  · rintro ⟨content, rfl, hcontent, rfl⟩
    rw [List.cons_append, readText?, hcontent, Option.map_some]
    cases unescape content <;> rfl

/-! ## Literals -/

/-- The spellings of literals.  Digits are those of any script; only an integer can be too long. -/
inductive Spells : List Char → Literal → Prop
  | true : Spells "true".toList (.bool true)
  | false : Spells "false".toList (.bool false)
  | int (negative : Bool) {digits : List Char} {values : List Nat}
    (digit : Digits digits values) (nonempty : digits ≠ [])
    (few : digits.length ≤ Fault.digitLimit) :
    Spells (minus negative ++ digits)
      (.int (if negative then -Decimal.natOfDigits values else Decimal.natOfDigits values))
  | float (negative : Bool) {whole fraction : List Char} {wholeValues fractionValues : List Nat}
    (wholeDigit : Digits whole wholeValues) (wholeNonempty : whole ≠ [])
    (fractionDigit : Digits fraction fractionValues) (fractionNonempty : fraction ≠ []) :
    Spells (minus negative ++ whole ++ '.' :: fraction)
      (.float (.ofDecimal negative (Decimal.natOfDigits (wholeValues ++ fractionValues))
        (-fractionValues.length)))
  | text {s chars : List Char} (content : Content s chars) :
    Spells ('"' :: s ++ ['"']) (.text (String.ofList chars))

theorem spells_of_numeral (h : Numeral s (.ok value)) : Spells s value := by
  generalize houtcome : (Except.ok value : Except Fault Literal) = outcome at h
  cases h with
  | @int negative digits values digit nonempty =>
    obtain ⟨n, hread, rfl⟩ := exists_of_map_ok houtcome.symm
    unfold Decimal.readInt at hread
    split at hread
    · rename_i hfew
      cases hread
      refine .int negative digit nonempty ?_
      rwa [List.Forall₂.length_eq digit]
    · cases hread
  | float negative wholeDigit wholeNonempty fractionDigit fractionNonempty =>
    cases houtcome
    exact .float negative wholeDigit wholeNonempty fractionDigit fractionNonempty

theorem read_of_number (h : readNumber? s = some outcome) : read s = outcome := by
  have htrue : s ≠ "true".toList := by
    rintro rfl
    cases h
  have hfalse : s ≠ "false".toList := by
    rintro rfl
    cases h
  rw [read, if_neg htrue, if_neg hfalse, h]
  rfl

theorem read_of_text (h : readText? s = some outcome) : read s = outcome := by
  obtain ⟨content, rfl, -⟩ := readText?_eq_some_iff.1 h
  have hnumber : readNumber? ('"' :: content ++ ['"']) = none := by
    have hquote : digitValue? '"' = none := by decide
    simp [readNumber?, splitSign, spanDigits, hquote]
  have htrue : '"' :: content ++ ['"'] ≠ "true".toList := by
    intro heq
    cases heq
  have hfalse : '"' :: content ++ ['"'] ≠ "false".toList := by
    intro heq
    cases heq
  rw [read, if_neg htrue, if_neg hfalse, hnumber, h]
  rfl

/-- Reading accepts the spellings of literals, and nothing else. -/
theorem read_eq_ok_iff : read s = .ok value ↔ Spells s value := by
  constructor
  · intro h
    unfold read at h
    split at h
    · rename_i htrue
      cases h
      rw [htrue]
      exact .true
    · split at h
      · rename_i hfalse
        cases h
        rw [hfalse]
        exact .false
      · cases hnumber : readNumber? s with
        | some outcome =>
          rw [hnumber] at h
          cases h
          exact spells_of_numeral (numeral_of_readNumber? hnumber)
        | none =>
          cases htext : readText? s with
          | some outcome =>
            rw [hnumber, htext] at h
            cases h
            obtain ⟨content, rfl, hcontent, heq⟩ := readText?_eq_some_iff.1 htext
            obtain ⟨chars, hchars, rfl⟩ := exists_of_map_ok heq.symm
            exact .text (content_of_unescape hcontent hchars)
          | none =>
            rw [hnumber, htext] at h
            cases h
  · intro h
    cases h with
    | true => rfl
    | false => rfl
    | @int negative digits values digit nonempty few =>
      rw [read_of_number (readNumber?_of_numeral (.int negative digit nonempty)), Decimal.readInt,
        ← List.Forall₂.length_eq digit, if_pos few]
      rfl
    | float negative wholeDigit wholeNonempty fractionDigit fractionNonempty =>
      exact read_of_number (readNumber?_of_numeral
        (.float negative wholeDigit wholeNonempty fractionDigit fractionNonempty))
    | @text content chars h =>
      refine read_of_text (readText?_eq_some_iff.2 ⟨content, rfl, h.content?, ?_⟩)
      rw [h.unescape]
      rfl

theorem unreadable_of_numeral (h : Numeral s (.error fault)) : Unreadable fault := by
  generalize houtcome : (Except.error fault : Except Fault Literal) = outcome at h
  cases h with
  | int negative digit nonempty =>
    have hread := eq_error_of_map houtcome.symm
    unfold Decimal.readInt at hread
    split at hread
    · cases hread
    · cases hread
      exact .numeralTooLong _
  | float => cases houtcome

theorem unreadable_of_read (h : read s = .error fault) : Unreadable fault := by
  unfold read at h
  split at h
  · cases h
  · split at h
    · cases h
    · cases hnumber : readNumber? s with
      | some outcome =>
        rw [hnumber] at h
        cases h
        exact unreadable_of_numeral (numeral_of_readNumber? hnumber)
      | none =>
        cases htext : readText? s with
        | some outcome =>
          rw [hnumber, htext] at h
          cases h
          obtain ⟨content, -, -, heq⟩ := readText?_eq_some_iff.1 htext
          exact unreadable_of_unescapeFrom (eq_error_of_map heq.symm)
        | none =>
          rw [hnumber, htext] at h
          cases h
          exact .notALiteral _

end Literal

/-! ## Constants -/

namespace Kind

open Literal (Spells Unreadable)

variable {source : List Char} {kind : Kind} {fault : Fault}

/-- The spellings of constants. -/
inductive Spelled : List Char → Kind → Prop
  | unit : Spelled "()".toList .unit
  | literal {s : List Char} {value : Literal} (spells : Spells s value) :
    Spelled s (.literal value)

/-- Blanks around a constant do not matter. -/
theorem ofSource_eq_ok_iff : ofSource source = .ok kind ↔ Spelled (Text.strip source) kind := by
  unfold ofSource
  generalize Text.strip source = s
  constructor
  · intro h
    simp only at h
    split at h
    · rename_i hunit
      cases h
      rw [hunit]
      exact .unit
    · obtain ⟨value, hread, rfl⟩ := exists_of_map_ok h
      exact .literal (Literal.read_eq_ok_iff.1 hread)
  · intro h
    cases h with
    | unit => rfl
    | @literal _ value spells =>
      have hread := Literal.read_eq_ok_iff.2 spells
      -- The unit value is no literal.
      have hunit : s ≠ "()".toList := by
        rintro rfl
        cases hread
      simp only [if_neg hunit, hread]
      rfl

theorem ofSource_of_spells {value : Literal} (spells : Spells source value)
    (hstrip : Text.strip source = source) : ofSource source = .ok (.literal value) := by
  rw [ofSource_eq_ok_iff, hstrip]
  exact .literal spells

theorem unreadable_of_ofSource (h : ofSource source = .error fault) : Unreadable fault := by
  unfold ofSource at h
  simp only at h
  split at h
  · cases h
  · exact Literal.unreadable_of_read (eq_error_of_map h)

end Kind

end ShortCircuit

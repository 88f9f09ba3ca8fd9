/-
  ShortCircuit.Proofs.Json.Text

  Texts between double quotes in JSON: plain characters, and escapes by a letter
  or by 16-bit units, two of which may make up one character.  The reader accepts
  these and nothing else, and gives the characters that they stand for.
-/

import Mathlib.Data.Nat.Basic
import ShortCircuit.Json.Reader
import ShortCircuit.Proofs.Literal.Escapes
import ShortCircuit.Proofs.Text.Characters

namespace ShortCircuit.Json

open Text (readHex?)

variable {s t rest after e e' digits : List Char} {text : Text} {point : CodePoint}
  {c letter : Char} {n high low length : Nat}

/-! ## Units -/

/-- The escape of a 16-bit unit: four hexadecimal digits. -/
inductive UnitEscape : List Char → Nat → Prop
  | mk {digits : List Char} {n : Nat} (four : digits.length = 4)
    (value : readHex? digits = some n) : UnitEscape ('\\' :: 'u' :: digits) n

/-- The first half of a pair of units. -/
def IsHigh (n : Nat) : Prop := 0xD800 ≤ n ∧ n < 0xDC00

/-- The second half of a pair of units. -/
def IsLow (n : Nat) : Prop := 0xDC00 ≤ n ∧ n ≤ 0xDFFF

/-- The code point that a pair of units stands for. -/
def pairCode (high low : Nat) : Nat := 0x10000 + (high - 0xD800) * 0x400 + (low - 0xDC00)

/-- Whether a text goes on with the escape of the second half of a pair. -/
def LowFollows (s : List Char) : Prop := ∃ e low rest, UnitEscape e low ∧ IsLow low ∧ s = e ++ rest

/-- An escape, what follows it, and the code point that it stands for.  Half of a pair on its own
    stands for itself. -/
inductive Escape : List Char → List Char → CodePoint → Prop
  | letter {letter c : Char} {after : List Char} (listed : (letter, c) ∈ letters) :
    Escape ['\\', letter] after c
  | unit {e after : List Char} {n : Nat} (unit : UnitEscape e n) (notHigh : ¬IsHigh n)
    (notLow : ¬IsLow n) : Escape e after (Char.ofNat n)
  | pair {e e' after : List Char} {high low : Nat} (first : UnitEscape e high)
    (isHigh : IsHigh high) (second : UnitEscape e' low) (isLow : IsLow low) :
    Escape (e ++ e') after (Char.ofNat (pairCode high low))
  | half {e after : List Char} {n : Nat} (unit : UnitEscape e n) (isHalf : 0xD800 ≤ n ∧ n ≤ 0xDFFF)
    (alone : IsHigh n → ¬LowFollows after) : Escape e after (.half n isHalf)

/-- What stands between the quotes of a text, and the text that it stands for. -/
inductive Content : List Char → Text → Prop
  | nil : Content [] []
  | plain {c : Char} {s : List Char} {text : Text} (visible : 0x20 ≤ c.toNat) (notQuote : c ≠ '"')
    (notBackslash : c ≠ '\\') (rest : Content s text) : Content (c :: s) (.char c :: text)
  | escape {e s : List Char} {point : CodePoint} {text : Text} (escape : Escape e s point)
    (rest : Content s text) : Content (e ++ s) (point :: text)

/-! ## Reading escapes -/

theorem unit?_eq_some_iff :
    unit? s = some n ↔
      ∃ digits rest, s = digits ++ rest ∧ digits.length = 4 ∧ readHex? digits = some n := by
  rw [unit?]
  constructor
  · intro h
    split at h
    · rename_i hlength
      exact ⟨s.take 4, s.drop 4, (List.take_append_drop ..).symm, List.length_take_of_le hlength, h⟩
    · cases h
  · rintro ⟨digits, rest, rfl, four, value⟩
    rw [if_pos (by rw [List.length_append]; omega), ← four, List.take_left, value]

theorem lowUnit?_eq_some_iff :
    lowUnit? s = some low ↔ ∃ e rest, UnitEscape e low ∧ IsLow low ∧ s = e ++ rest := by
  constructor
  · intro h
    unfold lowUnit? at h
    split at h
    · obtain ⟨hunit, hlow⟩ := Option.filter_eq_some_iff.1 h
      obtain ⟨digits, rest, rfl, four, value⟩ := unit?_eq_some_iff.1 hunit
      rw [Bool.and_eq_true, decide_eq_true_iff, decide_eq_true_iff] at hlow
      exact ⟨_, rest, .mk four value, hlow, rfl⟩
    · cases h
  · rintro ⟨e, rest, ⟨four, value⟩, isLow, rfl⟩
    rw [List.cons_append, List.cons_append, lowUnit?, unit?_eq_some_iff.2 ⟨_, _, rfl, four, value⟩]
    simpa [IsLow] using isLow

/-- What follows decides only if the unit is the first half of a pair. -/
theorem escape?_of_unit (four : digits.length = 4) (value : readHex? digits = some n)
    (after : List Char) :
    escape? ('u' :: (digits ++ after)) = some
      (if isHalf : 0xD800 ≤ n ∧ n ≤ 0xDFFF then
        match (if n < 0xDC00 then lowUnit? after else none) with
        | some low => (.char (Char.ofNat (pairCode n low)), 11)
        | none => (.half n isHalf, 5)
      else (.char (Char.ofNat n), 5)) := by
  have hdrop : (digits ++ after).drop 4 = after := by rw [← four, List.drop_left]
  rw [escape?, unit?_eq_some_iff.2 ⟨_, _, rfl, four, value⟩, hdrop, Option.bind_eq_bind,
    Option.bind_some]
  unfold pairCode
  split
  · generalize (if n < 0xDC00 then lowUnit? after else none) = found
    cases found <;> rfl
  · rfl

theorem lookup_letters : letters.lookup letter = some c ↔ (letter, c) ∈ letters := by
  constructor
  · intro h
    obtain ⟨front, back, heq, -⟩ := List.lookup_eq_some_iff.1 h
    rw [heq]
    exact List.mem_append_right _ (List.mem_cons_self ..)
  · intro h
    have hall : ∀ entry ∈ letters, letters.lookup entry.1 = some entry.2 := by decide
    exact hall _ h

theorem UnitEscape.length_eq (h : UnitEscape e n) : e.length = 6 := by
  obtain ⟨four, -⟩ := h
  rw [List.length_cons, List.length_cons, four]

/-- What the reader takes for an escape is one. -/
theorem exists_of_escape? (h : escape? s = some (point, length)) :
    ∃ e after, '\\' :: s = e ++ after ∧ e.length = length + 1 ∧ Escape e after point := by
  cases s with
  | nil => cases h
  | cons d rest =>
    by_cases hd : d = 'u'
    · subst hd
      obtain ⟨n, hunit, -⟩ := Option.bind_eq_some_iff.1 h
      obtain ⟨digits, after, rfl, four, value⟩ := unit?_eq_some_iff.1 hunit
      have unit : UnitEscape ('\\' :: 'u' :: digits) n := .mk four value
      rw [escape?_of_unit four value, Option.some.injEq] at h
      split at h
      · rename_i hhalf
        split at h
        · -- Both halves of a pair are there.
          rename_i low hlow
          obtain ⟨rfl, rfl⟩ := Prod.mk.inj h
          split at hlow
          · rename_i hhigh
            obtain ⟨e', rest, second, isLow, rfl⟩ := lowUnit?_eq_some_iff.1 hlow
            refine ⟨_ ++ e', rest, by simp, ?_, .pair unit ⟨hhalf.1, hhigh⟩ second isLow⟩
            rw [List.length_append, unit.length_eq, second.length_eq]
          · cases hlow
        · rename_i hnone
          obtain ⟨rfl, rfl⟩ := Prod.mk.inj h
          refine ⟨_, after, rfl, unit.length_eq, .half unit hhalf fun isHigh => ?_⟩
          rintro ⟨e', low, rest, second, isLow, rfl⟩
          rw [if_pos isHigh.2, lowUnit?_eq_some_iff.2 ⟨e', rest, second, isLow, rfl⟩] at hnone
          cases hnone
      · rename_i hwhole
        obtain ⟨rfl, rfl⟩ := Prod.mk.inj h
        refine ⟨_, after, rfl, unit.length_eq, .unit unit ?_ ?_⟩ <;> rintro ⟨_, _⟩ <;> omega
    · have hletter : (letters.lookup d).map (.char ·, 1) = some (point, length) := by
        rwa [escape?] at h
        exact hd
      obtain ⟨c', hlookup, heq⟩ := Option.map_eq_some_iff.1 hletter
      cases heq
      exact ⟨['\\', d], rest, rfl, rfl, .letter (lookup_letters.1 hlookup)⟩

/-- An escape is read up to its end, and no further. -/
theorem Escape.escape?_eq (escape : Escape e after point) (heq : '\\' :: s = e ++ after) :
    escape? s = some (point, e.length - 1) := by
  cases escape with
  | @letter letter _ _ listed =>
    have hs : s = letter :: after := (List.cons.inj heq).2
    have hne : ∀ entry ∈ letters, entry.1 ≠ 'u' := by decide
    rw [hs, escape?, lookup_letters.2 listed]
    · rfl
    · exact hne _ listed
  | @unit _ _ n unit notHigh notLow =>
    rw [unit.length_eq]
    obtain ⟨four, value⟩ := unit
    have hs : s = 'u' :: (_ ++ after) := (List.cons.inj heq).2
    have hwhole : ¬(0xD800 ≤ n ∧ n ≤ 0xDFFF) := by
      unfold IsHigh at notHigh
      unfold IsLow at notLow
      omega
    rw [hs, escape?_of_unit four value, dif_neg hwhole]
  | @pair _ e' _ high low first isHigh second isLow =>
    rw [List.length_append, first.length_eq, second.length_eq]
    obtain ⟨four, value⟩ := first
    rw [List.append_assoc] at heq
    have hs : s = 'u' :: (_ ++ (e' ++ after)) := (List.cons.inj heq).2
    have hlow := lowUnit?_eq_some_iff.2 ⟨e', after, second, isLow, rfl⟩
    have hhalf : 0xD800 ≤ high ∧ high ≤ 0xDFFF := by
      unfold IsHigh at isHigh
      omega
    rw [hs, escape?_of_unit four value, dif_pos hhalf, if_pos isHigh.2, hlow]
  | @half _ _ n unit isHalf alone =>
    rw [unit.length_eq]
    obtain ⟨four, value⟩ := unit
    have hs : s = 'u' :: (_ ++ after) := (List.cons.inj heq).2
    have hnone : (if n < 0xDC00 then lowUnit? after else none) = none := by
      split
      · rename_i hlt
        rw [Option.eq_none_iff_forall_ne_some]
        intro low hlow
        obtain ⟨e', rest, second, isLow, rfl⟩ := lowUnit?_eq_some_iff.1 hlow
        exact alone ⟨isHalf.1, hlt⟩ ⟨e', low, rest, second, isLow, rfl⟩
      · rfl
    rw [hs, escape?_of_unit four value, dif_pos isHalf, hnone]

/-! ## Reading texts -/

/-- To pass over characters is to begin behind them. -/
theorem textFrom?_drop (n : Nat) (s : List Char) : textFrom? n s = textFrom? 0 (s.drop n) := by
  induction s generalizing n with
  | nil => simp [textFrom?]
  | cons c s ih =>
    cases n with
    | zero => rfl
    | succ n => exact ih n

theorem textFrom?_plain (visible : 0x20 ≤ c.toNat) (notQuote : c ≠ '"') (notBackslash : c ≠ '\\')
    (s : List Char) :
    textFrom? 0 (c :: s) = (textFrom? 0 s).map fun found => (.char c :: found.1, found.2) := by
  rw [textFrom?, if_neg notQuote, if_neg notBackslash, if_neg (by omega)]
  cases textFrom? 0 s <;> rfl

theorem textFrom?_backslash (s : List Char) :
    textFrom? 0 ('\\' :: s) = (escape? s).bind fun (point, length) =>
      (textFrom? 0 (s.drop length)).map fun found => (point :: found.1, found.2) := by
  rw [textFrom?, if_neg (by decide), if_pos rfl]
  cases escape? s with
  | none => rfl
  | some found =>
    obtain ⟨point, length⟩ := found
    show (textFrom? length s >>= _) = (textFrom? 0 (s.drop length)).map _
    rw [textFrom?_drop]
    cases textFrom? 0 (s.drop length) <;> rfl

theorem UnitEscape.quote_notMem (h : UnitEscape e n) : '"' ∉ e := by
  obtain ⟨four, value⟩ := h
  intro hmem
  rcases List.mem_cons.1 hmem with hquote | hmem
  · exact absurd hquote (by decide)
  rcases List.mem_cons.1 hmem with hquote | hmem
  · exact absurd hquote (by decide)
  · exact absurd (Text.isSome_of_readHex? value _ hmem) (by decide)

/-- No escape goes on behind the quote at the end of a text. -/
theorem lowFollows_quote : LowFollows (s ++ '"' :: rest) ↔ LowFollows s := by
  constructor
  · rintro ⟨e, low, rest', unit, isLow, heq⟩
    rcases List.append_eq_append_iff.1 heq with ⟨back, rfl, hback⟩ | ⟨front, rfl, -⟩
    · cases back with
      | nil => exact ⟨_, low, [], unit, isLow, by simp⟩
      | cons d back =>
        obtain ⟨rfl, -⟩ := List.cons.inj hback
        exact absurd (by simp) unit.quote_notMem
    · exact ⟨e, low, front, unit, isLow, rfl⟩
  · rintro ⟨e, low, rest', unit, isLow, rfl⟩
    exact ⟨e, low, rest' ++ '"' :: rest, unit, isLow, by simp⟩

theorem escape_quote : Escape e (s ++ '"' :: rest) point ↔ Escape e s point := by
  constructor
  · rintro (listed | ⟨unit, notHigh, notLow⟩ | ⟨first, isHigh, second, isLow⟩ |
      ⟨unit, isHalf, alone⟩)
    · exact .letter listed
    · exact .unit unit notHigh notLow
    · exact .pair first isHigh second isLow
    · exact .half unit isHalf fun isHigh => mt lowFollows_quote.2 (alone isHigh)
  · rintro (listed | ⟨unit, notHigh, notLow⟩ | ⟨first, isHigh, second, isLow⟩ |
      ⟨unit, isHalf, alone⟩)
    · exact .letter listed
    · exact .unit unit notHigh notLow
    · exact .pair first isHigh second isLow
    · exact .half unit isHalf fun isHigh => mt lowFollows_quote.1 (alone isHigh)

theorem Escape.exists_cons (h : Escape e after point) : ∃ e', e = '\\' :: e' := by
  rcases h with _ | ⟨⟨_, _⟩, _, _⟩ | ⟨⟨_, _⟩, _, _, _⟩ | ⟨⟨_, _⟩, _, _⟩ <;> exact ⟨_, rfl⟩

/-- What the reader takes for a text is one. -/
theorem exists_of_textFrom? (h : textFrom? 0 s = some (text, rest)) :
    ∃ content, s = content ++ '"' :: rest ∧ Content content text := by
  -- Escapes are passed over as wholes, hence the induction on the length.
  induction hlength : s.length using Nat.strongRecOn generalizing s text with
  | _ length ih =>
    subst hlength
    cases s with
    | nil => cases h
    | cons d s =>
      by_cases hquote : d = '"'
      · subst hquote
        cases h
        exact ⟨[], rfl, .nil⟩
      by_cases hbackslash : d = '\\'
      · subst hbackslash
        rw [textFrom?_backslash] at h
        obtain ⟨⟨point, length⟩, hescape, h⟩ := Option.bind_eq_some_iff.1 h
        obtain ⟨⟨text, rest⟩, hrest, heq⟩ := Option.map_eq_some_iff.1 h
        cases heq
        obtain ⟨e, after, hs, hlength, escape⟩ := exists_of_escape? hescape
        have hdrop : s.drop length = after := by
          rw [← List.drop_succ_cons (a := '\\'), hs, ← hlength, List.drop_left]
        have hshorter : after.length < ('\\' :: s).length := by
          rw [hs, List.length_append]
          omega
        rw [hdrop] at hrest
        obtain ⟨content, rfl, hcontent⟩ := ih _ hshorter hrest rfl
        exact ⟨e ++ content, by rw [hs, List.append_assoc],
          .escape (escape_quote.1 escape) hcontent⟩
      by_cases hvisible : 0x20 ≤ d.toNat
      · rw [textFrom?_plain hvisible hquote hbackslash] at h
        obtain ⟨⟨text, rest⟩, hrest, heq⟩ := Option.map_eq_some_iff.1 h
        cases heq
        obtain ⟨content, rfl, hcontent⟩ := ih _ (Nat.lt_succ_self _) hrest rfl
        exact ⟨d :: content, rfl, .plain hvisible hquote hbackslash hcontent⟩
      · rw [textFrom?, if_neg hquote, if_neg hbackslash, if_pos (by omega)] at h
        cases h

/-- A text is read up to its quote. -/
theorem Content.textFrom?_eq (h : Content s text) (rest : List Char) :
    textFrom? 0 (s ++ '"' :: rest) = some (text, rest) := by
  induction h with
  | nil => rfl
  | plain visible notQuote notBackslash _ ih =>
    rw [List.cons_append, textFrom?_plain visible notQuote notBackslash, ih]
    rfl
  | @escape e s point text escape _ ih =>
    obtain ⟨e', rfl⟩ := escape.exists_cons
    have hescape : escape? (e' ++ (s ++ '"' :: rest)) = some (point, e'.length) :=
      (escape_quote.2 escape).escape?_eq rfl
    rw [List.append_assoc, List.cons_append, textFrom?_backslash, hescape]
    show ((textFrom? 0 ((e' ++ (s ++ '"' :: rest)).drop e'.length)).map _) = _
    rw [List.drop_left, ih]
    rfl

theorem readText_eq_ok_iff :
    readText s = .ok (text, rest) ↔
      ∃ content, s = content ++ '"' :: rest ∧ Content content text := by
  constructor
  · intro h
    unfold readText at h
    split at h
    · rename_i hfound
      cases h
      exact exists_of_textFrom? hfound
    · cases h
  · rintro ⟨content, rfl, hcontent⟩
    rw [readText, hcontent.textFrom?_eq]

/-- A text is never too long to be read. -/
theorem readText_ne_fault {cause : Fault} : readText s ≠ .error (.fault cause) := by
  unfold readText
  split <;> simp

end ShortCircuit.Json

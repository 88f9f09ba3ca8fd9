/-
  ShortCircuit.Proofs.Literal.Escapes

  The units that texts between double quotes are made of: plain characters, and
  escapes.  Where an escape can be read it is one of these units, and each of
  them that is an escape is read as the one character that it stands for.
-/

import ShortCircuit.Literal.Grammar
import ShortCircuit.Proofs.Failing

namespace ShortCircuit

open Failing

/-! ## Hexadecimal numbers -/

namespace Text

/-- Only hexadecimal digits stand for a number. -/
theorem readHex?_isSome_iff {s : List Char} :
    (readHex? s).isSome = true ↔ ∀ c ∈ s, (hexValue? c).isSome = true := by
  unfold readHex?
  generalize 0 = n
  induction s generalizing n with
  | nil => simp
  | cons c s ih =>
    rw [List.foldlM_cons, List.forall_mem_cons]
    cases hvalue : hexValue? c with
    | none => simp
    | some d => simp [ih]

theorem isSome_of_readHex? {s : List Char} {n : Nat} (h : readHex? s = some n) :
    ∀ c ∈ s, (hexValue? c).isSome = true :=
  readHex?_isSome_iff.1 (by simp [h])

/-- An octal digit is a hexadecimal one, of a value below 8. -/
theorem hexValue?_of_octal {c : Char} (hfirst : '0' ≤ c) (hlast : c ≤ '7') :
    ∃ n ≤ 7, hexValue? c = some n := by
  have hle : c.toNat ≤ 55 := hlast
  have hnine : c ≤ '9' := by
    show c.toNat ≤ 57
    omega
  refine ⟨c.toNat - 48, by omega, ?_⟩
  rw [hexValue?, if_pos ⟨hfirst, hnine⟩]
  rfl

theorem hexValue?_lt {c : Char} {n : Nat} (h : hexValue? c = some n) : n < 16 := by
  unfold hexValue? at h
  split at h
  · rename_i hc
    have hle : c.toNat ≤ 57 := hc.2
    simp at h
    omega
  · split at h
    · rename_i hc
      have hle : c.toNat ≤ 102 := hc.2
      simp at h
      omega
    · split at h
      · rename_i hc
        have hle : c.toNat ≤ 70 := hc.2
        simp at h
        omega
      · cases h

/-- Two digits, the first of them an octal one, stand for a code below 128. -/
theorem readHex?_lt_of_octal {high low : Char} {n : Nat} (hfirst : '0' ≤ high) (hlast : high ≤ '7')
    (h : readHex? [high, low] = some n) : n < 128 := by
  obtain ⟨a, ha, hhigh⟩ := hexValue?_of_octal hfirst hlast
  cases hlow : hexValue? low with
  | none => simp [readHex?, hhigh, hlow] at h
  | some b =>
    have hb := hexValue?_lt hlow
    simp [readHex?, hhigh, hlow] at h
    omega

end Text

namespace Literal

open Text (hexValue? readHex? isSome_of_readHex?)

variable {c : Char} {s : List Char} {n : Nat} {fault : Fault}

/-! ## Units -/

/-- The letters that make an escape, and the characters that these stand for. -/
def letters : List (Char × Char) :=
  [('n', '\n'), ('r', '\r'), ('t', '\t'), ('0', '\x00'), ('\\', '\\'), ('"', '"'), ('\'', '\'')]

/-- The character of a code point.  Half of a surrogate pair is no character, and U+FFFD is given
    instead. -/
def charAt (n : Nat) : Char := if n.isValidChar then Char.ofNat n else '\uFFFD'

/-- What a text is made of between its quotes, and the character that each unit stands for. -/
inductive TextUnit : List Char → Char → Prop
  | plain {c : Char} (notQuote : c ≠ '"') (notBackslash : c ≠ '\\') : TextUnit [c] c
  | letter {letter c : Char} (listed : (letter, c) ∈ letters) : TextUnit ['\\', letter] c
  | ascii {high low : Char} {n : Nat} (first : '0' ≤ high) (last : high ≤ '7')
    (value : readHex? [high, low] = some n) : TextUnit ['\\', 'x', high, low] (charAt n)
  | code {digits : List Char} {n : Nat} (nonempty : digits ≠ []) (few : digits.length ≤ 6)
    (value : readHex? digits = some n) (bound : n ≤ 0x10FFFF) :
    TextUnit ('\\' :: 'u' :: '\x7b' :: digits ++ ['\x7d']) (charAt n)

theorem charOfCode_of_le (h : n ≤ 0x10FFFF) : charOfCode n = .ok (charAt n) := by
  rw [charOfCode, if_neg (by omega), charAt]
  split <;> rfl

theorem le_of_charOfCode (h : charOfCode n = .ok c) : n ≤ 0x10FFFF ∧ c = charAt n := by
  by_cases hle : n ≤ 0x10FFFF
  · rw [charOfCode_of_le hle] at h
    exact ⟨hle, (Except.ok.inj h).symm⟩
  · rw [charOfCode, if_pos (by omega)] at h
    cases h

/-! ## Escapes -/

/-- Each escape by which texts are written is one by its letter. -/
theorem mem_letters_of_mem_escapes {letter : Char} (h : (c, letter) ∈ escapes) :
    (letter, c) ∈ letters := by
  have hall : ∀ p ∈ escapes, (p.2, p.1) ∈ letters := by decide
  exact hall _ h

theorem escaped?_eq_some_iff {letter : Char} :
    escaped? letter = some c ↔ (letter, c) ∈ letters := by
  constructor
  · intro h
    unfold escaped? at h
    split at h
    · rename_i heq
      cases h
      rw [heq]
      decide
    · obtain ⟨⟨d, letter'⟩, hfound, rfl⟩ := Option.map_eq_some_iff.1 h
      have hletter : letter' = letter := by simpa using List.find?_some hfound
      rw [← hletter]
      exact mem_letters_of_mem_escapes (List.mem_of_find?_eq_some hfound)
  · intro h
    have hall : ∀ p ∈ letters, escaped? p.1 = some p.2 := by decide
    exact hall _ h

/-- A code in braces is one to six hexadecimal digits, right up to the closing brace. -/
theorem bracedCode?_eq_some_iff {digits : List Char} :
    bracedCode? s = some digits ↔
      ∃ rest n, s = '\x7b' :: digits ++ '\x7d' :: rest ∧ digits ≠ [] ∧ digits.length ≤ 6 ∧
        readHex? digits = some n := by
  constructor
  · intro h
    unfold bracedCode? at h
    split at h
    · rename_i rest
      simp only [Option.ite_none_right_eq_some, Bool.and_eq_true, decide_eq_true_eq,
        beq_iff_eq, Option.some.injEq] at h
      obtain ⟨⟨⟨hpos, hlength⟩, hclose⟩, heq⟩ := h
      have hhex := List.all_takeWhile (p := fun c => (hexValue? c).isSome) (l := rest)
      obtain ⟨tail, htail⟩ := List.takeWhile_prefix (l := rest) fun c => (hexValue? c).isSome
      rw [heq] at hpos hlength hclose hhex htail
      rw [← htail, List.drop_left] at hclose
      -- What the digits do not take begins with the brace.
      obtain ⟨rest', rfl⟩ := List.head?_eq_some_iff.1 hclose
      obtain ⟨n, hn⟩ :=
        Option.isSome_iff_exists.1 (Text.readHex?_isSome_iff.2 (by simpa using hhex))
      refine ⟨rest', n, by simp [← htail], ?_, hlength, hn⟩
      rintro rfl
      simp at hpos
    · cases h
  · rintro ⟨rest, n, rfl, hne, hlength, hvalue⟩
    have htake : (digits ++ '\x7d' :: rest).takeWhile (fun c => (hexValue? c).isSome) = digits := by
      have hbrace : (hexValue? '\x7d').isSome = false := by decide
      rw [List.takeWhile_append_of_pos (isSome_of_readHex? hvalue)]
      simp [hbrace]
    have hpos : 1 ≤ digits.length := List.length_pos_iff.2 hne
    simp [bracedCode?, htake, hpos, hlength]

theorem asciiCode?_eq_some_iff {digits : List Char} :
    asciiCode? s = some digits ↔
      ∃ high low rest n, s = high :: low :: rest ∧ digits = [high, low] ∧ '0' ≤ high ∧
        high ≤ '7' ∧ readHex? digits = some n := by
  constructor
  · intro h
    unfold asciiCode? at h
    split at h
    · rename_i high low rest
      simp only [Option.ite_none_right_eq_some, Bool.and_eq_true, decide_eq_true_eq,
        Option.some.injEq] at h
      obtain ⟨⟨⟨hfirst, hlast⟩, hlow⟩, rfl⟩ := h
      obtain ⟨a, -, hhigh⟩ := Text.hexValue?_of_octal hfirst hlast
      have hhex : ∀ c ∈ [high, low], (hexValue? c).isSome = true := by simp [hhigh, hlow]
      obtain ⟨n, hn⟩ := Option.isSome_iff_exists.1 (Text.readHex?_isSome_iff.2 hhex)
      exact ⟨high, low, rest, n, rfl, rfl, hfirst, hlast, hn⟩
    · cases h
  · rintro ⟨high, low, rest, n, rfl, rfl, hfirst, hlast, hvalue⟩
    have hlow := isSome_of_readHex? hvalue low (by simp)
    simp [asciiCode?, hfirst, hlast, hlow]

/-- By a letter alone; `u` and `x` are none that stands for a character. -/
theorem escape_of_letter {letter : Char} (h : (letter, c) ∈ letters) (rest : List Char) :
    escape (letter :: rest) = .ok (c, 1) := by
  have hescaped := escaped?_eq_some_iff.2 h
  have hu : letter ≠ 'u' := by
    rintro rfl
    simp [letters] at h
  have hx : letter ≠ 'x' := by
    rintro rfl
    simp [letters] at h
  rw [escape]
  · simp [hescaped]
  · intro rest' heq
    cases heq
    exact hu rfl
  · intro rest' heq
    cases heq
    exact hx rfl

theorem escape_of_ascii {high low : Char} (hfirst : '0' ≤ high) (hlast : high ≤ '7')
    (hvalue : readHex? [high, low] = some n) (rest : List Char) :
    escape ('x' :: high :: low :: rest) = .ok (charAt n, 3) := by
  have hcode : asciiCode? (high :: low :: rest) = some [high, low] :=
    asciiCode?_eq_some_iff.2 ⟨high, low, rest, n, rfl, rfl, hfirst, hlast, hvalue⟩
  have hlt := Text.readHex?_lt_of_octal hfirst hlast hvalue
  have hchar : charOfCode n = .ok (charAt n) := charOfCode_of_le (by omega)
  rw [escape, hcode]
  simp only [hvalue, Option.getD_some, hchar]
  rfl

theorem escape_of_code {digits : List Char} (hne : digits ≠ []) (hlength : digits.length ≤ 6)
    (hvalue : readHex? digits = some n) (hbound : n ≤ 0x10FFFF) (rest : List Char) :
    escape ('u' :: '\x7b' :: digits ++ '\x7d' :: rest) = .ok (charAt n, digits.length + 3) := by
  have hcode : bracedCode? ('\x7b' :: digits ++ '\x7d' :: rest) = some digits :=
    bracedCode?_eq_some_iff.2 ⟨rest, n, rfl, hne, hlength, hvalue⟩
  rw [List.cons_append, escape, ← List.cons_append, hcode]
  simp only [hvalue, Option.getD_some, charOfCode_of_le hbound]
  rfl

/-- A text begins with so many characters that, behind a backslash, are an escape. -/
def Escaped (s : List Char) (c : Char) (n : Nat) : Prop :=
  ∃ body rest, s = body ++ rest ∧ body.length = n ∧ TextUnit ('\\' :: body) c

theorem escaped_of_letter
    (h : (match s.head?.bind escaped? with
      | some c => Except.ok (c, 1)
      | none => .error fault) = .ok (c, n)) : Escaped s c n := by
  cases s with
  | nil => cases h
  | cons letter rest =>
    cases hletter : escaped? letter with
    | none => simp [hletter] at h
    | some d =>
      simp only [List.head?_cons, Option.bind_some, hletter, Except.ok.injEq, Prod.mk.injEq] at h
      obtain ⟨rfl, rfl⟩ := h
      exact ⟨[letter], rest, rfl, rfl, .letter (escaped?_eq_some_iff.1 hletter)⟩

/-- What comes of a code is the character at it. -/
theorem eq_of_code {digits : List Char} {code length : Nat} (hvalue : readHex? digits = some code)
    (h : (do return (← charOfCode ((readHex? digits).getD 0), length) :
      Except Fault (Char × Nat)) = .ok (c, n)) :
    code ≤ 0x10FFFF ∧ c = charAt code ∧ n = length := by
  rw [hvalue, Option.getD_some] at h
  cases hchar : charOfCode code with
  | error fault =>
    rw [hchar] at h
    cases h
  | ok d =>
    rw [hchar] at h
    cases h
    obtain ⟨hle, hc⟩ := le_of_charOfCode hchar
    exact ⟨hle, hc, rfl⟩

/-- Whatever escape is found, it is a unit. -/
theorem escaped_of_escape (h : escape s = .ok (c, n)) : Escaped s c n := by
  unfold escape at h
  extract_lets byCode byLetter at h
  split at h
  · split at h
    · rename_i digits hcode
      obtain ⟨rest', code, rfl, hne, hlength, hvalue⟩ := bracedCode?_eq_some_iff.1 hcode
      obtain ⟨hbound, rfl, rfl⟩ := eq_of_code hvalue h
      refine ⟨'u' :: '\x7b' :: digits ++ ['\x7d'], rest', by simp, by simp, ?_⟩
      exact .code hne hlength hvalue hbound
    · exact escaped_of_letter h
  · split at h
    · rename_i digits hcode
      obtain ⟨high, low, rest', code, rfl, rfl, hfirst, hlast, hvalue⟩ :=
        asciiCode?_eq_some_iff.1 hcode
      obtain ⟨-, rfl, rfl⟩ := eq_of_code hvalue h
      exact ⟨['x', high, low], rest', rfl, rfl, .ascii hfirst hlast hvalue⟩
    · exact escaped_of_letter h
  · exact escaped_of_letter h

/-- The causes for which a source text is refused. -/
inductive Unreadable : Fault → Prop
  | notALiteral (text : String) : Unreadable (.notALiteral text)
  | unknownEscape (text : String) : Unreadable (.unknownEscape text)
  | codePointTooLarge : Unreadable .codePointTooLarge
  | numeralTooLong (digits : Nat) : Unreadable (.numeralTooLong digits)

theorem unreadable_of_charOfCode (h : charOfCode n = .error fault) : Unreadable fault := by
  unfold charOfCode at h
  split at h
  · cases h
    exact .codePointTooLarge
  · split at h <;> cases h

theorem unreadable_of_escape (h : escape s = .error fault) : Unreadable fault := by
  have hletter {text : String} (h : (match s.head?.bind escaped? with
      | some c => Except.ok (c, 1)
      | none => .error (Fault.unknownEscape text)) = .error fault) : Unreadable fault := by
    split at h
    · cases h
    · cases h
      exact .unknownEscape text
  have hcode {code length : Nat} (h : (do return (← charOfCode code, length) :
      Except Fault (Char × Nat)) = .error fault) : Unreadable fault := by
    rcases cases_of_bind_error h with h | ⟨d, -, h⟩
    · exact unreadable_of_charOfCode h
    · cases h
  unfold escape at h
  extract_lets byCode byLetter at h
  split at h
  · split at h
    · exact hcode h
    · exact hletter h
  · split at h
    · exact hcode h
    · exact hletter h
  · exact hletter h

end Literal

end ShortCircuit

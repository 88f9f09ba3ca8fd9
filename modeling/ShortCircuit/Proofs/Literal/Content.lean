/-
  ShortCircuit.Proofs.Literal.Content

  Texts between double quotes, unit by unit.  The scan for the closing quote,
  which looks no further than the character behind a backslash, and the
  replacement of the escapes, which knows all their shapes, cut a text at the
  same places.
-/

import ShortCircuit.Proofs.Literal.Escapes

namespace ShortCircuit.Literal

open Failing
open Text (hexValue? readHex? isSome_of_readHex?)

variable {c : Char} {s rest content chars : List Char} {fault : Fault}

/-! ## The scan for the closing quote -/

theorem content?_of_plain (hquote : c ≠ '"') (hbackslash : c ≠ '\\') (rest : List Char) :
    content? (c :: rest) = (content? rest).map (c :: ·) := by
  rw [content?]
  · exact hquote
  · intro d rest' h
    exact absurd h hbackslash
  · intro h
    exact absurd h hbackslash

theorem content?_of_backslash (h : c ≠ '\n') (rest : List Char) :
    content? ('\\' :: c :: rest) = (content? rest).map ('\\' :: c :: ·) := by
  rw [content?, if_neg h]

/-- The scan goes through plain characters as they stand. -/
theorem content?_of_plains (h : ∀ c ∈ s, c ≠ '"' ∧ c ≠ '\\') (rest : List Char) :
    content? (s ++ rest) = (content? rest).map (s ++ ·) := by
  induction s with
  | nil => simp
  | cons c s ih =>
    obtain ⟨⟨hquote, hbackslash⟩, hs⟩ := List.forall_mem_cons.1 h
    rw [List.cons_append, content?_of_plain hquote hbackslash, ih hs, Option.map_map]
    rfl

/-- Hexadecimal digits are plain. -/
theorem plain_of_hex (h : (hexValue? c).isSome = true) : c ≠ '"' ∧ c ≠ '\\' := by
  constructor
  · rintro rfl
    exact absurd h (by decide)
  · rintro rfl
    exact absurd h (by decide)

theorem ne_newline_of_letter {letter : Char} (h : (letter, c) ∈ letters) : letter ≠ '\n' := by
  rintro rfl
  simp [letters] at h

/-- The scan never stops inside a unit, nor does it look from one unit into the next. -/
theorem TextUnit.content? {u : List Char} (unit : TextUnit u c) (rest : List Char) :
    content? (u ++ rest) = (content? rest).map (u ++ ·) := by
  cases unit with
  | plain notQuote notBackslash => exact content?_of_plain notQuote notBackslash rest
  | letter listed => exact content?_of_backslash (ne_newline_of_letter listed) rest
  | @ascii high low n first last value =>
    have hplain : ∀ c ∈ [high, low], c ≠ '"' ∧ c ≠ '\\' :=
      fun c hc => plain_of_hex (isSome_of_readHex? value c hc)
    show Literal.content? ('\\' :: 'x' :: ([high, low] ++ rest)) = _
    rw [content?_of_backslash (by decide), content?_of_plains hplain, Option.map_map]
    rfl
  | @code digits n nonempty few value bound =>
    have hplain : ∀ c ∈ '\x7b' :: digits ++ ['\x7d'], c ≠ '"' ∧ c ≠ '\\' := by
      intro c hc
      simp only [List.cons_append, List.mem_cons, List.mem_append, List.not_mem_nil, or_false]
        at hc
      rcases hc with rfl | hc | rfl
      · decide
      · exact plain_of_hex (isSome_of_readHex? value c hc)
      · decide
    show Literal.content? ('\\' :: 'u' :: ('\x7b' :: digits ++ ['\x7d'] ++ rest)) = _
    rw [content?_of_backslash (by decide), content?_of_plains hplain, Option.map_map]
    rfl

/-- What the scan finds is closed by the quote at the end of the text. -/
theorem content?_eq_append (h : content? s = some content) : s = content ++ ['"'] := by
  fun_induction content? s generalizing content with
  | case1 => cases h
  | case2 rest hempty =>
    -- The quote is the last character.
    cases h
    rw [List.isEmpty_iff.1 hempty]
    rfl
  | case3 => cases h
  | case4 => cases h
  | case5 c rest hc ih =>
    obtain ⟨found, hfound, rfl⟩ := Option.map_eq_some_iff.1 h
    rw [ih hfound]
    rfl
  | case6 => cases h
  | case7 c rest hquote hpair hlast ih =>
    obtain ⟨found, hfound, rfl⟩ := Option.map_eq_some_iff.1 h
    rw [ih hfound]
    rfl

/-! ## Replacement of the escapes -/

/-- To pass over characters is to begin behind them. -/
theorem unescapeFrom_eq (skip : Nat) (s : List Char) :
    unescapeFrom skip s = unescape (s.drop skip) := by
  induction s generalizing skip with
  | nil =>
    rw [List.drop_nil]
    cases skip <;> rfl
  | cons c s ih =>
    cases skip with
    | zero => rfl
    | succ skip =>
      rw [unescapeFrom, ih]
      rfl

theorem unescape_of_escape (h : escape (s ++ rest) = .ok (c, s.length)) :
    unescape ('\\' :: s ++ rest) = (unescape rest).map (c :: ·) := by
  rw [unescape, List.cons_append, unescapeFrom, if_pos rfl, h]
  show (do return c :: (← unescapeFrom s.length (s ++ rest)) : Except Fault (List Char)) = _
  rw [unescapeFrom_eq, List.drop_left]
  cases unescape rest <;> rfl

theorem unescape_of_plain (h : c ≠ '\\') (rest : List Char) :
    unescape (c :: rest) = (unescape rest).map (c :: ·) := by
  rw [unescape, unescapeFrom, if_neg h]
  show (do return c :: (← unescape rest) : Except Fault (List Char)) = _
  cases unescape rest <;> rfl

/-- A unit gives its character, and what follows it is read for itself. -/
theorem TextUnit.unescape {u : List Char} (unit : TextUnit u c) (rest : List Char) :
    unescape (u ++ rest) = (unescape rest).map (c :: ·) := by
  cases unit with
  | plain notQuote notBackslash => exact unescape_of_plain notBackslash rest
  | letter listed => exact unescape_of_escape (escape_of_letter listed rest)
  | ascii first last value => exact unescape_of_escape (escape_of_ascii first last value rest)
  | @code digits n nonempty few value bound =>
    have hescape := escape_of_code nonempty few value bound rest
    have hbody : ('u' :: '\x7b' :: digits ++ ['\x7d']).length = digits.length + 3 := by simp
    show Literal.unescape ('\\' :: ('u' :: '\x7b' :: digits ++ ['\x7d']) ++ rest) = _
    refine unescape_of_escape ?_
    rw [hbody, ← hescape, List.append_assoc]
    rfl

theorem unreadable_of_unescapeFrom {skip : Nat} (h : unescapeFrom skip s = .error fault) :
    Unreadable fault := by
  induction s generalizing skip with
  | nil => cases skip <;> cases h
  | cons c s ih =>
    cases skip with
    | succ skip => exact ih h
    | zero =>
      -- The first fault is that of the escape at hand, or one of those that follow.
      rw [unescapeFrom] at h
      split at h
      · rcases cases_of_bind_error h with hescape | ⟨found, -, h⟩
        · exact unreadable_of_escape hescape
        · rcases cases_of_bind_error h with hrest | ⟨rest, -, h⟩
          · exact ih hrest
          · cases h
      · rcases cases_of_bind_error h with hrest | ⟨rest, -, h⟩
        · exact ih hrest
        · cases h

/-! ## Content -/

/-- Units in a row, and the characters that they stand for. -/
inductive Content : List Char → List Char → Prop
  | nil : Content [] []
  | cons {u s chars : List Char} {c : Char} (unit : TextUnit u c) (rest : Content s chars) :
    Content (u ++ s) (c :: chars)

namespace Content

theorem content? (content : Content s chars) : content? (s ++ ['"']) = some s := by
  induction content with
  | nil => rfl
  | cons unit rest ih =>
    rw [List.append_assoc, unit.content?, ih]
    rfl

theorem unescape (content : Content s chars) : unescape s = .ok chars := by
  induction content with
  | nil => rfl
  | cons unit rest ih =>
    rw [unit.unescape, ih]
    rfl

end Content

/-- What the scan finds begins with a unit, if the escapes in it can be replaced. -/
theorem exists_unit (hne : s ≠ []) (hscan : content? (s ++ ['"']) = some s)
    (h : unescape s = .ok chars) : ∃ u rest c, s = u ++ rest ∧ u ≠ [] ∧ TextUnit u c := by
  cases s with
  | nil => exact absurd rfl hne
  | cons c s =>
    by_cases hbackslash : c = '\\'
    · subst hbackslash
      -- The escape behind the backslash has been found.
      have hescape : ∃ d n, escape s = .ok (d, n) := by
        cases hescape : escape s with
        | ok found => exact ⟨found.1, found.2, rfl⟩
        | error fault =>
          rw [Literal.unescape, unescapeFrom, if_pos rfl, hescape] at h
          cases h
      obtain ⟨d, n, hescape⟩ := hescape
      obtain ⟨body, rest, rfl, -, unit⟩ := escaped_of_escape hescape
      exact ⟨'\\' :: body, rest, d, rfl, List.cons_ne_nil _ _, unit⟩
    · have hquote : c ≠ '"' := by
        rintro rfl
        simp [Literal.content?] at hscan
      exact ⟨[c], s, c, rfl, List.cons_ne_nil _ _, .plain hquote hbackslash⟩

/-- What the scan finds is units in a row, if the escapes in it can be replaced. -/
theorem content_of_unescape (hscan : content? (s ++ ['"']) = some s)
    (h : unescape s = .ok chars) : Content s chars := by
  induction hlength : s.length using Nat.strongRecOn generalizing s chars with
  | _ length ih =>
    by_cases hne : s = []
    · subst hne
      cases h
      exact .nil
    · -- One unit comes off the front of what is scanned and of what is replaced.
      obtain ⟨u, rest, c, rfl, hu, unit⟩ := exists_unit hne hscan h
      rw [List.append_assoc, unit.content?] at hscan
      obtain ⟨found, hfound, heq⟩ := Option.map_eq_some_iff.1 hscan
      rw [List.append_cancel_left heq] at hfound
      rw [unit.unescape] at h
      obtain ⟨chars', hrest, rfl⟩ := exists_of_map_ok h
      have hshorter : rest.length < length := by
        have hpos := List.length_pos_iff.2 hu
        rw [List.length_append] at hlength
        omega
      exact .cons unit (ih _ hshorter hfound hrest rfl)

end ShortCircuit.Literal

/-
  ShortCircuit.Proofs.Json.Reading

  The reader of JSON texts accepts what the grammar allows and nothing else, and
  gives the value that a text stands for.  Both ways the proof follows the nesting
  of values; the fuel of the reader is enough as long as it exceeds twice the
  length of the text.
-/

import ShortCircuit.Proofs.Failing
import ShortCircuit.Proofs.Json.Grammar

namespace ShortCircuit.Json

open Failing

variable {s rest blanks text : List Char} {v : Value} {x : Scalar} {c : Char} {fuel : Nat}

/-! ## Texts that are read -/

/-- The reader gives the value of a text, given fuel, whatever follows. -/
def Reads (text : List Char) (v : Value) : Prop :=
  ∀ fuel rest, 2 * text.length ≤ fuel → Ends rest → readValue fuel (text ++ rest) = .ok (v, rest)

/-- A value is a text, a list or a table by the character that it begins with, else a scalar. -/
theorem opening_cases (s : List Char) :
    (∃ back, s = '"' :: back) ∨ (∃ back, s = '[' :: back) ∨ (∃ back, s = '\x7b' :: back) ∨
      ∀ c ∈ s.head?, c ≠ '"' ∧ c ≠ '[' ∧ c ≠ '\x7b' := by
  cases s with
  | nil => exact .inr (.inr (.inr (by simp)))
  | cons c back =>
    simp only [List.cons.injEq, exists_and_left, exists_eq', and_true, List.head?_cons,
      Option.mem_some_iff, forall_eq']
    tauto

theorem readValue_scalar (h : ∀ c ∈ s.head?, c ≠ '"' ∧ c ≠ '[' ∧ c ≠ '\x7b') (fuel : Nat) :
    readValue (fuel + 1) s = (readScalar s).map fun found => (.scalar found.1, found.2) := by
  rw [readValue]
  · cases readScalar s <;> rfl
  · rintro rest rfl
    exact (h _ rfl).1 rfl
  · rintro rest rfl
    exact (h _ rfl).2.1 rfl
  · rintro rest rfl
    exact (h _ rfl).2.2 rfl

theorem readValue_list (h : ∀ back, skipBlanks s ≠ ']' :: back) (fuel : Nat) :
    readValue (fuel + 1) ('[' :: s) =
      (readItems fuel (skipBlanks s)).map fun found => (.list found.1, found.2) := by
  rw [readValue]
  split
  · rename_i heq
    exact absurd heq (h _)
  · cases readItems fuel (skipBlanks s) <;> rfl

theorem readValue_table (h : ∀ back, skipBlanks s ≠ '\x7d' :: back) (fuel : Nat) :
    readValue (fuel + 1) ('\x7b' :: s) =
      (readEntries fuel (skipBlanks s)).map fun found =>
        (.table (Table.ofList found.1), found.2) := by
  rw [readValue]
  split
  · rename_i heq
    exact absurd heq (h _)
  · cases readEntries fuel (skipBlanks s) <;> rfl

/-- Behind an item stands the end of the list or a comma. -/
theorem readItems_bracket {back : List Char} (hvalue : readValue fuel s = .ok (v, back))
    (hback : skipBlanks back = ']' :: rest) : readItems (fuel + 1) s = .ok ([v], rest) := by
  rw [readItems, hvalue, ok_bind]
  dsimp only
  rw [hback]
  rfl

theorem readItems_comma {back : List Char} (hvalue : readValue fuel s = .ok (v, back))
    (hback : skipBlanks back = ',' :: rest) :
    readItems (fuel + 1) s =
      (readItems fuel (skipBlanks rest)).map fun found => (v :: found.1, found.2) := by
  rw [readItems, hvalue, ok_bind]
  dsimp only
  rw [hback]
  show (readItems fuel (skipBlanks rest) >>= fun found => pure (v :: found.1, found.2)) = _
  cases readItems fuel (skipBlanks rest) <;> rfl

section

variable {quoted behind colon back : List Char} {name : Text} {why : Unreadable}
  (hkey : readText quoted = .ok (name, behind)) (hcolon : skipBlanks behind = ':' :: colon)
include hkey hcolon

/-- A member whose value cannot be read ends the reading. -/
theorem readEntries_error (hvalue : readValue fuel (skipBlanks colon) = .error why) :
    readEntries (fuel + 1) ('"' :: quoted) = .error why := by
  rw [readEntries, hkey, ok_bind]
  dsimp only
  rw [hcolon]
  show (readValue fuel (skipBlanks colon) >>= _) = _
  rw [hvalue]
  rfl

/-- Behind a member stands the end of the table or a comma. -/
theorem readEntries_brace (hvalue : readValue fuel (skipBlanks colon) = .ok (v, back))
    (hback : skipBlanks back = '\x7d' :: rest) :
    readEntries (fuel + 1) ('"' :: quoted) = .ok ([(.text name, v)], rest) := by
  rw [readEntries, hkey, ok_bind]
  dsimp only
  rw [hcolon]
  show (readValue fuel (skipBlanks colon) >>= _) = _
  rw [hvalue, ok_bind]
  dsimp only
  rw [hback]
  rfl

theorem readEntries_comma (hvalue : readValue fuel (skipBlanks colon) = .ok (v, back))
    (hback : skipBlanks back = ',' :: rest) :
    readEntries (fuel + 1) ('"' :: quoted) =
      (readEntries fuel (skipBlanks rest)).map fun found =>
        ((.text name, v) :: found.1, found.2) := by
  rw [readEntries, hkey, ok_bind]
  dsimp only
  rw [hcolon]
  show (readValue fuel (skipBlanks colon) >>= _) = _
  rw [hvalue, ok_bind]
  dsimp only
  rw [hback]
  show (readEntries fuel (skipBlanks rest) >>= fun found =>
    pure ((.text name, v) :: found.1, found.2)) = _
  cases readEntries fuel (skipBlanks rest) <;> rfl

end

/-- Items are only read on from where a value has been read, unless the text is malformed. -/
theorem readItems_cases (h : readItems (fuel + 1) s ≠ .error .malformed) :
    (∃ why, readValue fuel s = .error why ∧ readItems (fuel + 1) s = .error why) ∨
    ∃ v back rest, readValue fuel s = .ok (v, back) ∧
      (skipBlanks back = ']' :: rest ∧ readItems (fuel + 1) s = .ok ([v], rest) ∨
        skipBlanks back = ',' :: rest ∧ readItems (fuel + 1) s =
          (readItems fuel (skipBlanks rest)).map fun found => (v :: found.1, found.2)) := by
  cases hvalue : readValue fuel s with
  | error why => exact .inl ⟨why, rfl, by rw [readItems, hvalue]; rfl⟩
  | ok found =>
    obtain ⟨v, back⟩ := found
    rw [readItems, hvalue, ok_bind] at h
    dsimp only at h
    split at h
    · rename_i rest hback
      exact .inr ⟨v, back, rest, rfl, .inl ⟨hback, readItems_bracket hvalue hback⟩⟩
    · rename_i rest hback
      exact .inr ⟨v, back, rest, rfl, .inr ⟨hback, readItems_comma hvalue hback⟩⟩
    · exact absurd rfl h

/-- Where a member is read, a key and a colon stand in front of its value. -/
theorem exists_key_of_readEntries (h : readEntries (fuel + 1) s ≠ .error .malformed) :
    ∃ quoted name behind colon, s = '"' :: quoted ∧ readText quoted = .ok (name, behind) ∧
      skipBlanks behind = ':' :: colon := by
  by_cases hquote : ∃ quoted, s = '"' :: quoted
  · obtain ⟨quoted, rfl⟩ := hquote
    rw [readEntries] at h
    cases hkey : readText quoted with
    | error why =>
      cases why with
      | malformed =>
        rw [hkey] at h
        exact absurd rfl h
      | fault cause => exact (readText_ne_fault hkey).elim
    | ok found =>
      obtain ⟨name, behind⟩ := found
      rw [hkey, ok_bind] at h
      dsimp only at h
      split at h
      · rename_i colon hcolon
        exact ⟨quoted, name, behind, colon, rfl, hkey, hcolon⟩
      · exact absurd rfl h
  · rw [readEntries] at h
    · exact absurd rfl h
    · exact fun quoted heq => hquote ⟨quoted, heq⟩

/-- Members are only read on from where a value has been read, unless the text is malformed. -/
theorem readEntries_cases (h : readEntries (fuel + 1) s ≠ .error .malformed)
    (blank : Blank blanks) :
    ∃ key : Key, key.Spaced ∧ ∃ colon, blanks ++ s = key.withColon ++ colon ∧
      ((∃ why, readValue fuel (skipBlanks colon) = .error why ∧
          readEntries (fuel + 1) s = .error why) ∨
        ∃ v back rest, readValue fuel (skipBlanks colon) = .ok (v, back) ∧
          (skipBlanks back = '\x7d' :: rest ∧
              readEntries (fuel + 1) s = .ok ([(.text key.name, v)], rest) ∨
            skipBlanks back = ',' :: rest ∧ readEntries (fuel + 1) s =
              (readEntries fuel (skipBlanks rest)).map fun found =>
                ((.text key.name, v) :: found.1, found.2))) := by
  obtain ⟨quoted, name, behind, colon, rfl, hkey, hcolon⟩ := exists_key_of_readEntries h
  obtain ⟨text, rfl, content⟩ := readText_eq_ok_iff.1 hkey
  obtain ⟨after, hafter, hbehind⟩ := exists_of_skipBlanks behind
  refine ⟨⟨blanks, text, after, name⟩, ⟨blank, hafter, content⟩, colon, ?_, ?_⟩
  · rw [hbehind, hcolon]
    simp [Key.withColon]
  cases hvalue : readValue fuel (skipBlanks colon) with
  | error why => exact .inl ⟨why, rfl, readEntries_error hkey hcolon hvalue⟩
  | ok found =>
    obtain ⟨v, back⟩ := found
    rw [readEntries, hkey, ok_bind] at h
    dsimp only at h
    rw [hcolon] at h
    change (readValue fuel (skipBlanks colon) >>= _) ≠ _ at h
    rw [hvalue, ok_bind] at h
    dsimp only at h
    split at h
    · rename_i rest hback
      exact .inr ⟨v, back, rest, rfl, .inl ⟨hback, readEntries_brace hkey hcolon hvalue hback⟩⟩
    · rename_i rest hback
      exact .inr ⟨v, back, rest, rfl, .inr ⟨hback, readEntries_comma hkey hcolon hvalue hback⟩⟩
    · exact absurd rfl h

theorem ends_comma (s : List Char) : Ends (',' :: s) := by
  rintro c hc
  cases hc
  decide

theorem ends_bracket (s : List Char) : Ends (']' :: s) := by
  rintro c hc
  cases hc
  decide

theorem ends_brace (s : List Char) : Ends ('\x7d' :: s) := by
  rintro c hc
  cases hc
  decide

/-! ## Items -/

/-- An item that is read as it is spelled. -/
structure Item.IsRead (item : Item) : Prop where
  spaced : item.Spaced
  spelled : Spells item.text item.value
  reads : Reads item.text item.value

namespace Item

variable {item : Item} {items : List Item}

/-- With the blanks around it, the text of an item is passed over. -/
theorem IsRead.readValue_eq (h : item.IsRead) (hfuel : 2 * item.padded.length ≤ fuel) (c : Char)
    (ends : Ends (c :: rest)) (hc : isBlank c = false) :
    ∃ back, skipBlanks (item.padded ++ c :: rest) = item.text ++ back ∧
      readValue fuel (item.text ++ back) = .ok (item.value, back) ∧
      skipBlanks back = c :: rest := by
  have hlength : item.text.length ≤ item.padded.length := by
    rw [padded, List.length_append, List.length_append]
    omega
  refine ⟨item.after ++ c :: rest, ?_, h.reads _ _ (by omega) (ends.append_left h.spaced.after), ?_⟩
  · rw [padded, List.append_assoc, List.append_assoc]
    exact skipBlanks_of_begins h.spaced.before (h.spelled.begins _)
  · exact skipBlanks_append h.spaced.after fun d hd => by cases hd; exact hc

theorem IsRead.readItems_withComma (h : item.IsRead) (hfuel : 2 * item.padded.length ≤ fuel)
    (s : List Char) :
    readItems (fuel + 1) (skipBlanks (item.withComma ++ s)) =
      (readItems fuel (skipBlanks s)).map fun found => (item.value :: found.1, found.2) := by
  obtain ⟨back, hfront, hread, hback⟩ := h.readValue_eq hfuel ',' (ends_comma s) (by decide)
  rw [withComma, List.append_assoc, List.singleton_append, hfront]
  exact readItems_comma hread hback

theorem IsRead.readItems_last (h : item.IsRead) (hfuel : 2 * item.padded.length ≤ fuel)
    (rest : List Char) :
    readItems (fuel + 1) (skipBlanks (item.padded ++ ']' :: rest)) = .ok ([item.value], rest) := by
  obtain ⟨back, hfront, hread, hback⟩ := h.readValue_eq hfuel ']' (ends_bracket rest) (by decide)
  rw [hfront]
  exact readItems_bracket hread hback

/-- Items in front of others are read one after another. -/
theorem readItems_append (h : ∀ item ∈ items, item.IsRead)
    (hfuel : 2 * (items.flatMap withComma).length ≤ fuel) (s : List Char) :
    ∃ fuel', fuel ≤ fuel' + 2 * (items.flatMap withComma).length ∧
      readItems fuel (skipBlanks (items.flatMap withComma ++ s)) =
        (readItems fuel' (skipBlanks s)).map fun found =>
          (items.map value ++ found.1, found.2) := by
  induction items generalizing fuel with
  | nil =>
    refine ⟨fuel, Nat.le_add_right .., ?_⟩
    cases hread : readItems fuel (skipBlanks s) <;> simp [hread, Except.map]
  | cons item items ih =>
    obtain ⟨hitem, hitems⟩ := List.forall_mem_cons.1 h
    rw [List.flatMap_cons, List.length_append, withComma, List.length_append,
      List.length_singleton] at hfuel
    obtain ⟨fuel, rfl⟩ : ∃ k, fuel = k + 1 := ⟨fuel - 1, by omega⟩
    have hmuch : 2 * (items.flatMap withComma).length ≤ fuel := by omega
    obtain ⟨fuel', hle, hread⟩ := ih hitems hmuch
    -- The comma pays for the step that passes over the item.
    refine ⟨fuel', ?_, ?_⟩
    · rw [List.flatMap_cons, List.length_append, withComma, List.length_append,
        List.length_singleton]
      omega
    · rw [List.flatMap_cons, List.append_assoc, hitem.readItems_withComma (by omega), hread]
      cases readItems fuel' (skipBlanks s) <;> rfl

end Item

/-! ## Members -/

/-- A key is passed over, with the blanks around it, and the colon. -/
theorem Key.Spaced.exists_back {key : Key} (h : key.Spaced) (s : List Char) :
    ∃ back, skipBlanks (key.withColon ++ s) = '"' :: (key.text ++ '"' :: back) ∧
      readText (key.text ++ '"' :: back) = .ok (key.name, back) ∧
      skipBlanks back = ':' :: s := by
  refine ⟨key.after ++ ':' :: s, ?_, ?_, ?_⟩
  · have hs : key.withColon ++ s =
        key.before ++ '"' :: (key.text ++ '"' :: (key.after ++ ':' :: s)) := by simp [withColon]
    rw [hs]
    exact skipBlanks_append h.before fun d hd => by cases hd; decide
  · exact readText_eq_ok_iff.2 ⟨_, rfl, h.content⟩
  · exact skipBlanks_append h.after fun d hd => by cases hd; decide

/-- A member that is read as it is spelled. -/
structure Member.IsRead (m : Member) : Prop where
  spaced : m.Spaced
  item : m.item.IsRead

namespace Member

variable {m : Member} {members : List Member}

theorem length_item_le (m : Member) : m.item.padded.length ≤ m.padded.length := by
  rw [padded, List.length_append]
  omega

theorem IsRead.readEntries_withComma (h : m.IsRead) (hfuel : 2 * m.padded.length ≤ fuel)
    (s : List Char) :
    readEntries (fuel + 1) (skipBlanks (m.withComma ++ s)) =
      (readEntries fuel (skipBlanks s)).map fun found => (m.entry :: found.1, found.2) := by
  have hmuch : 2 * m.item.padded.length ≤ fuel := by
    have hlength := m.length_item_le
    omega
  obtain ⟨back, hfront, hkey, hcolon⟩ := h.spaced.key.exists_back (m.item.padded ++ ',' :: s)
  obtain ⟨back', hitem, hread, hback⟩ :=
    h.item.readValue_eq hmuch ',' (ends_comma s) (by decide)
  rw [← hitem] at hread
  rw [withComma, padded, List.append_assoc, List.append_assoc, List.singleton_append, hfront]
  exact readEntries_comma hkey hcolon hread hback

theorem IsRead.readEntries_last (h : m.IsRead) (hfuel : 2 * m.padded.length ≤ fuel)
    (rest : List Char) :
    readEntries (fuel + 1) (skipBlanks (m.padded ++ '\x7d' :: rest)) = .ok ([m.entry], rest) := by
  have hmuch : 2 * m.item.padded.length ≤ fuel := by
    have hlength := m.length_item_le
    omega
  obtain ⟨back, hfront, hkey, hcolon⟩ := h.spaced.key.exists_back (m.item.padded ++ '\x7d' :: rest)
  obtain ⟨back', hitem, hread, hback⟩ :=
    h.item.readValue_eq hmuch '\x7d' (ends_brace rest) (by decide)
  rw [← hitem] at hread
  rw [padded, List.append_assoc, hfront]
  exact readEntries_brace hkey hcolon hread hback

/-- Members in front of others are read one after another. -/
theorem readEntries_append (h : ∀ m ∈ members, m.IsRead)
    (hfuel : 2 * (members.flatMap withComma).length ≤ fuel) (s : List Char) :
    ∃ fuel', fuel ≤ fuel' + 2 * (members.flatMap withComma).length ∧
      readEntries fuel (skipBlanks (members.flatMap withComma ++ s)) =
        (readEntries fuel' (skipBlanks s)).map fun found =>
          (members.map entry ++ found.1, found.2) := by
  induction members generalizing fuel with
  | nil =>
    refine ⟨fuel, Nat.le_add_right .., ?_⟩
    cases hread : readEntries fuel (skipBlanks s) <;> simp [hread, Except.map]
  | cons m members ih =>
    obtain ⟨hm, hmembers⟩ := List.forall_mem_cons.1 h
    rw [List.flatMap_cons, List.length_append, withComma, List.length_append,
      List.length_singleton] at hfuel
    obtain ⟨fuel, rfl⟩ : ∃ k, fuel = k + 1 := ⟨fuel - 1, by omega⟩
    have hmuch : 2 * (members.flatMap withComma).length ≤ fuel := by omega
    obtain ⟨fuel', hle, hread⟩ := ih hmembers hmuch
    refine ⟨fuel', ?_, ?_⟩
    · rw [List.flatMap_cons, List.length_append, withComma, List.length_append,
        List.length_singleton]
      omega
    · rw [List.flatMap_cons, List.append_assoc, hm.readEntries_withComma (by omega), hread]
      cases readEntries fuel' (skipBlanks s) <;> rfl

end Member

/-! ## Every text that is allowed -/

theorem BeginsWithDigit.head_ne (h : BeginsWithDigit s) :
    ∀ c ∈ s.head?, c ≠ '"' ∧ c ≠ '[' ∧ c ≠ '\x7b' := by
  obtain ⟨negative, d, back, rfl, digit⟩ := h
  cases negative with
  | true =>
    rintro c hc
    cases hc
    decide
  | false =>
    rintro c hc
    cases hc
    exact ⟨ne_of_isAsciiDigit digit (by decide), ne_of_isAsciiDigit digit (by decide),
      ne_of_isAsciiDigit digit (by decide)⟩

theorem word_head_ne {word : String} (listed : (word, x) ∈ wordScalars) (rest : List Char) :
    ∀ c ∈ (word.toList ++ rest).head?, c ≠ '"' ∧ c ≠ '[' ∧ c ≠ '\x7b' := by
  have hall : ∀ entry ∈ wordScalars, ∀ c ∈ entry.1.toList.head?,
      c ≠ '"' ∧ c ≠ '[' ∧ c ≠ '\x7b' := by
    decide
  have hne : ∀ entry ∈ wordScalars, entry.1.toList ≠ [] := by decide
  rw [List.head?_append_of_ne_nil _ (hne _ listed)]
  exact hall _ listed

/-- An item does not begin like the end of a list. -/
theorem Item.IsRead.skipBlanks_ne {item : Item} (h : item.IsRead) (s back : List Char) :
    skipBlanks (item.padded ++ s) ≠ ']' :: back := by
  rw [padded, List.append_assoc, List.append_assoc,
    skipBlanks_of_begins h.spaced.before (h.spelled.begins _)]
  obtain ⟨c, front, hs, -, hne, -⟩ := h.spelled.begins (item.after ++ s)
  rw [hs]
  exact fun heq => hne (List.cons.inj heq).1

/-- A key does not begin like the end of a table. -/
theorem Key.Spaced.skipBlanks_ne {key : Key} (h : key.Spaced) (s back : List Char) :
    skipBlanks (key.withColon ++ s) ≠ '\x7d' :: back := by
  obtain ⟨rest, hfront, -⟩ := h.exists_back s
  rw [hfront]
  exact fun heq => absurd (List.cons.inj heq).1 (by decide)

/-- A list with a value in it does not look empty. -/
theorem skipBlanks_items_ne {items : List Item} (h : ∀ item ∈ items, item.IsRead)
    (blank : Blank blanks) (hs : Begins s) (back : List Char) :
    skipBlanks (items.flatMap Item.withComma ++ (blanks ++ s)) ≠ ']' :: back := by
  cases items with
  | nil =>
    rw [List.flatMap_nil, List.nil_append, skipBlanks_of_begins blank hs]
    obtain ⟨c, front, rfl, -, hne, -⟩ := hs
    exact fun heq => hne (List.cons.inj heq).1
  | cons item items =>
    rw [List.flatMap_cons, Item.withComma, List.append_assoc, List.append_assoc]
    exact (h item (List.mem_cons_self ..)).skipBlanks_ne _ back

/-- A table with a key in it does not look empty. -/
theorem skipBlanks_members_ne {members : List Member} {key : Key} (h : ∀ m ∈ members, m.Spaced)
    (hkey : key.Spaced) (s back : List Char) :
    skipBlanks (members.flatMap Member.withComma ++ (key.withColon ++ s)) ≠ '\x7d' :: back := by
  cases members with
  | nil => exact hkey.skipBlanks_ne s back
  | cons m members =>
    rw [List.flatMap_cons, Member.withComma, Member.padded, List.append_assoc, List.append_assoc,
      List.append_assoc]
    exact (h m (List.mem_cons_self ..)).key.skipBlanks_ne _ back

theorem reads_list {items : List Item} {last : Item}
    (h : ∀ item ∈ items ++ [last], item.IsRead) :
    Reads ('[' :: (items.flatMap Item.withComma ++ (last.padded ++ [']'])))
      (.list ((items ++ [last]).map Item.value)) := by
  intro fuel rest hfuel ends
  obtain ⟨hitems, hlast⟩ := List.forall_mem_append.1 h
  have hlast := hlast last (List.mem_singleton_self _)
  rw [List.length_cons, List.length_append, List.length_append, List.length_singleton] at hfuel
  obtain ⟨fuel, rfl⟩ : ∃ k, fuel = k + 1 := ⟨fuel - 1, by omega⟩
  have hs : '[' :: (items.flatMap Item.withComma ++ (last.padded ++ [']'])) ++ rest =
      '[' :: (items.flatMap Item.withComma ++ (last.padded ++ ']' :: rest)) := by simp
  have hopen : ∀ back,
      skipBlanks (items.flatMap Item.withComma ++ (last.padded ++ ']' :: rest)) ≠ ']' :: back := by
    rw [Item.padded, List.append_assoc, List.append_assoc]
    exact skipBlanks_items_ne hitems hlast.spaced.before (hlast.spelled.begins _)
  have hmuch : 2 * (items.flatMap Item.withComma).length ≤ fuel := by omega
  obtain ⟨fuel', hle, hread⟩ := Item.readItems_append hitems hmuch (last.padded ++ ']' :: rest)
  obtain ⟨fuel', rfl⟩ : ∃ k, fuel' = k + 1 := ⟨fuel' - 1, by omega⟩
  rw [hs, readValue_list hopen, hread, hlast.readItems_last (by omega), List.map_append]
  rfl

theorem reads_table {members : List Member} {last : Member}
    (h : ∀ m ∈ members ++ [last], m.IsRead) :
    Reads ('\x7b' :: (members.flatMap Member.withComma ++ (last.padded ++ ['\x7d'])))
      (.table (Table.ofList ((members ++ [last]).map Member.entry))) := by
  intro fuel rest hfuel ends
  obtain ⟨hmembers, hlast⟩ := List.forall_mem_append.1 h
  have hlast := hlast last (List.mem_singleton_self _)
  rw [List.length_cons, List.length_append, List.length_append, List.length_singleton] at hfuel
  obtain ⟨fuel, rfl⟩ : ∃ k, fuel = k + 1 := ⟨fuel - 1, by omega⟩
  have hs : '\x7b' :: (members.flatMap Member.withComma ++ (last.padded ++ ['\x7d'])) ++ rest =
      '\x7b' :: (members.flatMap Member.withComma ++ (last.padded ++ '\x7d' :: rest)) := by simp
  have hopen : ∀ back, skipBlanks (members.flatMap Member.withComma ++
      (last.padded ++ '\x7d' :: rest)) ≠ '\x7d' :: back := by
    rw [Member.padded, List.append_assoc]
    exact skipBlanks_members_ne (fun m hm => (hmembers m hm).spaced) hlast.spaced.key _
  have hmuch : 2 * (members.flatMap Member.withComma).length ≤ fuel := by omega
  obtain ⟨fuel', hle, hread⟩ :=
    Member.readEntries_append hmembers hmuch (last.padded ++ '\x7d' :: rest)
  obtain ⟨fuel', rfl⟩ : ∃ k, fuel' = k + 1 := ⟨fuel' - 1, by omega⟩
  rw [hs, readValue_table hopen, hread, hlast.readEntries_last (by omega), List.map_append]
  rfl

/-- Whatever the grammar allows is read. -/
theorem Spells.reads (h : Spells text v) : Reads text v := by
  -- Each value takes one step of fuel, which the first of its characters pays for.
  induction h with
  | @word word x listed =>
    intro fuel rest hfuel ends
    have hlength := (Spells.word listed).length_pos
    obtain ⟨fuel, rfl⟩ : ∃ k, fuel = k + 1 := ⟨fuel - 1, by omega⟩
    rw [readValue_scalar (word_head_ne listed rest), readScalar_word listed]
    rfl
  | @number s x number =>
    intro fuel rest hfuel ends
    have hlength := (Spells.number number).length_pos
    obtain ⟨fuel, rfl⟩ : ∃ k, fuel = k + 1 := ⟨fuel - 1, by omega⟩
    rw [readValue_scalar (number.beginsWithDigit rest).head_ne, number.readScalar_eq ends]
    rfl
  | @text content text isContent =>
    intro fuel rest hfuel ends
    rw [List.length_cons] at hfuel
    obtain ⟨fuel, rfl⟩ : ∃ k, fuel = k + 1 := ⟨fuel - 1, by omega⟩
    have hread : readText (content ++ '"' :: rest) = .ok (text, rest) :=
      readText_eq_ok_iff.2 ⟨content, rfl, isContent⟩
    rw [List.cons_append, List.append_assoc, List.singleton_append, readValue, hread]
    rfl
  | emptyList blank =>
    intro fuel rest hfuel ends
    rw [List.length_cons] at hfuel
    obtain ⟨fuel, rfl⟩ : ∃ k, fuel = k + 1 := ⟨fuel - 1, by omega⟩
    rw [List.cons_append, List.append_assoc, List.singleton_append, readValue,
      skipBlanks_append blank fun d hd => by cases hd; decide]
    rfl
  | list spaced spelled ih =>
    exact reads_list fun item hitem => ⟨spaced item hitem, spelled item hitem, ih item hitem⟩
  | emptyTable blank =>
    intro fuel rest hfuel ends
    rw [List.length_cons] at hfuel
    obtain ⟨fuel, rfl⟩ : ∃ k, fuel = k + 1 := ⟨fuel - 1, by omega⟩
    rw [List.cons_append, List.append_assoc, List.singleton_append, readValue,
      skipBlanks_append blank fun d hd => by cases hd; decide]
    rfl
  | table spaced spelled ih =>
    exact reads_table fun m hm =>
      ⟨spaced m hm, (spaced m hm).item, spelled m hm, ih m hm⟩

end ShortCircuit.Json

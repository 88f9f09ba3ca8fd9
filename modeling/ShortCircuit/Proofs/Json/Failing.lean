/-
  ShortCircuit.Proofs.Json.Failing

  How reading a JSON text fails.  The reader goes from left to right; it fails as
  soon as it comes to an integer that is too long, whatever stands behind it.  All
  other texts that are no documents are malformed.
-/

import ShortCircuit.Proofs.Json.Accepting

namespace ShortCircuit.Json

open Failing

variable {s t rest blanks text : List Char} {v : Value} {vs : List Value} {x : Scalar} {c : Char}
  {fuel : Nat} {cause : Fault}

/-- To read a value from the front of a text, the reader comes to read a value from another text:
    from the whole, or further down, when it has accepted the items of a list, or the members of a
    table and the next key. -/
inductive Due : List Char → List Char → Prop
  | here {s : List Char} : Due s s
  | item {items : List Item} {blanks s t : List Char} (spaced : ∀ item ∈ items, item.Spaced)
    (spelled : ∀ item ∈ items, Spells item.text item.value) (blank : Blank blanks) (due : Due s t) :
    Due ('[' :: (items.flatMap Item.withComma ++ (blanks ++ s))) t
  | member {members : List Member} {key : Key} {blanks s t : List Char}
    (spaced : ∀ m ∈ members, m.Spaced)
    (spelled : ∀ m ∈ members, Spells m.item.text m.item.value) (isKey : key.Spaced)
    (blank : Blank blanks) (due : Due s t) :
    Due ('\x7b' :: (members.flatMap Member.withComma ++ (key.withColon ++ (blanks ++ s)))) t

/-! ## An integer that is too long is come to -/

theorem Overlong.beginsWithDigit (h : Overlong s cause) : BeginsWithDigit s := by
  obtain ⟨negative, whole, rest, rfl, isWhole, -⟩ := h
  exact isWhole.beginsWithDigit negative rest

theorem Due.begins (h : Due s t) (ht : Begins t) : Begins s := by
  cases h with
  | here => exact ht
  | item => exact ⟨'[', _, rfl, by decide⟩
  | member => exact ⟨'\x7b', _, rfl, by decide⟩

/-- The reader fails at the integer, whatever it has accepted before. -/
theorem Due.readValue_eq (due : Due s t) (overlong : Overlong t cause)
    (hfuel : 2 * s.length ≤ fuel) : readValue fuel s = .error (.fault cause) := by
  induction due generalizing fuel with
  | here =>
    have hdigit := overlong.beginsWithDigit
    obtain ⟨c, back, rfl, -⟩ := hdigit.begins
    rw [List.length_cons] at hfuel
    obtain ⟨fuel, rfl⟩ : ∃ k, fuel = k + 1 := ⟨fuel - 1, by omega⟩
    rw [readValue_scalar hdigit.head_ne, readScalar_of_beginsWithDigit hdigit,
      readNumber_fault_iff.2 overlong]
    rfl
  | @item items blanks s t spaced spelled blank due ih =>
    have hitems : ∀ item ∈ items, item.IsRead := fun item hitem =>
      ⟨spaced item hitem, spelled item hitem, (spelled item hitem).reads⟩
    have hbegins := due.begins overlong.beginsWithDigit.begins
    rw [List.length_cons, List.length_append, List.length_append] at hfuel
    obtain ⟨fuel, rfl⟩ : ∃ k, fuel = k + 1 := ⟨fuel - 1, by omega⟩
    have hmuch : 2 * (items.flatMap Item.withComma).length ≤ fuel := by omega
    -- The items in front are accepted, and what is left of the fuel is enough for what follows.
    obtain ⟨fuel', hle, hread⟩ := Item.readItems_append hitems hmuch (blanks ++ s)
    obtain ⟨fuel', rfl⟩ : ∃ k, fuel' = k + 1 := ⟨fuel' - 1, by omega⟩
    rw [readValue_list (skipBlanks_items_ne hitems blank hbegins), hread,
      skipBlanks_of_begins blank hbegins, readItems, ih overlong (by omega)]
    rfl
  | @member members key blanks s t spaced spelled isKey blank due ih =>
    have hmembers : ∀ m ∈ members, m.IsRead := fun m hm =>
      ⟨spaced m hm, (spaced m hm).item, spelled m hm, (spelled m hm).reads⟩
    have hbegins := due.begins overlong.beginsWithDigit.begins
    obtain ⟨back, hfront, hkey, hcolon⟩ := isKey.exists_back (blanks ++ s)
    rw [List.length_cons, List.length_append, List.length_append, List.length_append] at hfuel
    obtain ⟨fuel, rfl⟩ : ∃ k, fuel = k + 1 := ⟨fuel - 1, by omega⟩
    have hmuch : 2 * (members.flatMap Member.withComma).length ≤ fuel := by omega
    obtain ⟨fuel', hle, hread⟩ :=
      Member.readEntries_append hmembers hmuch (key.withColon ++ (blanks ++ s))
    obtain ⟨fuel', rfl⟩ : ∃ k, fuel' = k + 1 := ⟨fuel' - 1, by omega⟩
    have hfail : readEntries (fuel' + 1) (skipBlanks (key.withColon ++ (blanks ++ s))) =
        .error (.fault cause) := by
      rw [hfront]
      refine readEntries_error hkey hcolon ?_
      rw [skipBlanks_of_begins blank hbegins, ih overlong (by omega)]
    rw [readValue_table (skipBlanks_members_ne spaced isKey _), hread, hfail]
    rfl

/-! ## Nothing else is -/

/-- The reader comes from the front of a text to an integer that is too long. -/
def Chokes (s : List Char) (cause : Fault) : Prop := ∃ t, Due s t ∧ Overlong t cause

theorem readScalar_fault (h : readScalar s = .error (.fault cause)) : Overlong s cause := by
  unfold readScalar at h
  split at h
  · cases h
  · exact readNumber_fault_iff.1 h

/-- What fails with some fuel does so at an integer that the reader has come to. -/
structure Faults (fuel : Nat) : Prop where
  value : ∀ {s cause}, readValue fuel s = .error (.fault cause) → Chokes s cause
  items : ∀ {s cause}, readItems fuel s = .error (.fault cause) → ∀ blanks, Blank blanks →
    ∃ (items : List Item) (before s' : List Char),
      blanks ++ s = items.flatMap Item.withComma ++ (before ++ s') ∧
      (∀ item ∈ items, item.Spaced ∧ Spells item.text item.value) ∧ Blank before ∧ Chokes s' cause
  entries : ∀ {s cause}, readEntries fuel s = .error (.fault cause) → ∀ blanks, Blank blanks →
    ∃ (members : List Member) (key : Key) (before s' : List Char),
      blanks ++ s = members.flatMap Member.withComma ++ (key.withColon ++ (before ++ s')) ∧
      (∀ m ∈ members, m.Spaced ∧ Spells m.item.text m.item.value) ∧ key.Spaced ∧ Blank before ∧
      Chokes s' cause

namespace Faults

variable (ih : Faults fuel)
include ih

theorem list (h : readValue (fuel + 1) ('[' :: s) = .error (.fault cause)) :
    Chokes ('[' :: s) cause := by
  obtain ⟨blanks, blank, hs⟩ := exists_of_skipBlanks s
  by_cases hclosed : ∃ back, skipBlanks s = ']' :: back
  · obtain ⟨back, hback⟩ := hclosed
    rw [readValue, hback] at h
    cases h
  · rw [readValue_list (not_exists.1 hclosed)] at h
    obtain ⟨items, before, s', hjoined, hall, hbefore, t, due, overlong⟩ :=
      ih.items (eq_error_of_map h) blanks blank
    rw [← hs] at hjoined
    rw [hjoined]
    exact ⟨t, .item (fun item hitem => (hall item hitem).1) (fun item hitem => (hall item hitem).2)
      hbefore due, overlong⟩

theorem table (h : readValue (fuel + 1) ('\x7b' :: s) = .error (.fault cause)) :
    Chokes ('\x7b' :: s) cause := by
  obtain ⟨blanks, blank, hs⟩ := exists_of_skipBlanks s
  by_cases hclosed : ∃ back, skipBlanks s = '\x7d' :: back
  · obtain ⟨back, hback⟩ := hclosed
    rw [readValue, hback] at h
    cases h
  · rw [readValue_table (not_exists.1 hclosed)] at h
    obtain ⟨members, key, before, s', hjoined, hall, isKey, hbefore, t, due, overlong⟩ :=
      ih.entries (eq_error_of_map h) blanks blank
    rw [← hs] at hjoined
    rw [hjoined]
    exact ⟨t, .member (fun m hm => (hall m hm).1) (fun m hm => (hall m hm).2) isKey hbefore due,
      overlong⟩

theorem value_succ (h : readValue (fuel + 1) s = .error (.fault cause)) : Chokes s cause := by
  rcases opening_cases s with ⟨back, rfl⟩ | ⟨back, rfl⟩ | ⟨back, rfl⟩ | hhead
  · rw [readValue] at h
    rcases cases_of_bind_error h with htext | ⟨found, -, hfound⟩
    · exact (readText_ne_fault htext).elim
    · cases hfound
  · exact ih.list h
  · exact ih.table h
  · rw [readValue_scalar hhead] at h
    exact ⟨s, .here, readScalar_fault (eq_error_of_map h)⟩

theorem items_succ (h : readItems (fuel + 1) s = .error (.fault cause)) (blank : Blank blanks) :
    ∃ (items : List Item) (before s' : List Char),
      blanks ++ s = items.flatMap Item.withComma ++ (before ++ s') ∧
      (∀ item ∈ items, item.Spaced ∧ Spells item.text item.value) ∧ Blank before ∧
      Chokes s' cause := by
  have hne : readItems (fuel + 1) s ≠ .error .malformed := by simp [h]
  rcases readItems_cases hne with ⟨why, hvalue, herror⟩ | ⟨v, back, rest, hvalue, hend⟩
  · cases h.symm.trans herror
    exact ⟨[], blanks, s, rfl, List.forall_mem_nil _, blank, ih.value hvalue⟩
  obtain ⟨item, spaced, spells, -, hs⟩ := (accepts fuel).item hvalue blank
  rcases hend with ⟨-, hread⟩ | ⟨hskip, hread⟩
  · cases h.symm.trans hread
  · obtain ⟨before, hbefore, hrest⟩ := exists_of_skipBlanks rest
    obtain ⟨items, before', s', hjoined, hall, hbefore', hs'⟩ :=
      ih.items (eq_error_of_map (hread.symm.trans h)) before hbefore
    refine ⟨item :: items, before', s', ?_, List.forall_mem_cons.2 ⟨⟨spaced, spells⟩, hall⟩,
      hbefore', hs'⟩
    rw [hs, hskip, hrest, hjoined]
    simp [Item.withComma]

theorem entries_succ (h : readEntries (fuel + 1) s = .error (.fault cause)) (blank : Blank blanks) :
    ∃ (members : List Member) (key : Key) (before s' : List Char),
      blanks ++ s = members.flatMap Member.withComma ++ (key.withColon ++ (before ++ s')) ∧
      (∀ m ∈ members, m.Spaced ∧ Spells m.item.text m.item.value) ∧ key.Spaced ∧ Blank before ∧
      Chokes s' cause := by
  have hne : readEntries (fuel + 1) s ≠ .error .malformed := by simp [h]
  obtain ⟨key, hkey, colon, hs, hcases⟩ := readEntries_cases hne blank
  obtain ⟨before, hbefore, hcolon⟩ := exists_of_skipBlanks colon
  rcases hcases with ⟨why, hvalue, herror⟩ | ⟨v, back, rest, hvalue, hend⟩
  · cases h.symm.trans herror
    refine ⟨[], key, before, _, ?_, List.forall_mem_nil _, hkey, hbefore, ih.value hvalue⟩
    rw [hs, ← hcolon]
    rfl
  obtain ⟨item, spaced, spells, -, hitem⟩ := (accepts fuel).item hvalue hbefore
  rcases hend with ⟨-, hread⟩ | ⟨hskip, hread⟩
  · cases h.symm.trans hread
  · obtain ⟨before', hbefore', hrest⟩ := exists_of_skipBlanks rest
    obtain ⟨members, key', before'', s', hjoined, hall, hkey', hbefore'', hs'⟩ :=
      ih.entries (eq_error_of_map (hread.symm.trans h)) before' hbefore'
    refine ⟨⟨key, item⟩ :: members, key', before'', s', ?_,
      List.forall_mem_cons.2 ⟨⟨⟨hkey, spaced⟩, spells⟩, hall⟩, hkey', hbefore'', hs'⟩
    rw [hs, hcolon, hitem, hskip, hrest, hjoined]
    simp [Member.withComma, Member.padded]

end Faults

theorem faults (fuel : Nat) : Faults fuel := by
  induction fuel with
  | zero =>
    refine ⟨fun h => ?_, fun h => ?_, fun h => ?_⟩
    · rw [readValue] at h
      cases h
    · rw [readItems] at h
      cases h
    · rw [readEntries] at h
      cases h
  | succ fuel ih =>
    exact ⟨ih.value_succ, fun h _ blank => ih.items_succ h blank,
      fun h _ blank => ih.entries_succ h blank⟩

/-! ## Whole texts -/

/-- In a text the reader comes to an integer that is too long. -/
def Unrepresentable (s : List Char) (cause : Fault) : Prop :=
  ∃ blanks back, Blank blanks ∧ s = blanks ++ back ∧ Chokes back cause

/-- Reading is a fault exactly if the reader comes to an integer that is too long. -/
theorem read_fault_iff : read s = .error (.fault cause) ↔ Unrepresentable s cause := by
  constructor
  · intro h
    obtain ⟨blanks, blank, hs⟩ := exists_of_skipBlanks s
    rcases cases_of_bind_error h with hvalue | ⟨⟨v, back⟩, -, hrest⟩
    · exact ⟨blanks, _, blank, hs, (faults _).value hvalue⟩
    · dsimp only at hrest
      split at hrest <;> cases hrest
  · rintro ⟨blanks, back, blank, rfl, t, due, overlong⟩
    -- What stands behind the value is never looked at.
    have hbegins := due.begins overlong.beginsWithDigit.begins
    have hlength : 2 * back.length ≤ 2 * (blanks ++ back).length + 1 := by
      rw [List.length_append]
      omega
    rw [read, skipBlanks_of_begins blank hbegins, due.readValue_eq overlong hlength]
    rfl

/-- All other texts that are no documents are malformed. -/
theorem read_malformed_iff :
    read s = .error .malformed ↔ (∀ v, ¬ Document s v) ∧ ∀ cause, ¬ Unrepresentable s cause := by
  constructor
  · intro h
    refine ⟨fun v hv => ?_, fun cause hcause => ?_⟩
    · rw [read_eq_ok_iff.2 hv] at h
      cases h
    · rw [read_fault_iff.2 hcause] at h
      cases h
  · rintro ⟨hdocument, hfault⟩
    cases h : read s with
    | ok v => exact absurd (read_eq_ok_iff.1 h) (hdocument v)
    | error why =>
      cases why with
      | malformed => rfl
      | fault cause => exact absurd (read_fault_iff.1 h) (hfault cause)

end ShortCircuit.Json

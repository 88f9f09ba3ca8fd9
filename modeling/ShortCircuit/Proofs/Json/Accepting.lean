/-
  ShortCircuit.Proofs.Json.Accepting

  Nothing is accepted as JSON but what the grammar allows.  A text is read if and
  only if it is a document, and then as the one value that the document stands
  for.
-/

import ShortCircuit.Proofs.Json.Reading

namespace ShortCircuit.Json

open Failing

variable {s rest back blanks text : List Char} {v : Value} {vs : List Value} {x : Scalar} {c : Char}
  {fuel : Nat} {entries : List (Scalar × Value)}

/-! ## One level of nesting -/

/-- The values that are accepted with some fuel are spelled by what is taken off the text. -/
structure Accepts (fuel : Nat) : Prop where
  value : ∀ {s v rest}, readValue fuel s = .ok (v, rest) → ∃ text, s = text ++ rest ∧ Spells text v
  items : ∀ {s vs rest}, readItems fuel s = .ok (vs, rest) → ∀ blanks, Blank blanks →
    ∃ items last, blanks ++ s = items.flatMap Item.withComma ++ (last.padded ++ ']' :: rest) ∧
      (∀ item ∈ items ++ [last], item.Spaced ∧ Spells item.text item.value) ∧
      vs = (items ++ [last]).map Item.value
  entries : ∀ {s entries rest}, readEntries fuel s = .ok (entries, rest) → ∀ blanks, Blank blanks →
    ∃ members last,
      blanks ++ s = members.flatMap Member.withComma ++ (last.padded ++ '\x7d' :: rest) ∧
      (∀ m ∈ members ++ [last], m.Spaced ∧ Spells m.item.text m.item.value) ∧
      entries = (members ++ [last]).map Member.entry

namespace Accepts

variable (ih : Accepts fuel)
include ih

theorem list (h : readValue (fuel + 1) ('[' :: s) = .ok (v, rest)) :
    ∃ text, '[' :: s = text ++ rest ∧ Spells text v := by
  obtain ⟨blanks, blank, hs⟩ := exists_of_skipBlanks s
  by_cases hclosed : ∃ back, skipBlanks s = ']' :: back
  · obtain ⟨back, hback⟩ := hclosed
    rw [readValue, hback] at h
    cases h
    rw [hback] at hs
    exact ⟨_, by rw [hs]; simp, .emptyList blank⟩
  · rw [readValue_list (not_exists.1 hclosed)] at h
    obtain ⟨⟨vs, rest'⟩, hitems, heq⟩ := exists_of_map_ok h
    cases heq
    obtain ⟨items, last, hjoined, hall, rfl⟩ := ih.items hitems blanks blank
    rw [← hs] at hjoined
    exact ⟨_, by rw [hjoined]; simp,
      .list (fun item hitem => (hall item hitem).1) fun item hitem => (hall item hitem).2⟩

theorem table (h : readValue (fuel + 1) ('\x7b' :: s) = .ok (v, rest)) :
    ∃ text, '\x7b' :: s = text ++ rest ∧ Spells text v := by
  obtain ⟨blanks, blank, hs⟩ := exists_of_skipBlanks s
  by_cases hclosed : ∃ back, skipBlanks s = '\x7d' :: back
  · obtain ⟨back, hback⟩ := hclosed
    rw [readValue, hback] at h
    cases h
    rw [hback] at hs
    exact ⟨_, by rw [hs]; simp, .emptyTable blank⟩
  · rw [readValue_table (not_exists.1 hclosed)] at h
    obtain ⟨⟨entries, rest'⟩, hentries, heq⟩ := exists_of_map_ok h
    cases heq
    obtain ⟨members, last, hjoined, hall, rfl⟩ := ih.entries hentries blanks blank
    rw [← hs] at hjoined
    exact ⟨_, by rw [hjoined]; simp,
      .table (fun m hm => (hall m hm).1) fun m hm => (hall m hm).2⟩

theorem value_succ (h : readValue (fuel + 1) s = .ok (v, rest)) :
    ∃ text, s = text ++ rest ∧ Spells text v := by
  rcases opening_cases s with ⟨back, rfl⟩ | ⟨back, rfl⟩ | ⟨back, rfl⟩ | hhead
  · rw [readValue] at h
    obtain ⟨⟨text, rest'⟩, htext, heq⟩ := exists_of_bind_eq_ok h
    cases heq
    obtain ⟨content, rfl, isContent⟩ := readText_eq_ok_iff.1 htext
    exact ⟨_, by simp, .text isContent⟩
  · exact ih.list h
  · exact ih.table h
  · rw [readValue_scalar hhead] at h
    obtain ⟨⟨x, rest'⟩, hscalar, heq⟩ := exists_of_map_ok h
    cases heq
    exact exists_of_readScalar hscalar

/-- With the blanks around it, a value that is accepted is an item. -/
theorem item (h : readValue fuel s = .ok (v, back)) (blank : Blank blanks) :
    ∃ item : Item, item.Spaced ∧ Spells item.text item.value ∧ item.value = v ∧
      blanks ++ s = item.padded ++ skipBlanks back := by
  obtain ⟨text, rfl, spells⟩ := ih.value h
  obtain ⟨after, hafter, hback⟩ := exists_of_skipBlanks back
  refine ⟨⟨blanks, text, after, v⟩, ⟨blank, hafter⟩, spells, rfl, ?_⟩
  rw [Item.padded, List.append_assoc, List.append_assoc, ← hback]

theorem items_succ (h : readItems (fuel + 1) s = .ok (vs, rest)) (blank : Blank blanks) :
    ∃ items last, blanks ++ s = items.flatMap Item.withComma ++ (last.padded ++ ']' :: rest) ∧
      (∀ item ∈ items ++ [last], item.Spaced ∧ Spells item.text item.value) ∧
      vs = (items ++ [last]).map Item.value := by
  have hne : readItems (fuel + 1) s ≠ .error .malformed := by simp [h]
  rcases readItems_cases hne with ⟨why, -, herror⟩ | ⟨v, back, rest', hvalue, hend⟩
  · rw [h] at herror
    cases herror
  obtain ⟨item, spaced, spells, rfl, hs⟩ := ih.item hvalue blank
  rw [hs]
  -- Either this is the last item, or there are more behind the comma.
  rcases hend with ⟨hskip, hread⟩ | ⟨hskip, hread⟩
  · cases h.symm.trans hread
    rw [hskip]
    exact ⟨[], item, rfl, List.forall_mem_singleton.2 ⟨spaced, spells⟩, rfl⟩
  · obtain ⟨⟨vs', rest''⟩, hitems, heq⟩ := exists_of_map_ok (hread.symm.trans h)
    cases heq
    obtain ⟨before, hbefore, hrest'⟩ := exists_of_skipBlanks rest'
    obtain ⟨items, last, hjoined, hall, rfl⟩ := ih.items hitems before hbefore
    rw [hskip, hrest', hjoined]
    refine ⟨item :: items, last, ?_, List.forall_mem_cons.2 ⟨⟨spaced, spells⟩, hall⟩, rfl⟩
    simp [Item.withComma]

theorem entries_succ (h : readEntries (fuel + 1) s = .ok (entries, rest)) (blank : Blank blanks) :
    ∃ members last,
      blanks ++ s = members.flatMap Member.withComma ++ (last.padded ++ '\x7d' :: rest) ∧
      (∀ m ∈ members ++ [last], m.Spaced ∧ Spells m.item.text m.item.value) ∧
      entries = (members ++ [last]).map Member.entry := by
  have hne : readEntries (fuel + 1) s ≠ .error .malformed := by simp [h]
  obtain ⟨key, hkey, colon, hs, hcases⟩ := readEntries_cases hne blank
  rcases hcases with ⟨why, -, herror⟩ | ⟨v, back, rest', hvalue, hend⟩
  · rw [h] at herror
    cases herror
  obtain ⟨before, hbefore, hcolon⟩ := exists_of_skipBlanks colon
  obtain ⟨item, spaced, spells, rfl, hitem⟩ := ih.item hvalue hbefore
  have hpadded : key.withColon ++ colon = (⟨key, item⟩ : Member).padded ++ skipBlanks back := by
    rw [hcolon, hitem, Member.padded, List.append_assoc]
  rw [hs, hpadded]
  rcases hend with ⟨hskip, hread⟩ | ⟨hskip, hread⟩
  · cases h.symm.trans hread
    rw [hskip]
    exact ⟨[], ⟨key, item⟩, rfl, List.forall_mem_singleton.2 ⟨⟨hkey, spaced⟩, spells⟩, rfl⟩
  · obtain ⟨⟨entries', rest''⟩, hentries, heq⟩ := exists_of_map_ok (hread.symm.trans h)
    cases heq
    obtain ⟨before', hbefore', hrest'⟩ := exists_of_skipBlanks rest'
    obtain ⟨members, last, hjoined, hall, rfl⟩ := ih.entries hentries before' hbefore'
    rw [hskip, hrest', hjoined]
    refine ⟨⟨key, item⟩ :: members, last, ?_,
      List.forall_mem_cons.2 ⟨⟨⟨hkey, spaced⟩, spells⟩, hall⟩, rfl⟩
    simp [Member.withComma]

end Accepts

theorem accepts (fuel : Nat) : Accepts fuel := by
  induction fuel with
  | zero =>
    refine ⟨fun h => ?_, fun h => ?_, fun h => ?_⟩
    · rw [readValue] at h
      cases h
    · rw [readItems] at h
      cases h
    · rw [readEntries] at h
      cases h
  | succ fuel ih =>
    exact ⟨ih.value_succ, fun h _ blank => ih.items_succ h blank,
      fun h _ blank => ih.entries_succ h blank⟩

/-! ## Whole texts -/

/-- A text is read exactly if it is a document, and gives the value of the document. -/
theorem read_eq_ok_iff : read s = .ok v ↔ Document s v := by
  constructor
  · intro h
    obtain ⟨⟨v', back⟩, hvalue, hrest⟩ := exists_of_bind_eq_ok h
    obtain ⟨text, htext, spells⟩ := (accepts _).value hvalue
    obtain ⟨before, hbefore, hs⟩ := exists_of_skipBlanks s
    obtain ⟨after, hafter, hback⟩ := exists_of_skipBlanks back
    dsimp only at hrest
    split at hrest
    · rename_i hempty
      cases hrest
      rw [List.isEmpty_iff.1 hempty, List.append_nil] at hback
      refine ⟨⟨before, text, after, v⟩, ⟨hbefore, hafter⟩, spells, ?_, rfl⟩
      rw [Item.padded, ← hback, ← htext, ← hs]
    · cases hrest
  · rintro ⟨item, spaced, spells, rfl, rfl⟩
    have hback : skipBlanks item.after = [] := by
      rw [← List.append_nil item.after]
      exact skipBlanks_append spaced.after (by simp)
    have hfront : skipBlanks item.padded = item.text ++ item.after :=
      skipBlanks_of_begins spaced.before (spells.begins _)
    have hends : Ends item.after := by
      rw [← List.append_nil item.after]
      exact Ends.append_left spaced.after (by simp [Ends])
    have hlength : 2 * item.text.length ≤ 2 * item.padded.length + 1 := by
      rw [Item.padded, List.length_append, List.length_append]
      omega
    rw [read, hfront, spells.reads _ _ hlength hends]
    show (if (skipBlanks item.after).isEmpty then _ else _) = _
    rw [hback]
    rfl

/-- A text stands for one value at most. -/
theorem Document.value_eq {w : Value} (h : Document s v) (h' : Document s w) : v = w :=
  Except.ok.inj ((read_eq_ok_iff.2 h).symm.trans (read_eq_ok_iff.2 h'))

end ShortCircuit.Json

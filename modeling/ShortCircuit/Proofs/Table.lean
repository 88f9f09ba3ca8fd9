/-
  ShortCircuit.Proofs.Table

  Tables as their readers see them.  To be the same key is an equivalence, and
  for integers and texts it is to be equal.  An entry that is written is the one
  that is read, and no other entry is touched; of entries that are written one
  after another, the last one of a key counts.
-/

import Mathlib.Data.List.Induction
import ShortCircuit.Value

namespace ShortCircuit

/-! ## Keys -/

namespace Scalar

variable {a b c : Scalar} {m n : Int} {s : Text}

theorem sameKey_iff :
    a.sameKey b = true ↔ a = b ∨ ∃ n, a.toInt? = some n ∧ b.toInt? = some n := by
  rw [sameKey, Bool.or_eq_true, beq_iff_eq]
  refine or_congr_right ?_
  split
  · rename_i m n hm hn
    rw [hm, hn, beq_iff_eq]
    constructor
    · rintro rfl
      exact ⟨m, rfl, rfl⟩
    · rintro ⟨k, hm, hn⟩
      exact (Option.some.inj hm).trans (Option.some.inj hn).symm
  · rename_i hnone
    refine iff_of_false Bool.false_ne_true ?_
    rintro ⟨n, ha, hb⟩
    exact hnone n n ha hb

theorem sameKey_self (a : Scalar) : a.sameKey a = true := sameKey_iff.2 (.inl rfl)

theorem sameKey_symm (h : a.sameKey b = true) : b.sameKey a = true := by
  rcases sameKey_iff.1 h with rfl | ⟨n, ha, hb⟩
  · exact h
  · exact sameKey_iff.2 (.inr ⟨n, hb, ha⟩)

theorem sameKey_trans (hab : a.sameKey b = true) (hbc : b.sameKey c = true) :
    a.sameKey c = true := by
  rcases sameKey_iff.1 hab with rfl | ⟨n, ha, hb⟩
  · exact hbc
  · rcases sameKey_iff.1 hbc with rfl | ⟨m, hb', hc⟩
    · exact hab
    · rw [hb] at hb'
      exact sameKey_iff.2 (.inr ⟨n, ha, hb' ▸ hc⟩)

theorem sameKey_int : (int m).sameKey (int n) = true ↔ m = n := by
  rw [sameKey_iff]
  simp [toInt?, eq_comm]

theorem sameKey_text : (text s).sameKey a = true ↔ a = text s := by
  rw [sameKey_iff]
  simp [toInt?, eq_comm]

end Scalar

/-! ## Entries -/

namespace Table

open Scalar

variable {α : Type} {table : Table α} {entries : List (Scalar × α)} {key k : Scalar} {value : α}

/-- The keys of a table, in its order. -/
def keys (table : Table α) : List Scalar := table.map (·.1)

theorem get?_eq_none_iff :
    table.get? key = none ↔ ∀ entry ∈ table, entry.1.sameKey key = false := by
  simp [get?]

/-- A key without an entry gets one at the end. -/
theorem put_of_none (h : table.get? key = none) (value : α) :
    table.put key value = table ++ [(key, value)] := by
  induction table with
  | nil => rfl
  | cons entry rest ih =>
    obtain ⟨hentry, hrest⟩ := List.forall_mem_cons.1 (get?_eq_none_iff.1 h)
    rw [put, if_neg (by simp [hentry]), ih (get?_eq_none_iff.2 hrest)]
    rfl

/-- To write what an entry holds already changes nothing. -/
theorem put_of_some (h : table.get? key = some value) : table.put key value = table := by
  induction table with
  | nil => cases h
  | cons entry rest ih =>
    obtain ⟨first, old⟩ := entry
    by_cases hfirst : first.sameKey key = true
    · have hold : old = value := by simpa [get?, hfirst] using h
      rw [put, if_pos hfirst, hold]
    · have hrest : get? rest key = some value := by simpa [get?, hfirst] using h
      rw [put, if_neg hfirst, ih hrest]

theorem get?_cons (entry : Scalar × α) (table : Table α) (k : Scalar) :
    get? (entry :: table) k = if entry.1.sameKey k = true then some entry.2 else table.get? k := by
  rw [get?, List.find?_cons]
  split
  · rename_i h
    rw [if_pos h]
    rfl
  · rename_i h
    rw [if_neg (by simp [h])]
    rfl

/-- The entry that is written is read, and all others as before. -/
theorem get?_put (table : Table α) (key k : Scalar) (value : α) :
    (table.put key value).get? k = if key.sameKey k = true then some value else table.get? k := by
  induction table with
  | nil => exact get?_cons ..
  | cons entry rest ih =>
    obtain ⟨first, old⟩ := entry
    rw [put, get?_cons]
    split
    · -- It is the entry that is written over, and its key stays.
      rename_i hfirst
      have hsame : first.sameKey k = true ↔ key.sameKey k = true :=
        ⟨sameKey_trans (sameKey_symm hfirst), sameKey_trans hfirst⟩
      rw [get?_cons]
      simp only [hsame]
      split <;> rfl
    · rename_i hfirst
      rw [get?_cons, ih]
      by_cases hk : first.sameKey k = true
      · have hkey : ¬key.sameKey k = true := fun h =>
          hfirst (sameKey_trans hk (sameKey_symm h))
        simp only [if_pos hk, if_neg hkey]
      · simp only [if_neg hk]

theorem putAll_concat (entries : List (Scalar × α)) (entry : Scalar × α) (table : Table α) :
    table.putAll (entries ++ [entry]) = (table.putAll entries).put entry.1 entry.2 :=
  List.foldl_append ..

/-- Of entries that are written one after another, the last of a key is read. -/
theorem get?_putAll (entries : List (Scalar × α)) (table : Table α) (k : Scalar) :
    (table.putAll entries).get? k = (get? entries.reverse k).or (table.get? k) := by
  induction entries using List.reverseRecOn with
  | nil => rfl
  | append_singleton entries entry ih =>
    have hfirst : (entries ++ [entry]).reverse = entry :: entries.reverse := List.reverse_append ..
    rw [putAll_concat, hfirst, get?_put, ih, get?_cons]
    split <;> rfl

theorem get?_ofList (entries : List (Scalar × α)) (k : Scalar) :
    (ofList entries).get? k = get? entries.reverse k := by
  rw [ofList, get?_putAll]
  exact Option.or_none

/-! ## Keys of a table -/

theorem keys_put_of_some {old : α} (h : table.get? key = some old) (value : α) :
    (table.put key value).keys = table.keys := by
  induction table with
  | nil => cases h
  | cons entry rest ih =>
    obtain ⟨first, old⟩ := entry
    rw [put]
    rw [get?_cons] at h
    split
    · rfl
    · rename_i hfirst
      rw [if_neg hfirst] at h
      exact congrArg (first :: ·) (ih h)

theorem keys_put_of_none (h : table.get? key = none) (value : α) :
    (table.put key value).keys = table.keys ++ [key] := by
  rw [put_of_none h, keys, List.map_append]
  rfl

/-- Keys that are texts are those that have an entry. -/
theorem mem_keys_iff (texts : ∀ entry ∈ table, ∃ s, entry.1 = .text s) :
    key ∈ table.keys ↔ (table.get? key).isNone = false := by
  rw [← Bool.not_eq_true, Option.isNone_iff_eq_none, get?_eq_none_iff]
  constructor
  · intro hkey hnone
    obtain ⟨entry, hentry, rfl⟩ := List.mem_map.1 hkey
    exact absurd (sameKey_self entry.1) (Bool.eq_false_iff.1 (hnone entry hentry))
  · intro hsome
    by_contra hkey
    refine hsome fun entry hentry => Bool.eq_false_iff.2 fun hsame => hkey ?_
    obtain ⟨s, hs⟩ := texts entry hentry
    rw [hs] at hsame
    rw [sameKey_text.1 hsame, ← hs]
    exact List.mem_map_of_mem hentry

/-! ## Entries of different keys -/

/-- Whether each key stands once. -/
def Distinct (entries : List (Scalar × α)) : Prop :=
  entries.Pairwise fun a b => a.1.sameKey b.1 = false

theorem distinct_iff :
    Distinct entries ↔ (keys entries).Pairwise fun a b => a.sameKey b = false := by
  rw [keys, List.pairwise_map, Distinct]

/-- To write an entry brings no key in twice. -/
theorem Distinct.put (h : Distinct table) (key : Scalar) (value : α) :
    Distinct (table.put key value) := by
  cases hold : table.get? key with
  | none =>
    rw [put_of_none hold]
    refine List.pairwise_append.2 ⟨h, List.pairwise_singleton .., fun entry hentry new hnew => ?_⟩
    rw [List.mem_singleton.1 hnew]
    exact get?_eq_none_iff.1 hold entry hentry
  | some old =>
    rw [distinct_iff, keys_put_of_some hold]
    exact distinct_iff.1 h

theorem Distinct.putAll (h : Distinct table) (entries : List (Scalar × α)) :
    Distinct (table.putAll entries) := by
  induction entries using List.reverseRecOn with
  | nil => exact h
  | append_singleton entries entry ih =>
    rw [putAll_concat]
    exact ih.put entry.1 entry.2

theorem distinct_ofList (entries : List (Scalar × α)) : Distinct (ofList entries) :=
  Distinct.putAll .nil entries

theorem Distinct.get?_eq_none {entry : Scalar × α} (h : Distinct (entries ++ [entry])) :
    get? entries entry.1 = none :=
  get?_eq_none_iff.2 fun other hother =>
    (List.pairwise_append.1 h).2.2 other hother entry (List.mem_singleton_self _)

/-- Among entries of different keys, the first of a key is also the last. -/
theorem Distinct.get?_reverse (h : Distinct entries) (k : Scalar) :
    get? entries.reverse k = get? entries k := by
  induction entries with
  | nil => rfl
  | cons entry entries ih =>
    obtain ⟨hentry, hentries⟩ := List.pairwise_cons.1 h
    have hsplit : get? (entries.reverse ++ [entry]) k =
        (get? entries.reverse k).or (get? [entry] k) := by
      simp [get?, List.find?_append, Option.map_or]
    rw [List.reverse_cons, hsplit, ih hentries, get?_cons, get?_cons]
    split
    · rename_i hk
      have hnone : get? entries k = none := get?_eq_none_iff.2 fun other hother => by
        rw [← Bool.not_eq_true]
        exact fun hother' => Bool.eq_false_iff.1 (hentry other hother)
          (sameKey_trans hk (sameKey_symm hother'))
      rw [hnone]
      rfl
    · exact Option.or_none

/-- Entries of different keys make up a table as they are. -/
theorem Distinct.ofList_eq (h : Distinct entries) : ofList entries = entries := by
  induction entries using List.reverseRecOn with
  | nil => rfl
  | append_singleton entries entry ih =>
    rw [ofList] at ih ⊢
    rw [putAll_concat, ih (List.pairwise_append.1 h).1, put_of_none h.get?_eq_none]

/-- Entries that are written put their keys behind those that are there, except those that are
    there already. -/
theorem Distinct.keys_putAll (h : Distinct entries) (table : Table α) :
    (table.putAll entries).keys =
      table.keys ++ (keys entries).filter fun k => (table.get? k).isNone := by
  induction entries using List.reverseRecOn with
  | nil => exact (List.append_nil _).symm
  | append_singleton entries entry ih =>
    have hentries : Distinct entries := (List.pairwise_append.1 h).1
    have hkeys : keys (entries ++ [entry]) = keys entries ++ [entry.1] := List.map_append ..
    have hget : (table.putAll entries).get? entry.1 = table.get? entry.1 := by
      rw [get?_putAll, hentries.get?_reverse, h.get?_eq_none]
      rfl
    rw [putAll_concat, hkeys, List.filter_append, ← List.append_assoc]
    -- None of the entries before it has this key, so the table decides whether it is new.
    cases hold : table.get? entry.1 with
    | none =>
      rw [keys_put_of_none (hget.trans hold), ih hentries]
      simp [hold]
    | some old =>
      rw [keys_put_of_some (hget.trans hold), ih hentries]
      simp [hold]

end Table

end ShortCircuit

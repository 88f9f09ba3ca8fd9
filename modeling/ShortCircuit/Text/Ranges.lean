/-
  ShortCircuit.Text.Ranges

  Sets of characters as ascending lists of ranges of code points.
-/

namespace ShortCircuit.Text

/-- Whether a code point lies in one of the ranges, which are inclusive and ascending. -/
def inRanges : List (Nat × Nat) → Nat → Bool
  | [], _ => false
  | (first, last) :: rest, c => decide (first ≤ c) && (decide (c ≤ last) || inRanges rest c)

/-- Each range holds something, and lies above the ones before it. -/
def Ascending (ranges : List (Nat × Nat)) : Prop :=
  (∀ r ∈ ranges, r.1 ≤ r.2) ∧ ranges.Pairwise fun a b => a.2 < b.1

theorem inRanges_iff {ranges : List (Nat × Nat)} (h : Ascending ranges) {c : Nat} :
    inRanges ranges c = true ↔ ∃ r ∈ ranges, r.1 ≤ c ∧ c ≤ r.2 := by
  induction ranges with
  | nil => simp [inRanges]
  | cons r rest ih =>
    obtain ⟨hne, hp⟩ := h
    have hrest : Ascending rest :=
      ⟨fun s hs => hne s (List.mem_cons_of_mem _ hs), (List.pairwise_cons.1 hp).2⟩
    simp only [inRanges, Bool.and_eq_true, Bool.or_eq_true, decide_eq_true_eq, ih hrest,
      List.mem_cons, exists_eq_or_imp]
    refine ⟨?_, ?_⟩
    · rintro ⟨h1, h2 | ⟨s, hs, h3⟩⟩
      · exact .inl ⟨h1, h2⟩
      · exact .inr ⟨s, hs, h3⟩
    · rintro (⟨h1, h2⟩ | ⟨s, hs, h3, h4⟩)
      · exact ⟨h1, .inl h2⟩
      · have h5 := (List.pairwise_cons.1 hp).1 s hs
        have h6 := hne r (List.mem_cons_self ..)
        exact ⟨by omega, .inr ⟨s, hs, h3, h4⟩⟩

end ShortCircuit.Text

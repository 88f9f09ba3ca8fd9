/-
  ShortCircuit.Proofs.Text.Printable

  Texts that can be shown as they are, on one line.  What is written with visible
  characters of ASCII can, digits among them, and so can any text once it stands
  in quotes.
-/

import ShortCircuit.Decimal.Numeral
import ShortCircuit.Decimal.Shortest
import ShortCircuit.Proofs.Text.Characters
import ShortCircuit.Proofs.Text.Hex
import ShortCircuit.Text.Quoted

namespace ShortCircuit

namespace Text

variable {s t : List Char} {c quote : Char} {b n : Nat}

/-- Every character of the text can be shown as it is. -/
def Shown (s : List Char) : Prop := ∀ c ∈ s, isPrintable c = true

instance (s : List Char) : Decidable (Shown s) :=
  inferInstanceAs (Decidable (∀ c ∈ s, isPrintable c = true))

theorem shown_nil : Shown [] := List.forall_mem_nil _

@[simp] theorem shown_cons : Shown (c :: s) ↔ isPrintable c = true ∧ Shown s := List.forall_mem_cons

@[simp] theorem shown_append : Shown (s ++ t) ↔ Shown s ∧ Shown t := List.forall_mem_append

theorem Shown.subset (h : Shown t) (hst : s ⊆ t) : Shown s := fun c hc => h c (hst hc)

theorem Shown.replicate (h : isPrintable c = true) (n : Nat) : Shown (List.replicate n c) := by
  intro d hd
  rw [(List.mem_replicate.1 hd).2]
  exact h

/-- A line break cannot be shown. -/
theorem Shown.notMem_newline (h : Shown s) : '\n' ∉ s := by
  intro hmem
  exact absurd (h _ hmem) (by decide)

theorem shown_intercalate {separator : List Char} (hseparator : Shown separator)
    {parts : List (List Char)} (h : ∀ part ∈ parts, Shown part) :
    Shown (separator.intercalate parts) := by
  induction parts with
  | nil => exact shown_nil
  | cons part rest ih =>
    obtain ⟨hpart, hrest⟩ := List.forall_mem_cons.1 h
    by_cases hnil : rest = []
    · rwa [hnil, List.intercalate_singleton]
    · rw [List.intercalate_cons_of_ne_nil hnil, shown_append, shown_append]
      exact ⟨⟨hpart, hseparator⟩, ih hrest⟩

/-! ## Digits -/

theorem shown_toDigits (hb : 1 < b) (hbase : b ≤ 16) (n : Nat) : Shown (Nat.toDigits b n) := by
  intro c hc
  obtain ⟨d, hd, rfl⟩ := exists_of_mem_toDigits hb hc
  have hall : ∀ d < 16, isPrintable (Nat.digitChar d) = true := by decide
  exact hall d (by omega)

theorem shown_hexText (width n : Nat) : Shown (hexText width n) :=
  shown_append.2 ⟨.replicate (by decide) _, shown_toDigits (by decide) (by decide) n⟩

/-! ## Quotes -/

theorem shown_quotedChar (hquote : isPrintable quote = true) (c : Char) :
    Shown (quotedChar quote c) := by
  have hbackslash : isPrintable '\\' = true := by decide
  have hescape {mark : Char} (hmark : isPrintable mark = true) {s : List Char} (hs : Shown s) :
      Shown ('\\' :: mark :: s) :=
    shown_cons.2 ⟨hbackslash, shown_cons.2 ⟨hmark, hs⟩⟩
  unfold quotedChar
  split
  · rename_i h
    rcases Bool.or_eq_true_iff.1 h with h | h
    · rw [of_decide_eq_true h]
      exact hescape hquote shown_nil
    · rw [of_decide_eq_true h]
      exact hescape hbackslash shown_nil
  split
  · exact hescape (by decide) shown_nil
  split
  · exact hescape (by decide) shown_nil
  split
  · exact hescape (by decide) shown_nil
  split
  · rename_i h
    exact shown_cons.2 ⟨h, shown_nil⟩
  split
  · exact hescape (by decide) (shown_hexText _ _)
  split
  · exact hescape (by decide) (shown_hexText _ _)
  · exact hescape (by decide) (shown_hexText _ _)

theorem shown_quotedPoint (hquote : isPrintable quote = true) (p : CodePoint) :
    Shown (quotedPoint quote p) := by
  cases p with
  | char c => exact shown_quotedChar hquote c
  | half unit =>
    exact shown_cons.2 ⟨by decide, shown_cons.2 ⟨by decide, shown_hexText 4 unit⟩⟩

/-- A text in quotes can be shown, whatever is in it. -/
theorem shown_quoted (s : Text) : Shown (quoted s) := by
  have hquote : isPrintable (quoteFor s) = true := by
    unfold quoteFor
    split <;> decide
  rw [quoted]
  refine shown_append.2 ⟨shown_cons.2 ⟨hquote, fun c hc => ?_⟩, shown_cons.2 ⟨hquote, shown_nil⟩⟩
  obtain ⟨d, -, hc⟩ := List.mem_flatMap.1 hc
  exact shown_quotedPoint hquote d c hc

end Text

/-! ## Numbers -/

open Text Decimal

theorem Decimal.shown_intText (n : Int) : Shown (intText n) := by
  have hdigits : Shown (natText n.natAbs) := shown_toDigits (by decide) (by decide) _
  unfold intText
  split
  · exact shown_cons.2 ⟨by decide, hdigits⟩
  · exact hdigits

namespace Binary64

variable {digits : List Char}

theorem shown_exponentText (e : Int) : Shown (exponentText e) := by
  have hdigits := shown_toDigits (by decide) (by decide : 10 ≤ 16) e.natAbs
  refine shown_cons.2 ⟨by split <;> decide, ?_⟩
  split
  · exact shown_cons.2 ⟨by decide, hdigits⟩
  · exact hdigits

/-- Digits are laid out with nothing but more of them, a point, and an exponent. -/
theorem shown_layOut (hdigits : Shown digits) (e : Int) : Shown (layOut digits e) := by
  have hzeros (n : Nat) : Shown (List.replicate n '0') := .replicate (by decide) n
  have htake (n : Nat) : Shown (digits.take n) := hdigits.subset (List.take_subset ..)
  have hdrop (n : Nat) : Shown (digits.drop n) := hdigits.subset (List.drop_subset ..)
  unfold layOut
  split
  · exact shown_append.2 ⟨shown_append.2 ⟨by decide, hzeros _⟩, hdigits⟩
  split
  · refine shown_append.2 ⟨shown_append.2 ⟨htake _, hzeros _⟩, shown_cons.2 ⟨by decide, ?_⟩⟩
    split
    · decide
    · exact hdrop _
  · refine shown_append.2 ⟨shown_append.2 ⟨htake _, ?_⟩, shown_cons.2 ⟨by decide, ?_⟩⟩
    · split
      · exact shown_nil
      · exact shown_cons.2 ⟨by decide, hdrop _⟩
    · exact shown_exponentText e

theorem shown_text (x : Binary64) : Shown x.text := by
  have hmagnitude : Shown x.magnitudeText := by
    unfold magnitudeText
    split
    · decide
    · have hdigits := shown_toDigits (by decide) (by decide : 10 ≤ 16) x.shortest.digits
      refine shown_layOut (hdigits.subset fun c hc => ?_) _
      rw [dropTrailingZeros, List.mem_reverse] at hc
      exact List.mem_reverse.1 ((List.dropWhile_suffix _).subset hc)
  unfold text
  split
  · decide
  · refine shown_append.2 ⟨?_, ?_⟩
    · split <;> decide
    · split
      · exact hmagnitude
      · decide

end Binary64

end ShortCircuit

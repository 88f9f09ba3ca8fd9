/-
  ShortCircuit.Text.CodePoint

  Texts as lists of code points.  Besides characters a text can have halves of
  pairs of 16-bit units in it: an escape may name one on its own, and on its own
  it is no character.
-/

namespace ShortCircuit

/-- A code point: a character, or a unit that is half of a pair and stands alone. -/
inductive CodePoint where
  | char (c : Char)
  | half (unit : Nat) (isHalf : 0xD800 ≤ unit ∧ unit ≤ 0xDFFF)
  deriving DecidableEq

namespace CodePoint

instance : Coe Char CodePoint := ⟨char⟩

/-- The number of a code point. -/
def value : CodePoint → Nat
  | char c => c.toNat
  | half unit _ => unit

/-- The character that a code point is, if it is one. -/
def char? : CodePoint → Option Char
  | char c => some c
  | half .. => none

end CodePoint

/-- A text, code point by code point. -/
abbrev Text : Type := List CodePoint

namespace Text

variable {s t : List Char} {c : Char}

/-- The text of some characters. -/
def ofChars (s : List Char) : Text := s.map .char

/-- The text of a string. -/
def ofString (s : String) : Text := ofChars s.toList

instance : Coe String Text := ⟨ofString⟩

/-- Whether a text may stand in front of another one: the first code points that differ decide, and
    a text goes before one that it begins. -/
def mayPrecede : Text → Text → Bool
  | [], _ => true
  | _ :: _, [] => false
  | a :: s, b :: t => if a = b then mayPrecede s t else decide (a.value < b.value)

/-- The string that a text is, if all its code points are characters. -/
def toString? (s : Text) : Option String := (s.mapM CodePoint.char?).map String.ofList

@[simp] theorem ofChars_nil : ofChars [] = [] := rfl

@[simp] theorem ofChars_cons (c : Char) (s : List Char) : ofChars (c :: s) = .char c :: ofChars s :=
  rfl

@[simp] theorem char_mem_ofChars : .char c ∈ ofChars s ↔ c ∈ s := by
  simp [ofChars]

/-- Characters are told apart in texts. -/
@[simp] theorem ofChars_inj : ofChars s = ofChars t ↔ s = t :=
  List.map_inj_right fun _ _ => CodePoint.char.inj

@[simp] theorem ofString_inj {s t : String} : ofString s = ofString t ↔ s = t := by
  rw [ofString, ofString, ofChars_inj, String.toList_inj]

@[simp] theorem ofString_ofList (s : List Char) : ofString (String.ofList s) = ofChars s := by
  rw [ofString, String.toList_ofList]

end Text

end ShortCircuit

/-
  ShortCircuit.Proofs.Decimal.Numeral

  Integers as they are written: the digits, behind a minus sign where it is
  negative.  Two integers are never written alike.
-/

import Mathlib.Logic.Function.Defs
import ShortCircuit.Decimal.Numeral

namespace ShortCircuit.Decimal

variable {m n : Int} {s : List Char} {c : Char}

/-- Whether an integer has few enough digits to be written. -/
def Writable (n : Int) : Prop := (natText n.natAbs).length ≤ Fault.digitLimit

instance (n : Int) : Decidable (Writable n) :=
  inferInstanceAs (Decidable ((natText n.natAbs).length ≤ Fault.digitLimit))

theorem writeInt_eq_ok_iff : writeInt n = .ok s ↔ Writable n ∧ intText n = s := by
  rw [writeInt]
  split
  · rename_i h
    exact ⟨fun heq => ⟨h, Except.ok.inj heq⟩, fun heq => congrArg _ heq.2⟩
  · rename_i h
    exact iff_of_false (by simp) fun heq => h heq.1

/-- The digits of a number are read as the number. -/
theorem natText_injective : Function.Injective natText := by
  intro m n h
  rw [← natOfDigits_natText m, h, natOfDigits_natText]

theorem isDigit_of_mem_natText {n : Nat} (h : c ∈ natText n) : c.isDigit = true :=
  Nat.isDigit_of_mem_toDigits (by decide) (by decide) h

theorem isDigit_of_mem_intText (h : c ∈ intText n) : c = '-' ∨ c.isDigit = true := by
  unfold intText at h
  split at h
  · rcases List.mem_cons.1 h with rfl | h
    · exact .inl rfl
    · exact .inr (isDigit_of_mem_natText h)
  · exact .inr (isDigit_of_mem_natText h)

theorem minus_notMem_natText (n : Nat) : '-' ∉ natText n := fun h =>
  absurd (isDigit_of_mem_natText h) (by decide)

theorem intText_injective : Function.Injective intText := by
  intro m n h
  unfold intText at h
  split at h
  · split at h
    · have habs := natText_injective (List.cons.inj h).2
      omega
    · exact absurd (h ▸ List.mem_cons_self ..) (minus_notMem_natText _)
  · split at h
    · exact absurd (h ▸ List.mem_cons_self ..) (minus_notMem_natText _)
    · have habs := natText_injective h
      omega

end ShortCircuit.Decimal

/-
  ShortCircuit.Proofs.Text.Hex

  Hexadecimal digits as they are written.  They are read as the number that they
  were written for, and a number that fits the width takes no more than that.
-/

import Mathlib.Algebra.Group.Nat.Defs
import ShortCircuit.Text.Hex

namespace ShortCircuit.Text

variable {width n d : Nat} {c : Char}

/-- A number is written in the digits of its base. -/
theorem exists_of_mem_toDigits {b : Nat} (hb : 1 < b) (h : c ∈ Nat.toDigits b n) :
    ∃ d < b, c = Nat.digitChar d := by
  induction n using Nat.strongRecOn with
  | _ n ih =>
    rcases Nat.lt_or_ge n b with hlt | hle
    · rw [Nat.toDigits_of_lt_base hlt, List.mem_singleton] at h
      exact ⟨n, hlt, h⟩
    · rw [Nat.toDigits_of_base_le hb hle, List.mem_append, List.mem_singleton] at h
      rcases h with h | h
      · exact ih (n / b) (Nat.div_lt_self (by omega) hb) h
      · exact ⟨n % b, Nat.mod_lt _ (by omega), h⟩

/-- A hexadecimal digit is written as itself. -/
theorem hexValue?_digitChar (h : d < 16) : hexValue? (Nat.digitChar d) = some d := by
  have hall : ∀ d < 16, hexValue? (Nat.digitChar d) = some d := by decide
  exact hall d h

theorem readHex?_toDigits (n : Nat) : readHex? (Nat.toDigits 16 n) = some n := by
  induction n using Nat.strongRecOn with
  | _ n ih =>
    rcases Nat.lt_or_ge n 16 with hlt | hle
    · rw [Nat.toDigits_of_lt_base hlt]
      simp [readHex?, hexValue?_digitChar hlt]
    · have hfront := ih (n / 16) (Nat.div_lt_self (by omega) (by decide))
      have hlast := hexValue?_digitChar (Nat.mod_lt n (by decide : 0 < 16))
      rw [readHex?] at hfront
      rw [Nat.toDigits_of_base_le (by decide) hle, readHex?, List.foldlM_append, hfront]
      simp [hlast, Nat.div_add_mod]

/-- What is written is read as the number, zeros in front or not. -/
theorem readHex?_hexText (width n : Nat) : readHex? (hexText width n) = some n := by
  have hzeros (k : Nat) : (List.replicate k '0').foldlM
      (fun n c => (hexValue? c).map (16 * n + ·)) 0 = some 0 := by
    have hzero : hexValue? '0' = some 0 := by decide
    induction k with
    | zero => rfl
    | succ k ih => simp [List.replicate_succ, hzero, ih]
  have hdigits := readHex?_toDigits n
  rw [readHex?] at hdigits
  rw [hexText, readHex?, List.foldlM_append, hzeros]
  exact hdigits

theorem length_hexText (hwidth : 0 < width) (h : n < 16 ^ width) :
    (hexText width n).length = width := by
  have hle := (Nat.length_toDigits_le_iff (by decide) hwidth).2 h
  rw [hexText, List.length_append, List.length_replicate]
  omega

end ShortCircuit.Text

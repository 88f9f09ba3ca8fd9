/-
  ShortCircuit.Purity

  Whether evaluating an expression is free of side effects and cannot fail.
  The verdict on a whole is computed from the verdicts on its parts by
  `allOf`; an expression may be dropped only when it is known to be pure.
-/

namespace ShortCircuit

/-- The verdict of the purity analysis. -/
inductive Purity where
  | pure
  | impure
  | unknown
  deriving DecidableEq

namespace Purity

/-- One impure part makes the whole impure; a pure whole needs every part pure. -/
def allOf (parts : List Purity) : Purity :=
  if parts.any (· == .impure) then .impure
  else if parts.all (· == .pure) then .pure
  else .unknown

/-- Dropping an expression leaves the program unchanged when the expression is pure. -/
def mayDiscard (p : Purity) : Bool := p == .pure

/-! ## Names -/

def name : Purity → String
  | .pure => "pure"
  | .impure => "impure"
  | .unknown => "unknown"

def ofName? : String → Option Purity
  | "pure" => some .pure
  | "impure" => some .impure
  | "unknown" => some .unknown
  | _ => none

/-! ## Verdicts on a whole -/

theorem allOf_eq_impure_iff {parts : List Purity} :
    allOf parts = .impure ↔ .impure ∈ parts := by
  unfold allOf
  split <;> rename_i h
  · simpa using h
  · simp only [List.any_eq_true, not_exists, not_and, beq_iff_eq] at h
    refine ⟨?_, ?_⟩
    · intro h'; split at h' <;> cases h'
    · intro h'; exact absurd rfl (h _ h')

theorem allOf_eq_pure_iff {parts : List Purity} :
    allOf parts = .pure ↔ ∀ p ∈ parts, p = .pure := by
  unfold allOf
  split <;> rename_i h
  · obtain ⟨p, hp, hi⟩ := List.any_eq_true.1 h
    simp only [reduceCtorEq, false_iff]
    intro h'
    rw [h' p hp] at hi
    exact absurd hi (by decide)
  · split <;> rename_i h'
    · simpa using h'
    · simpa using h'

end Purity

end ShortCircuit

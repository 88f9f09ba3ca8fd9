/-
  ShortCircuit.Truth

  What is statically known about the value of a boolean expression: true,
  false, or nothing.  The connectives read their operands from left to right,
  as the operators they stand for do: `andThen` and `orElse` consult the right
  operand only where the left one does not already settle the result.
-/

namespace ShortCircuit

/-- The statically known value of a boolean expression. -/
inductive Truth where
  | yes
  | no
  | unknown
  deriving DecidableEq

namespace Truth

def ofBool : Bool → Truth
  | true => yes
  | false => no

/-- The boolean behind a known value. -/
def toBool? : Truth → Option Bool
  | yes => some true
  | no => some false
  | unknown => none

def isKnown (t : Truth) : Bool := t.toBool?.isSome

/-! ## Connectives -/

/-- Negation; what is unknown stays unknown. -/
def negate : Truth → Truth
  | yes => no
  | no => yes
  | unknown => unknown

/-- Exclusive or, known only where both operands are. -/
def exclusiveOr (a b : Truth) : Truth :=
  match a.toBool?, b.toBool? with
  | some x, some y => ofBool (x != y)
  | _, _ => unknown

/-- Short-circuit conjunction: only a true left operand hands over to the right one. -/
def andThen : Truth → Truth → Truth
  | yes, b => b
  | a, _ => a

/-- Short-circuit disjunction: only a false left operand hands over to the right one. -/
def orElse : Truth → Truth → Truth
  | no, b => b
  | a, _ => a

/-! ## Names -/

def name : Truth → String
  | yes => "true"
  | no => "false"
  | unknown => "unknown"

def ofName? : String → Option Truth
  | "true" => some yes
  | "false" => some no
  | "unknown" => some unknown
  | _ => none

/-! ## Known values -/

@[simp] theorem toBool?_ofBool (b : Bool) : (ofBool b).toBool? = some b := by
  cases b <;> rfl

@[simp] theorem isKnown_ofBool (b : Bool) : (ofBool b).isKnown = true := by
  cases b <;> rfl

theorem isKnown_iff {t : Truth} : t.isKnown = true ↔ ∃ b, t = ofBool b := by
  refine ⟨?_, ?_⟩
  · intro h
    cases t with
    | yes => exact ⟨true, rfl⟩
    | no => exact ⟨false, rfl⟩
    | unknown => cases h
  · rintro ⟨b, rfl⟩
    exact isKnown_ofBool b

@[simp] theorem andThen_ofBool (a b : Bool) :
    andThen (ofBool a) (ofBool b) = ofBool (a && b) := by
  cases a <;> rfl

@[simp] theorem orElse_ofBool (a b : Bool) :
    orElse (ofBool a) (ofBool b) = ofBool (a || b) := by
  cases a <;> rfl

@[simp] theorem exclusiveOr_ofBool (a b : Bool) :
    exclusiveOr (ofBool a) (ofBool b) = ofBool (a != b) := by
  cases a <;> cases b <;> rfl

@[simp] theorem negate_ofBool (b : Bool) : negate (ofBool b) = ofBool !b := by
  cases b <;> rfl

end Truth

end ShortCircuit

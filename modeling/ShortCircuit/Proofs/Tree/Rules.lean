/-
  ShortCircuit.Proofs.Tree.Rules

  The four rules behind simplification.  The question whether an expression
  should be simplified and the question what it reduces to are answered by
  separate case analyses; both come down to the same rules.  What an expression
  reduces to is said in full as well, with the reasons why it reduces to nothing.
-/

import ShortCircuit.Proofs.Tree.Analyses
import ShortCircuit.Tree.Reduction

namespace ShortCircuit

theorem BinaryOperator.neutral?_eq_some {op : BinaryOperator} {e : Truth}
    (h : op.neutral? = some e) : op = .logicalAnd ∧ e = .yes ∨ op = .logicalOr ∧ e = .no := by
  cases op <;> cases h
  · exact .inl ⟨rfl, rfl⟩
  · exact .inr ⟨rfl, rfl⟩

namespace Tree

variable {t l r : Tree} {e : Truth} {reduction : Reduction} {b : Bool} {s : Int}

/-! ## Short-circuit operators -/

theorem exists_operator_of_neutral (h : t.neutral? = some e) :
    ∃ op, t.kind = .binary op ∧ op.neutral? = some e := by
  unfold neutral? at h
  split at h
  · rename_i op hkind
    exact ⟨op, hkind, h⟩
  · cases h

theorem neutral?_eq_some (h : t.neutral? = some e) :
    t.kind = .binary .logicalAnd ∧ e = .yes ∨ t.kind = .binary .logicalOr ∧ e = .no := by
  obtain ⟨op, hkind, hop⟩ := exists_operator_of_neutral h
  rcases BinaryOperator.neutral?_eq_some hop with ⟨rfl, rfl⟩ | ⟨rfl, rfl⟩
  · exact .inl ⟨hkind, rfl⟩
  · exact .inr ⟨hkind, rfl⟩

/-- A short-circuit operator passes its right operand on if the left one is neutral; else the
    left one is all there is to know. -/
theorem truth_of_neutral (h : t.neutral? = some e) :
    t.truth = if t.truthAt 0 = e then t.truthAt 1 else t.truthAt 0 := by
  rw [truth_eq]
  rcases neutral?_eq_some h with ⟨hkind, rfl⟩ | ⟨hkind, rfl⟩
  · rw [hkind]
    show Truth.andThen (t.truthAt 0) (t.truthAt 1) = _
    cases t.truthAt 0 <;> rfl
  · rw [hkind]
    show Truth.orElse (t.truthAt 0) (t.truthAt 1) = _
    cases t.truthAt 0 <;> rfl

/-- The neutral value of an operator is a value. -/
theorem isKnown_neutral (h : t.neutral? = some e) : e.isKnown = true := by
  rcases neutral?_eq_some h with ⟨-, rfl⟩ | ⟨-, rfl⟩ <;> rfl

theorem neutral_ne_unknown (h : t.neutral? = some e) : e ≠ .unknown := by
  rintro rfl
  exact absurd (isKnown_neutral h) (by decide)

/-- There is only one value besides the neutral one. -/
theorem eq_of_ne_neutral {a b : Bool} (h : t.neutral? = some e) (ha : Truth.ofBool a ≠ e)
    (hb : Truth.ofBool b ≠ e) : a = b := by
  obtain ⟨c, rfl⟩ := Truth.isKnown_iff.1 (isKnown_neutral h)
  have hac : a ≠ c := fun heq => ha (by rw [heq])
  have hbc : b ≠ c := fun heq => hb (by rw [heq])
  rw [Bool.eq_not.2 hac, Bool.eq_not.2 hbc]

theorem isLiteral_of_neutral (h : t.neutral? = some e) : t.kind.isLiteral = false := by
  rcases neutral?_eq_some h with ⟨hkind, -⟩ | ⟨hkind, -⟩ <;> rw [hkind] <;> rfl

/-- Of anything but a literal nothing is known unless something is known of its left operand. -/
theorem truth_of_left_unknown (hlit : t.kind.isLiteral = false) (h : t.truthAt 0 = .unknown) :
    t.truth = .unknown := by
  rw [truth_eq, h]
  split
  · rename_i b hkind
    rw [hkind] at hlit
    cases hlit
  · rfl
  · rfl
  · rfl
  · split <;> rfl
  · rfl
  · rfl

theorem exists_left_of_known (hlit : t.kind.isLiteral = false) (h : t.truth = .ofBool b) :
    ∃ l, t.child? 0 = some l := by
  cases hl : t.child? 0 with
  | some l => exact ⟨l, rfl⟩
  | none =>
    have hat : t.truthAt 0 = .unknown := by
      rw [truthAt, hl]
      rfl
    rw [truth_of_left_unknown hlit hat] at h
    exact absurd h.symm (Truth.ofBool_ne_unknown b)

/-! ## The rules -/

/-- The rules by which an expression is simplified. -/
inductive Rule (t : Tree) : Reduction → Prop
  /-- The value is known: it stands for the expression. -/
  | constant {b : Bool} (notLiteral : t.kind.isLiteral = false) (value : t.truth = .ofBool b) :
    Rule t (.constant b)
  /-- The left operand is neutral: the right one is left. -/
  | right {e : Truth} {l r : Tree} (neutral : t.neutral? = some e) (left : t.child? 0 = some l)
    (right : t.child? 1 = some r) (value : l.truth = e) (other : r.truth = .unknown) :
    Rule t (.operand r.id)
  /-- The right operand is neutral: the left one is left. -/
  | left {e : Truth} {l r : Tree} (neutral : t.neutral? = some e) (left : t.child? 0 = some l)
    (right : t.child? 1 = some r) (other : l.truth = .unknown) (value : r.truth = e) :
    Rule t (.operand l.id)
  /-- The right operand decides, and evaluating the two has no effects. -/
  | decided {e : Truth} {l r : Tree} {b : Bool} (neutral : t.neutral? = some e)
    (left : t.child? 0 = some l) (right : t.child? 1 = some r) (other : l.truth = .unknown)
    (value : r.truth = .ofBool b) (decides : Truth.ofBool b ≠ e)
    (leftPure : l.purity = .pure) (rightPure : r.purity = .pure) : Rule t (.constant b)

/-- A rule can be applied exactly where there is something to simplify. -/
theorem isSimplifiable_iff : t.isSimplifiable = true ↔ ∃ reduction, t.Rule reduction := by
  unfold isSimplifiable
  rw [Bool.or_eq_true, Bool.and_eq_true, Bool.not_eq_true']
  refine ⟨?_, ?_⟩
  · intro h
    by_cases hconst : t.kind.isLiteral = false ∧ t.truth.isKnown = true
    · obtain ⟨b, hb⟩ := Truth.isKnown_iff.1 hconst.2
      exact ⟨_, .constant hconst.1 hb⟩
    · -- Nothing is known of the whole: it is a short-circuit operator that should be joined.
      have hjoin := h.resolve_left hconst
      split at hjoin
      · rename_i e l r hneutral hleft hright
        have hunknown : t.truth = .unknown := by
          have hnot : ¬t.truth.isKnown = true :=
            fun hknown => hconst ⟨isLiteral_of_neutral hneutral, hknown⟩
          exact Truth.isKnown_eq_false_iff.1 (by simpa using hnot)
        rw [truth_of_neutral hneutral, truthAt_of_child hleft, truthAt_of_child hright] at hunknown
        -- If the left operand is unknown, the right one is neutral, or it decides without effects.
        by_cases hl : l.truth = .unknown
        · rw [shouldJoin, hl] at hjoin
          by_cases hr : r.truth = e
          · exact ⟨_, .left hneutral hleft hright hl hr⟩
          · have hall : (l.purity = .pure ∧ r.purity = .pure) ∧ r.truth.isKnown = true := by
              simpa [hr, Purity.mayDiscard] using hjoin
            obtain ⟨b, hb⟩ := Truth.isKnown_iff.1 hall.2
            exact ⟨_, .decided hneutral hleft hright hl hb (hb ▸ hr) hall.1.1 hall.1.2⟩
        · -- A left operand that is known is neutral, or something would be known of the whole.
          by_cases hle : l.truth = e
          · rw [if_pos hle] at hunknown
            exact ⟨_, .right hneutral hleft hright hle hunknown⟩
          · rw [if_neg hle] at hunknown
            exact absurd hunknown hl
      · cases hjoin
  · rintro ⟨reduction, rule⟩
    cases rule with
    | constant notLiteral value => exact .inl ⟨notLiteral, Truth.isKnown_iff.2 ⟨_, value⟩⟩
    | right neutral left right value other =>
      refine .inr ?_
      simp [neutral, left, right, shouldJoin, value, isKnown_neutral neutral]
    | left neutral left right other value =>
      refine .inr ?_
      simp [neutral, left, right, shouldJoin, value]
    | decided neutral left right other value decides leftPure rightPure =>
      refine .inr ?_
      simp [neutral, left, right, shouldJoin, value, leftPure, rightPure, Purity.mayDiscard]

/-! ## Reductions -/

/-- When an expression reduces, and to what, and when it does not, and why.  Side effects do not
    count here. -/
inductive Reduces (t : Tree) : Except Refusal Reduction → Prop
  | constant {b : Bool} (value : t.truth = .ofBool b) : Reduces t (.ok (.constant b))
  | right {e : Truth} {l r : Tree} (neutral : t.neutral? = some e) (left : t.child? 0 = some l)
    (right : t.child? 1 = some r) (value : l.truth = e) (other : r.truth = .unknown) :
    Reduces t (.ok (.operand r.id))
  | left {e : Truth} {l r : Tree} (neutral : t.neutral? = some e) (left : t.child? 0 = some l)
    (right : t.child? 1 = some r) (other : l.truth = .unknown) (value : r.truth = e) :
    Reduces t (.ok (.operand l.id))
  | decided {e : Truth} {l r : Tree} {b : Bool} (neutral : t.neutral? = some e)
    (left : t.child? 0 = some l) (right : t.child? 1 = some r) (other : l.truth = .unknown)
    (value : r.truth = .ofBool b) (decides : Truth.ofBool b ≠ e) : Reduces t (.ok (.constant b))
  | unknownValue (unknown : t.truth = .unknown) (neutral : t.neutral? = none) :
    Reduces t (.error .unknownValue)
  | missingOperand {e : Truth} (unknown : t.truth = .unknown) (neutral : t.neutral? = some e)
    (missing : t.child? 0 = none ∨ t.child? 1 = none) : Reduces t (.error .missingOperand)
  | neitherKnown {e : Truth} {l r : Tree} (neutral : t.neutral? = some e)
    (left : t.child? 0 = some l) (right : t.child? 1 = some r) (other : l.truth = .unknown)
    (value : r.truth = .unknown) : Reduces t (.error .neitherKnown)

/-- What a rule says holds whether or not there are side effects. -/
theorem Rule.reduces (rule : t.Rule reduction) : t.Reduces (.ok reduction) := by
  cases rule with
  | constant notLiteral value => exact .constant value
  | right neutral left right value other => exact .right neutral left right value other
  | left neutral left right other value => exact .left neutral left right other value
  | decided neutral left right other value decides =>
    exact .decided neutral left right other value decides

/-- Of what a short-circuit operator makes nothing is known if nothing is of its left operand. -/
theorem truth_of_left (neutral : t.neutral? = some e) (left : t.child? 0 = some l)
    (other : l.truth = .unknown) : t.truth = .unknown :=
  truth_of_left_unknown (isLiteral_of_neutral neutral) ((truthAt_of_child left).trans other)

/-- Where the left operand is neutral, as much is known of the whole as of the right one. -/
theorem truth_of_right (neutral : t.neutral? = some e) (left : t.child? 0 = some l)
    (right : t.child? 1 = some r) (value : l.truth = e) : t.truth = r.truth := by
  rw [truth_of_neutral neutral, truthAt_of_child left, truthAt_of_child right, if_pos value]

/-- The answer that is given is the one that is due. -/
theorem Reduces.eq {outcome : Except Refusal Reduction} (h : t.Reduces outcome) :
    t.reduction = outcome := by
  unfold Tree.reduction
  cases h with
  | constant value => rw [value, Truth.toBool?_ofBool]
  | @right e l r neutral left right value other =>
    have hunknown : t.truth = .unknown := (truth_of_right neutral left right value).trans other
    have hknown : l.truth.isKnown = true := value ▸ isKnown_neutral neutral
    rw [hunknown, neutral, left, right]
    show joinReduction e l r = _
    rw [joinReduction, if_pos hknown, if_pos value]
  | @left e l r neutral left right other value =>
    rw [truth_of_left neutral left other, neutral, left, right]
    show joinReduction e l r = _
    rw [joinReduction, other, if_neg (by decide), if_pos value]
  | @decided e l r b neutral left right other value decides =>
    rw [truth_of_left neutral left other, neutral, left, right]
    show joinReduction e l r = _
    rw [joinReduction, other, if_neg (by decide), value, if_neg decides, Truth.toBool?_ofBool]
  | unknownValue unknown neutral =>
    rw [unknown, neutral]
    rfl
  | missingOperand unknown neutral missing =>
    rw [unknown, neutral]
    rcases missing with h | h
    · rw [h]
      rfl
    · rw [h]
      cases t.child? 0 <;> rfl
  | @neitherKnown e l r neutral left right other value =>
    rw [truth_of_left neutral left other, neutral, left, right]
    show joinReduction e l r = _
    rw [joinReduction, other, if_neg (by decide), value, if_neg (neutral_ne_unknown neutral).symm]
    rfl

/-- There is always an answer.  That the left operand decides a whole of which nothing is known
    is not among them, since the whole would have the value of the operand. -/
theorem reduces (t : Tree) : t.Reduces t.reduction := by
  suffices h : ∃ outcome, t.Reduces outcome by
    obtain ⟨outcome, h⟩ := h
    rwa [h.eq]
  rcases t.truth.eq_unknown_or with hunknown | ⟨b, hb⟩
  · cases hneutral : t.neutral? with
    | none => exact ⟨_, .unknownValue hunknown hneutral⟩
    | some e =>
      cases hleft : t.child? 0 with
      | none => exact ⟨_, .missingOperand hunknown hneutral (.inl hleft)⟩
      | some l =>
        cases hright : t.child? 1 with
        | none => exact ⟨_, .missingOperand hunknown hneutral (.inr hright)⟩
        | some r =>
          rw [truth_of_neutral hneutral, truthAt_of_child hleft, truthAt_of_child hright]
            at hunknown
          by_cases hl : l.truth = .unknown
          · by_cases hr : r.truth = e
            · exact ⟨_, .left hneutral hleft hright hl hr⟩
            · rcases r.truth.eq_unknown_or with hr' | ⟨b, hb⟩
              · exact ⟨_, .neitherKnown hneutral hleft hright hl hr'⟩
              · exact ⟨_, .decided hneutral hleft hright hl hb (hb ▸ hr)⟩
          · by_cases hle : l.truth = e
            · rw [if_pos hle] at hunknown
              exact ⟨_, .right hneutral hleft hright hle hunknown⟩
            · rw [if_neg hle] at hunknown
              exact absurd hunknown hl
  · exact ⟨_, .constant hb⟩

/-- What a rule says is what the expression reduces to. -/
theorem Rule.reduction_eq (rule : t.Rule reduction) : t.reduction = .ok reduction :=
  rule.reduces.eq

end Tree

end ShortCircuit

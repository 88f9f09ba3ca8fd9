/-
  ShortCircuit.Proofs.Tree.NormalForm

  What a tree comes to if it is simplified from the leaves upwards.  Any rule,
  applied wherever it can be, leaves the normal form as it is; and the normal
  form of a tree that no rule applies to is its shape.
-/

import ShortCircuit.Proofs.Forest.Answers
import ShortCircuit.Proofs.Tree.Shape

namespace ShortCircuit.Tree

variable {t u l r : Tree} {e : Truth} {b : Bool} {reduction : Reduction} {φ : Tree → Tree}

/-! ## One node -/

/-- Apply the rule that applies to the node, if one does. -/
def contract (t : Tree) : Tree :=
  match t.kind.isLiteral, t.truth.toBool? with
  | false, some b => ofConstant 0 b
  | _, _ =>
    match t.neutral?, t.child? 0, t.child? 1 with
    | some e, some l, some r =>
      if l.truth = e then r
      else if r.truth = e then l
      else
        match r.truth.toBool? with
        | some b => if l.purity = .pure ∧ r.purity = .pure then ofConstant 0 b else t
        | none => t
    | _, _, _ => t

theorem contract_of_known (notLiteral : t.kind.isLiteral = false) (value : t.truth = .ofBool b) :
    t.contract = ofConstant 0 b := by
  rw [contract, notLiteral, value, Truth.toBool?_ofBool]

/-- Where nothing is known of the whole, the operands of a short-circuit operator count. -/
theorem contract_of_unknown (unknown : t.truth = .unknown) (neutral : t.neutral? = some e)
    (left : t.child? 0 = some l) (right : t.child? 1 = some r) :
    t.contract =
      if l.truth = e then r
      else if r.truth = e then l
      else
        match r.truth.toBool? with
        | some b => if l.purity = .pure ∧ r.purity = .pure then ofConstant 0 b else t
        | none => t := by
  rw [contract, isLiteral_of_neutral neutral, unknown, neutral, left, right]
  rfl

theorem contract_of_right (neutral : t.neutral? = some e) (left : t.child? 0 = some l)
    (right : t.child? 1 = some r) (value : l.truth = e) (other : r.truth = .unknown) :
    t.contract = r := by
  have hunknown : t.truth = .unknown := (truth_of_right neutral left right value).trans other
  rw [contract_of_unknown hunknown neutral left right, if_pos value]

theorem contract_of_left (neutral : t.neutral? = some e) (left : t.child? 0 = some l)
    (right : t.child? 1 = some r) (other : l.truth = .unknown) (value : r.truth = e) :
    t.contract = l := by
  have hne : l.truth ≠ e := other ▸ (neutral_ne_unknown neutral).symm
  have hunknown : t.truth = .unknown := by
    rw [truth_of_neutral neutral, truthAt_of_child left, if_neg hne, other]
  rw [contract_of_unknown hunknown neutral left right, if_neg hne, if_pos value]

theorem contract_of_decided (neutral : t.neutral? = some e) (left : t.child? 0 = some l)
    (right : t.child? 1 = some r) (other : l.truth = .unknown) (value : r.truth = .ofBool b)
    (decides : Truth.ofBool b ≠ e) (leftPure : l.purity = .pure) (rightPure : r.purity = .pure) :
    t.contract = ofConstant 0 b := by
  have hne : l.truth ≠ e := other ▸ (neutral_ne_unknown neutral).symm
  have hunknown : t.truth = .unknown := by
    rw [truth_of_neutral neutral, truthAt_of_child left, if_neg hne, other]
  rw [contract_of_unknown hunknown neutral left right, if_neg hne, value, if_neg decides]
  simp only [Truth.toBool?_ofBool, leftPure, rightPure, and_self, if_true]

/-- A node that no rule applies to stays as it is. -/
theorem contract_of_not_simplifiable (h : t.isSimplifiable = false) : t.contract = t := by
  rw [isSimplifiable, Bool.or_eq_false_iff] at h
  obtain ⟨hconst, hjoin⟩ := h
  unfold contract
  split
  · -- A value would have called for a constant.
    rename_i b hlit htruth
    rw [hlit, Truth.isKnown, htruth] at hconst
    cases hconst
  · split
    · -- An operand that is neutral, or decides, would have called for a join.
      rename_i e l r hneutral hleft hright
      simp only [hneutral, hleft, hright, shouldJoin, Bool.or_eq_false_iff] at hjoin
      obtain ⟨⟨hl, hr⟩, hpure⟩ := hjoin
      have hl' : l.truth ≠ e := by
        rw [Truth.isKnown_eq_false_iff.1 hl]
        exact (neutral_ne_unknown hneutral).symm
      have hr' : r.truth ≠ e := by simpa using hr
      rw [if_neg hl', if_neg hr']
      split
      · rename_i b hb
        have hknown : r.truth.isKnown = true := by
          rw [Truth.isKnown, hb]
          rfl
        refine if_neg ?_
        rintro ⟨hlp, hrp⟩
        rw [hlp, hrp, hknown] at hpure
        cases hpure
      · rfl
    · rfl

/-- A node becomes a constant, or one of its operands of which nothing is known, or stays. -/
theorem contract_cases (t : Tree) :
    t.contract = t ∧ t.isSimplifiable = false ∨ (∃ b, t.contract = ofConstant 0 b) ∨
      t.contract.truth = .unknown := by
  cases h : t.isSimplifiable with
  | false => exact .inl ⟨contract_of_not_simplifiable h, rfl⟩
  | true =>
    refine .inr ?_
    obtain ⟨reduction, rule⟩ := isSimplifiable_iff.1 h
    cases rule with
    | constant notLiteral value => exact .inl ⟨_, contract_of_known notLiteral value⟩
    | right neutral left right value other =>
      exact .inr (by rw [contract_of_right neutral left right value other, other])
    | left neutral left right other value =>
      exact .inr (by rw [contract_of_left neutral left right other value, other])
    | decided neutral left right other value decides leftPure rightPure =>
      exact .inl ⟨_, contract_of_decided neutral left right other value decides leftPure rightPure⟩

theorem isSimplifiable_of_literal (h : t.kind.isLiteral = true) : t.isSimplifiable = false := by
  cases hsimp : t.isSimplifiable with
  | false => rfl
  | true =>
    obtain ⟨reduction, rule⟩ := isSimplifiable_iff.1 hsimp
    have hnot : t.kind.isLiteral = false := by
      cases rule with
      | constant notLiteral => exact notLiteral
      | right neutral => exact isLiteral_of_neutral neutral
      | left neutral => exact isLiteral_of_neutral neutral
      | decided neutral => exact isLiteral_of_neutral neutral
    rw [h] at hnot
    cases hnot

/-- A contraction does not lose a value. -/
theorem truth_contract (t : Tree) : t.truth.Within t.contract.truth := by
  cases h : t.kind.isLiteral with
  | true =>
    rw [contract_of_not_simplifiable (isSimplifiable_of_literal h)]
    exact .inr rfl
  | false =>
    rcases t.truth.eq_unknown_or with hunknown | ⟨b, hb⟩
    · exact .inl hunknown
    · rw [contract_of_known h hb, hb]
      cases b <;> exact .inr rfl

/-- What is known to be true or false is not known to have effects. -/
theorem purity_ne_impure (h : t.truth = .ofBool b) : t.purity ≠ .impure := by
  induction t using Tree.induction generalizing b with
  | node id kind branches ih =>
    -- Of the kinds that can have a value, only parentheses pass a verdict on.
    rw [truth_eq] at h
    rw [purity_eq]
    split at h
    · rename_i hkind
      simp [hkind]
    · rename_i hkind
      simp [hkind]
    · rename_i hkind
      simp [hkind]
    · rename_i hkind
      simp [hkind]
    · rename_i hkind
      simp [hkind]
    · rename_i hkind
      obtain ⟨c, hc, hb⟩ := exists_child_of_truthAt h
      simp only [hkind, purityAt_of_child hc]
      exact ih (0, c) (branch_of_child? hc) hb
    · exact absurd h.symm (Truth.ofBool_ne_unknown b)

theorem purity_of_neutral (h : t.neutral? = some e) : t.purity = .unknown := by
  obtain ⟨op, hkind, -⟩ := exists_operator_of_neutral h
  rw [purity_eq, hkind]

/-- A contraction does not lose a verdict on effects. -/
theorem purity_contract (t : Tree) : t.purity.Within t.contract.purity := by
  cases h : t.isSimplifiable with
  | false =>
    rw [contract_of_not_simplifiable h]
    exact .inr rfl
  | true =>
    obtain ⟨reduction, rule⟩ := isSimplifiable_iff.1 h
    cases rule with
    | @constant b notLiteral value =>
      -- A constant is pure, and so is what it stands for, if there is any verdict on it.
      have hconstant : (ofConstant 0 b).purity = .pure := rfl
      rw [contract_of_known notLiteral value, hconstant]
      cases hpurity : t.purity with
      | pure => exact .inr rfl
      | impure => exact absurd hpurity (purity_ne_impure value)
      | unknown => exact .inl rfl
    | right neutral => exact .inl (purity_of_neutral neutral)
    | left neutral => exact .inl (purity_of_neutral neutral)
    | decided neutral => exact .inl (purity_of_neutral neutral)

/-! ## Normal forms -/

/-- The normal form: every node contracts, the ones below it first. -/
def settled : Tree → Tree :=
  fold fun _ kind branches => contract (node 0 kind (inSlotOrder branches))

theorem settled_eq (t : Tree) : t.settled = (t.rebuild settled).contract := by
  cases t
  exact fold_node ..

theorem settled_ofConstant (n : NodeId) (b : Bool) :
    (ofConstant n b).settled = ofConstant 0 b := by
  rw [settled_eq]
  exact contract_of_not_simplifiable (isSimplifiable_of_literal rfl)

/-- Names and order do not matter. -/
theorem nameless_settled : Nameless settled := by
  intro u v hkind hu hv hslots
  rw [settled_eq, settled_eq, rebuild_congr hkind hu hv hslots]

/-- What is known of a node is known of it with other children of which no less is known. -/
theorem truth_rebuild (nodup : (t.branches.map (·.1)).Nodup)
    (h : ∀ s c, t.child? s = some c → c.truth.Within (φ c).truth) :
    t.truth.Within (t.rebuild φ).truth := by
  refine truth_within rfl fun s => ?_
  rw [truthAt, truthAt, child?_rebuild nodup]
  cases hc : t.child? s with
  | none => exact .inl rfl
  | some c => exact h s c hc

/-- What is known of a tree is known of its normal form. -/
theorem truth_settled (h : t.Slotted) : t.truth.Within t.settled.truth := by
  induction t using Tree.induction with
  | node id kind branches ih =>
    have hrebuild : (node id kind branches).truth.Within
        (rebuild settled (node id kind branches)).truth :=
      truth_rebuild h.nodup fun s c hc => ih (s, c) (branch_of_child? hc) (h.child hc)
    rw [settled_eq]
    exact hrebuild.trans (truth_contract _)

/-- The same holds of effects. -/
theorem purity_settled (h : t.Slotted) : t.purity.Within t.settled.purity := by
  induction t using Tree.induction with
  | node id kind branches ih =>
    have hrebuild : (node id kind branches).purity.Within
        (rebuild settled (node id kind branches)).purity := by
      refine purity_within rfl h.nodup (nodup_rebuild h.nodup) fun s => ?_
      rw [child?_rebuild h.nodup]
      cases hc : (node id kind branches).child? s with
      | none => exact .none
      | some c => exact .some (ih (s, c) (branch_of_child? hc) (h.child hc))
    rw [settled_eq]
    exact hrebuild.trans (purity_contract _)

theorem pure_settled (h : t.Slotted) (hpure : t.purity = .pure) : t.settled.purity = .pure := by
  have hwithin := purity_settled h
  rw [hpure] at hwithin
  exact (hwithin.eq_of_ne (by decide)).symm

/-- A value that is found out on the way to the normal form is all that is left there. -/
theorem settled_of_learned (h : t.truth = .unknown) (h' : t.settled.truth = .ofBool b) :
    t.settled = ofConstant 0 b := by
  rw [settled_eq] at h' ⊢
  cases hlit : (t.rebuild settled).kind.isLiteral with
  | true =>
    rw [contract_of_not_simplifiable (isSimplifiable_of_literal hlit)] at h'
    have hsame : (t.rebuild settled).truth = t.truth := truth_of_literal rfl hlit
    rw [hsame, h] at h'
    exact absurd h'.symm (Truth.ofBool_ne_unknown b)
  | false =>
    rcases contract_cases (t.rebuild settled) with ⟨hstays, hnot⟩ | ⟨c, hc⟩ | hunknown
    · -- If the node stays, its value is not known, or it would be a constant.
      rw [hstays] at h'
      have hsimp : (t.rebuild settled).isSimplifiable = true :=
        isSimplifiable_iff.2 ⟨_, .constant hlit h'⟩
      rw [hsimp] at hnot
      cases hnot
    · -- If it has become a constant, this is the value.
      rw [hc] at h' ⊢
      have hvalue : (ofConstant 0 c).truth = .ofBool c := rfl
      rw [Truth.ofBool_inj.1 (hvalue.symm.trans h')]
    · rw [hunknown] at h'
      exact absurd h'.symm (Truth.ofBool_ne_unknown b)

/-! ## Normal forms do not change -/

/-- Of an operand of which nothing is known nothing is known in the end, or it comes to a
    constant. -/
theorem settled_cases (h : t.truth = .unknown) :
    t.settled.truth = .unknown ∨
      ∃ b, t.settled.truth = .ofBool b ∧ t.settled = ofConstant 0 b := by
  rcases t.settled.truth.eq_unknown_or with hunknown | ⟨b, hb⟩
  · exact .inl hunknown
  · exact .inr ⟨b, hb, settled_of_learned h hb⟩

theorem settled_of_known (notLiteral : t.kind.isLiteral = false)
    (value : (t.rebuild settled).truth = .ofBool b) : t.settled = ofConstant 0 b := by
  rw [settled_eq]
  exact contract_of_known notLiteral value

section

variable (slotted : t.Slotted)
include slotted

theorem child?_settled {s : Int} {c : Tree} (hc : t.child? s = some c) :
    (t.rebuild settled).child? s = some c.settled := by
  rw [child?_rebuild slotted.nodup, hc]
  rfl

/-- An operand that is neutral has a neutral normal form. -/
theorem truth_settled_neutral {s : Int} {c : Tree} (neutral : t.neutral? = some e)
    (hc : t.child? s = some c) (value : c.truth = e) : c.settled.truth = e := by
  obtain ⟨b, rfl⟩ := Truth.isKnown_iff.1 (isKnown_neutral neutral)
  exact (truth_settled (slotted.child hc)).eq_ofBool value

/-- What is known of a short-circuit operator once its operands have their normal forms. -/
theorem truth_rebuild_settled (neutral : t.neutral? = some e) (left : t.child? 0 = some l)
    (right : t.child? 1 = some r) :
    (t.rebuild settled).truth =
      if l.settled.truth = e then r.settled.truth else l.settled.truth := by
  have neutral' : (t.rebuild settled).neutral? = some e := neutral
  rw [truth_of_neutral neutral', truthAt_of_child (child?_settled slotted left),
    truthAt_of_child (child?_settled slotted right)]

theorem settled_of_value (notLiteral : t.kind.isLiteral = false) (value : t.truth = .ofBool b) :
    t.settled = ofConstant 0 b := by
  have hrebuild : t.truth.Within (t.rebuild settled).truth :=
    truth_rebuild slotted.nodup fun s c hc => truth_settled (slotted.child hc)
  exact settled_of_known notLiteral (hrebuild.eq_ofBool value)

theorem settled_of_right (neutral : t.neutral? = some e) (left : t.child? 0 = some l)
    (right : t.child? 1 = some r) (value : l.truth = e) (other : r.truth = .unknown) :
    t.settled = r.settled := by
  have neutral' : (t.rebuild settled).neutral? = some e := neutral
  have left' := child?_settled slotted left
  have right' := child?_settled slotted right
  have hl : l.settled.truth = e := truth_settled_neutral slotted neutral left value
  rcases settled_cases other with hr | ⟨a, ha, hr⟩
  · rw [settled_eq t, contract_of_right neutral' left' right' hl hr]
  · -- Once the right operand is known, so is the whole.
    have hvalue : (t.rebuild settled).truth = .ofBool a := by
      rw [truth_rebuild_settled slotted neutral left right, if_pos hl, ha]
    rw [settled_of_known (isLiteral_of_neutral neutral) hvalue, hr]

theorem settled_of_left (neutral : t.neutral? = some e) (left : t.child? 0 = some l)
    (right : t.child? 1 = some r) (other : l.truth = .unknown) (value : r.truth = e) :
    t.settled = l.settled := by
  have neutral' : (t.rebuild settled).neutral? = some e := neutral
  have left' := child?_settled slotted left
  have right' := child?_settled slotted right
  have hr : r.settled.truth = e := truth_settled_neutral slotted neutral right value
  rcases settled_cases other with hl | ⟨a, ha, hl⟩
  · rw [settled_eq t, contract_of_left neutral' left' right' hl hr]
  · -- The whole is known as well: it is the left operand that decides, or the neutral value.
    have hvalue : (t.rebuild settled).truth = .ofBool a := by
      rw [truth_rebuild_settled slotted neutral left right, ha, hr]
      by_cases hae : Truth.ofBool a = e
      · rw [if_pos hae, hae]
      · rw [if_neg hae]
    rw [settled_of_known (isLiteral_of_neutral neutral) hvalue, hl]

theorem settled_of_decided (neutral : t.neutral? = some e) (left : t.child? 0 = some l)
    (right : t.child? 1 = some r) (other : l.truth = .unknown) (value : r.truth = .ofBool b)
    (decides : Truth.ofBool b ≠ e) (leftPure : l.purity = .pure) (rightPure : r.purity = .pure) :
    t.settled = ofConstant 0 b := by
  have neutral' : (t.rebuild settled).neutral? = some e := neutral
  have left' := child?_settled slotted left
  have right' := child?_settled slotted right
  have hr : r.settled.truth = .ofBool b := (truth_settled (slotted.child right)).eq_ofBool value
  rcases settled_cases other with hl | ⟨a, ha, -⟩
  · have hlp : l.settled.purity = .pure := pure_settled (slotted.child left) leftPure
    have hrp : r.settled.purity = .pure := pure_settled (slotted.child right) rightPure
    rw [settled_eq t, contract_of_decided neutral' left' right' hl hr decides hlp hrp]
  · -- If the left operand is known after all, it is neutral or decides the same.
    have hvalue : (t.rebuild settled).truth = .ofBool b := by
      rw [truth_rebuild_settled slotted neutral left right, ha, hr]
      by_cases hae : Truth.ofBool a = e
      · rw [if_pos hae]
      · rw [if_neg hae, eq_of_ne_neutral neutral hae decides]
    exact settled_of_known (isLiteral_of_neutral neutral) hvalue

end

/-- What an expression reduces to has the normal form that the expression has. -/
theorem settled_heir {next : NodeId} (rule : t.Rule reduction) (heir : t.Heir next reduction r)
    (nodup : t.ids.Nodup) (slotted : t.Slotted) : r.settled = t.settled := by
  cases rule with
  | constant notLiteral value =>
    rw [heir.eq_of_constant, settled_ofConstant, settled_of_value slotted notLiteral value]
  | right neutral left right value other =>
    rw [heir.eq_of_operand nodup right, settled_of_right slotted neutral left right value other]
  | left neutral left right other value =>
    rw [heir.eq_of_operand nodup left, settled_of_left slotted neutral left right other value]
  | decided neutral left right other value decides leftPure rightPure =>
    rw [heir.eq_of_constant, settled_ofConstant,
      settled_of_decided slotted neutral left right other value decides leftPure rightPure]

/-- Where there is nothing to simplify, the normal form is the shape. -/
theorem settled_eq_shape (slotted : t.Slotted)
    (h : ∀ u ∈ t.subtrees, u.isSimplifiable = false) : t.settled = t.shape := by
  induction t using Tree.induction with
  | node id kind branches ih =>
    have hrebuild : rebuild settled (node id kind branches) = (node id kind branches).shape := by
      rw [shape_eq]
      refine rebuild_congr rfl slotted.nodup slotted.nodup fun s => ?_
      cases hc : (node id kind branches).child? s with
      | none => rfl
      | some c =>
        have hb := branch_of_child? hc
        exact congrArg some (ih (s, c) hb (slotted.child hc) fun u hu =>
          h u (mem_subtrees_trans hu (branch_mem_subtrees hb)))
    rw [settled_eq, hrebuild]
    refine contract_of_not_simplifiable ?_
    rw [isSimplifiable_shape slotted]
    exact h _ (self_mem_subtrees _)

end ShortCircuit.Tree

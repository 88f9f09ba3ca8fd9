/-
  ShortCircuit.Proofs.Tree.Meaning

  What expressions mean: the effects of evaluating them, and how that ends.  The
  kinds of nodes that the analyses know about are bound by laws; all others may
  mean anything that depends on what stands at their slots.  The analyses are
  sound for every such interpretation, and so are the rules of simplification.
-/

import ShortCircuit.Proofs.Forest.Answers

namespace ShortCircuit

/-! ## Meanings -/

/-- How an evaluation ends: with a value, which may be a boolean, or with an exit. -/
inductive Outcome (Value Exit : Type) where
  | bool (b : Bool)
  | value (v : Value)
  | exit (e : Exit)

/-- The observable effects of an evaluation, in their order, and how it ends. -/
structure Meaning (Effect Value Exit : Type) where
  effects : List Effect
  outcome : Outcome Value Exit

namespace Outcome

variable {Value Exit : Type}

/-- The evaluation yields a boolean, or no value at all. -/
def IsBooleanOrExit : Outcome Value Exit → Prop
  | bool _ | exit _ => True
  | value _ => False

/-- The evaluation yields a value. -/
def IsValue : Outcome Value Exit → Prop
  | bool _ | value _ => True
  | exit _ => False

end Outcome

namespace Meaning

variable {Effect Value Exit : Type}

/-- A boolean, without any effects. -/
def constant (b : Bool) : Meaning Effect Value Exit := ⟨[], .bool b⟩

/-- A value, without any effects. -/
def IsEffectFree (m : Meaning Effect Value Exit) : Prop := m.effects = [] ∧ m.outcome.IsValue

end Meaning

/-! ## Interpretations -/

/-- A meaning for every node, given the meanings at its slots.  An empty slot is told apart from
    all others, so that it may be given any meaning.  The laws bind what the analyses rely on:
    they ask for as little as possible, for children that are there. -/
structure Interpretation (Effect Value Exit : Type) where
  apply : NodeId → Kind → (Int → Option (Meaning Effect Value Exit)) → Meaning Effect Value Exit
  literal : ∀ n value slots, (apply n (.literal value) slots).IsEffectFree
  boolean : ∀ n b slots, apply n (.literal (.bool b)) slots = .constant b
  path : ∀ n name slots, (apply n (.path name) slots).IsEffectFree
  qualifiedPath : ∀ n name slots, (apply n (.qualifiedPath name) slots).IsEffectFree
  unit : ∀ n slots, (apply n .unit slots).IsEffectFree
  paren : ∀ n slots m, slots 0 = some m → apply n .paren slots = m
  negation : ∀ n tokens slots b, UnaryOperator.ofTokens? tokens = some .logicalNot →
    slots 0 = some (.constant b) → apply n (.unary tokens) slots = .constant !b
  exclusiveOr : ∀ n slots a b, slots 0 = some (.constant a) → slots 1 = some (.constant b) →
    apply n (.binary .bitwiseXor) slots = .constant (a != b)
  /-- A left operand that is not the neutral value decides. -/
  decides : ∀ n op e slots m b, BinaryOperator.neutral? op = some e → slots 0 = some m →
    m.outcome = .bool b → Truth.ofBool b ≠ e → apply n (.binary op) slots = m
  /-- A left operand that exits leaves nothing to evaluate. -/
  exits : ∀ n op e slots m x, BinaryOperator.neutral? op = some e → slots 0 = some m →
    m.outcome = .exit x → apply n (.binary op) slots = m
  /-- After the neutral value the right operand is evaluated. -/
  passes : ∀ n op e slots m m' b, BinaryOperator.neutral? op = some e → slots 0 = some m →
    slots 1 = some m' → m.outcome = .bool b → Truth.ofBool b = e → m'.outcome.IsBooleanOrExit →
    apply n (.binary op) slots = ⟨m.effects ++ m'.effects, m'.outcome⟩
  fieldAccess : ∀ n field slots m, slots 0 = some m → m.IsEffectFree →
    (apply n (.fieldAccess field) slots).IsEffectFree
  tuple : ∀ n slots, (∀ s m, slots s = some m → m.IsEffectFree) →
    (apply n .tuple slots).IsEffectFree
  array : ∀ n slots, (∀ s m, slots s = some m → m.IsEffectFree) →
    (apply n (.array false) slots).IsEffectFree
  repeated : ∀ n slots m, slots 0 = some m → m.IsEffectFree →
    (apply n (.array true) slots).IsEffectFree
  record : ∀ n name fields slots,
    (∀ i : Nat, i < fields.length → ∃ m, slots i = some m ∧ m.IsEffectFree) →
    (apply n (.record name fields false) slots).IsEffectFree

namespace Interpretation

variable {Effect Value Exit : Type} (I : Interpretation Effect Value Exit)
  {f g : Forest} {t u v r l : Tree} {s : Int} {b : Bool} {e : Truth} {reduction : Reduction}

/-- What an expression means. -/
def meaning : Tree → Meaning Effect Value Exit :=
  Tree.fold fun id kind operands => I.apply id kind fun s => operands.lookup s

theorem meaning_eq (t : Tree) :
    I.meaning t = I.apply t.id t.kind fun s => (t.child? s).map I.meaning := by
  obtain ⟨id, kind, branches⟩ := t
  rw [meaning, Tree.fold_node]
  refine congrArg _ (funext fun s => ?_)
  exact lookup_map I.meaning branches s

theorem local_meaning : Tree.Local I.meaning := by
  intro u v hid hkind _ _ hchildren
  rw [meaning_eq, meaning_eq, hid, hkind]
  exact congrArg _ (funext hchildren)

/-- The operands of short-circuit operators yield booleans, or exit. -/
def TypedAt (t : Tree) : Prop :=
  ∀ e, t.neutral? = some e → ∀ s, s = 0 ∨ s = 1 → ∀ c, t.child? s = some c →
    (I.meaning c).outcome.IsBooleanOrExit

/-! ## Soundness of the analyses -/

theorem slot_eq (h : t.child? s = some l) : (t.child? s).map I.meaning = some (I.meaning l) := by
  rw [h]
  rfl

/-- What is pure has no effects and yields a value. -/
theorem isEffectFree_of_pure (h : t.purity = .pure) : (I.meaning t).IsEffectFree := by
  induction t using Tree.induction with
  | node id kind branches ih =>
    have hchild {s : Int} {c : Tree} (hc : (Tree.node id kind branches).child? s = some c)
        (hpure : c.purity = .pure) : (I.meaning c).IsEffectFree :=
      ih (s, c) (Tree.branch_of_child? hc) hpure
    have hslot {s : Int} (hpure : (Tree.node id kind branches).purityAt s = .pure) :
        ∃ m, ((Tree.node id kind branches).child? s).map I.meaning = some m ∧ m.IsEffectFree := by
      obtain ⟨c, hc, hpure⟩ := Tree.exists_child_of_purityAt hpure
      exact ⟨_, I.slot_eq hc, hchild hc hpure⟩
    have hall (hpure : Purity.allOf (branches.map (·.2.purity)) = .pure) :
        ∀ s m, ((Tree.node id kind branches).child? s).map I.meaning = some m →
          m.IsEffectFree := by
      intro s m hm
      obtain ⟨c, hc, rfl⟩ := Option.map_eq_some_iff.1 hm
      refine hchild hc (Purity.allOf_eq_pure_iff.1 hpure c.purity ?_)
      exact List.mem_map.2 ⟨(s, c), Tree.branch_of_child? hc, rfl⟩
    -- One law for each kind that can be pure, with operands that are pure by induction.
    rw [Tree.purity_eq] at h
    rw [meaning_eq]
    split at h
    · rename_i value hkind
      rw [hkind]
      exact I.literal ..
    · rename_i name hkind
      rw [hkind]
      exact I.path ..
    · rename_i name hkind
      rw [hkind]
      exact I.qualifiedPath ..
    · rename_i hkind
      rw [hkind]
      exact I.unit ..
    · cases h
    · cases h
    · cases h
    · cases h
    · rename_i hkind
      obtain ⟨m, hm, hfree⟩ := hslot h
      rw [hkind, I.paren _ _ m hm]
      exact hfree
    · rename_i field hkind
      obtain ⟨m, hm, hfree⟩ := hslot h
      rw [hkind]
      exact I.fieldAccess _ _ _ m hm hfree
    · rename_i hkind
      obtain ⟨m, hm, hfree⟩ := hslot h
      rw [hkind]
      exact I.repeated _ _ m hm hfree
    · rename_i hkind
      rw [hkind]
      exact I.array _ _ (hall h)
    · rename_i hkind
      rw [hkind]
      exact I.tuple _ _ (hall h)
    · rename_i name fields hkind
      rw [hkind]
      refine I.record _ _ _ _ fun i hi => ?_
      have hmem := Purity.allOf_eq_pure_iff.1 h _
        (List.mem_map_of_mem (List.mem_range.2 hi))
      exact hslot hmem
    · cases h

/-! ### Short-circuit operators -/

theorem meaning_of_decides (neutral : t.neutral? = some e) (left : t.child? 0 = some l)
    (hl : (I.meaning l).outcome = .bool b) (hb : Truth.ofBool b ≠ e) :
    I.meaning t = I.meaning l := by
  obtain ⟨op, hkind, hop⟩ := Tree.exists_operator_of_neutral neutral
  rw [I.meaning_eq t, hkind]
  exact I.decides _ op e _ _ b hop (I.slot_eq left) hl hb

theorem meaning_of_exits {x : Exit} (neutral : t.neutral? = some e) (left : t.child? 0 = some l)
    (hl : (I.meaning l).outcome = .exit x) : I.meaning t = I.meaning l := by
  obtain ⟨op, hkind, hop⟩ := Tree.exists_operator_of_neutral neutral
  rw [I.meaning_eq t, hkind]
  exact I.exits _ op e _ _ x hop (I.slot_eq left) hl

theorem meaning_of_passes (neutral : t.neutral? = some e) (left : t.child? 0 = some l)
    (right : t.child? 1 = some r) (hl : (I.meaning l).outcome = .bool b) (hb : Truth.ofBool b = e)
    (hr : (I.meaning r).outcome.IsBooleanOrExit) :
    I.meaning t = ⟨(I.meaning l).effects ++ (I.meaning r).effects, (I.meaning r).outcome⟩ := by
  obtain ⟨op, hkind, hop⟩ := Tree.exists_operator_of_neutral neutral
  rw [I.meaning_eq t, hkind]
  exact I.passes _ op e _ _ _ b hop (I.slot_eq left) (I.slot_eq right) hl hb hr

/-- A short-circuit operator whose value is known is that constant, if what is known of its
    operands are constants. -/
theorem meaning_of_join (neutral : t.neutral? = some e) (h : t.truth = .ofBool b)
    (hchild : ∀ s b, t.truthAt s = .ofBool b →
      ∃ c, t.child? s = some c ∧ I.meaning c = .constant b) : I.meaning t = .constant b := by
  obtain ⟨a, rfl⟩ := Truth.isKnown_iff.1 (Tree.isKnown_neutral neutral)
  rw [Tree.truth_of_neutral neutral] at h
  split at h
  · rename_i hleft
    obtain ⟨l, hl, hml⟩ := hchild 0 a hleft
    obtain ⟨r, hr, hmr⟩ := hchild 1 b h
    have hlo : (I.meaning l).outcome = .bool a := by
      rw [hml]
      rfl
    have hro : (I.meaning r).outcome.IsBooleanOrExit := by
      rw [hmr]
      trivial
    rw [I.meaning_of_passes neutral hl hr hlo rfl hro, hml, hmr]
    rfl
  · rename_i hleft
    obtain ⟨l, hl, hml⟩ := hchild 0 b h
    have hlo : (I.meaning l).outcome = .bool b := by
      rw [hml]
      rfl
    rw [h] at hleft
    rw [I.meaning_of_decides neutral hl hlo hleft, hml]

/-- What is known to be true or false is that, without any effects. -/
theorem meaning_of_known (h : t.truth = .ofBool b) : I.meaning t = .constant b := by
  induction t using Tree.induction generalizing b with
  | node id kind branches ih =>
    have hchild (s : Int) (b : Bool) (h : (Tree.node id kind branches).truthAt s = .ofBool b) :
        ∃ c, (Tree.node id kind branches).child? s = some c ∧ I.meaning c = .constant b := by
      obtain ⟨c, hc, hb⟩ := Tree.exists_child_of_truthAt h
      exact ⟨c, hc, ih (s, c) (Tree.branch_of_child? hc) hb⟩
    have hslot {s : Int} {b : Bool} (h : (Tree.node id kind branches).truthAt s = .ofBool b) :
        ((Tree.node id kind branches).child? s).map I.meaning = some (.constant b) := by
      obtain ⟨c, hc, hb⟩ := hchild s b h
      rw [I.slot_eq hc, hb]
    have hvalue := h
    -- One law for each kind that can have a value.
    rw [Tree.truth_eq] at h
    split at h
    · rename_i a hkind
      rw [meaning_eq, hkind, I.boolean, Truth.ofBool_inj.1 h]
    · rename_i hkind
      have neutral : (Tree.node id kind branches).neutral? = some .yes := by
        rw [Tree.neutral?, hkind]
        rfl
      exact I.meaning_of_join neutral hvalue hchild
    · rename_i hkind
      have neutral : (Tree.node id kind branches).neutral? = some .no := by
        rw [Tree.neutral?, hkind]
        rfl
      exact I.meaning_of_join neutral hvalue hchild
    · rename_i hkind
      obtain ⟨a, c, ha, hc, rfl⟩ := Truth.exclusiveOr_eq_ofBool h
      rw [meaning_eq, hkind, I.exclusiveOr _ _ a c (hslot ha) (hslot hc)]
    · rename_i tokens hkind
      split at h
      · rename_i hnot
        have hoperand := hslot (Truth.negate_eq_ofBool_iff.1 h)
        rw [meaning_eq, hkind, I.negation _ _ _ _ hnot hoperand, Bool.not_not]
      · exact absurd h.symm (Truth.ofBool_ne_unknown b)
    · rename_i hkind
      rw [meaning_eq, hkind, I.paren _ _ _ (hslot h)]
    · exact absurd h.symm (Truth.ofBool_ne_unknown b)

/-! ## Soundness of the rules -/

/-- A boolean or an exit, as two cases. -/
theorem outcome_cases {o : Outcome Value Exit} (h : o.IsBooleanOrExit) :
    (∃ b, o = .bool b) ∨ ∃ x, o = .exit x := by
  cases o with
  | bool b => exact .inl ⟨b, rfl⟩
  | value v => exact h.elim
  | exit x => exact .inr ⟨x, rfl⟩

/-- A neutral value on the right adds nothing to what stands on the left. -/
theorem meaning_of_neutral_right (neutral : t.neutral? = some e) (left : t.child? 0 = some l)
    (right : t.child? 1 = some r) (value : r.truth = e)
    (hl : (I.meaning l).outcome.IsBooleanOrExit) : I.meaning t = I.meaning l := by
  obtain ⟨a, rfl⟩ := Truth.isKnown_iff.1 (Tree.isKnown_neutral neutral)
  have hr : I.meaning r = .constant a := I.meaning_of_known value
  rcases outcome_cases hl with ⟨b, hb⟩ | ⟨x, hx⟩
  · -- The left operand passes on to a constant of its own value, or decides itself.
    by_cases hba : Truth.ofBool b = Truth.ofBool a
    · have hpass := I.meaning_of_passes neutral left right hb hba (by rw [hr]; trivial)
      rw [hr, ← Truth.ofBool_inj.1 hba] at hpass
      rw [hpass]
      show Meaning.mk ((I.meaning l).effects ++ []) (.bool b) = I.meaning l
      rw [List.append_nil, ← hb]
    · exact I.meaning_of_decides neutral left hb hba
  · exact I.meaning_of_exits neutral left hx

/-- If nothing happens in the operands, a right operand that decides is all there is. -/
theorem meaning_of_deciding_right (neutral : t.neutral? = some e) (left : t.child? 0 = some l)
    (right : t.child? 1 = some r) (value : r.truth = .ofBool b) (hbe : Truth.ofBool b ≠ e)
    (hl : (I.meaning l).outcome.IsBooleanOrExit) (hpure : (I.meaning l).IsEffectFree) :
    I.meaning t = .constant b := by
  obtain ⟨heffects, hvalue⟩ := hpure
  have hr : I.meaning r = .constant b := I.meaning_of_known value
  rcases outcome_cases hl with ⟨a, ha⟩ | ⟨x, hx⟩
  · -- The left operand passes on to the right one, or has the only other value.
    by_cases hae : Truth.ofBool a = e
    · have hpass := I.meaning_of_passes neutral left right ha hae (by rw [hr]; trivial)
      rw [hpass, heffects, hr]
      rfl
    · have hab : a = b := Tree.eq_of_ne_neutral neutral hae hbe
      rw [I.meaning_of_decides neutral left ha hae, ← hab]
      show Meaning.mk (I.meaning l).effects (I.meaning l).outcome = _
      rw [heffects, ha]
      rfl
  · -- An exit is no value, so the left operand is not pure.
    rw [hx] at hvalue
    exact hvalue.elim

/-- What an expression reduces to means what the expression means. -/
theorem meaning_heir {next : NodeId} (rule : t.Rule reduction) (heir : t.Heir next reduction r)
    (nodup : t.ids.Nodup) (typed : I.TypedAt t) : I.meaning r = I.meaning t := by
  have hconstant (b : Bool) : I.meaning (Tree.ofConstant next b) = .constant b := by
    rw [meaning_eq]
    exact I.boolean ..
  cases rule with
  | constant notLiteral value =>
    rw [heir.eq_of_constant, hconstant, I.meaning_of_known value]
  | right neutral left right value other =>
    rw [heir.eq_of_operand nodup right]
    obtain ⟨a, rfl⟩ := Truth.isKnown_iff.1 (Tree.isKnown_neutral neutral)
    have hl := I.meaning_of_known value
    have hr := typed _ neutral 1 (.inr rfl) _ right
    rw [I.meaning_of_passes (b := a) neutral left right (by rw [hl]; rfl) rfl hr, hl]
    rfl
  | left neutral left right other value =>
    rw [heir.eq_of_operand nodup left]
    exact (I.meaning_of_neutral_right neutral left right value
      (typed _ neutral 0 (.inl rfl) _ left)).symm
  | decided neutral left right other value decides leftPure rightPure =>
    rw [heir.eq_of_constant, hconstant]
    exact (I.meaning_of_deciding_right neutral left right value decides
      (typed _ neutral 0 (.inl rfl) _ left) (I.isEffectFree_of_pure leftPure)).symm

end Interpretation

end ShortCircuit

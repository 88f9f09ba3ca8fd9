/-
  ShortCircuit.Proofs.Reductions

  Putting what it reduces to in the place of an expression, wherever a client
  asks for it.  It succeeds exactly where the value of the expression is known,
  or that of one of two operands joined by a short-circuit operator; everywhere
  else it is refused for a reason and leaves the session as it is.
-/

import ShortCircuit.Proofs.Applicability

namespace ShortCircuit

open Failing

variable {f g : Forest} {w : Workspace} {s : Session} {t r : Tree} {reduction : Reduction}
  {reason : Refusal}

/-! ## Expressions that can be reduced -/

namespace Tree

/-- The value of the expression is known, or it is made by `&&` or `||` of two operands, of one
    of which the value is known. -/
def Reducible (t : Tree) : Prop :=
  t.truth.isKnown = true ∨
    (t.kind = .binary .logicalAnd ∨ t.kind = .binary .logicalOr) ∧
      ∃ l r, t.child? 0 = some l ∧ t.child? 1 = some r ∧
        (l.truth.isKnown = true ∨ r.truth.isKnown = true)

theorem neutral?_isSome_iff :
    (∃ e, t.neutral? = some e) ↔ t.kind = .binary .logicalAnd ∨ t.kind = .binary .logicalOr := by
  refine ⟨?_, ?_⟩
  · rintro ⟨e, he⟩
    exact (neutral?_eq_some he).imp And.left And.left
  · rintro (hkind | hkind)
    · exact ⟨.yes, by rw [neutral?, hkind]; rfl⟩
    · exact ⟨.no, by rw [neutral?, hkind]; rfl⟩

theorem Reduces.reducible (h : t.Reduces (.ok reduction)) : t.Reducible := by
  cases h with
  | constant value => exact .inl (Truth.isKnown_iff.2 ⟨_, value⟩)
  | right neutral left right value other =>
    refine .inr ⟨neutral?_isSome_iff.1 ⟨_, neutral⟩, _, _, left, right, .inl ?_⟩
    rw [value]
    exact isKnown_neutral neutral
  | left neutral left right other value =>
    refine .inr ⟨neutral?_isSome_iff.1 ⟨_, neutral⟩, _, _, left, right, .inr ?_⟩
    rw [value]
    exact isKnown_neutral neutral
  | decided neutral left right other value decides =>
    refine .inr ⟨neutral?_isSome_iff.1 ⟨_, neutral⟩, _, _, left, right, .inr ?_⟩
    exact Truth.isKnown_iff.2 ⟨_, value⟩

theorem Reduces.not_reducible (h : t.Reduces (.error reason)) : ¬t.Reducible := by
  have hunknown {u : Tree} (hu : u.truth = .unknown) : ¬u.truth.isKnown = true := by
    rw [hu]
    decide
  cases h with
  | unknownValue unknown neutral =>
    rintro (hknown | ⟨hkind, -⟩)
    · exact hunknown unknown hknown
    · obtain ⟨e, he⟩ := neutral?_isSome_iff.2 hkind
      rw [neutral] at he
      cases he
  | missingOperand unknown neutral missing =>
    rintro (hknown | ⟨-, l, r, hl, hr, -⟩)
    · exact hunknown unknown hknown
    · rcases missing with hnone | hnone
      · rw [hl] at hnone
        cases hnone
      · rw [hr] at hnone
        cases hnone
  | neitherKnown neutral left right other value =>
    rintro (hknown | ⟨-, l, r, hl, hr, hknown⟩)
    · exact hunknown (truth_of_left neutral left other) hknown
    · rw [left] at hl
      rw [right] at hr
      cases hl
      cases hr
      exact hknown.elim (hunknown other) (hunknown value)

theorem Reduces.ne_leftMismatch (h : t.Reduces (.error reason)) (expected got : Truth) :
    reason ≠ .leftMismatch expected got := by
  rintro rfl
  cases h

end Tree

/-! ## Forests -/

namespace Forest

/-- What a forest has come to when the tree `r` stands in the place of the tree `t`, and at most
    one node has been made for it. -/
structure Supplanted (f : Forest) (t r : Tree) (g : Forest) : Prop where
  /-- All that is to be in the place of the expression is there. -/
  there : g.find? r.id = some r
  /-- It hangs where the expression hung, and is a root only if that was one. -/
  place : g.place? r.id = f.place? t.id
  /-- No other node has come. -/
  nodes : ∀ n ∈ g.ids, n ∈ f.ids ∨ n = r.id
  /-- A name has been handed out only if it is that of the node which has come. -/
  next : g.next = if r.id ∈ f.ids then f.next else f.next + 1

theorem Replaced.supplanted (wf : f.WellFormed) (ht : t ∈ f.subtrees) (wf' : g.WellFormed)
    (heir : t.Heir f.next reduction r) (replaced : (f.prepare reduction).Replaced t r g) :
    f.Supplanted t r g where
  there := wf'.find?_eq_some_iff.2 ⟨replaced.mem, rfl⟩
  place := by
    rw [replaced.place?_replacement (wf.prepare _) wf', place?_prepare]
  nodes n hn := by
    obtain ⟨u, hu, rfl⟩ := mem_ids.1 ((replaced.mem_ids_iff (wf.replaceable ht heir)
      (wf.prepare _)).1 hn).1
    by_cases hne : u.id = r.id
    · exact .inr hne
    · exact .inl (id_mem_of_mem_subtrees (mem_of_prepare heir hu hne))
  next := by
    rw [replaced.next]
    cases heir with
    | constant b => exact (if_neg wf.next_notMem).symm
    | operand child =>
      have hr := child_mem_subtrees ht (Tree.branch_of_child? child)
      exact (if_pos (id_mem_of_mem_subtrees hr)).symm

end Forest

/-! ## Tasks -/

namespace Simplify

theorem render_task (wf : w.forest.WellFormed) (short : w.forest.ShortIntegers)
    (ht : t ∈ w.forest.subtrees) :
    ∃ text, w.forest.renderOf (some t.id) = .ok text ∧ Task.render t.id w = (.ok text, w) := by
  have htext := wf.renderOf_of_toPrint short ht (wf.toPrint_self ht)
  refine ⟨_, htext, ?_⟩
  show (w.forest.renderOf (some t.id), w) = _
  rw [htext]

/-- What reduces to nothing is refused, with its text and the reason, and left alone. -/
theorem reduce_of_refused (wf : w.forest.WellFormed) (short : w.forest.ShortIntegers)
    (ht : t ∈ w.forest.subtrees) (hreduction : t.reduction = .error reason) :
    ∃ text, w.forest.renderOf (some t.id) = .ok text ∧
      reduce t.id w = (.error (.refused reason text), w) := by
  obtain ⟨text, htext, hrender⟩ := render_task wf short ht
  refine ⟨text, htext, ?_⟩
  rw [reduce, bind_of_ok (get_task wf ht)]
  simp only [hreduction]
  rw [bind_of_ok hrender]
  rfl

/-- Where all integers are short, nothing can stop a reduction. -/
theorem reduce_of_ok (wf : w.forest.WellFormed) (short : w.forest.ShortIntegers)
    (ht : t ∈ w.forest.subtrees) (hreduction : t.reduction = .ok reduction) :
    ∃ r w', reduce t.id w = (.ok r.id, w') ∧ t.Heir w.forest.next reduction r ∧
      w.forest.Supplanted t r w'.forest := by
  rcases reduce_of_reduction wf ht hreduction with
    ⟨r, g, journal, heq, wf', heir, replaced⟩ | ⟨fault, -, -, hlong⟩
  · exact ⟨r, _, heq, heir, replaced.supplanted wf ht wf' heir⟩
  · exact absurd (fun u hu => short u (Forest.subtree_mem_subtrees hu ht)) hlong

end Simplify

/-! ## Requests -/

namespace Session

theorem reduce_eq (wf : s.forest.WellFormed) (ht : t ∈ s.forest.subtrees) :
    reduce (some t.id) s = perform (Simplify.reduce t.id) s := by
  rw [reduce, bind_of_ok (ask_named wf ht)]

/-- Reducing an expression of a reachable forest succeeds exactly where it can be reduced,
    whatever messages are kept.  What it reduces to takes its place then, a node that is made for
    the purpose or one of its operands.  Where it cannot be reduced it is refused with the reason
    for it, and the session is as it was. -/
theorem reduce_iff_reducible (reachable : s.forest.Reachable) (short : s.forest.ShortIntegers)
    (ht : t ∈ s.forest.subtrees) :
    (t.Reducible → ∃ reduction r s', reduce (some t.id) s = (.ok r.id, s') ∧
      t.Reduces (.ok reduction) ∧ t.Heir s.forest.next reduction r ∧
      s.forest.Supplanted t r s'.forest) ∧
    (¬t.Reducible → ∃ reason text, reduce (some t.id) s = (.error (.refused reason text), s) ∧
      t.Reduces (.error reason) ∧ (∀ expected got, reason ≠ .leftMismatch expected got) ∧
      s.forest.renderOf (some t.id) = .ok text) := by
  have wf := reachable.wellFormed
  have hreduces := t.reduces
  rw [reduce_eq wf ht]
  cases hreduction : t.reduction with
  | ok reduction =>
    rw [hreduction] at hreduces
    refine ⟨fun _ => ?_, fun hnot => absurd hreduces.reducible hnot⟩
    obtain ⟨r, w', heq, heir, supplanted⟩ :=
      Simplify.reduce_of_ok (w := s.toWorkspace) wf short ht hreduction
    exact ⟨reduction, r, _, perform_of_eq heq, hreduces, heir, supplanted⟩
  | error reason =>
    rw [hreduction] at hreduces
    refine ⟨fun h => absurd h hreduces.not_reducible, fun _ => ?_⟩
    obtain ⟨text, htext, heq⟩ :=
      Simplify.reduce_of_refused (w := s.toWorkspace) wf short ht hreduction
    exact ⟨reason, text, perform_of_eq heq, hreduces, hreduces.ne_leftMismatch, htext⟩

/-- `f()`, node 1 of the session below. -/
def callee : Tree := .node 1 .call [(0, .node 0 (.path "f") [])]

/-- `f() && false`, node 3 of the session below. -/
def decision : Tree :=
  .node 3 (.binary .logicalAnd) [(0, callee), (1, .node 2 (.literal (.bool false)) [])]

def deciding : Session :=
  (start .debug).after [.build [.fresh (.binary .logicalAnd)
    [.fresh .call [.fresh (.path "f") []], .fresh (.literal (.bool false)) []]]]

/-- The conjunction reduces to `false`, though the call would not be dropped where side effects
    are minded; the call itself is refused. -/
theorem reduce_iff_reducible_deciding :
    deciding.forest.ShortIntegers ∧ decision ∈ deciding.forest.subtrees ∧ decision.Reducible ∧
      callee ∈ deciding.forest.subtrees ∧ ¬callee.Reducible ∧
      (∃ s', reduce (some 3) deciding = (.ok 4, s') ∧ decision.Reduces (.ok (.constant false)) ∧
        deciding.forest.Supplanted decision (.ofConstant 4 false) s'.forest) ∧
      reduce (some 1) deciding = (.error (.refused .unknownValue "f()"), deciding) ∧
        callee.Reduces (.error .unknownValue) := by
  have reachable : deciding.forest.Reachable := ⟨.debug, _, rfl⟩
  have short : deciding.forest.ShortIntegers := by decide +kernel
  have hdecision : decision ∈ deciding.forest.subtrees :=
    Forest.mem_subtrees_of_mem_trees (.head _)
  have hcallee : callee ∈ deciding.forest.subtrees :=
    Forest.child_mem_subtrees (b := (0, callee)) hdecision (.head _)
  have hreducible : decision.Reducible :=
    .inr ⟨.inl rfl, _, _, rfl, rfl, .inr rfl⟩
  have hnot : ¬callee.Reducible := by
    rintro (hknown | ⟨hkind | hkind, -⟩)
    · cases hknown
    · cases hkind
    · cases hkind
  have hrendered : deciding.forest.renderOf (some 1) = .ok "f()" := by decide +kernel
  obtain ⟨reduction, r, s', heq, hreduces, heir, supplanted⟩ :=
    (reduce_iff_reducible reachable short hdecision).1 hreducible
  obtain ⟨reason, text, herror, hrefuses, -, htext⟩ :=
    (reduce_iff_reducible reachable short hcallee).2 hnot
  -- Nothing is known of the call, and its kind is not that of an operator.
  obtain rfl : reason = .unknownValue := by
    cases hrefuses with
    | unknownValue unknown neutral => rfl
    | missingOperand unknown neutral missing => cases neutral
    | neitherKnown neutral left right other value => cases neutral
  cases htext.symm.trans hrendered
  -- The right operand is the one whose value is known, and decides.
  obtain rfl : reduction = .constant false := by
    cases hreduces with
    | constant value => cases (Truth.ofBool_ne_unknown _) value.symm
    | right neutral left right value other =>
      cases right
      cases other
    | left neutral left right other value =>
      cases neutral
      cases right
      cases value
    | @decided e l r b neutral left right other value decides =>
      cases right
      cases b with
      | false => rfl
      | true => cases value
  cases heir
  exact ⟨short, hdecision, hreducible, hcallee, hnot, ⟨s', heq, hreduces, supplanted⟩, herror,
    hrefuses⟩

end Session

end ShortCircuit

/-
  ShortCircuit.Proofs.Verdicts

  What clients are told when they ask for the value or the purity of a node,
  against what these two stand for: a short-circuit evaluation that consults
  nothing unknown, and the kinds of the nodes that evaluation comes to.
-/

import ShortCircuit.Proofs.Forest.Query
import ShortCircuit.Proofs.Forest.Texts
import ShortCircuit.Proofs.History
import ShortCircuit.Proofs.Tree.Discarding
import ShortCircuit.Proofs.Tree.Evaluation

namespace ShortCircuit

namespace Forest

variable {f : Forest} {t : Tree}

/-! ## Values -/

/-- A node of a reachable forest is known to have a value exactly if short-circuit evaluation
    returns it without consulting an atom; it then has that value whatever the atoms stand for.
    A node of a reachable forest that differs only in what this evaluation does not come to is
    told the same. -/
theorem truthOf_eq_evaluation (reachable : f.Reachable) (ht : t ∈ f.subtrees) :
    ∃ known, f.truthOf (some t.id) = .ok known ∧
      (∀ env v, known = .ofBool v ↔ t.term.evaluate env = (v, [])) ∧
      (∀ v, known = .ofBool v → ∀ env, t.term.value env = v) ∧
      ∀ g : Forest, g.Reachable → ∀ u ∈ g.subtrees, t.Agrees u →
        g.truthOf (some u.id) = .ok known := by
  refine ⟨t.truth, reachable.wellFormed.truthOf_eq ht, ?_, ?_, ?_⟩
  · exact fun env v => Tree.truth_eq_ofBool_iff env
  · exact fun v h env => Tree.value_of_truth h env
  · intro g hg u hu agrees
    rw [hg.wellFormed.truthOf_eq hu, Tree.truth_of_agrees agrees]

/-- `false && f()`, node 3 of the session below. -/
def skipped : Tree :=
  .node 3 (.binary .logicalAnd)
    [(0, .node 0 (.literal (.bool false)) []), (1, .node 2 .call [(0, .node 1 (.path "f") [])])]

def skipping : Session :=
  (Session.start .debug).after [.build [.fresh (.binary .logicalAnd)
    [.fresh (.literal (.bool false)) [], .fresh .call [.fresh (.path "f") []]]]]

/-- `false &&` with nothing behind it, node 1 of the session below. -/
def curtailed : Tree :=
  .node 1 (.binary .logicalAnd) [(0, .node 0 (.literal (.bool false)) [])]

def curtailing : Session :=
  (Session.start .debug).after [.build [.fresh (.binary .logicalAnd)
    [.fresh (.literal (.bool false)) []]]]

/-- Evaluation of `false && …` does not come to the right operand. -/
theorem agrees_skipped : skipped.Agrees curtailed := by
  have hconsults {s : Int} (hs : skipped.Consults s) : s = 0 := by
    cases hs with
    | and construct left =>
      have hfalse : (false, []) = (true, []) := left fun _ => true
      cases hfalse
    | or construct => cases construct
    | xor construct => cases construct
    | _ => rfl
  refine .node rfl (fun s hs => ?_) fun s c d hs hc hd => ?_
  · cases hconsults hs
    rfl
  · cases hconsults hs
    cases hc
    cases hd
    refine .node rfl (fun s hs => ?_) fun s c d hs hc => ?_
    · rfl
    · cases hc

/-- It is false, and would be with nothing behind the operator. -/
theorem truthOf_eq_evaluation_skipped :
    skipped ∈ skipping.forest.subtrees ∧ skipping.forest.truthOf (some 3) = .ok .no ∧
      (∀ env, skipped.term.evaluate env = (false, [])) ∧
      (∀ env, skipped.term.value env = false) ∧
      curtailing.forest.truthOf (some 1) = .ok .no := by
  have ht : skipped ∈ skipping.forest.subtrees := mem_subtrees_of_mem_trees (.head _)
  have hu : curtailed ∈ curtailing.forest.subtrees := mem_subtrees_of_mem_trees (.head _)
  have hfalse : skipping.forest.truthOf (some 3) = .ok .no := by decide +kernel
  obtain ⟨known, htruth, hevaluate, hvalue, hagrees⟩ :=
    truthOf_eq_evaluation ⟨.debug, _, rfl⟩ ht
  cases htruth.symm.trans hfalse
  exact ⟨ht, hfalse, fun env => (hevaluate env false).1 rfl, hvalue false rfl,
    hagrees curtailing.forest ⟨.debug, _, rfl⟩ curtailed hu agrees_skipped⟩

/-! ## Purity -/

/-- A node of a reachable forest is impure exactly if its evaluation comes to a node that diverts
    the flow, and pure exactly if all nodes that it comes to are inert and lack nothing.  Of any
    other node nothing is known.  So whatever runs code keeps all from being dropped whose
    evaluation comes to it. -/
theorem purityOf_exact (reachable : f.Reachable) (ht : t ∈ f.subtrees) :
    ∃ verdict, f.purityOf (some t.id) = .ok verdict ∧
      (verdict = .impure ↔ ∃ u, t.Reaches u ∧ u.kind.diverts = true) ∧
      (verdict = .pure ↔ ∀ u, t.Reaches u → u.kind.isInert = true ∧ u.IsFilled) ∧
      (verdict = .unknown ↔ (¬∃ u, t.Reaches u ∧ u.kind.diverts = true) ∧
        ¬∀ u, t.Reaches u → u.kind.isInert = true ∧ u.IsFilled) ∧
      ∀ u, t.Reaches u → u.kind.runsCode = true → verdict.mayDiscard = false := by
  have wf := reachable.wellFormed
  have slotted : t.Slotted := wf.slotted ht
  refine ⟨t.purity, wf.purityOf_eq ht, Tree.impure_iff_reaches slotted,
    Tree.pure_iff_reaches slotted, ?_, ?_⟩
  · rw [← Tree.impure_iff_reaches slotted, ← Tree.pure_iff_reaches slotted]
    exact Purity.eq_unknown_iff
  · exact fun u hu hruns => Tree.not_mayDiscard_of_reaches slotted hu hruns

/-- `f()`, a part of the tuple below. -/
def invoked : Tree := .node 2 .call [(0, .node 1 (.path "f") [])]

/-- `(x, f())`, node 3 of the session below. -/
def gathered : Tree := .node 3 .tuple [(0, .node 0 (.path "x") []), (1, invoked)]

def gathering : Session :=
  (Session.start .debug).after
    [.build [.fresh .tuple [.fresh (.path "x") [], .fresh .call [.fresh (.path "f") []]]]]

/-- The call keeps the tuple from being dropped. -/
theorem purityOf_exact_gathered :
    gathered ∈ gathering.forest.subtrees ∧ gathered.Reaches invoked ∧
      gathering.forest.purityOf (some 3) = .ok .unknown ∧
      (¬∃ u, gathered.Reaches u ∧ u.kind.diverts = true) ∧
      (¬∀ u, gathered.Reaches u → u.kind.isInert = true ∧ u.IsFilled) ∧
      Purity.unknown.mayDiscard = false := by
  have ht : gathered ∈ gathering.forest.subtrees := mem_subtrees_of_mem_trees (.head _)
  have hreaches : gathered.Reaches invoked := .single ⟨1, .inr rfl, rfl⟩
  have hverdict : gathering.forest.purityOf (some 3) = .ok .unknown := by decide +kernel
  obtain ⟨verdict, hpurity, -, -, hunknown, hruns⟩ := purityOf_exact ⟨.debug, _, rfl⟩ ht
  cases hpurity.symm.trans hverdict
  obtain ⟨hdiverts, hinert⟩ := hunknown.1 rfl
  exact ⟨ht, hreaches, hverdict, hdiverts, hinert, hruns invoked hreaches rfl⟩

end Forest

end ShortCircuit

/-
  ShortCircuit.Proofs.Confluence

  The order of simplifications does not matter.  Each of them leaves normal
  forms as they are, and where nothing is left to simplify the normal form is
  the shape; so whatever has been simplified first, the same is left in the end,
  but for the names of nodes and the order in which they are listed.
-/

import ShortCircuit.Proofs.Applicability
import ShortCircuit.Proofs.Forest.Renaming
import ShortCircuit.Proofs.Run
import ShortCircuit.Proofs.Tree.NormalForm

namespace ShortCircuit

variable {f f' g g' : Forest} {t u r : Tree} {name heir heir' : NodeId → NodeId}

namespace Forest

/-! ## Nothing to simplify -/

/-- There is nothing to simplify around any expression. -/
def Inapplicable (f : Forest) : Prop :=
  ∀ t ∈ f.subtrees, t.isExpression = true → f.isApplicableAt (some t.id) = .ok false

instance (f : Forest) : Decidable f.Inapplicable :=
  inferInstanceAs (Decidable (∀ t ∈ f.subtrees, t.isExpression = true → _ = _))

theorem WellFormed.inapplicable_iff (wf : f.WellFormed) : f.Inapplicable ↔ f.Settled := by
  rw [wf.settled_iff]
  have hnone (t : Tree) (ht : t ∈ f.subtrees) :
      f.isApplicableAt (some t.id) = .ok false ↔ f.target? t.id = none := by
    rw [isApplicableAt_eq (id_mem_of_mem_subtrees ht) wf]
    cases f.target? t.id <;> simp
  exact forall₃_congr fun t ht _ => hnone t ht

/-! ## Normal forms of roots -/

/-- Where nothing is left to simplify, normal forms are shapes. -/
theorem Settled.settled_eq_shape (h : f.Settled) (wf : f.WellFormed) (ht : t ∈ f.subtrees) :
    t.settled = t.shape := by
  refine Tree.settled_eq_shape (wf.slotted ht) fun u hu => ?_
  by_contra hnot
  obtain ⟨reduction, rule⟩ := Tree.isSimplifiable_iff.1 (by simpa using hnot)
  exact h u (subtree_mem_subtrees hu ht) reduction rule

/-- A contraction puts a tree of the same normal form in the place of the expression. -/
theorem Contraction.settled_eq (step : f.Contraction t r g) (wf : f.WellFormed)
    (ht : t ∈ f.subtrees) : r.settled = t.settled := by
  obtain ⟨reduction, rule, heir, -⟩ := step
  exact Tree.settled_heir rule heir (wf.nodup_tree ht) (wf.slotted ht)

/-- Heirs have the normal forms of the roots whose places they have taken. -/
theorem Contractions.settled_eq (steps : f.Contractions g heir) (wf : f.WellFormed)
    (hu : u ∈ g.subtrees) (ht : t ∈ f.trees) (hid : u.id = heir t.id) : u.settled = t.settled := by
  have hanswers := steps.answer_eq wf Tree.nameless_settled.local (P := fun _ => True) trivial
    fun wfg _ _ ht step => ⟨trivial, step.settled_eq wfg ht⟩
  exact hanswers.2.2 u hu t ht hid

/-- What two forests that differ in names and order only come to, by whatever contractions,
    differs in names and order only. -/
theorem Renaming.of_contractions (iso : f.Renaming f' name) (wf : f.WellFormed)
    (wf' : f'.WellFormed) (steps : f.Contractions g heir) (steps' : f'.Contractions g' heir')
    (settled : g.Settled) (settled' : g'.Settled) :
    ∃ name', g.Renaming g' name' ∧ ∀ n ∈ f.roots, name' (heir n) = heir' (name n) := by
  have wfg := steps.wellFormed wf
  have wfg' := steps'.wellFormed wf'
  have hbij := steps.bijOn_roots wf
  have hbij' := steps'.bijOn_roots wf'
  have hname := iso.bijOn_roots wf wf'
  -- Two roots match if they have inherited the places of a root and of its namesake.
  have matching : g.Matching g' fun a b => ∃ n ∈ f.roots, a = heir n ∧ b = heir' (name n) := by
    refine ⟨fun u hu => ?_, fun v hv => ?_, ?_, ?_, ?_⟩
    · obtain ⟨n, hn, heq⟩ := hbij.surjOn (mem_roots.2 ⟨u, hu, rfl⟩)
      obtain ⟨v, hv, hid⟩ := mem_roots.1 (hbij'.mapsTo (hname.mapsTo hn))
      exact ⟨v, hv, n, hn, heq.symm, hid⟩
    · obtain ⟨m, hm, heq⟩ := hbij'.surjOn (mem_roots.2 ⟨v, hv, rfl⟩)
      obtain ⟨n, hn, rfl⟩ := hname.surjOn hm
      obtain ⟨u, hu, hid⟩ := mem_roots.1 (hbij.mapsTo hn)
      exact ⟨u, hu, n, hn, hid, heq.symm⟩
    · rintro a b b' ⟨n, hn, rfl, rfl⟩ ⟨m, hm, heq, rfl⟩
      rw [hbij.injOn hn hm heq]
    · rintro a a' b ⟨n, hn, rfl, rfl⟩ ⟨m, hm, rfl, heq⟩
      rw [hname.injOn hn hm (hbij'.injOn (hname.mapsTo hn) (hname.mapsTo hm) heq)]
    · rintro u hu v hv ⟨n, hn, hun, hvn⟩
      obtain ⟨t, ht, rfl⟩ := mem_roots.1 hn
      obtain ⟨t', ht', hid⟩ := mem_roots.1 (hname.mapsTo hn)
      have hu' := mem_subtrees_of_mem_trees hu
      have hv' := mem_subtrees_of_mem_trees hv
      -- Both have the normal form of the roots whose places they have inherited.
      have hroots : t.settled = t'.settled :=
        iso.answer_eq wf wf' Tree.nameless_settled (mem_subtrees_of_mem_trees ht)
          (mem_subtrees_of_mem_trees ht') hid
      calc u.shape
        _ = u.settled := (settled.settled_eq_shape wfg hu').symm
        _ = t.settled := steps.settled_eq wf hu' ht hun
        _ = t'.settled := hroots
        _ = v.settled := (steps'.settled_eq wf' hv' ht' (hid ▸ hvn)).symm
        _ = v.shape := settled'.settled_eq_shape wfg' hv'
  obtain ⟨name', iso', hroots⟩ := matching.exists_renaming wfg wfg'
  refine ⟨name', iso', fun n hn => ?_⟩
  obtain ⟨u, hu, hid⟩ := mem_roots.1 (hbij.mapsTo hn)
  obtain ⟨v, hv, hid'⟩ := mem_roots.1 (hbij'.mapsTo (hname.mapsTo hn))
  rw [← hid, ← hid']
  exact hroots u hu v hv ⟨n, hn, hid, hid'⟩

end Forest

namespace Simplify

/-! ## Runs and passes -/

/-- A pass that is not cut short, with what stands afterwards in the places of the roots. -/
def Completes (limit : Int) (w w' : Workspace) (heir : NodeId → NodeId) : Prop :=
  (∃ count, pass limit w = (.ok count, w')) ∧ w'.forest.Inapplicable ∧
    ∃ u, Run w u heir ∧ u.forest = w'.forest

/-- Whatever is simplified first, in the end the same is left, but for names and order.  This
    holds of any simplifications around any nodes, and of passes over forests that differ in
    names and order from the start. -/
theorem confluent :
    (∀ (w w₁ w₂ : Workspace) (heir₁ heir₂ : NodeId → NodeId), w.forest.Reachable →
      Run w w₁ heir₁ → Run w w₂ heir₂ → w₁.forest.Inapplicable → w₂.forest.Inapplicable →
      ∃ name, w₁.forest.Renaming w₂.forest name ∧
        ∀ n ∈ w.forest.roots, name (heir₁ n) = heir₂ n) ∧
    ∀ (w w' : Workspace) (name : NodeId → NodeId) (limit limit' : Int), w.forest.Reachable →
      w'.forest.Reachable → w.forest.Renaming w'.forest name → w.forest.ShortIntegers →
      w.forest.size ≤ limit → w'.forest.size ≤ limit' →
      ∃ v v' heir heir' name', Completes limit w v heir ∧ Completes limit' w' v' heir' ∧
        v.forest.Renaming v'.forest name' ∧
        ∀ n ∈ w.forest.roots, name' (heir n) = heir' (name n) := by
  refine ⟨?_, ?_⟩
  · -- Two runs from one forest: from one that is a renaming of itself.
    intro w w₁ w₂ heir₁ heir₂ reachable run₁ run₂ done₁ done₂
    have wf := reachable.wellFormed
    exact (Forest.Renaming.refl w.forest).of_contractions wf wf (run₁.contractions wf)
      (run₂.contractions wf) ((run₁.wellFormed wf).inapplicable_iff.1 done₁)
      ((run₂.wellFormed wf).inapplicable_iff.1 done₂)
  · -- Two passes: each is a run, and its limit is high enough for it to come to an end.
    intro w w' name limit limit' reachable reachable' iso short hlimit hlimit'
    have wf := reachable.wellFormed
    have wf' := reachable'.wellFormed
    have short' := iso.shortIntegers wf wf' short
    obtain ⟨count, u, v, heir, run, hpass, hforest, settled⟩ :=
      exists_run_of_pass wf short hlimit
    obtain ⟨count', u', v', heir', run', hpass', hforest', settled'⟩ :=
      exists_run_of_pass wf' short' hlimit'
    have wfu := run.wellFormed wf
    have wfu' := run'.wellFormed wf'
    rw [hforest] at settled
    rw [hforest'] at settled'
    obtain ⟨name', iso', hroots⟩ := iso.of_contractions wf wf' (run.contractions wf)
      (run'.contractions wf') settled settled'
    refine ⟨v, v', heir, heir', name', ⟨⟨count, hpass⟩, ?_, u, run, hforest.symm⟩,
      ⟨⟨count', hpass'⟩, ?_, u', run', hforest'.symm⟩, ?_, hroots⟩
    · rw [hforest]
      exact wfu.inapplicable_iff.2 settled
    · rw [hforest']
      exact wfu'.inapplicable_iff.2 settled'
    · rw [hforest, hforest']
      exact iso'

/-! ### One simplification, or two -/

/-- `false && { !true; }` in a workspace that notes everything. -/
def dropping : Workspace :=
  ((Session.start .debug).after [.build [.fresh (.binary .logicalAnd)
    [.fresh (.literal (.bool false)) [], .fresh (.block false) [.fresh .statement
      [.fresh (.unary UnaryOperator.logicalNot.tokens)
        [.fresh (.literal (.bool true)) []]]]]]]).toWorkspace

/-- The whole at once. -/
def droppedAtOnce : Workspace := (simplifyAround 0 dropping).2

/-- The statement first, which is its own region, and the whole afterwards. -/
def droppedInTurn : Workspace := (simplifyAround 0 (simplifyAround 1 dropping).2).2

theorem run_droppedAtOnce : Run dropping droppedAtOnce (Forest.moved 5 6) :=
  .single (n := 0) (by decide +kernel) (Failing.eq_of_toOption (by decide +kernel))

theorem run_droppedInTurn : Run dropping droppedInTurn (Forest.moved 5 7 ∘ Forest.moved 2 6) :=
  .tail (n := 0)
    (.single (n := 1) (by decide +kernel) (Failing.eq_of_toOption (by decide +kernel)))
    (by decide +kernel) (Failing.eq_of_toOption (by decide +kernel))

theorem confluent_dropping :
    (droppedAtOnce.forest.Inapplicable ∧ droppedInTurn.forest.Inapplicable ∧
      ∃ name, droppedAtOnce.forest.Renaming droppedInTurn.forest name ∧
        ∀ n ∈ dropping.forest.roots,
          name (Forest.moved 5 6 n) = (Forest.moved 5 7 ∘ Forest.moved 2 6) n) ∧
    dropping.forest.ShortIntegers ∧ dropping.forest.size ≤ 6 ∧
      ∃ v v' heir heir' name', Completes 6 dropping v heir ∧ Completes 7 dropping v' heir' ∧
        v.forest.Renaming v'.forest name' ∧
        ∀ n ∈ dropping.forest.roots, name' (heir n) = heir' (id n) := by
  have reachable : dropping.forest.Reachable := ⟨.debug, _, rfl⟩
  have done₁ : droppedAtOnce.forest.Inapplicable := by decide +kernel
  have done₂ : droppedInTurn.forest.Inapplicable := by decide +kernel
  have short : dropping.forest.ShortIntegers := by decide +kernel
  have size : dropping.forest.size ≤ 6 := by decide +kernel
  refine ⟨⟨done₁, done₂, ?_⟩, short, size, ?_⟩
  · exact confluent.1 dropping droppedAtOnce droppedInTurn _ _ reachable run_droppedAtOnce
      run_droppedInTurn done₁ done₂
  · exact confluent.2 dropping dropping id 6 7 reachable reachable (Forest.Renaming.refl _) short
      (by decide +kernel) (by decide +kernel)

end Simplify

end ShortCircuit

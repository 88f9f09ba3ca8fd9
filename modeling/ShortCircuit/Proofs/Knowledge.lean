/-
  ShortCircuit.Proofs.Knowledge

  What is known of the nodes that stay when an expression is reduced.  Of those
  around the expression more may be known afterwards, since nothing is known of
  `x && false` and everything of the constant it reduces to.  What was known of
  them is known still, and of all other nodes exactly as much is known as before.
-/

import ShortCircuit.Proofs.Applicability
import ShortCircuit.Proofs.Forest.Ancestry
import ShortCircuit.Proofs.Tree.NormalForm
import ShortCircuit.Proofs.Verdicts

namespace ShortCircuit

variable {α : Type} {f g : Forest} {t u v r : Tree} {n m : NodeId} {D : Tree → α}

/-! ## Trees -/

namespace Tree

/-- Whatever is known of one tree is known of the other, as a value and as a verdict on effects. -/
structure Within (t u : Tree) : Prop where
  truth : t.truth.Within u.truth
  purity : t.purity.Within u.purity

theorem Within.refl (t : Tree) : t.Within t := ⟨.inr rfl, .inr rfl⟩

/-- More is known of a node if more is known of its children. -/
theorem within_of_children (hkind : u.kind = v.kind) (hu : (u.branches.map (·.1)).Nodup)
    (hv : (v.branches.map (·.1)).Nodup)
    (hslots : ∀ s, Option.Rel (fun c d => d.Within c) (u.child? s) (v.child? s)) :
    v.Within u := by
  constructor
  · apply truth_within hkind
    intro s
    unfold truthAt
    have hs := hslots s
    generalize u.child? s = x, v.child? s = y at hs
    cases hs with
    | some h => exact h.truth
    | none => exact .inl rfl
  · apply purity_within hkind hv hu
    intro s
    have hs := hslots s
    generalize u.child? s = x, v.child? s = y at hs
    cases hs with
    | some h => exact .some h.purity
    | none => exact .none

/-- What is known of an expression is known of what it reduces to. -/
theorem Heir.within {next : NodeId} {reduction : Reduction} (heir : t.Heir next reduction r)
    (h : t.reduction = .ok reduction) : t.Within r := by
  have hreduces := t.reduces
  rw [h] at hreduces
  cases hreduces with
  | @constant b value =>
    -- The constant has the value, and is pure; what is known cannot be known to be impure.
    rw [heir.eq_of_constant]
    constructor
    · exact .inr value
    · cases hpurity : t.purity with
      | pure => exact .inr rfl
      | impure => exact absurd hpurity (purity_ne_impure value)
      | unknown => exact .inl rfl
  | right neutral left right value other =>
    have hunknown : t.truth = .unknown := (truth_of_right neutral left right value).trans other
    exact ⟨.inl hunknown, .inl (purity_of_neutral neutral)⟩
  | left neutral left right other value =>
    exact ⟨.inl (truth_of_left neutral left other), .inl (purity_of_neutral neutral)⟩
  | decided neutral left right other value decides =>
    exact ⟨.inl (truth_of_left neutral left other), .inl (purity_of_neutral neutral)⟩

theorem nameless_truth : Nameless truth := by
  intro u v hkind hu hv hslots
  apply truth_congr hkind
  intro s
  rw [truthAt, truthAt, hslots s]

theorem nameless_purity : Nameless purity :=
  fun _ _ hkind hu hv hslots => purity_congr hkind hv hu hslots

end Tree

/-! ## Reductions -/

namespace Forest

namespace Reduced

variable (step : f.Reduced t r g) (wf : f.WellFormed) (wf' : g.WellFormed) (ht : t ∈ f.subtrees)
include step wf wf' ht

/-- What is known of a node is known of it after a reduction, if what is known of the expression
    is known of what it reduces to. -/
theorem within (hr : t.Within r) (hu : u ∈ g.subtrees) (hv : v ∈ f.subtrees)
    (hid : u.id = v.id) : v.Within u := by
  by_cases hur : u.id = r.id
  · -- An operand that has come to another place is the tree that it was.
    rw [wf'.eq_of_id_eq hu step.mem hur, step.heir_eq_of_id_eq wf ht hv (hur.symm.trans hid)]
    exact .refl v
  · refine related_of_image (R := fun u v => v.Within u)
      (fun n => if n = r.id then t.id else n) ?_ hu hv (by rw [if_neg hur, hid])
    intro u hu v hv hid
    by_cases hur : u.id = r.id
    · rw [if_pos hur] at hid
      rw [wf'.eq_of_id_eq hu step.mem hur, wf.eq_of_id_eq hv ht hid]
      exact .inl hr
    · rw [if_neg hur] at hid
      obtain ⟨o, ho, hoid, hkind, hchildren⟩ := step.exists_origin wf ht wf' hu hur
      rw [wf.eq_of_id_eq ho hv (hoid.trans hid.symm)] at hkind hchildren
      exact .inr ⟨hchildren,
        Tree.within_of_children hkind.symm (wf'.nodup_slots hu) (wf.nodup_slots hv)⟩

/-- Nodes that stay keep their answers, whatever takes the place of the expression, if they are
    not around it. -/
theorem answer_eq_beside (hlocal : Tree.Local D) (hu : u ∈ g.subtrees) (hv : v ∈ f.subtrees)
    (hid : u.id = v.id) (hbeside : t.id ∉ v.ids) : D u = D v := by
  by_cases hur : u.id = r.id
  · rw [wf'.eq_of_id_eq hu step.mem hur, step.heir_eq_of_id_eq wf ht hv (hur.symm.trans hid)]
  · refine related_of_image (R := fun u v => t.id ∉ v.ids → D u = D v)
      (fun n => if n = r.id then t.id else n) ?_ hu hv (by rw [if_neg hur, hid]) hbeside
    intro u hu v hv hid
    by_cases hur : u.id = r.id
    · rw [if_pos hur] at hid
      exact .inl fun hbeside => absurd (hid ▸ v.id_mem_ids) hbeside
    · rw [if_neg hur] at hid
      obtain ⟨o, ho, hoid, hkind, hchildren⟩ := step.exists_origin wf ht wf' hu hur
      rw [wf.eq_of_id_eq ho hv (hoid.trans hid.symm)] at hkind hchildren
      refine .inr ⟨hchildren, fun hrel hbeside => ?_⟩
      apply hlocal u v hid.symm hkind.symm (wf'.nodup_slots hu) (wf.nodup_slots hv)
      intro s
      cases hd : v.child? s with
      | none =>
        have hs := hchildren s
        rw [hd] at hs
        rw [Option.map_eq_none_iff.1 hs]
      | some d =>
        -- A child of a node beside the expression is beside it as well.
        have hout : t.id ∉ d.ids := fun hmem => hbeside
          (Tree.ids_subset (Tree.branch_mem_subtrees (Tree.branch_of_child? hd)) hmem)
        obtain ⟨c, hc, hcd⟩ := exists_of_rel_right (hrel s) hd
        rw [hc]
        exact congrArg some (hcd hout)

end Reduced

/-! ## Questions -/

/-- Whatever a client is told about a node, and is not that nothing is known, the client is told
    afterwards. -/
structure Learned (f g : Forest) (n : NodeId) : Prop where
  value : ∃ before after, f.truthOf (some n) = .ok before ∧ g.truthOf (some n) = .ok after ∧
    before.Within after
  verdict : ∃ before after, f.purityOf (some n) = .ok before ∧ g.purityOf (some n) = .ok after ∧
    before.Within after

theorem Learned.of_within (wf : f.WellFormed) (wf' : g.WellFormed) (hv : v ∈ f.subtrees)
    (hu : u ∈ g.subtrees) (hid : u.id = v.id) (h : v.Within u) : f.Learned g v.id where
  value := ⟨v.truth, u.truth, wf.truthOf_eq hv, hid ▸ wf'.truthOf_eq hu, h.truth⟩
  verdict := ⟨v.purity, u.purity, wf.purityOf_eq hv, hid ▸ wf'.purityOf_eq hu, h.purity⟩

end Forest

namespace Session

variable {s s' : Session}

/-- Reducing an expression of a reachable forest only adds to what is known.  Values and verdicts
    on effects that were known stay; at nodes that are not around the expression nothing changes
    at all; and if the value of the expression was known, what it reduces to has this value. -/
theorem reduce_adds_knowledge (reachable : s.forest.Reachable)
    (h : reduce (some n) s = (.ok m, s')) :
    (∀ k ∈ s.forest.ids, k ∈ s'.forest.ids → s.forest.Learned s'.forest k ∧
      (k ∉ s.forest.ancestors n →
        s'.forest.truthOf (some k) = s.forest.truthOf (some k) ∧
        s'.forest.purityOf (some k) = s.forest.purityOf (some k))) ∧
    ∀ b, s.forest.truthOf (some n) = .ok (.ofBool b) →
      s'.forest.truthOf (some m) = .ok (.ofBool b) := by
  have wf := reachable.wellFormed
  obtain ⟨t, ht, rfl, reduction, r, rfl, hreduction, heir, wf', replaced⟩ :=
    Simplify.exists_heir_of_reduce (w := s.toWorkspace) wf (task_of_reduce wf h)
  have step : s.forest.Reduced t r s'.forest := .intro reduction heir replaced
  have hwithin : t.Within r := heir.within hreduction
  constructor
  · intro k hk hk'
    obtain ⟨v, hv, rfl⟩ := Forest.mem_ids.1 hk
    obtain ⟨u, hu, hid⟩ := Forest.mem_ids.1 hk'
    constructor
    · exact .of_within wf wf' hv hu hid (step.within wf wf' ht hwithin hu hv hid)
    · intro hancestors
      have hbeside : t.id ∉ v.ids := fun hmem => hancestors ((wf.mem_ancestors_iff hv).2 hmem)
      have htruth : u.truth = v.truth :=
        step.answer_eq_beside wf wf' ht Tree.nameless_truth.local hu hv hid hbeside
      have hpurity : u.purity = v.purity :=
        step.answer_eq_beside wf wf' ht Tree.nameless_purity.local hu hv hid hbeside
      rw [wf.truthOf_eq hv, wf.purityOf_eq hv, ← hid, wf'.truthOf_eq hu, wf'.purityOf_eq hu,
        htruth, hpurity]
      exact ⟨rfl, rfl⟩
  · intro b hb
    rw [wf.truthOf_eq ht] at hb
    have hvalue : t.truth = .ofBool b := Except.ok.inj hb
    rw [wf'.truthOf_eq step.mem, hwithin.truth.eq_ofBool hvalue]

/-- `(!(x && false), !true)`, with the conjunction at node 2 and the last negation at node 6. -/
def doubting : Session :=
  (start .debug).after [.build [.fresh .tuple
    [.fresh (.unary UnaryOperator.logicalNot.tokens) [.fresh .paren
      [.fresh (.binary .logicalAnd) [.fresh (.path "x") [], .fresh (.literal (.bool false)) []]]],
    .fresh (.unary UnaryOperator.logicalNot.tokens) [.fresh (.literal (.bool true)) []]]]]

/-- Nothing is known of the first negation before the conjunction has been reduced, and the second
    one, which is known to be false, reduces to what is known to be false. -/
theorem reduce_adds_knowledge_doubting :
    reduce (some 2) doubting = (.ok 8, (reduce (some 2) doubting).2) ∧
      doubting.forest.truthOf (some 4) = .ok .unknown ∧
      (reduce (some 2) doubting).2.forest.truthOf (some 4) = .ok .yes ∧
      doubting.forest.Learned (reduce (some 2) doubting).2.forest 4 ∧
      (reduce (some 2) doubting).2.forest.truthOf (some 6) =
        doubting.forest.truthOf (some 6) ∧
      reduce (some 6) doubting = (.ok 8, (reduce (some 6) doubting).2) ∧
      (reduce (some 6) doubting).2.forest.truthOf (some 8) = .ok (.ofBool false) := by
  have reachable : doubting.forest.Reachable := by
    unfold doubting
    exact ⟨.debug, _, rfl⟩
  have hfirst : reduce (some 2) doubting = (.ok 8, (reduce (some 2) doubting).2) :=
    Failing.eq_of_toOption (by decide +kernel)
  have hsecond : reduce (some 6) doubting = (.ok 8, (reduce (some 6) doubting).2) :=
    Failing.eq_of_toOption (by decide +kernel)
  have hkept := (reduce_adds_knowledge reachable hfirst).1
  have hvalue := (reduce_adds_knowledge reachable hsecond).2
  refine ⟨hfirst, by decide +kernel, by decide +kernel, ?_, ?_, hsecond, ?_⟩
  · exact (hkept 4 (by decide +kernel) (by decide +kernel)).1
  · exact ((hkept 6 (by decide +kernel) (by decide +kernel)).2 (by decide +kernel)).1
  · exact hvalue false (by decide +kernel)

end Session

end ShortCircuit

/-
  ShortCircuit.Proofs.Forest.Target

  What the search for something to simplify finds: an expression that contains
  the node, and that a rule applies to.  A forest in which it finds nothing
  around any expression is one that no rule applies to anywhere, and a pass ends
  in no other.
-/

import ShortCircuit.Forest.Query
import ShortCircuit.Proofs.Forest.Walks
import ShortCircuit.Proofs.Tree.Rules

namespace ShortCircuit

/-! ## Expressions -/

namespace Tree

variable {t : Tree} {b : Bool} {reduction : Reduction}

theorem isExpression_of_known (h : t.truth = .ofBool b) : t.isExpression = true := by
  by_contra hnot
  -- What is no expression is a let or a statement, of which nothing is known.
  have hkind : t.kind.isExpression = false := by simpa [isExpression] using hnot
  unfold Kind.isExpression at hkind
  split at hkind
  · rename_i name hlet
    rw [truth_eq, hlet] at h
    exact absurd h.symm (Truth.ofBool_ne_unknown b)
  · rename_i hstatement
    rw [truth_eq, hstatement] at h
    exact absurd h.symm (Truth.ofBool_ne_unknown b)
  · cases hkind

theorem isExpression_of_neutral {e : Truth} (h : t.neutral? = some e) : t.isExpression = true := by
  unfold isExpression
  rcases neutral?_eq_some h with ⟨hkind, -⟩ | ⟨hkind, -⟩ <;> rw [hkind] <;> rfl

/-- Only expressions are simplified. -/
theorem Rule.isExpression (rule : t.Rule reduction) : t.isExpression = true := by
  cases rule with
  | constant notLiteral value => exact isExpression_of_known value
  | right neutral => exact isExpression_of_neutral neutral
  | left neutral => exact isExpression_of_neutral neutral
  | decided neutral => exact isExpression_of_neutral neutral

end Tree

namespace Forest

variable {f : Forest} {t u : Tree} {n m : NodeId}

/-! ## Around a node -/

theorem mem_trail_of_mem_region (h : t ∈ f.region n) : t ∈ f.trail n :=
  (List.dropWhile_suffix _).subset ((List.takeWhile_prefix _).subset h)

namespace WellFormed

variable (wf : f.WellFormed)
include wf

/-- The trail of a node starts with its own tree. -/
theorem trail_eq_cons (ht : t ∈ f.subtrees) : ∃ rest, f.trail t.id = t :: rest := by
  rcases mem_trees_or_child ht with hroot | ⟨u, hu, b, hb, rfl⟩
  · exact ⟨[], wf.trail_root hroot⟩
  · exact ⟨f.trail u.id, wf.trail_branch hu hb⟩

/-- The region around an expression begins with it. -/
theorem region_of_isExpression (ht : t ∈ f.subtrees) (hexpr : t.isExpression = true) :
    f.region t.id = (f.trail t.id).takeWhile (·.isExpression) := by
  obtain ⟨rest, htrail⟩ := wf.trail_eq_cons ht
  rw [region, htrail, List.dropWhile_cons_of_neg (by simp [hexpr])]

/-- An expression belongs to the region around itself. -/
theorem self_mem_region (ht : t ∈ f.subtrees) (hexpr : t.isExpression = true) :
    t ∈ f.region t.id := by
  obtain ⟨rest, htrail⟩ := wf.trail_eq_cons ht
  rw [wf.region_of_isExpression ht hexpr, htrail, List.takeWhile_cons_of_pos hexpr]
  exact List.mem_cons_self ..

/-- What is found contains the node, and a rule applies to it. -/
theorem exists_of_target? (h : f.target? n = some m) :
    ∃ t ∈ f.subtrees, t.id = m ∧ n ∈ t.ids ∧ ∃ reduction, t.Rule reduction := by
  obtain ⟨t, hlast, rfl⟩ := Option.map_eq_some_iff.1 h
  obtain ⟨hregion, hsimp⟩ := List.mem_filter.1 (List.mem_of_getLast? hlast)
  obtain ⟨ht, hn⟩ := wf.mem_trail_iff.1 (mem_trail_of_mem_region hregion)
  exact ⟨t, ht, rfl, hn, Tree.isSimplifiable_iff.1 hsimp⟩

/-- Where nothing is found around an expression, no rule applies to it. -/
theorem not_rule_of_target? (ht : t ∈ f.subtrees) (h : f.target? t.id = none)
    {reduction : Reduction} : ¬t.Rule reduction := by
  intro rule
  have hmem : t ∈ (f.region t.id).filter (·.isSimplifiable) :=
    List.mem_filter.2 ⟨wf.self_mem_region ht rule.isExpression, Tree.isSimplifiable_iff.2 ⟨_, rule⟩⟩
  rw [target?, Option.map_eq_none_iff, List.getLast?_eq_none_iff] at h
  rw [h] at hmem
  cases hmem

theorem targetOf_eq (hn : n ∈ f.ids) : f.targetOf (some n) = .ok (f.target? n) := by
  obtain ⟨t, ht, rfl⟩ := mem_ids.1 hn
  rw [targetOf, wf.get_self ht]
  rfl

end WellFormed

theorem isApplicableAt_eq (hn : n ∈ f.ids) (wf : f.WellFormed) :
    f.isApplicableAt (some n) = .ok (f.target? n).isSome := by
  rw [isApplicableAt, wf.targetOf_eq hn]
  rfl

/-! ## Nothing to simplify -/

/-- No rule applies to any node. -/
def Settled (f : Forest) : Prop := ∀ t ∈ f.subtrees, ∀ reduction, ¬t.Rule reduction

theorem settled_of_size_eq_zero (h : f.size = 0) : f.Settled := by
  intro t ht
  rw [size, List.length_eq_zero_iff] at h
  rw [h] at ht
  cases ht

namespace WellFormed

variable (wf : f.WellFormed)
include wf

/-- A forest is settled if nothing is found around any of its expressions. -/
theorem settled_iff :
    f.Settled ↔ ∀ t ∈ f.subtrees, t.isExpression = true → f.target? t.id = none := by
  refine ⟨?_, ?_⟩
  · intro h t ht _
    cases htarget : f.target? t.id with
    | none => rfl
    | some m =>
      obtain ⟨u, hu, -, -, reduction, rule⟩ := wf.exists_of_target? htarget
      exact absurd rule (h u hu reduction)
  · intro h t ht reduction rule
    exact wf.not_rule_of_target? ht (h t ht rule.isExpression) rule

/-! ## Candidates -/

/-- A pass looks no further where the forest is settled. -/
theorem candidate?_eq_none_iff : f.candidate? = none ↔ f.Settled := by
  rw [wf.settled_iff, candidate?, List.find?_eq_none]
  refine ⟨?_, ?_⟩
  · intro h t ht hexpr
    have hnot := h t.id (wf.mem_walk_iff.2 (id_mem_of_mem_subtrees ht))
    rw [wf.find?_eq_some_iff.2 ⟨ht, rfl⟩, Option.elim_some, hexpr, Bool.true_and] at hnot
    simpa using hnot
  · intro h n hn
    obtain ⟨t, ht, rfl⟩ := mem_ids.1 (wf.mem_walk_iff.1 hn)
    rw [wf.find?_eq_some_iff.2 ⟨ht, rfl⟩, Option.elim_some]
    by_cases hexpr : t.isExpression = true
    · simp [h t ht hexpr]
    · simp [hexpr]

theorem exists_of_candidate? (h : f.candidate? = some n) :
    n ∈ f.ids ∧ ∃ m, f.target? n = some m := by
  have hmem := List.mem_of_find?_eq_some h
  have hfound := List.find?_some h
  rw [Bool.and_eq_true, Option.isSome_iff_exists] at hfound
  exact ⟨wf.mem_walk_iff.1 hmem, hfound.2⟩

end WellFormed

end Forest

end ShortCircuit

/-
  ShortCircuit.Proofs.Traversals

  What clients are told when they ask for a walk.  A walk after comes to every
  node once, and to none before all below it, whatever the history of the forest.
  A walk before comes to every node once, but a search that was started at a node
  older than its parent does not wait for the parent: such a walk is a pre-order
  only where every root is the oldest node of its tree and children have been
  attached in the order of their slots.
-/

import ShortCircuit.Proofs.Forest.Target
import ShortCircuit.Proofs.History

namespace ShortCircuit

/-- Of two members of a list, one stands before the other. -/
theorem rel_or_rel_of_pairwise {α : Type} {R : α → α → Prop} {l : List α} {a b : α}
    (h : l.Pairwise R) (ha : a ∈ l) (hb : b ∈ l) (hne : a ≠ b) : R a b ∨ R b a := by
  obtain ⟨before, after, rfl⟩ := List.append_of_mem ha
  rw [List.pairwise_append, List.pairwise_cons] at h
  rcases List.mem_append.1 hb with hb | hb
  · exact .inr (h.2.2 b hb a (List.mem_cons_self ..))
  · rcases List.mem_cons.1 hb with rfl | hb
    · exact absurd rfl hne
    · exact .inl (h.2.1.1 b hb)

namespace Forest

variable {f : Forest} {t r : Tree} {m n : NodeId} {walk : List NodeId}

/-! ## Walks after -/

/-- Some nodes, each of them once, and none of them before one that lies below it. -/
structure BottomUp (f : Forest) (nodes walk : List NodeId) : Prop where
  nodup : walk.Nodup
  mem : ∀ n, n ∈ walk ↔ n ∈ nodes
  below : walk.Pairwise fun m n => m ∉ f.ancestors n

theorem WellFormed.bottomUp_tree (wf : f.WellFormed) (ht : t ∈ f.subtrees) :
    f.BottomUp t.ids (t.walk .after []) where
  nodup := (Tree.walk_perm .after t).nodup_iff.2 (wf.nodup_tree ht)
  mem _ := Tree.mem_walk_iff
  below := by
    refine (Tree.pairwise_walk_after (wf.nodup_tree ht)).imp_of_mem fun hm _ hnot => ?_
    rwa [wf.liesBelow_iff ht (Tree.mem_walk_iff.1 hm)] at hnot

theorem WellFormed.bottomUp (wf : f.WellFormed) : f.BottomUp f.ids (f.walk .after) where
  nodup := wf.nodup_walk .after
  mem _ := wf.mem_walk_iff
  below := wf.pairwise_walk_after

/-- What is found for a pass is an expression around which there is one to simplify. -/
theorem WellFormed.exists_expression_of_candidate? (wf : f.WellFormed)
    (h : f.candidate? = some n) :
    ∃ t ∈ f.subtrees, t.id = n ∧ t.isExpression = true ∧
      f.isApplicableAt (some n) = .ok true := by
  have hfound := List.find?_some h
  rw [Bool.and_eq_true] at hfound
  obtain ⟨hn, -⟩ := wf.exists_of_candidate? h
  obtain ⟨t, ht, rfl⟩ := mem_ids.1 hn
  rw [wf.find?_eq_some_iff.2 ⟨ht, rfl⟩, Option.elim_some] at hfound
  refine ⟨t, ht, rfl, hfound.1, ?_⟩
  rw [isApplicableAt_eq hn wf, hfound.2]

/-- In a reachable forest a walk after comes to every node once, and to none before all that lies
    below it.  From a node on it comes to that node and all below it, to the node itself last.
    Something to simplify is found exactly if some expression is to be simplified. -/
theorem walk_after_bottomUp (reachable : f.Reachable) :
    (∃ walk, f.walkFrom .after none = .ok walk ∧ f.BottomUp f.ids walk) ∧
    (∀ n ∈ f.ids, ∃ walk nodes, f.walkFrom .after (some n) = .ok walk ∧
      f.descendantsOf (some n) = .ok nodes ∧ f.BottomUp nodes walk ∧
      walk.getLast? = some n) ∧
    ((∃ n, f.candidate? = some n) ↔
      ∃ t ∈ f.subtrees, t.isExpression = true ∧ t.isSimplifiable = true) ∧
    ∀ n, f.candidate? = some n → ∃ t ∈ f.subtrees, t.id = n ∧ t.isExpression = true ∧
      f.isApplicableAt (some n) = .ok true := by
  have wf := reachable.wellFormed
  refine ⟨⟨f.walk .after, rfl, wf.bottomUp⟩, fun n hn => ?_, ?_, fun n h => ?_⟩
  · obtain ⟨t, ht, rfl⟩ := mem_ids.1 hn
    have hfrom : f.walkFrom .after (some t.id) = .ok (t.walk .after []) := by
      simp only [walkFrom, wf.find?_eq_some_iff.2 ⟨ht, rfl⟩]
    have hbelow : f.descendantsOf (some t.id) = .ok (sortBy (fun a b => decide (a ≤ b)) t.ids) := by
      have hnamed : f.named (some t.id) = .ok t := wf.get_self ht
      rw [descendantsOf, hnamed]
      rfl
    have tree := wf.bottomUp_tree ht
    refine ⟨_, _, hfrom, hbelow, ⟨tree.nodup, fun m => ?_, tree.below⟩, t.getLast?_walk_after⟩
    exact (tree.mem m).trans mem_sortBy.symm
  · rw [← Option.isSome_iff_exists, Option.isSome_iff_ne_none, Ne, wf.candidate?_eq_none_iff,
      Settled]
    constructor
    · intro h
      by_contra hnone
      refine h fun t ht reduction rule => hnone ⟨t, ht, rule.isExpression, ?_⟩
      exact Tree.isSimplifiable_iff.2 ⟨reduction, rule⟩
    · rintro ⟨t, ht, -, hsimplifiable⟩ h
      obtain ⟨reduction, rule⟩ := Tree.isSimplifiable_iff.1 hsimplifiable
      exact h t ht reduction rule
  · exact wf.exists_expression_of_candidate? h

/-- `(true)`, built from the inside: the literal is node 0, the parentheses are node 1. -/
def enclosed : Forest :=
  ((Session.start .debug).after [.build [.fresh .paren [.fresh (.literal (.bool true)) []]]]).forest

theorem walk_after_bottomUp_enclosed :
    (∃ walk, enclosed.walkFrom .after none = .ok walk ∧ enclosed.BottomUp enclosed.ids walk) ∧
      ∃ n, enclosed.candidate? = some n := by
  have h := walk_after_bottomUp (f := enclosed) ⟨.debug, _, rfl⟩
  exact ⟨h.1, h.2.2.1.2 ⟨_, mem_subtrees_of_mem_trees (.head _), rfl, by decide⟩⟩

/-! ## Walks before -/

/-- All nodes, each of them once, none before one that it lies below, those of a subtree in one
    stretch, and the children of a node in the order of their slots. -/
structure Preordered (f : Forest) (walk : List NodeId) : Prop where
  nodup : walk.Nodup
  mem : ∀ n, n ∈ walk ↔ n ∈ f.ids
  above : walk.Pairwise fun m n => n ∉ f.ancestors m
  stretch : ∀ n ∈ f.ids, ∃ nodes, nodes <:+: walk ∧ ∀ m, m ∈ nodes ↔ n ∈ f.ancestors m
  siblings : walk.Pairwise fun c d => ∀ p i j, f.place? c = some (p, i) →
    f.place? d = some (p, j) → i < j

/-- Every root is the oldest node of its tree, and the children of a node have been attached in the
    order of their slots. -/
structure GrownDownwards (f : Forest) : Prop where
  oldest : ∀ t ∈ f.trees, ∀ n ∈ t.ids, t.id ≤ n
  attached : ∀ t ∈ f.subtrees, (t.branches.map (·.1)).Pairwise (· < ·)

/-- The children of a node that the same search comes to, in the order in which they were
    attached. -/
def reachedTogether (f : Forest) (t : Tree) : List NodeId :=
  (t.branches.map (·.2.id)).filter (f.eldest · = f.eldest t.id)

namespace WellFormed

variable (wf : f.WellFormed)
include wf

theorem eldest_root (hr : r ∈ f.trees) : f.eldest r.id = r.id := by
  have hid := id_mem_of_mem_subtrees (mem_subtrees_of_mem_trees hr)
  have hmem := wf.eldest_mem hid
  rwa [wf.ancestors_root hid (wf.place?_root hr), List.mem_singleton] at hmem

/-- What lies above a node lies in its tree. -/
theorem mem_tree_of_mem_ancestors (hr : r ∈ f.trees) (hn : n ∈ r.ids) (hm : m ∈ f.ancestors n) :
    m ∈ r.ids := by
  obtain ⟨t, ht, rfl⟩ := mem_ids.1 (wf.mem_ids_of_mem_ancestors hm).2
  obtain ⟨r', hr', htr⟩ := List.mem_flatMap.1 ht
  have hnr' := Tree.ids_subset htr ((wf.mem_ancestors_iff ht).1 hm)
  rw [wf.tree_eq hr hr' hn hnr']
  exact Tree.mem_ids_iff_subtrees.2 ⟨t, htr, rfl⟩

/-- Where roots are the oldest, the nodes of a tree have its root as their eldest. -/
theorem eldest_eq_root (oldest : ∀ t ∈ f.trees, ∀ n ∈ t.ids, t.id ≤ n) (hr : r ∈ f.trees)
    (hn : n ∈ r.ids) : f.eldest n = r.id := by
  have hr' := mem_subtrees_of_mem_trees hr
  have hmem := wf.eldest_mem (ids_subset_ids hr' hn)
  exact le_antisymm (eldest_le ((wf.mem_ancestors_iff hr').2 hn))
    (oldest r hr _ (wf.mem_tree_of_mem_ancestors hr hn hmem))

theorem eldest_eq_of_mem (oldest : ∀ t ∈ f.trees, ∀ n ∈ t.ids, t.id ≤ n) (ht : t ∈ f.subtrees)
    (hn : n ∈ t.ids) : f.eldest n = f.eldest t.id := by
  obtain ⟨r, hr, htr⟩ := List.mem_flatMap.1 ht
  rw [wf.eldest_eq_root oldest hr (Tree.ids_subset htr hn),
    wf.eldest_eq_root oldest hr (Tree.ids_subset htr (Tree.id_mem_ids t))]

/-- Children that the same search comes to are come to in the order in which they were
    attached. -/
theorem reachedTogether_sublist (ht : t ∈ f.subtrees) :
    (f.reachedTogether t).Sublist (f.walk .before) :=
  (t.children_sublist.filter _).trans (wf.stretch_infix ht).sublist

/-- Where children have been attached in the order of their slots, siblings in a tree come in that
    order. -/
theorem pairwise_siblings (attached : ∀ t ∈ f.subtrees, (t.branches.map (·.1)).Pairwise (· < ·))
    (ht : t ∈ f.subtrees) : (t.walk .before []).Pairwise fun c d => ∀ p i j,
      f.place? c = some (p, i) → f.place? d = some (p, j) → i < j := by
  induction t using Tree.induction with
  | node id kind branches ih =>
    have nodup := wf.nodup_tree ht
    -- A node of a branch heads it, or its parent lies in the branch too.
    have hcases {b : Int × Tree} (hb : b ∈ branches) {c p : NodeId} {i : Int} (hc : c ∈ b.2.ids)
        (hplace : f.place? c = some (p, i)) : p = id ∧ i = b.1 ∨ p ∈ b.2.ids := by
      by_cases hid : c = b.2.id
      · rw [hid, wf.place?_branch ht hb] at hplace
        cases hplace
        exact .inl ⟨rfl, rfl⟩
      · exact .inr (wf.parent_mem_ids (child_mem_subtrees ht hb) hc hid hplace)
    rw [Tree.walk_before_of_notMem List.not_mem_nil, List.pairwise_cons]
    refine ⟨fun d hd p i j hi hj => ?_, List.pairwise_flatMap.2 ⟨fun b hb => ?_, ?_⟩⟩
    · -- The parent of the top does not lie below it.
      obtain ⟨b, hb, hd⟩ := List.mem_flatMap.1 hd
      refine absurd ((wf.mem_ancestors_iff ht).2 ?_) (wf.child_notMem_ancestors hi)
      rcases hcases hb (Tree.mem_walk_iff.1 hd) hj with ⟨rfl, -⟩ | hp
      · exact Tree.id_mem_ids (.node p kind branches)
      · exact Tree.ids_subset (Tree.branch_mem_subtrees hb) hp
    · exact ih b hb (child_mem_subtrees ht hb)
    · refine (List.pairwise_map.1 (attached _ ht)).imp_of_mem fun {b b'} hb hb' hlt => ?_
      intro c hc d hd p i j hi hj
      rcases hcases hb (Tree.mem_walk_iff.1 hc) hi with ⟨rfl, rfl⟩ | hp
      · rcases hcases hb' (Tree.mem_walk_iff.1 hd) hj with ⟨-, rfl⟩ | hp
        · exact hlt
        · exact absurd hp (Tree.id_notMem_branch nodup hb')
      · rcases hcases hb' (Tree.mem_walk_iff.1 hd) hj with ⟨rfl, -⟩ | hp'
        · exact absurd hp (Tree.id_notMem_branch nodup hb)
        · rw [Tree.eq_of_mem_branches nodup hb hb' hp hp'] at hlt
          exact absurd hlt (lt_irrefl _)

theorem preordered_of_grownDownwards (grown : f.GrownDownwards) :
    f.Preordered (f.walk .before) where
  nodup := wf.nodup_walk .before
  mem _ := wf.mem_walk_iff
  above := by
    refine wf.pairwise_walk_before.imp_of_mem fun {m n} hm _ h hmem => ?_
    obtain ⟨t, ht, rfl⟩ := mem_ids.1 (wf.mem_ids_of_mem_ancestors hmem).2
    have heq := wf.eldest_eq_of_mem grown.oldest ht ((wf.mem_ancestors_iff ht).1 hmem)
    exact h.2 heq hmem
  stretch n hn := by
    obtain ⟨t, ht, rfl⟩ := mem_ids.1 hn
    refine ⟨_, wf.stretch_infix ht, fun m => ?_⟩
    rw [List.mem_filter, wf.mem_ancestors_iff ht, decide_eq_true_eq]
    exact and_iff_left_of_imp fun hm => wf.eldest_eq_of_mem grown.oldest ht hm
  siblings := by
    refine wf.pairwise_walk (fun t ht => ?_) fun c hc d hd hlt p i j hi hj => ?_
    · exact wf.pairwise_search ht (wf.pairwise_siblings grown.attached ht)
    · -- Siblings have one eldest.
      obtain ⟨u, hu, rfl⟩ := mem_ids.1 (wf.parent_mem_ids_of_place? hi)
      have hc' := wf.mem_ids_of_parent hu (Tree.id_mem_ids u) hi
      have hd' := wf.mem_ids_of_parent hu (Tree.id_mem_ids u) hj
      rw [wf.eldest_eq_of_mem grown.oldest hu hc', wf.eldest_eq_of_mem grown.oldest hu hd'] at hlt
      exact absurd hlt (lt_irrefl _)

theorem grownDownwards_of_preordered (pre : f.Preordered (f.walk .before)) : f.GrownDownwards := by
  have oldest : ∀ t ∈ f.trees, ∀ n ∈ t.ids, t.id ≤ n := by
    intro t ht n hn
    have ht' := mem_subtrees_of_mem_trees ht
    have hn' := ids_subset_ids ht' hn
    by_cases hid : t.id = n
    · exact hid.le
    · -- Of the two, the one that comes first has the older eldest and does not lie below.
      have hpair := rel_or_rel_of_pairwise (pre.above.and wf.pairwise_walk_before)
        (wf.mem_walk_iff.2 (id_mem_of_mem_subtrees ht')) (wf.mem_walk_iff.2 hn') hid
      rcases hpair with ⟨-, hle, -⟩ | ⟨hnot, -⟩
      · calc t.id
          _ = f.eldest t.id := (wf.eldest_root ht).symm
          _ ≤ f.eldest n := hle
          _ ≤ n := eldest_le (wf.self_mem_ancestors hn')
      · exact absurd ((wf.mem_ancestors_iff ht').2 hn) hnot
  refine ⟨oldest, fun t ht => ?_⟩
  have hchildren : f.reachedTogether t = t.branches.map (·.2.id) := by
    refine List.filter_eq_self.2 fun n hn => decide_eq_true ?_
    exact wf.eldest_eq_of_mem oldest ht (t.children_sublist.subset hn)
  have hsub := wf.reachedTogether_sublist ht
  rw [hchildren] at hsub
  rw [List.pairwise_map]
  refine (List.pairwise_map.1 (pre.siblings.sublist hsub)).imp_of_mem fun hb hb' h => ?_
  exact h _ _ _ (wf.place?_branch ht hb) (wf.place?_branch ht hb')

end WellFormed

/-- In a reachable forest a walk before comes to every node once.  Nodes come in the order of the
    age of their eldest, and among those with the same eldest none comes before one that it lies
    below, those of a subtree come in one stretch, and children in the order in which they were
    attached.  All this makes a pre-order if and only if the forest has grown downwards. -/
theorem walk_before_searches (reachable : f.Reachable) :
    ∃ walk, f.walkFrom .before none = .ok walk ∧ walk.Nodup ∧ (∀ n, n ∈ walk ↔ n ∈ f.ids) ∧
      walk.Pairwise (fun m n =>
        f.eldest m ≤ f.eldest n ∧ (f.eldest m = f.eldest n → n ∉ f.ancestors m)) ∧
      (∀ t ∈ f.subtrees, t.ids.filter (f.eldest · = f.eldest t.id) <:+: walk ∧
        (f.reachedTogether t).Sublist walk) ∧
      (f.Preordered walk ↔ f.GrownDownwards) := by
  have wf := reachable.wellFormed
  refine ⟨f.walk .before, rfl, wf.nodup_walk .before, fun n => wf.mem_walk_iff,
    wf.pairwise_walk_before, fun t ht => ?_, ?_⟩
  · exact ⟨wf.stretch_infix ht, wf.reachedTogether_sublist ht⟩
  · exact ⟨wf.grownDownwards_of_preordered, wf.preordered_of_grownDownwards⟩

theorem walk_before_searches_enclosed :
    ∃ walk, enclosed.walkFrom .before none = .ok walk ∧ walk.Nodup ∧
      (∀ n, n ∈ walk ↔ n ∈ enclosed.ids) ∧ ¬enclosed.Preordered walk := by
  obtain ⟨walk, hwalk, nodup, hmem, -, -, hiff⟩ :=
    walk_before_searches (f := enclosed) ⟨.debug, _, rfl⟩
  refine ⟨walk, hwalk, nodup, hmem, fun pre => ?_⟩
  have hle := (hiff.1 pre).oldest _ (.head _) 0 (by decide)
  exact absurd hle (by decide)

/-- The walk over `(true)` comes to the literal before it comes to the parentheses around it. -/
theorem not_walk_before_preordered :
    ¬∀ f : Forest, f.Reachable → ∀ walk, f.walkFrom .before none = .ok walk →
      f.Preordered walk := by
  intro h
  have pre := h enclosed ⟨.debug, _, rfl⟩ [0, 1] rfl
  exact absurd pre.above (by decide)

end Forest

end ShortCircuit

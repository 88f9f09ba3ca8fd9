/-
  ShortCircuit.Proofs.Navigation

  Going down from a node and going up from it.  Below a node lies what edges to
  children lead to; above it lies what one finds by asking for one parent after
  the other.  Each way leads back where the other comes from.  So there is one
  root above every node, the trees of the roots share out the nodes, and removing
  a node takes away what lies below it and nothing else.
-/

import ShortCircuit.Proofs.Arena
import ShortCircuit.Proofs.Atomicity

namespace ShortCircuit

variable {f g : Forest} {s : Session} {t : Tree} {m n : NodeId}

namespace Forest

/-! ## Ways along edges -/

namespace WellFormed

variable (wf : f.WellFormed)
include wf

/-- Edges lead from a node to all nodes of its tree, and to no others. -/
theorem reaches_iff (ht : t ∈ f.subtrees) :
    Relation.ReflTransGen f.Edge t.id m ↔ m ∈ t.ids := by
  refine ⟨fun h => ?_, fun hm => ?_⟩
  · rcases Relation.reflTransGen_iff_eq_or_transGen.1 h with rfl | h
    · exact Tree.id_mem_ids t
    · obtain ⟨u, hu, hid, b, hb, hm⟩ := wf.below_of_transGen h
      rw [wf.eq_of_id_eq hu ht hid] at hb
      exact Tree.mem_ids_iff.2 (.inr ⟨b, hb, hm⟩)
  · -- The way leads through the branch that the node lies in.
    induction t using Tree.induction with
    | node id kind branches ih =>
      rcases Tree.mem_ids_iff.1 hm with rfl | ⟨b, hb, hm⟩
      · exact .refl
      · have hedge : f.Edge id b.2.id :=
          ⟨b.1, (wf.mem_edges_iff_branch ht).2 ⟨b.2, rfl, hb⟩⟩
        exact .head hedge (ih b hb (child_mem_subtrees ht hb) hm)

end WellFormed

/-! ## Answers -/

/-- A node and all below it, the oldest first; nothing if there is no such node. -/
def descendants (f : Forest) (n : NodeId) : List NodeId :=
  sortBy (fun a b => decide (a ≤ b)) ((f.find? n).elim [] (·.ids))

namespace WellFormed

variable (wf : f.WellFormed)
include wf

theorem descendants_perm (ht : t ∈ f.subtrees) : (f.descendants t.id).Perm t.ids := by
  rw [descendants, wf.find?_eq_some_iff.2 ⟨ht, rfl⟩]
  exact sortBy_perm ..

theorem descendantsOf_eq (hn : n ∈ f.ids) : f.descendantsOf (some n) = .ok (f.descendants n) := by
  obtain ⟨t, ht, rfl⟩ := mem_ids.1 hn
  rw [wf.descendantsOf_self ht, descendants, wf.find?_eq_some_iff.2 ⟨ht, rfl⟩]
  rfl

/-- The way down leads to a node exactly if the way up from there leads back. -/
theorem mem_descendants_iff (hn : n ∈ f.ids) : m ∈ f.descendants n ↔ n ∈ f.ancestors m := by
  obtain ⟨t, ht, rfl⟩ := mem_ids.1 hn
  rw [(wf.descendants_perm ht).mem_iff, wf.mem_ancestors_iff ht]

/-! ## Roots -/

/-- Above every node there is one root, that of the tree which the node lies in. -/
theorem existsUnique_root (hn : n ∈ f.ids) : ∃! r, r ∈ f.roots ∧ r ∈ f.ancestors n := by
  obtain ⟨t, ht, rfl⟩ := mem_ids.1 hn
  obtain ⟨r, hr, htr⟩ := List.mem_flatMap.1 ht
  have hmem : t.id ∈ r.ids := Tree.mem_ids_iff_subtrees.2 ⟨t, htr, rfl⟩
  refine ⟨r.id, ⟨mem_roots.2 ⟨r, hr, rfl⟩, ?_⟩, ?_⟩
  · exact (wf.mem_ancestors_iff (mem_subtrees_of_mem_trees hr)).2 hmem
  · rintro m ⟨hm, habove⟩
    obtain ⟨u, hu, rfl⟩ := mem_roots.1 hm
    have hmem' := (wf.mem_ancestors_iff (mem_subtrees_of_mem_trees hu)).1 habove
    rw [wf.tree_eq hu hr hmem' hmem]

/-- The trees of the roots hold every node, each of them once. -/
theorem flatMap_descendants_perm : (f.roots.flatMap f.descendants).Perm f.ids := by
  have hids : f.ids.Perm (f.trees.flatMap (·.ids)) := by
    have hsorted := f.ids_perm
    rwa [subtrees, List.map_flatMap] at hsorted
  calc f.roots.flatMap f.descendants
    _ |>.Perm ((f.trees.map (·.id)).flatMap f.descendants) := f.roots_perm.flatMap_right _
    _ = f.trees.flatMap fun t => f.descendants t.id := List.flatMap_map ..
    _ |>.Perm (f.trees.flatMap (·.ids)) :=
      List.Perm.flatMap_left _ fun t ht => wf.descendants_perm (mem_subtrees_of_mem_trees ht)
    _ |>.Perm f.ids := hids.symm

end WellFormed

/-! ## Ways down and up -/

/-- What clients are told of the ways down and up, from each node. -/
structure Navigable (f : Forest) (below above : NodeId → List NodeId) : Prop where
  told : ∀ n ∈ f.ids,
    f.descendantsOf (some n) = .ok (below n) ∧ f.ancestorsOf (some n) = .ok (above n)
  /-- No way comes to a node twice. -/
  nodup : ∀ n ∈ f.ids, (below n).Nodup ∧ (above n).Nodup
  /-- The way down leads to a node exactly if the way up from there leads back. -/
  agree : ∀ n ∈ f.ids, ∀ m ∈ f.ids, m ∈ below n ↔ n ∈ above m
  /-- The way down leads wherever edges to children lead. -/
  reached : ∀ n ∈ f.ids, ∀ m, m ∈ below n ↔ Relation.ReflTransGen f.Edge n m
  /-- The way up leads to the parent, and on from there. -/
  climbed : ∀ n ∈ f.ids, ∃ parent, f.parentOf (some n) = .ok parent ∧
    above n = n :: parent.elim [] above
  /-- The roots are the nodes without a parent. -/
  roots : ∀ n, n ∈ f.roots ↔ n ∈ f.ids ∧ f.parentOf (some n) = .ok none
  root : ∀ n ∈ f.ids, ∃! r, r ∈ f.roots ∧ r ∈ above n
  disjoint : f.roots.Pairwise fun r q => (below r).Disjoint (below q)
  cover : ∀ n, n ∈ f.ids ↔ ∃ r ∈ f.roots, n ∈ below r

theorem WellFormed.navigable (wf : f.WellFormed) : f.Navigable f.descendants f.ancestors where
  told n hn := ⟨wf.descendantsOf_eq hn, wf.ancestorsOf_eq hn⟩
  nodup n hn := by
    obtain ⟨t, ht, rfl⟩ := mem_ids.1 hn
    exact ⟨(wf.descendants_perm ht).nodup_iff.2 (wf.nodup_tree ht), wf.nodup_ancestors hn⟩
  agree n hn m _ := wf.mem_descendants_iff hn
  reached n hn m := by
    obtain ⟨t, ht, rfl⟩ := mem_ids.1 hn
    rw [(wf.descendants_perm ht).mem_iff, wf.reaches_iff ht]
  climbed n hn := by
    refine ⟨_, wf.parentOf_eq hn, ?_⟩
    cases hplace : f.place? n with
    | none => exact wf.ancestors_root hn hplace
    | some place => exact wf.ancestors_child hplace
  roots n := by
    rw [wf.mem_roots_iff]
    refine and_congr_right fun hn => ?_
    rw [wf.parentOf_eq hn, Except.ok.injEq, Option.map_eq_none_iff]
  root n hn := wf.existsUnique_root hn
  disjoint := by
    have nodup := wf.flatMap_descendants_perm.nodup_iff.2 wf.nodup_names
    exact (List.nodup_flatMap.1 nodup).2
  cover n := by rw [← wf.flatMap_descendants_perm.mem_iff, List.mem_flatMap]

/-! ## Removing -/

/-- What is left of a forest without some of its nodes. -/
structure Without (f : Forest) (gone : List NodeId) (g : Forest) : Prop where
  nodes : ∀ n, n ∈ g.ids ↔ n ∈ f.ids ∧ n ∉ gone
  kinds : ∀ n ∈ g.ids, (g.get n).map (·.kind) = (f.get n).map (·.kind)
  parents : ∀ n ∈ g.ids, g.parentOf (some n) = f.parentOf (some n)
  slots : ∀ n ∈ g.ids, g.slotOf (some n) = f.slotOf (some n)

theorem WellFormed.without_of_remove (wf : f.WellFormed) (ht : t ∈ f.subtrees)
    (hg : f.remove t.id = .ok g) : f.Without (f.descendants t.id) g := by
  have wf' := wf.of_remove hg
  have hstays {n : NodeId} (hn : n ∈ g.ids) : n ∈ f.ids := ((wf.mem_ids_of_remove ht hg).1 hn).1
  refine ⟨fun n => ?_, fun n hn => ?_, fun n hn => ?_, fun n hn => ?_⟩
  · rw [(wf.descendants_perm ht).mem_iff]
    exact wf.mem_ids_of_remove ht hg
  · -- The row of the node is among those that were there before.
    obtain ⟨g', heq, -, -, hrows⟩ := wf.remove ht
    rw [heq] at hg
    cases hg
    obtain ⟨u, hu, rfl⟩ := mem_ids.1 hn
    have hrow := (List.mem_filter.1 (hrows.mem_iff.1 (wf'.mem_rows_iff.2 ⟨u, hu, rfl⟩))).1
    obtain ⟨v, hv, heq⟩ := wf.mem_rows_iff.1 hrow
    rw [wf'.get_self hu, wf.get_eq_ok_iff.2 ⟨hv, (congrArg Row.id heq).symm⟩]
    exact congrArg Except.ok (congrArg Row.kind heq)
  · rw [wf'.parentOf_eq hn, wf.parentOf_eq (hstays hn), wf.place?_of_remove ht hg hn]
  · rw [wf'.slotOf_eq hn, wf.slotOf_eq (hstays hn), wf.place?_of_remove ht hg hn]

end Forest

namespace Session

/-- In a reachable forest the ways down and up agree, and the trees of the roots share out the
    nodes.  Removing a node succeeds, takes away what lies below it and changes nothing else. -/
theorem navigation_agrees (reachable : s.forest.Reachable) :
    ∃ below above, s.forest.Navigable below above ∧ ∀ n ∈ s.forest.ids, ∃ g,
      remove (some n) s = (.ok (), { s with forest := g }) ∧ s.forest.Without (below n) g := by
  have wf := reachable.wellFormed
  refine ⟨_, _, wf.navigable, fun n hn => ?_⟩
  obtain ⟨t, ht, rfl⟩ := Forest.mem_ids.1 hn
  obtain ⟨g, hg, -⟩ := wf.remove ht
  refine ⟨g, ?_, wf.without_of_remove ht hg⟩
  rw [remove, Failing.bind_of_ok (ask_named wf ht)]
  exact perform_of_eq (Simplify.edit_of_eq (Forest.edit_of_remove hg))

/-- `((x), y)`, from which the parentheses, node 1, have been taken out with what is in them. -/
def parted : Session :=
  (start .info).after [.build [.fresh .tuple
    [.fresh .paren [.fresh (.path "x") []], .fresh (.path "y") []]], .detach (some 1)]

theorem navigation_agrees_parted :
    parted.forest.roots = [1, 3] ∧ 1 ∈ parted.forest.ids ∧
      ∃ below above, parted.forest.Navigable below above ∧ ∃ g,
        remove (some 1) parted = (.ok (), { parted with forest := g }) ∧
          parted.forest.Without (below 1) g := by
  obtain ⟨below, above, navigable, hremove⟩ := navigation_agrees (s := parted) ⟨.info, _, rfl⟩
  have hmem : 1 ∈ parted.forest.ids := by decide +kernel
  exact ⟨by decide +kernel, hmem, below, above, navigable, hremove 1 hmem⟩

end Session

end ShortCircuit

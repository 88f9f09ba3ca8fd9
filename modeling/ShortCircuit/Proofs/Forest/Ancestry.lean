/-
  ShortCircuit.Proofs.Forest.Ancestry

  What lies above a node, one step at a time: a root has nothing above it, and
  what lies above any other node is its parent, with all that lies above that.
  So a node is deeper than its parent by one, and no node is deeper than itself.
-/

import ShortCircuit.Proofs.Forest.Table

namespace ShortCircuit.Forest

variable {f : Forest} {t u : Tree} {n p m k : NodeId} {s : Int}

namespace WellFormed

variable (wf : f.WellFormed)
include wf

/-! ## Trails -/

theorem trail_root (ht : t ∈ f.trees) : f.trail t.id = [t] := by
  rw [wf.trail_of_mem ht (Tree.id_mem_ids t), Tree.trail_self]

/-- A child comes first on its trail, and then the trail of its parent. -/
theorem trail_branch (ht : t ∈ f.subtrees) {b : Int × Tree} (hb : b ∈ t.branches) :
    f.trail b.2.id = b.2 :: f.trail t.id := by
  obtain ⟨root, hroot, htr⟩ := List.mem_flatMap.1 ht
  have hparent : t.id ∈ root.ids := Tree.mem_ids_iff_subtrees.2 ⟨t, htr, rfl⟩
  have hchild : b.2.id ∈ root.ids :=
    Tree.ids_subset htr (Tree.ids_subset (Tree.branch_mem_subtrees hb) (Tree.id_mem_ids b.2))
  have nodup := wf.nodup_tree (mem_subtrees_of_mem_trees hroot)
  rw [wf.trail_of_mem hroot hparent, wf.trail_of_mem hroot hchild, Tree.trail_branch nodup htr hb]

/-! ## Ancestors -/

theorem ancestors_root (hn : n ∈ f.ids) (hroot : f.place? n = none) : f.ancestors n = [n] := by
  obtain ⟨t, ht, rfl⟩ := mem_ids.1 hn
  rw [ancestors, wf.trail_root (wf.mem_trees_iff.2 ⟨ht, hroot⟩)]
  rfl

theorem ancestors_child (h : f.place? n = some (p, s)) :
    f.ancestors n = n :: f.ancestors p := by
  obtain ⟨t, ht, rfl⟩ := mem_ids.1 (mem_ids_of_place? h)
  obtain ⟨u, hu, rfl, hb⟩ := wf.exists_branch_of_place? ht h
  rw [ancestors, wf.trail_branch hu hb]
  rfl

theorem parent_mem_ids_of_place? (h : f.place? n = some (p, s)) : p ∈ f.ids := by
  obtain ⟨t, ht, rfl⟩ := mem_ids.1 (mem_ids_of_place? h)
  obtain ⟨u, hu, rfl, -⟩ := wf.exists_branch_of_place? ht h
  exact id_mem_of_mem_subtrees hu

theorem self_mem_ancestors (hn : n ∈ f.ids) : n ∈ f.ancestors n := by
  cases hplace : f.place? n with
  | none =>
    rw [wf.ancestors_root hn hplace]
    exact List.mem_singleton_self n
  | some place =>
    rw [wf.ancestors_child hplace]
    exact List.mem_cons_self ..

/-- A node is above those that its tree contains. -/
theorem mem_ancestors_iff (ht : t ∈ f.subtrees) : t.id ∈ f.ancestors n ↔ n ∈ t.ids := by
  rw [ancestors, List.mem_map]
  refine ⟨?_, fun hn => ⟨t, wf.mem_trail_iff.2 ⟨ht, hn⟩, rfl⟩⟩
  rintro ⟨u, hu, hid⟩
  obtain ⟨hu, hn⟩ := wf.mem_trail_iff.1 hu
  rwa [wf.eq_of_id_eq hu ht hid] at hn

theorem mem_ids_of_mem_ancestors (h : m ∈ f.ancestors n) : n ∈ f.ids ∧ m ∈ f.ids := by
  obtain ⟨u, hu, rfl⟩ := List.mem_map.1 h
  obtain ⟨hu, hn⟩ := wf.mem_trail_iff.1 hu
  exact ⟨ids_subset_ids hu hn, id_mem_of_mem_subtrees hu⟩

/-- What lies above a node above another lies above the latter. -/
theorem ancestors_trans (hk : k ∈ f.ancestors n) (hm : m ∈ f.ancestors k) :
    m ∈ f.ancestors n := by
  obtain ⟨t, ht, rfl⟩ := mem_ids.1 (wf.mem_ids_of_mem_ancestors hm).2
  obtain ⟨u, hu, rfl⟩ := mem_ids.1 (wf.mem_ids_of_mem_ancestors hk).2
  obtain ⟨v, hv, hid⟩ := Tree.mem_ids_iff_subtrees.1 ((wf.mem_ancestors_iff ht).1 hm)
  rw [wf.eq_of_id_eq (subtree_mem_subtrees hv ht) hu hid] at hv
  exact (wf.mem_ancestors_iff ht).2 (Tree.ids_subset hv ((wf.mem_ancestors_iff hu).1 hk))

/-- A child does not lie above its parent. -/
theorem child_notMem_ancestors (h : f.place? n = some (p, s)) : n ∉ f.ancestors p := by
  obtain ⟨t, ht, rfl⟩ := mem_ids.1 (mem_ids_of_place? h)
  obtain ⟨u, hu, rfl, hb⟩ := wf.exists_branch_of_place? ht h
  rw [wf.mem_ancestors_iff ht]
  exact Tree.id_notMem_branch (wf.nodup_tree hu) hb

/-- The way up comes to no node twice, and so to no more nodes than there are. -/
theorem nodup_ancestors (hn : n ∈ f.ids) : (f.ancestors n).Nodup := by
  obtain ⟨t, ht, rfl⟩ := mem_ids.1 hn
  refine subtrees_induction (P := fun t => (f.ancestors t.id).Nodup) ?_ ?_ t ht
  · intro t ht
    have hid := id_mem_of_mem_subtrees (mem_subtrees_of_mem_trees ht)
    rw [wf.ancestors_root hid (wf.place?_root ht)]
    exact List.nodup_singleton t.id
  · intro t ht nodup b hb
    have hplace := wf.place?_branch ht hb
    rw [wf.ancestors_child hplace]
    exact List.nodup_cons.2 ⟨wf.child_notMem_ancestors hplace, nodup⟩

end WellFormed

/-! ## Depths -/

/-- How many nodes there are on the way from a node to the root, both counted. -/
def depth (f : Forest) (n : NodeId) : Nat := (f.ancestors n).length

theorem WellFormed.depth_child (wf : f.WellFormed) (h : f.place? n = some (p, s)) :
    f.depth n = f.depth p + 1 := by
  rw [depth, wf.ancestors_child h]
  rfl

end ShortCircuit.Forest

/-
  ShortCircuit.Proofs.Forest.Walks

  Walks over a whole forest.  Searches are started at the nodes in the order of
  their age, so the one that comes to a node was started at the oldest node on
  the way from it to its root.  A walk is made of these searches, one after
  another, each of which keeps the order of the walk over the tree it starts at.
-/

import ShortCircuit.Proofs.Forest.Ancestry
import ShortCircuit.Proofs.Tree.Walks

namespace ShortCircuit.Forest

variable {f : Forest} {t : Tree} {m n a : NodeId} {order : Tree.Order}
  {R : NodeId → NodeId → Prop}

/-! ## Age -/

/-- The oldest among a node and all above it. -/
def eldest (f : Forest) (n : NodeId) : NodeId := (f.ancestors n).foldr min n

theorem eldest_le (h : a ∈ f.ancestors n) : f.eldest n ≤ a := by
  unfold eldest
  generalize f.ancestors n = above at h
  induction above with
  | nil => cases h
  | cons b above ih =>
    rw [List.foldr_cons]
    rcases List.mem_cons.1 h with rfl | h
    · exact min_le_left ..
    · exact (min_le_right ..).trans (ih h)

namespace WellFormed

variable (wf : f.WellFormed)
include wf

theorem eldest_mem (hn : n ∈ f.ids) : f.eldest n ∈ f.ancestors n := by
  have hmem (above : List NodeId) : above.foldr min n = n ∨ above.foldr min n ∈ above := by
    induction above with
    | nil => exact .inl rfl
    | cons b above ih =>
      rw [List.foldr_cons]
      rcases le_total b (above.foldr min n) with h | h
      · rw [min_eq_left h]
        exact .inr (List.mem_cons_self ..)
      · rw [min_eq_right h]
        exact ih.imp_right (List.mem_cons_of_mem b)
  rcases hmem (f.ancestors n) with h | h
  · rw [eldest, h]
    exact wf.self_mem_ancestors hn
  · exact h

/-- What lies above a node lies above all below it, so those have elders that are as old. -/
theorem eldest_le_eldest (h : m ∈ f.ancestors n) : f.eldest n ≤ f.eldest m :=
  eldest_le (wf.ancestors_trans h (wf.eldest_mem (wf.mem_ids_of_mem_ancestors h).2))

theorem eldest_mem_ids (hn : n ∈ f.ids) : f.eldest n ∈ f.ids :=
  (wf.mem_ids_of_mem_ancestors (wf.eldest_mem hn)).2

/-- Nodes are listed in the order of their age, each of them once. -/
theorem pairwise_lt_ids : f.ids.Pairwise (· < ·) := by
  have hne : f.ids.Pairwise (· ≠ ·) := wf.nodup_names
  exact (f.pairwise_ids.and hne).imp fun h => lt_of_le_of_ne h.1 h.2

/-! ## Searches -/

end WellFormed

/-- What the search that is started at a node comes to. -/
def search (f : Forest) (order : Tree.Order) (n : NodeId) : List NodeId :=
  ((f.find? n).elim [] (·.walk order [])).filter (f.eldest · = n)

namespace WellFormed

variable (wf : f.WellFormed)
include wf

theorem search_eq (ht : t ∈ f.subtrees) :
    f.search order t.id = (t.walk order []).filter (f.eldest · = t.id) := by
  rw [search, wf.find?_eq_some_iff.2 ⟨ht, rfl⟩, Option.elim_some]

theorem mem_search_iff : m ∈ f.search order n ↔ m ∈ f.ids ∧ f.eldest m = n := by
  constructor
  · intro h
    cases hfind : f.find? n with
    | none =>
      rw [search, hfind] at h
      cases h
    | some t =>
      obtain ⟨ht, rfl⟩ := wf.find?_eq_some_iff.1 hfind
      rw [wf.search_eq ht, List.mem_filter, Tree.mem_walk_iff] at h
      exact ⟨ids_subset_ids ht h.1, of_decide_eq_true h.2⟩
  · rintro ⟨hm, rfl⟩
    obtain ⟨t, ht, hid⟩ := mem_ids.1 (wf.eldest_mem_ids hm)
    have hmt : m ∈ t.ids := (wf.mem_ancestors_iff ht).1 (hid ▸ wf.eldest_mem hm)
    rw [← hid, wf.search_eq ht, List.mem_filter, Tree.mem_walk_iff]
    exact ⟨hmt, decide_eq_true hid.symm⟩

/-- After searches from the older nodes, a search from a node comes to those of which it is the
    eldest. -/
theorem walk_of_older {older younger : List NodeId} (hids : f.ids = older ++ t.id :: younger)
    (ht : t ∈ f.subtrees) :
    t.walk order (older.flatMap (f.search order)) = f.search order t.id := by
  have hsorted := wf.pairwise_lt_ids
  rw [hids, List.pairwise_append, List.pairwise_cons] at hsorted
  obtain ⟨-, ⟨hyounger, -⟩, holder⟩ := hsorted
  have hseen {m : NodeId} :
      m ∈ older.flatMap (f.search order) ↔ m ∈ f.ids ∧ f.eldest m ∈ older := by
    simp only [List.mem_flatMap, wf.mem_search_iff]
    constructor
    · rintro ⟨n, hn, hm, rfl⟩
      exact ⟨hm, hn⟩
    · rintro ⟨hm, hn⟩
      exact ⟨_, hn, hm, rfl⟩
  -- An elder that does not come before the node comes with it or after it.
  have hcases {m : NodeId} (hm : m ∈ f.ids) : f.eldest m ∈ older ∨ t.id ≤ f.eldest m := by
    have hmem := wf.eldest_mem_ids hm
    rw [hids] at hmem
    rcases List.mem_append.1 hmem with h | h
    · exact .inl h
    · rcases List.mem_cons.1 h with h | h
      · exact .inr h.ge
      · exact .inr (hyounger _ h).le
  rw [wf.search_eq ht, Tree.walk_eq_filter]
  · refine List.filter_congr fun m hm => decide_eq_decide.2 ?_
    have hmt := Tree.mem_walk_iff.1 hm
    have hm' := ids_subset_ids ht hmt
    have hle : f.eldest m ≤ t.id := eldest_le ((wf.mem_ancestors_iff ht).2 hmt)
    rw [hseen]
    constructor
    · exact fun hnot => le_antisymm hle ((hcases hm').resolve_left fun h => hnot ⟨hm', h⟩)
    · rintro heq ⟨-, h⟩
      rw [heq] at h
      exact lt_irrefl _ (holder _ h _ (List.mem_cons_self ..))
  · -- The elder of a node below is no younger, so it comes no later.
    intro u hu hid m hm
    rw [hseen] at hid ⊢
    have hu' := subtree_mem_subtrees hu ht
    have hm' := ids_subset_ids hu' hm
    refine ⟨hm', (hcases hm').resolve_right fun hle => ?_⟩
    have hle' := wf.eldest_le_eldest ((wf.mem_ancestors_iff hu').2 hm)
    exact not_lt.2 (hle.trans hle') (holder _ hid.2 _ (List.mem_cons_self ..))

/-- A walk is made of the searches from all nodes, the oldest first. -/
theorem walk_eq (order : Tree.Order) : f.walk order = f.ids.flatMap (f.search order) := by
  have hfold (older younger : List NodeId) (hids : f.ids = older ++ younger) :
      younger.foldl (fun seen n => seen ++ (f.find? n).elim [] (·.walk order seen))
        (older.flatMap (f.search order)) = f.ids.flatMap (f.search order) := by
    induction younger generalizing older with
    | nil => rw [hids, List.append_nil, List.foldl_nil]
    | cons n younger ih =>
      have hn : n ∈ f.ids := hids ▸ List.mem_append_right _ (List.mem_cons_self ..)
      obtain ⟨t, ht, rfl⟩ := mem_ids.1 hn
      rw [List.foldl_cons, wf.find?_eq_some_iff.2 ⟨ht, rfl⟩, Option.elim_some,
        wf.walk_of_older hids ht, ← ih (older ++ [t.id]) (by simp [hids]), List.flatMap_append,
        List.flatMap_singleton]
  exact hfold [] f.ids rfl

/-! ## Walks -/

theorem mem_walk_iff : n ∈ f.walk order ↔ n ∈ f.ids := by
  simp only [wf.walk_eq, List.mem_flatMap, wf.mem_search_iff]
  constructor
  · rintro ⟨_, -, hn, -⟩
    exact hn
  · exact fun hn => ⟨_, wf.eldest_mem_ids hn, hn, rfl⟩

/-- What holds along every search, and from nodes with an older elder to those with a younger one,
    holds along the walk over the forest. -/
theorem pairwise_walk (along : ∀ t ∈ f.subtrees, (f.search order t.id).Pairwise R)
    (across : ∀ m ∈ f.ids, ∀ n ∈ f.ids, f.eldest m < f.eldest n → R m n) :
    (f.walk order).Pairwise R := by
  rw [wf.walk_eq, List.pairwise_flatMap]
  refine ⟨fun n hn => ?_, wf.pairwise_lt_ids.imp fun hlt m hm n hn => ?_⟩
  · obtain ⟨t, ht, rfl⟩ := mem_ids.1 hn
    exact along t ht
  · obtain ⟨hm', rfl⟩ := wf.mem_search_iff.1 hm
    obtain ⟨hn', rfl⟩ := wf.mem_search_iff.1 hn
    exact across m hm' n hn' hlt

/-- A search keeps the order of the walk over the tree it starts at. -/
theorem pairwise_search (ht : t ∈ f.subtrees) (h : (t.walk order []).Pairwise R) :
    (f.search order t.id).Pairwise R := by
  rw [wf.search_eq ht]
  exact h.filter _

theorem nodup_walk (order : Tree.Order) : (f.walk order).Nodup := by
  refine wf.pairwise_walk (fun t ht => wf.pairwise_search ht ?_) fun m _ n _ hlt heq => ?_
  · exact (Tree.walk_perm order t).nodup_iff.2 (wf.nodup_tree ht)
  · rw [heq] at hlt
    exact lt_irrefl _ hlt

/-- A walk over a whole forest comes to every node once. -/
theorem walk_perm (order : Tree.Order) : (f.walk order).Perm f.ids := by
  refine (List.perm_ext_iff_of_nodup (wf.nodup_walk order) ?_).2 fun n => wf.mem_walk_iff
  exact wf.pairwise_lt_ids.imp fun hlt => hlt.ne

theorem liesBelow_iff (ht : t ∈ f.subtrees) (hm : m ∈ t.ids) :
    t.LiesBelow n m ↔ m ∈ f.ancestors n := by
  obtain ⟨u, hu, rfl⟩ := Tree.mem_ids_iff_subtrees.1 hm
  rw [wf.mem_ancestors_iff (subtree_mem_subtrees hu ht)]
  constructor
  · rintro ⟨v, hv, hid, hn⟩
    rwa [Tree.eq_of_id_eq (wf.nodup_tree ht) hv hu hid] at hn
  · exact fun hn => ⟨u, hu, rfl, hn⟩

/-- In a walk after, no node stands before one that lies below it. -/
theorem pairwise_walk_after : (f.walk .after).Pairwise fun m n => m ∉ f.ancestors n := by
  refine wf.pairwise_walk (fun t ht => wf.pairwise_search ht ?_) fun m _ n _ hlt hmem => ?_
  · refine (Tree.pairwise_walk_after (wf.nodup_tree ht)).imp_of_mem fun hm _ hnot => ?_
    rwa [wf.liesBelow_iff ht (Tree.mem_walk_iff.1 hm)] at hnot
  · exact not_lt.2 (wf.eldest_le_eldest hmem) hlt

/-- In a walk before, nodes come in the order of the age of their eldest, and of two with the same
    eldest none stands before one that it lies below. -/
theorem pairwise_walk_before : (f.walk .before).Pairwise fun m n =>
    f.eldest m ≤ f.eldest n ∧ (f.eldest m = f.eldest n → n ∉ f.ancestors m) := by
  refine wf.pairwise_walk (fun t ht => ?_) fun m _ n _ hlt => ?_
  · have hbefore : (t.walk .before []).Pairwise fun m n => n ∉ f.ancestors m := by
      refine (Tree.pairwise_walk_before (wf.nodup_tree ht)).imp_of_mem fun _ hn hnot => ?_
      rwa [wf.liesBelow_iff ht (Tree.mem_walk_iff.1 hn)] at hnot
    refine (wf.pairwise_search ht hbefore).imp_of_mem fun hm hn hnot => ⟨?_, fun _ => hnot⟩
    rw [(wf.mem_search_iff.1 hm).2, (wf.mem_search_iff.1 hn).2]
  · exact ⟨hlt.le, fun heq => absurd heq hlt.ne⟩

/-- A walk before comes to the nodes of a subtree that have its eldest in one stretch. -/
theorem stretch_infix (ht : t ∈ f.subtrees) :
    t.ids.filter (f.eldest · = f.eldest t.id) <:+: f.walk .before := by
  have hid := id_mem_of_mem_subtrees ht
  obtain ⟨u, hu, heq⟩ := mem_ids.1 (wf.eldest_mem_ids hid)
  have hut : t ∈ u.subtrees := by
    have hmem : t.id ∈ u.ids := (wf.mem_ancestors_iff hu).1 (heq ▸ wf.eldest_mem hid)
    obtain ⟨v, hv, hvt⟩ := Tree.mem_ids_iff_subtrees.1 hmem
    rwa [wf.eq_of_id_eq (subtree_mem_subtrees hv hu) ht hvt] at hv
  have hsearch : t.ids.filter (f.eldest · = f.eldest t.id) <:+: f.search .before u.id := by
    rw [wf.search_eq hu, Tree.walk_before, heq]
    exact (Tree.ids_infix hut).filter _
  obtain ⟨l, r, hids⟩ := List.append_of_mem (id_mem_of_mem_subtrees hu)
  refine hsearch.trans ⟨l.flatMap (f.search .before), r.flatMap (f.search .before), ?_⟩
  rw [wf.walk_eq, hids, List.flatMap_append, List.flatMap_cons, List.append_assoc]

end WellFormed

end ShortCircuit.Forest

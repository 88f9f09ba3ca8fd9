/-
  ShortCircuit.Proofs.Tree.Subtrees

  The subtrees of a tree, and the trail that leads from a node up to the top.
  Where no name stands twice, a name picks out one subtree, the trail of a node
  holds exactly the subtrees that contain it, and it starts with the node's own.
-/

import Mathlib.Data.List.Nodup
import ShortCircuit.Tree

namespace ShortCircuit.Tree

variable {t u v : Tree} {n : NodeId}

/-! ## Subtrees -/

theorem subtrees_eq (t : Tree) : t.subtrees = t :: t.branches.flatMap (·.2.subtrees) := by
  cases t
  exact subtrees_node ..

theorem ids_eq (t : Tree) : t.ids = t.id :: t.branches.flatMap (·.2.ids) := by
  cases t
  exact ids_node ..

/-- A subtree is the whole, or it lies in one of the branches. -/
theorem mem_subtrees_iff : u ∈ t.subtrees ↔ u = t ∨ ∃ b ∈ t.branches, u ∈ b.2.subtrees := by
  rw [subtrees_eq, List.mem_cons, List.mem_flatMap]

theorem mem_ids_iff : n ∈ t.ids ↔ n = t.id ∨ ∃ b ∈ t.branches, n ∈ b.2.ids := by
  rw [ids_eq, List.mem_cons, List.mem_flatMap]

theorem branch_mem_subtrees {b : Int × Tree} (hb : b ∈ t.branches) : b.2 ∈ t.subtrees :=
  mem_subtrees_iff.2 (.inr ⟨b, hb, self_mem_subtrees b.2⟩)

theorem branch_of_child? {s : Int} (h : t.child? s = some u) : (s, u) ∈ t.branches := by
  obtain ⟨l, rest, heq, -⟩ := List.lookup_eq_some_iff.1 h
  rw [heq]
  simp

theorem mem_subtrees_trans (hv : v ∈ u.subtrees) (hu : u ∈ t.subtrees) : v ∈ t.subtrees := by
  induction t using Tree.induction with
  | node id kind branches ih =>
    rcases mem_subtrees_iff.1 hu with rfl | ⟨b, hb, hu⟩
    · exact hv
    · exact mem_subtrees_iff.2 (.inr ⟨b, hb, ih b hb hu⟩)

theorem id_mem_ids (t : Tree) : t.id ∈ t.ids :=
  mem_ids_iff.2 (.inl rfl)

theorem mem_ids_iff_subtrees : n ∈ t.ids ↔ ∃ u ∈ t.subtrees, u.id = n := by
  simp [ids]

theorem ids_subset (hu : u ∈ t.subtrees) : u.ids ⊆ t.ids := by
  intro m hm
  obtain ⟨v, hv, rfl⟩ := mem_ids_iff_subtrees.1 hm
  exact mem_ids_iff_subtrees.2 ⟨v, mem_subtrees_trans hv hu, rfl⟩

theorem size_eq_length_ids (t : Tree) : t.size = t.ids.length := by
  simp [size, ids]

/-- A proper subtree lies in a branch. -/
theorem mem_branch_of_ne (hu : u ∈ t.subtrees) (hne : u ≠ t) :
    ∃ b ∈ t.branches, u ∈ b.2.subtrees :=
  (mem_subtrees_iff.1 hu).resolve_left hne

/-- A proper subtree is the child of another subtree. -/
theorem exists_parent_of_ne (hu : u ∈ t.subtrees) (hne : u ≠ t) :
    ∃ v ∈ t.subtrees, ∃ b ∈ v.branches, b.2 = u := by
  induction t using Tree.induction with
  | node id kind branches ih =>
    obtain ⟨b, hb, hub⟩ := mem_branch_of_ne hu hne
    -- The parent is the node at the top, or one in the branch.
    by_cases h : u = b.2
    · exact ⟨_, self_mem_subtrees _, b, hb, h.symm⟩
    · obtain ⟨v, hv, c, hc, rfl⟩ := ih b hb hub h
      exact ⟨v, mem_subtrees_trans hv (branch_mem_subtrees hb), c, hc, rfl⟩

/-! ## Distinct names -/

/-- The names in a branch are distinct if those in the whole are. -/
theorem nodup_branch {b : Int × Tree} (nodup : t.ids.Nodup) (hb : b ∈ t.branches) :
    b.2.ids.Nodup := by
  rw [ids_eq, List.nodup_cons, List.nodup_flatMap] at nodup
  exact nodup.2.1 b hb

theorem nodup_subtree (nodup : t.ids.Nodup) (hu : u ∈ t.subtrees) : u.ids.Nodup := by
  induction t using Tree.induction with
  | node id kind branches ih =>
    rcases mem_subtrees_iff.1 hu with rfl | ⟨b, hb, hu⟩
    · exact nodup
    · exact ih b hb (nodup_branch nodup hb) hu

/-- The name at the top does not return below. -/
theorem id_notMem_branch {b : Int × Tree} (nodup : t.ids.Nodup) (hb : b ∈ t.branches) :
    t.id ∉ b.2.ids := by
  rw [ids_eq, List.nodup_cons] at nodup
  exact fun h => nodup.1 (List.mem_flatMap.2 ⟨b, hb, h⟩)

/-- A name picks out one subtree. -/
theorem eq_of_id_eq (nodup : t.ids.Nodup) (hu : u ∈ t.subtrees) (hv : v ∈ t.subtrees)
    (h : u.id = v.id) : u = v :=
  List.inj_on_of_nodup_map nodup hu hv h

/-- The node of a branch list that is split around one of its branches lies in that branch
    alone. -/
theorem notMem_of_split {id : NodeId} {kind : Kind} {l r : List (Int × Tree)} {b : Int × Tree}
    (nodup : (node id kind (l ++ b :: r)).ids.Nodup) (hn : n ∈ b.2.ids) :
    n ≠ id ∧ (∀ c ∈ l, n ∉ c.2.ids) ∧ ∀ c ∈ r, n ∉ c.2.ids := by
  rw [ids_node, List.flatMap_append, List.flatMap_cons, List.nodup_cons,
    List.nodup_append] at nodup
  obtain ⟨top, -, rest, apart⟩ := nodup
  rw [List.nodup_append] at rest
  refine ⟨?_, ?_, ?_⟩
  · rintro rfl
    exact top (by simp [hn])
  · intro c hc hnc
    exact apart n (List.mem_flatMap.2 ⟨c, hc, hnc⟩) n (by simp [hn]) rfl
  · intro c hc hnc
    exact rest.2.2 n hn n (List.mem_flatMap.2 ⟨c, hc, hnc⟩) rfl

/-- No two branches share a node. -/
theorem eq_of_mem_branches {b c : Int × Tree} (nodup : t.ids.Nodup) (hb : b ∈ t.branches)
    (hc : c ∈ t.branches) (hnb : n ∈ b.2.ids) (hnc : n ∈ c.2.ids) : b = c := by
  obtain ⟨id, kind, branches⟩ := t
  obtain ⟨l, r, rfl⟩ : ∃ l r, branches = l ++ b :: r := List.append_of_mem hb
  obtain ⟨-, hl, hr⟩ := notMem_of_split nodup hnb
  rcases List.mem_append.1 hc with hc | hc
  · exact absurd hnc (hl c hc)
  · rcases List.mem_cons.1 hc with rfl | hc
    · rfl
    · exact absurd hnc (hr c hc)

/-! ## Trails -/

/-- What a non-empty trail through branches is: that through one of them. -/
theorem exists_branch_of_branchTrail {branches : List (Int × Tree)}
    (h : branchTrail n branches ≠ []) :
    ∃ b ∈ branches, n ∈ b.2.ids ∧ branchTrail n branches = b.2.trail n := by
  induction branches with
  | nil => simp [branchTrail] at h
  | cons b rest ih =>
    obtain ⟨slot, child⟩ := b
    rw [branchTrail] at h ⊢
    by_cases hn : n ∈ child.ids
    · have hne : child.trail n ≠ [] := fun h' => trail_eq_nil_iff.1 h' hn
      refine ⟨(slot, child), List.mem_cons_self .., hn, ?_⟩
      split
      · rename_i h'
        exact absurd h' hne
      · rfl
    · have hnil : child.trail n = [] := trail_eq_nil_iff.2 hn
      rw [hnil] at h ⊢
      obtain ⟨b, hb, hnb, heq⟩ := ih h
      exact ⟨b, List.mem_cons_of_mem _ hb, hnb, heq⟩

/-- The trail of a node that is not the top: the trail in a branch, and then the whole. -/
theorem trail_of_ne (hne : t.id ≠ n) (hn : n ∈ t.ids) :
    ∃ b ∈ t.branches, n ∈ b.2.ids ∧ t.trail n = b.2.trail n ++ [t] := by
  obtain ⟨id, kind, branches⟩ := t
  have hid : id ≠ n := hne
  -- The node is not the top, so it lies in a branch, and there is a trail there.
  have hbelow : branchTrail n branches ≠ [] := by
    intro h
    rcases mem_ids_iff.1 hn with h' | ⟨b, hb, hnb⟩
    · exact hne h'.symm
    · exact trail_eq_nil_iff.1 (branchTrail_eq_nil_iff.1 h b hb) hnb
  obtain ⟨b, hb, hnb, heq⟩ := exists_branch_of_branchTrail hbelow
  refine ⟨b, hb, hnb, ?_⟩
  rw [trail, if_neg hid]
  split
  · rename_i h
    exact absurd h hbelow
  · rw [heq]

theorem trail_self (t : Tree) : t.trail t.id = [t] := by
  obtain ⟨id, kind, branches⟩ := t
  rw [trail, Tree.id, if_pos rfl]

/-- The trail of a node in a branch leads through the branch, and then to the whole. -/
theorem trail_of_mem_branch {b : Int × Tree} (nodup : t.ids.Nodup) (hb : b ∈ t.branches)
    (hn : n ∈ b.2.ids) : t.trail n = b.2.trail n ++ [t] := by
  have hne : t.id ≠ n := by
    rintro rfl
    exact id_notMem_branch nodup hb hn
  obtain ⟨c, hc, hnc, heq⟩ := trail_of_ne hne (mem_ids_iff.2 (.inr ⟨b, hb, hn⟩))
  rw [heq, eq_of_mem_branches nodup hc hb hnc hn]

/-- The trail of a child is the child, and then the trail of the node that it hangs on. -/
theorem trail_branch {b : Int × Tree} (nodup : t.ids.Nodup) (hu : u ∈ t.subtrees)
    (hb : b ∈ u.branches) : t.trail b.2.id = b.2 :: t.trail u.id := by
  induction t using Tree.induction with
  | node id kind branches ih =>
    rcases mem_subtrees_iff.1 hu with rfl | ⟨c, hc, huc⟩
    · rw [trail_of_mem_branch nodup hb (id_mem_ids b.2), trail_self, trail_self]
      rfl
    · -- Both trails lead through the same branch to the whole.
      have hchild : b.2.id ∈ c.2.ids := ids_subset huc (mem_ids_iff_subtrees.2
        ⟨b.2, branch_mem_subtrees hb, rfl⟩)
      have hparent : u.id ∈ c.2.ids := mem_ids_iff_subtrees.2 ⟨u, huc, rfl⟩
      rw [trail_of_mem_branch nodup hc hchild, trail_of_mem_branch nodup hc hparent,
        ih c hc (nodup_branch nodup hc) huc]
      rfl

/-- The trail of a node holds the subtrees that contain it. -/
theorem mem_trail_iff (nodup : t.ids.Nodup) : u ∈ t.trail n ↔ u ∈ t.subtrees ∧ n ∈ u.ids := by
  induction t using Tree.induction with
  | node id kind branches ih =>
    by_cases hn : n ∈ (node id kind branches).ids
    · by_cases hid : (node id kind branches).id = n
      · subst hid
        rw [trail_self, List.mem_singleton]
        refine ⟨?_, ?_⟩
        · rintro rfl
          exact ⟨self_mem_subtrees _, id_mem_ids _⟩
        · rintro ⟨hu, hmem⟩
          by_contra hne
          obtain ⟨b, hb, hub⟩ := mem_branch_of_ne hu hne
          exact id_notMem_branch nodup hb (ids_subset hub hmem)
      · -- The trail goes through one branch, and no other one contains the node.
        obtain ⟨b, hb, hnb, heq⟩ := trail_of_ne hid hn
        rw [heq, List.mem_append, List.mem_singleton, ih b hb (nodup_branch nodup hb)]
        refine ⟨?_, ?_⟩
        · rintro (⟨hu, hmem⟩ | rfl)
          · exact ⟨mem_subtrees_trans hu (branch_mem_subtrees hb), hmem⟩
          · exact ⟨self_mem_subtrees _, hn⟩
        · rintro ⟨hu, hmem⟩
          by_cases hne : u = node id kind branches
          · exact .inr hne
          · obtain ⟨c, hc, huc⟩ := mem_branch_of_ne hu hne
            have heq := eq_of_mem_branches nodup hb hc hnb (ids_subset huc hmem)
            exact .inl ⟨heq ▸ huc, hmem⟩
    · rw [trail_eq_nil_iff.2 hn]
      refine ⟨?_, ?_⟩
      · intro h
        cases h
      · rintro ⟨hu, hmem⟩
        exact absurd (ids_subset hu hmem) hn

end ShortCircuit.Tree

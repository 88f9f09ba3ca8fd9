/-
  ShortCircuit.Proofs.Forest.Table

  The table of a forest, and what makes a forest well formed: names are distinct
  and have been handed out, and no two children of a node share a slot.  In such
  a forest a node is found by its name, hangs where its parent's branch says,
  and lies below exactly the nodes of its trail.
-/

import Mathlib.Data.List.Pairwise
import ShortCircuit.Forest
import ShortCircuit.Proofs.Slots
import ShortCircuit.Proofs.Tree.Surgery

namespace ShortCircuit.Forest

open ShortCircuit.Tree (mem_subtrees_iff mem_subtrees_trans branch_mem_subtrees
  self_mem_subtrees id_mem_ids ids_subset mem_ids_iff_subtrees)

variable {f g : Forest} {t u : Tree} {n p : NodeId} {s : Int}

/-! ## Nodes -/

theorem ids_perm (f : Forest) : f.ids.Perm (f.subtrees.map (·.id)) := sortBy_perm ..

theorem mem_ids : n ∈ f.ids ↔ ∃ t ∈ f.subtrees, t.id = n := f.ids_perm.mem_iff.trans List.mem_map

theorem length_ids (f : Forest) : f.ids.length = f.size :=
  f.ids_perm.length_eq.trans (List.length_map _)

/-- Nodes are listed in the order of their names. -/
theorem pairwise_ids (f : Forest) : f.ids.Pairwise (· ≤ ·) := pairwise_sortBy id _

theorem find?_eq_none_iff : f.find? n = none ↔ n ∉ f.ids := by
  simp [find?, mem_ids]

/-- Only nodes that do not exist cannot be had. -/
theorem get_eq_error_iff {fault : Fault} :
    f.get n = .error fault ↔ n ∉ f.ids ∧ fault = .unknownNode n := by
  rw [← find?_eq_none_iff, get]
  split
  · rename_i h
    simp [h]
  · rename_i h
    simp [h, eq_comm]

theorem roots_perm (f : Forest) : f.roots.Perm (f.trees.map (·.id)) := sortBy_perm ..

theorem mem_roots : n ∈ f.roots ↔ ∃ t ∈ f.trees, t.id = n := f.roots_perm.mem_iff.trans List.mem_map

/-! ## Rows -/

/-- The rows of all nodes. -/
def rows (f : Forest) : List Row := f.trees.flatMap (·.rows none)

/-- What every forest that comes about by edits satisfies. -/
structure WellFormed (f : Forest) : Prop where
  /-- No name stands twice. -/
  nodup_ids : (f.rows.map (·.id)).Nodup
  /-- No two children of a node hang at the same slot. -/
  nodup_places : (f.rows.filterMap (·.place)).Nodup
  /-- Every name has been handed out. -/
  issued : ∀ row ∈ f.rows, 0 ≤ row.id ∧ row.id < f.next
  next_nonneg : 0 ≤ f.next

theorem wellFormed_empty : empty.WellFormed where
  nodup_ids := List.nodup_nil
  nodup_places := List.nodup_nil
  issued := by simp [rows, empty]
  next_nonneg := Int.le_refl 0

theorem map_id_rows (f : Forest) : f.rows.map (·.id) = f.subtrees.map (·.id) := by
  simp only [rows, subtrees, List.map_flatMap]
  exact List.flatMap_congr fun t _ => Tree.map_id_rows t none

theorem mem_ids_iff_rows : n ∈ f.ids ↔ ∃ row ∈ f.rows, row.id = n := by
  rw [mem_ids, ← List.mem_map, ← map_id_rows, List.mem_map]

/-! ## Subtrees -/

theorem mem_subtrees_of_mem_trees (ht : t ∈ f.trees) : t ∈ f.subtrees :=
  List.mem_flatMap.2 ⟨t, ht, self_mem_subtrees t⟩

theorem subtree_mem_subtrees (hu : u ∈ t.subtrees) (ht : t ∈ f.subtrees) : u ∈ f.subtrees := by
  obtain ⟨root, hroot, ht⟩ := List.mem_flatMap.1 ht
  exact List.mem_flatMap.2 ⟨root, hroot, mem_subtrees_trans hu ht⟩

theorem child_mem_subtrees (ht : t ∈ f.subtrees) {b : Int × Tree} (hb : b ∈ t.branches) :
    b.2 ∈ f.subtrees :=
  subtree_mem_subtrees (branch_mem_subtrees hb) ht

theorem id_mem_of_mem_subtrees (ht : t ∈ f.subtrees) : t.id ∈ f.ids :=
  mem_ids.2 ⟨t, ht, rfl⟩

theorem ids_subset_ids (ht : t ∈ f.subtrees) (hn : n ∈ t.ids) : n ∈ f.ids := by
  obtain ⟨u, hu, rfl⟩ := mem_ids_iff_subtrees.1 hn
  exact id_mem_of_mem_subtrees (subtree_mem_subtrees hu ht)

/-- Induction from the roots downwards: a property passes from a node to its children. -/
theorem subtrees_induction {P : Tree → Prop} (root : ∀ t ∈ f.trees, P t)
    (child : ∀ t ∈ f.subtrees, P t → ∀ b ∈ t.branches, P b.2) : ∀ t ∈ f.subtrees, P t := by
  -- From any node downwards the induction is one over its tree.
  have below (t : Tree) : t ∈ f.subtrees → P t → ∀ u ∈ t.subtrees, P u := by
    induction t using Tree.induction with
    | node id kind branches ih =>
      intro ht hP u hu
      rcases mem_subtrees_iff.1 hu with rfl | ⟨b, hb, hu⟩
      · exact hP
      · exact ih b hb (child_mem_subtrees ht hb) (child _ ht hP b hb) u hu
  intro u hu
  obtain ⟨t, ht, hu⟩ := List.mem_flatMap.1 hu
  exact below t (mem_subtrees_of_mem_trees ht) (root t ht) u hu

/-- A node is a root or the child of another. -/
theorem mem_trees_or_child (ht : t ∈ f.subtrees) :
    t ∈ f.trees ∨ ∃ u ∈ f.subtrees, ∃ b ∈ u.branches, b.2 = t := by
  refine subtrees_induction
    (P := fun t => t ∈ f.trees ∨ ∃ u ∈ f.subtrees, ∃ b ∈ u.branches, b.2 = t) ?_ ?_ t ht
  · exact fun t ht => .inl ht
  · exact fun t ht _ b hb => .inr ⟨t, ht, b, hb, rfl⟩

theorem mem_rows_iff_branch {row : Row} :
    row ∈ f.rows ↔
      (∃ t ∈ f.trees, row = ⟨t.id, t.kind, none⟩) ∨
        ∃ t ∈ f.subtrees, ∃ b ∈ t.branches, row = ⟨b.2.id, b.2.kind, some (t.id, b.1)⟩ := by
  simp only [rows, subtrees, List.mem_flatMap, Tree.mem_rows_iff]
  refine ⟨?_, ?_⟩
  · rintro ⟨t, ht, rfl | ⟨u, hu, b, hb, rfl⟩⟩
    · exact .inl ⟨t, ht, rfl⟩
    · exact .inr ⟨u, ⟨t, ht, hu⟩, b, hb, rfl⟩
  · rintro (⟨t, ht, rfl⟩ | ⟨u, ⟨t, ht, hu⟩, b, hb, rfl⟩)
    · exact ⟨t, ht, .inl rfl⟩
    · exact ⟨t, ht, .inr ⟨u, hu, b, hb, rfl⟩⟩

/-- Among trees that share no name, a node of one lies in none before or after it. -/
theorem notMem_of_split {l r : List Tree} (nodup : ((l ++ t :: r).flatMap (·.ids)).Nodup)
    (hn : n ∈ t.ids) : (∀ c ∈ l, n ∉ c.ids) ∧ ∀ c ∈ r, n ∉ c.ids := by
  rw [List.flatMap_append, List.flatMap_cons, List.nodup_append, List.nodup_append] at nodup
  obtain ⟨-, ⟨-, -, hr⟩, hl⟩ := nodup
  refine ⟨?_, ?_⟩
  · intro c hc hnc
    exact hl n (List.mem_flatMap.2 ⟨c, hc, hnc⟩) n (List.mem_append_left _ hn) rfl
  · intro c hc hnc
    exact hr n hn n (List.mem_flatMap.2 ⟨c, hc, hnc⟩) rfl

namespace WellFormed

/-! ## Names -/

theorem nodup_subtrees (wf : f.WellFormed) : (f.subtrees.map (·.id)).Nodup := by
  rw [← map_id_rows]
  exact wf.nodup_ids

theorem nodup_names (wf : f.WellFormed) : f.ids.Nodup :=
  f.ids_perm.nodup_iff.2 wf.nodup_subtrees

theorem nodup_trees (wf : f.WellFormed) : (f.trees.flatMap (·.ids)).Nodup := by
  have h := wf.nodup_subtrees
  rwa [subtrees, List.map_flatMap] at h

theorem nodup_roots (wf : f.WellFormed) : f.roots.Nodup := by
  rw [f.roots_perm.nodup_iff, List.Nodup, List.pairwise_map]
  -- Trees that share no name have roots of different names.
  refine (List.nodup_flatMap.1 wf.nodup_trees).2.imp fun {t u} hdisjoint heq => ?_
  exact hdisjoint (id_mem_ids t) (heq ▸ id_mem_ids u)

/-- A name picks out one row. -/
theorem row_eq (wf : f.WellFormed) {row row' : Row} (h : row ∈ f.rows) (h' : row' ∈ f.rows)
    (hid : row.id = row'.id) : row = row' :=
  List.inj_on_of_nodup_map wf.nodup_ids h h' hid

/-- A name picks out one subtree. -/
theorem eq_of_id_eq (wf : f.WellFormed) (ht : t ∈ f.subtrees) (hu : u ∈ f.subtrees)
    (hid : t.id = u.id) : t = u :=
  List.inj_on_of_nodup_map wf.nodup_subtrees ht hu hid

theorem nodup_tree (wf : f.WellFormed) (ht : t ∈ f.subtrees) : t.ids.Nodup := by
  obtain ⟨root, hroot, ht⟩ := List.mem_flatMap.1 ht
  exact Tree.nodup_subtree ((List.nodup_flatMap.1 wf.nodup_trees).1 root hroot) ht

/-- No two trees share a node. -/
theorem tree_eq (wf : f.WellFormed) (ht : t ∈ f.trees) (hu : u ∈ f.trees) (hnt : n ∈ t.ids)
    (hnu : n ∈ u.ids) : t = u := by
  obtain ⟨l, r, htrees⟩ := List.append_of_mem ht
  have nodup := wf.nodup_trees
  rw [htrees] at nodup hu
  obtain ⟨hl, hr⟩ := notMem_of_split nodup hnt
  rcases List.mem_append.1 hu with hu | hu
  · exact absurd hnu (hl u hu)
  · rcases List.mem_cons.1 hu with rfl | hu
    · rfl
    · exact absurd hnu (hr u hu)

theorem find?_eq_some_iff (wf : f.WellFormed) :
    f.find? n = some t ↔ t ∈ f.subtrees ∧ t.id = n := by
  refine ⟨?_, ?_⟩
  · exact fun h => ⟨List.mem_of_find?_eq_some h, id_of_find? h⟩
  · rintro ⟨ht, rfl⟩
    obtain ⟨u, hu⟩ : ∃ u, f.find? t.id = some u := by
      rw [← Option.isSome_iff_exists, Option.isSome_iff_ne_none, Ne, find?_eq_none_iff]
      exact fun h => h (id_mem_of_mem_subtrees ht)
    rw [hu, wf.eq_of_id_eq (List.mem_of_find?_eq_some hu) ht (id_of_find? hu)]

theorem get_eq_ok_iff (wf : f.WellFormed) : f.get n = .ok t ↔ t ∈ f.subtrees ∧ t.id = n := by
  rw [← wf.find?_eq_some_iff, get]
  split
  · rename_i h
    rw [h, Except.ok.injEq, Option.some.injEq]
  · rename_i h
    simp [h]

theorem get_self (wf : f.WellFormed) (ht : t ∈ f.subtrees) : f.get t.id = .ok t :=
  wf.get_eq_ok_iff.2 ⟨ht, rfl⟩

/-! ## Places -/

theorem place?_eq_some_of_row (wf : f.WellFormed) {row : Row} (h : row ∈ f.rows) :
    f.place? row.id = row.place := by
  -- Whatever branch is found, it is that of a row with this name, of which there is one.
  have sound {place : NodeId × Int} (hp : f.place? row.id = some place) :
      row.place = some place := by
    obtain ⟨t, ht, h'⟩ := List.exists_of_findSome?_eq_some hp
    obtain ⟨b, hb, rfl⟩ := Option.map_eq_some_iff.1 h'
    have hid : b.2.id = row.id := by simpa using List.find?_some hb
    have hrow := mem_rows_iff_branch.2 (.inr ⟨t, ht, b, List.mem_of_find?_eq_some hb, rfl⟩)
    rw [← wf.row_eq hrow h hid]
  cases hp : f.place? row.id with
  | some place => exact (sound hp).symm
  | none =>
    rcases mem_rows_iff_branch.1 h with ⟨t, ht, rfl⟩ | ⟨t, ht, b, hb, rfl⟩
    · rfl
    · -- The branch that leads to the node is there to be found.
      have h' := List.findSome?_eq_none_iff.1 hp t ht
      rw [Option.map_eq_none_iff, List.find?_eq_none] at h'
      exact absurd (h' b hb) (by simp)

theorem place?_branch (wf : f.WellFormed) (ht : t ∈ f.subtrees) {b : Int × Tree}
    (hb : b ∈ t.branches) : f.place? b.2.id = some (t.id, b.1) :=
  wf.place?_eq_some_of_row (mem_rows_iff_branch.2 (.inr ⟨t, ht, b, hb, rfl⟩))

theorem place?_root (wf : f.WellFormed) (ht : t ∈ f.trees) : f.place? t.id = none :=
  wf.place?_eq_some_of_row (mem_rows_iff_branch.2 (.inl ⟨t, ht, rfl⟩))

/-- A row says of a node what the forest says of it. -/
theorem mem_rows_iff (wf : f.WellFormed) {row : Row} :
    row ∈ f.rows ↔ ∃ t ∈ f.subtrees, row = ⟨t.id, t.kind, f.place? t.id⟩ := by
  refine ⟨?_, ?_⟩
  · intro h
    rcases mem_rows_iff_branch.1 h with ⟨t, ht, rfl⟩ | ⟨t, ht, b, hb, rfl⟩
    · exact ⟨t, mem_subtrees_of_mem_trees ht, by rw [wf.place?_root ht]⟩
    · exact ⟨b.2, child_mem_subtrees ht hb, by rw [wf.place?_branch ht hb]⟩
  · rintro ⟨t, ht, rfl⟩
    rcases mem_trees_or_child ht with ht | ⟨u, hu, b, hb, rfl⟩
    · rw [wf.place?_root ht]
      exact mem_rows_iff_branch.2 (.inl ⟨t, ht, rfl⟩)
    · rw [wf.place?_branch hu hb]
      exact mem_rows_iff_branch.2 (.inr ⟨u, hu, b, hb, rfl⟩)

/-- A node hangs at a place if a branch of its parent leads to it. -/
theorem exists_branch_of_place? (wf : f.WellFormed) (ht : t ∈ f.subtrees)
    (h : f.place? t.id = some (p, s)) : ∃ u ∈ f.subtrees, u.id = p ∧ (s, t) ∈ u.branches := by
  rcases mem_trees_or_child ht with ht | ⟨u, hu, b, hb, rfl⟩
  · rw [wf.place?_root ht] at h
    cases h
  · rw [wf.place?_branch hu hb] at h
    cases h
    exact ⟨u, hu, rfl, hb⟩

/-- Only nodes of the forest hang anywhere. -/
theorem mem_ids_of_place? (h : f.place? n = some (p, s)) : n ∈ f.ids := by
  obtain ⟨t, ht, h'⟩ := List.exists_of_findSome?_eq_some h
  obtain ⟨b, hb, -⟩ := Option.map_eq_some_iff.1 h'
  have hid : b.2.id = n := by simpa using List.find?_some hb
  exact hid ▸ id_mem_of_mem_subtrees (child_mem_subtrees ht (List.mem_of_find?_eq_some hb))

theorem mem_branches_iff (wf : f.WellFormed) (ht : t ∈ f.subtrees) :
    (s, u) ∈ t.branches ↔ u ∈ f.subtrees ∧ f.place? u.id = some (t.id, s) := by
  refine ⟨?_, ?_⟩
  · exact fun h => ⟨child_mem_subtrees ht h, wf.place?_branch ht h⟩
  · rintro ⟨hu, h⟩
    obtain ⟨v, hv, hid, hb⟩ := wf.exists_branch_of_place? hu h
    rwa [wf.eq_of_id_eq hv ht hid] at hb

theorem mem_trees_iff (wf : f.WellFormed) :
    t ∈ f.trees ↔ t ∈ f.subtrees ∧ f.place? t.id = none := by
  refine ⟨?_, ?_⟩
  · exact fun h => ⟨mem_subtrees_of_mem_trees h, wf.place?_root h⟩
  · rintro ⟨ht, h⟩
    rcases mem_trees_or_child ht with ht | ⟨u, hu, b, hb, rfl⟩
    · exact ht
    · rw [wf.place?_branch hu hb] at h
      cases h

theorem mem_roots_iff (wf : f.WellFormed) :
    n ∈ f.roots ↔ n ∈ f.ids ∧ f.place? n = none := by
  rw [mem_roots, mem_ids]
  refine ⟨?_, ?_⟩
  · rintro ⟨t, ht, rfl⟩
    exact ⟨⟨t, mem_subtrees_of_mem_trees ht, rfl⟩, wf.place?_root ht⟩
  · rintro ⟨⟨t, ht, rfl⟩, h⟩
    exact ⟨t, wf.mem_trees_iff.2 ⟨ht, h⟩, rfl⟩

/-- The only subtree that contains a root is the tree of that root. -/
theorem eq_of_root_mem (wf : f.WellFormed) (ht : t ∈ f.trees) (hu : u ∈ f.subtrees)
    (h : t.id ∈ u.ids) : u = t := by
  obtain ⟨v, hv, hid⟩ := mem_ids_iff_subtrees.1 h
  have hvt : v = t := wf.eq_of_id_eq (subtree_mem_subtrees hv hu) (mem_subtrees_of_mem_trees ht) hid
  subst hvt
  by_contra hne
  obtain ⟨w, hw, b, hb, hbv⟩ := Tree.exists_parent_of_ne hv fun h => hne h.symm
  -- Below the top of the subtree, the root would hang somewhere.
  have hplace := wf.place?_branch (subtree_mem_subtrees hw hu) hb
  rw [hbv, wf.place?_root ht] at hplace
  cases hplace

/-- A subtree contains a root at its top only. -/
theorem root_mem_ids_iff (wf : f.WellFormed) (hu : u ∈ f.subtrees) (hn : n ∈ f.roots) :
    n ∈ u.ids ↔ n = u.id := by
  obtain ⟨v, hv, rfl⟩ := mem_roots.1 hn
  refine ⟨?_, ?_⟩
  · intro hmem
    rw [wf.eq_of_root_mem hv hu hmem]
  · intro hid
    rw [hid]
    exact id_mem_ids u

/-! ## Slots -/

/-- The children of a node hang at different slots. -/
theorem nodup_slots (wf : f.WellFormed) (ht : t ∈ f.subtrees) :
    (t.branches.map (·.1)).Nodup := by
  obtain ⟨root, hroot, ht⟩ := List.mem_flatMap.1 ht
  have h := wf.nodup_places
  rw [rows, List.filterMap_flatMap, List.nodup_flatMap] at h
  exact Tree.nodup_slots_of_rows (h.1 root hroot) ht

theorem child?_eq_some_iff (wf : f.WellFormed) (ht : t ∈ f.subtrees) :
    t.child? s = some u ↔ (s, u) ∈ t.branches :=
  lookup_eq_some_iff_mem (wf.nodup_slots ht)

/-- The child at a slot is the node that hangs there. -/
theorem child?_eq_some_iff_place (wf : f.WellFormed) (ht : t ∈ f.subtrees) :
    t.child? s = some u ↔ u ∈ f.subtrees ∧ f.place? u.id = some (t.id, s) :=
  (wf.child?_eq_some_iff ht).trans (wf.mem_branches_iff ht)

/-! ## What lies above -/

/-- A child of a node that lies in a subtree lies in it too. -/
theorem mem_ids_of_parent (wf : f.WellFormed) (ht : t ∈ f.subtrees) (hp : p ∈ t.ids)
    (h : f.place? n = some (p, s)) : n ∈ t.ids := by
  obtain ⟨u, hu, rfl⟩ := mem_ids_iff_subtrees.1 hp
  obtain ⟨v, hv, rfl⟩ := mem_ids.1 (mem_ids_of_place? h)
  have hb := (wf.mem_branches_iff (subtree_mem_subtrees hu ht)).2 ⟨hv, h⟩
  exact ids_subset hu (ids_subset (branch_mem_subtrees hb) (id_mem_ids v))

/-- The parent of a node that lies in a subtree lies in it too, unless the node heads it. -/
theorem parent_mem_ids (wf : f.WellFormed) (ht : t ∈ f.subtrees) (hn : n ∈ t.ids)
    (hne : n ≠ t.id) (h : f.place? n = some (p, s)) : p ∈ t.ids := by
  obtain ⟨u, hu, rfl⟩ := mem_ids_iff_subtrees.1 hn
  have hne' : u ≠ t := fun h => hne (by rw [h])
  obtain ⟨v, hv, b, hb, rfl⟩ := Tree.exists_parent_of_ne hu hne'
  rw [wf.place?_branch (subtree_mem_subtrees hv ht) hb] at h
  cases h
  exact mem_ids_iff_subtrees.2 ⟨v, hv, rfl⟩

/-- The trail of a node stays within the tree that contains it. -/
theorem trail_of_mem (wf : f.WellFormed) (ht : t ∈ f.trees) (hn : n ∈ t.ids) :
    f.trail n = t.trail n := by
  have hfound {u : Tree} : (!(u.trail n).isEmpty) = true ↔ n ∈ u.ids := by
    rw [Bool.not_eq_true', List.isEmpty_eq_false_iff, Ne, Tree.trail_eq_nil_iff, not_not]
  rw [trail]
  -- The search stops at a tree that contains the node, and no two trees do.
  cases hfind : f.trees.find? fun u => !(u.trail n).isEmpty with
  | none => exact absurd (hfound.2 hn) (List.find?_eq_none.1 hfind t ht)
  | some u =>
    have hu : n ∈ u.ids := by
      have h := List.find?_some hfind
      exact hfound.1 h
    rw [wf.tree_eq (List.mem_of_find?_eq_some hfind) ht hu hn]
    rfl

theorem mem_trail_iff (wf : f.WellFormed) :
    u ∈ f.trail n ↔ u ∈ f.subtrees ∧ n ∈ u.ids := by
  refine ⟨?_, ?_⟩
  · intro h
    rw [trail] at h
    cases ht : f.trees.find? fun t => !(t.trail n).isEmpty with
    | none =>
      rw [ht] at h
      cases h
    | some t =>
      rw [ht] at h
      have hmem := mem_subtrees_of_mem_trees (List.mem_of_find?_eq_some ht)
      obtain ⟨hu, hn⟩ := (Tree.mem_trail_iff (wf.nodup_tree hmem)).1 h
      exact ⟨subtree_mem_subtrees hu hmem, hn⟩
  · rintro ⟨hu, hn⟩
    obtain ⟨t, ht, hut⟩ := List.mem_flatMap.1 hu
    rw [wf.trail_of_mem ht (ids_subset hut hn)]
    exact (Tree.mem_trail_iff (wf.nodup_tree (mem_subtrees_of_mem_trees ht))).2 ⟨hut, hn⟩

end WellFormed

end ShortCircuit.Forest

/-
  ShortCircuit.Proofs.Tree.Surgery

  A tree as a table with a row for each node, and what surgery does to the table.
  Taking a node off its parent cuts the rows of its subtree out; hanging a tree
  below a node adds its rows.  The order of rows depends on the order in which
  children were attached, hence tables are compared up to permutation.
-/

import Mathlib.Data.List.Perm.Basic
import ShortCircuit.Proofs.Tree.Subtrees

namespace ShortCircuit

/-- What a table says of a node: its name, its kind, and its parent and slot, unless the node
    is a root. -/
structure Row where
  id : NodeId
  kind : Kind
  place : Option (NodeId × Int)

theorem map_eq_self {α : Type} {f : α → α} {xs : List α} (h : ∀ x ∈ xs, f x = x) :
    xs.map f = xs := by
  rw [List.map_congr_left h, List.map_id']

/-- What is split off from the middle of a list can be put at its end. -/
theorem perm_of_middle {α : Type} {xs ys zs : List α} (h : xs.Perm (ys ++ zs)) (l r : List α) :
    (l ++ (xs ++ r)).Perm (l ++ (ys ++ r) ++ zs) := by
  rw [List.append_assoc, List.append_assoc]
  refine List.Perm.append_left l ((h.append_right r).trans ?_)
  rw [List.append_assoc]
  exact List.Perm.append_left ys List.perm_append_comm

namespace Tree

variable {t u v : Tree} {n p : NodeId} {s : Int} {place : Option (NodeId × Int)}

/-- The rows of a tree that hangs at a place. -/
def rows : Tree → Option (NodeId × Int) → List Row :=
  fold fun id kind branches place =>
    ⟨id, kind, place⟩ :: branches.flatMap fun b => b.2 (some (id, b.1))

theorem rows_node (id : NodeId) (kind : Kind) (branches : List (Int × Tree))
    (place : Option (NodeId × Int)) :
    (node id kind branches).rows place =
      ⟨id, kind, place⟩ :: branches.flatMap fun b => b.2.rows (some (id, b.1)) := by
  rw [rows, fold_node, List.flatMap_map]

theorem rows_eq (t : Tree) (place : Option (NodeId × Int)) :
    t.rows place =
      ⟨t.id, t.kind, place⟩ :: t.branches.flatMap fun b => b.2.rows (some (t.id, b.1)) := by
  cases t
  exact rows_node ..

/-- There is a row for each node. -/
theorem map_id_rows (t : Tree) (place : Option (NodeId × Int)) :
    (t.rows place).map (·.id) = t.ids := by
  induction t using Tree.induction generalizing place with
  | node id kind branches ih =>
    rw [rows_node, ids_node, List.map_cons, List.map_flatMap]
    congr 1
    exact List.flatMap_congr fun b hb => ih b hb _

/-- The row of the top says where the tree hangs; any other row is that of a child, and says
    which branch leads to it. -/
theorem mem_rows_iff {row : Row} :
    row ∈ t.rows place ↔
      row = ⟨t.id, t.kind, place⟩ ∨
        ∃ u ∈ t.subtrees, ∃ b ∈ u.branches, row = ⟨b.2.id, b.2.kind, some (u.id, b.1)⟩ := by
  induction t using Tree.induction generalizing place with
  | node id kind branches ih =>
    -- Every row but the first is in a branch, be it that of the child or one further down.
    rw [rows_node, List.mem_cons, List.mem_flatMap]
    refine or_congr_right ?_
    refine ⟨?_, ?_⟩
    · rintro ⟨b, hb, hrow⟩
      rcases (ih b hb).1 hrow with rfl | ⟨u, hu, c, hc, rfl⟩
      · exact ⟨_, self_mem_subtrees _, b, hb, rfl⟩
      · exact ⟨u, mem_subtrees_iff.2 (.inr ⟨b, hb, hu⟩), c, hc, rfl⟩
    · rintro ⟨u, hu, c, hc, rfl⟩
      rcases mem_subtrees_iff.1 hu with rfl | ⟨b, hb, hu⟩
      · exact ⟨c, hc, (ih c hc).2 (.inl rfl)⟩
      · exact ⟨b, hb, (ih b hb).2 (.inr ⟨u, hu, c, hc, rfl⟩)⟩

/-- If no place stands twice in the table, the children of each node hang at different slots. -/
theorem nodup_slots_of_rows (nodup : ((t.rows place).filterMap (·.place)).Nodup)
    (hu : u ∈ t.subtrees) : (u.branches.map (·.1)).Nodup := by
  induction t using Tree.induction generalizing place with
  | node id kind branches ih =>
    have hbelow : ((branches.flatMap fun b => b.2.rows (some (id, b.1))).filterMap
        (·.place)).Nodup := by
      rw [rows_node] at nodup
      exact nodup.sublist ((List.sublist_cons_self ..).filterMap _)
    rw [List.filterMap_flatMap, List.nodup_flatMap] at hbelow
    rcases mem_subtrees_iff.1 hu with rfl | ⟨b, hb, hu⟩
    · refine List.pairwise_map.2 (hbelow.2.imp ?_)
      intro b c disjoint heq
      -- Two branches at one slot would give the same place to two children.
      have hmem (b : Int × Tree) :
          (id, b.1) ∈ (b.2.rows (some (id, b.1))).filterMap (·.place) := by
        rw [rows_eq, List.filterMap_cons]
        exact List.mem_cons_self ..
      exact disjoint (hmem b) (heq ▸ hmem c)
    · exact ih b hb (hbelow.1 b hb) hu

/-! ## Taking a node off -/

theorem branches_prune (t : Tree) (n : NodeId) :
    (t.prune n).branches =
      (t.branches.map fun b => (b.1, b.2.prune n)).filter (·.2.id != n) := by
  cases t
  rw [prune_node, branches, branches]

/-- Where no branch leads to the node, there is nothing to take off. -/
theorem prune_eq_self (h : ∀ b ∈ t.branches, n ∉ b.2.ids) : t.prune n = t := by
  induction t using Tree.induction with
  | node id kind branches ih =>
    have hmap : (branches.map fun b => (b.1, b.2.prune n)) = branches := by
      refine map_eq_self fun b hb => ?_
      have hb' : b.2.prune n = b.2 :=
        ih b hb fun c hc hn => h b hb (mem_ids_iff.2 (.inr ⟨c, hc, hn⟩))
      rw [hb']
    rw [prune_node, hmap, List.filter_eq_self.2]
    intro b hb
    have hne : b.2.id ≠ n := fun heq => h b hb (heq ▸ id_mem_ids b.2)
    simpa using hne

theorem prune_of_notMem (h : n ∉ t.ids) : t.prune n = t :=
  prune_eq_self fun b hb hn => h (mem_ids_iff.2 (.inr ⟨b, hb, hn⟩))

/-- Branches that do not contain the node stay. -/
theorem filter_prune_of_notMem {branches : List (Int × Tree)}
    (h : ∀ b ∈ branches, n ∉ b.2.ids) :
    ((branches.map fun b => (b.1, b.2.prune n)).filter (·.2.id != n)) = branches := by
  have := prune_eq_self (t := node n .unit branches) h
  rw [prune_node] at this
  injection this

/-- What is taken off and what stays make up the table together. -/
theorem rows_prune (nodup : t.ids.Nodup) (hu : u ∈ t.subtrees) (hne : t.id ≠ u.id)
    (place : Option (NodeId × Int)) :
    ∃ hung, (t.rows place).Perm ((t.prune u.id).rows place ++ u.rows (some hung)) := by
  induction t using Tree.induction generalizing place with
  | node id kind branches ih =>
    obtain ⟨b, hb, hub⟩ := mem_branch_of_ne hu fun h => hne (by rw [h])
    obtain ⟨l, r, rfl⟩ := List.append_of_mem hb
    obtain ⟨-, hl, hr⟩ := notMem_of_split nodup (ids_subset hub (id_mem_ids u))
    -- Only the branch that leads to the subtree changes, or goes.
    have hkeep : (node id kind (l ++ b :: r)).prune u.id =
        node id kind (l ++ ((if b.2.id = u.id then [] else [(b.1, b.2.prune u.id)]) ++ r)) := by
      rw [prune_node, List.map_append, List.filter_append, List.map_cons, List.filter_cons,
        filter_prune_of_notMem hl, filter_prune_of_notMem hr, id_prune]
      by_cases h : b.2.id = u.id
      · simp [h]
      · simp [h]
    rw [hkeep, rows_node, rows_node]
    simp only [List.flatMap_append, List.flatMap_cons, List.cons_append]
    by_cases h : b.2.id = u.id
    · -- The branch leads to the node itself, and goes as a whole.
      have hbu : b.2 = u := eq_of_id_eq nodup (branch_mem_subtrees hb) hu h
      have hperm : (u.rows (some (id, b.1))).Perm ([] ++ u.rows (some (id, b.1))) := .refl _
      refine ⟨(id, b.1), List.Perm.cons _ ?_⟩
      rw [if_pos h, hbu, List.flatMap_nil]
      exact perm_of_middle hperm _ _
    · -- The subtree lies deeper, and by induction it can be split off from the branch.
      obtain ⟨hung, hperm⟩ :=
        ih b hb (nodup_branch nodup hb) hub h (some (id, b.1))
      refine ⟨hung, List.Perm.cons _ ?_⟩
      rw [if_neg h, List.flatMap_singleton]
      exact perm_of_middle hperm _ _

theorem ids_prune (nodup : t.ids.Nodup) (hu : u ∈ t.subtrees) (hne : t.id ≠ u.id) :
    t.ids.Perm ((t.prune u.id).ids ++ u.ids) := by
  obtain ⟨hung, hperm⟩ := rows_prune nodup hu hne none
  simpa [map_id_rows] using hperm.map (·.id)

/-- The subtrees outside the one that is taken off stay, each without it. -/
theorem prune_mem_subtrees (hv : v ∈ t.subtrees) (hne : t.id ≠ n)
    (outside : ∀ u ∈ t.subtrees, u.id = n → v ∉ u.subtrees) :
    v.prune n ∈ (t.prune n).subtrees := by
  induction t using Tree.induction with
  | node id kind branches ih =>
    rcases mem_subtrees_iff.1 hv with rfl | ⟨b, hb, hvb⟩
    · exact self_mem_subtrees _
    · -- The branch does not lead to what is taken off, so it stays.
      have hbn : b.2.id ≠ n := fun h => outside b.2 (branch_mem_subtrees hb) h hvb
      have hmem : (b.1, b.2.prune n) ∈ ((node id kind branches).prune n).branches := by
        rw [branches_prune, List.mem_filter]
        exact ⟨List.mem_map.2 ⟨b, hb, rfl⟩, by simpa using hbn⟩
      refine mem_subtrees_trans (ih b hb hvb hbn fun u hu => ?_) (branch_mem_subtrees hmem)
      exact outside u (mem_subtrees_trans hu (branch_mem_subtrees hb))

/-! ## Hanging a tree below a node -/

theorem graft_of_notMem {branch : Int × Tree} (h : n ∉ t.ids) : t.graft n branch = t := by
  induction t using Tree.induction with
  | node id kind branches ih =>
    have hid : id ≠ n := fun heq => h (mem_ids_iff.2 (.inl heq.symm))
    have hmap : (branches.map fun b => (b.1, b.2.graft n branch)) = branches := by
      refine map_eq_self fun b hb => ?_
      rw [ih b hb fun hn => h (mem_ids_iff.2 (.inr ⟨b, hb, hn⟩))]
    rw [graft_node, if_neg hid, hmap]

/-- Branches that do not contain the node stay. -/
theorem map_graft_of_notMem {branches : List (Int × Tree)} (h : ∀ b ∈ branches, p ∉ b.2.ids)
    (branch : Int × Tree) : (branches.map fun b => (b.1, b.2.graft p branch)) = branches := by
  refine map_eq_self fun b hb => ?_
  rw [graft_of_notMem (h b hb)]

/-- The rows of what is hung below a node are added to the table. -/
theorem rows_graft (nodup : t.ids.Nodup) (hp : p ∈ t.ids) (s : Int) (u : Tree)
    (place : Option (NodeId × Int)) :
    ((t.graft p (s, u)).rows place).Perm (t.rows place ++ u.rows (some (p, s))) := by
  induction t using Tree.induction generalizing place with
  | node id kind branches ih =>
    by_cases hid : id = p
    · subst hid
      have hbelow : ∀ b ∈ branches, id ∉ b.2.ids := fun b hb => id_notMem_branch nodup hb
      rw [graft_node, if_pos rfl, map_graft_of_notMem hbelow, rows_node, rows_node,
        List.flatMap_append, List.flatMap_singleton, List.cons_append]
    · rcases mem_ids_iff.1 hp with h | ⟨b, hb, hpb⟩
      · exact absurd h.symm hid
      · -- The node lies in one branch, and the rows of that one branch grow.
        obtain ⟨l, r, rfl⟩ := List.append_of_mem hb
        obtain ⟨-, hl, hr⟩ := notMem_of_split nodup hpb
        rw [graft_node, if_neg hid, List.map_append, List.map_cons, map_graft_of_notMem hl,
          map_graft_of_notMem hr, rows_node, rows_node]
        simp only [List.flatMap_append, List.flatMap_cons, List.cons_append]
        have hperm := ih b hb (nodup_branch nodup hb) hpb (some (id, b.1))
        exact List.Perm.cons _ (perm_of_middle hperm _ _)

/-- The node that something is hung below keeps its branches and gets one more. -/
theorem graft_mem_subtrees (hv : v ∈ t.subtrees) (branch : Int × Tree) :
    v.graft n branch ∈ (t.graft n branch).subtrees := by
  induction t using Tree.induction with
  | node id kind branches ih =>
    rcases mem_subtrees_iff.1 hv with rfl | ⟨b, hb, hvb⟩
    · exact self_mem_subtrees _
    · have hmem :
          (b.1, b.2.graft n branch) ∈ ((node id kind branches).graft n branch).branches := by
        rw [graft_node, Tree.branches]
        have h := List.mem_map_of_mem (f := fun b : Int × Tree => (b.1, b.2.graft n branch)) hb
        split
        · exact List.mem_append_left _ h
        · exact h
      exact mem_subtrees_trans (ih b hb hvb) (branch_mem_subtrees hmem)

theorem branch_mem_graft (hp : p ∈ t.ids) (s : Int) (u : Tree) :
    u ∈ (t.graft p (s, u)).subtrees := by
  obtain ⟨v, hv, rfl⟩ := mem_ids_iff_subtrees.1 hp
  refine mem_subtrees_trans ?_ (graft_mem_subtrees hv (s, u))
  have hmem : (s, u) ∈ (v.graft v.id (s, u)).branches := by
    obtain ⟨id, kind, branches⟩ := v
    rw [graft_node, Tree.branches, Tree.id, if_pos rfl]
    exact List.mem_append_right _ (List.mem_singleton_self _)
  exact branch_mem_subtrees hmem

end Tree

end ShortCircuit

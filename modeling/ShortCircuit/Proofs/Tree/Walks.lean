/-
  ShortCircuit.Proofs.Tree.Walks

  Walks over a tree.  A walk that enters no node that has been seen lists the
  rest in the order of the walk over the whole, provided that with a node all
  below it has been seen.  A walk before lists the nodes of every subtree in one
  stretch, its top first; a walk after puts every node behind all that lies below
  it, and the top last.
-/

import Mathlib.Data.List.Flatten
import Mathlib.Data.List.Perm.Basic
import ShortCircuit.Proofs.Tree.Subtrees

namespace ShortCircuit.Tree

variable {t u : Tree} {m n : NodeId} {order : Order} {seen : List NodeId}

/-! ## One node -/

theorem walkBranches_eq (branches : List (Int × Tree)) :
    walkBranches order seen branches = branches.flatMap (·.2.walk order seen) := by
  induction branches with
  | nil => simp [walkBranches]
  | cons b rest ih =>
    obtain ⟨slot, child⟩ := b
    rw [walkBranches, ih, List.flatMap_cons]

theorem walk_of_mem (h : t.id ∈ seen) : t.walk order seen = [] := by
  obtain ⟨id, kind, branches⟩ := t
  rw [walk.eq_def]
  exact if_pos (List.contains_iff_mem.2 h)

theorem walk_before_of_notMem (h : t.id ∉ seen) :
    t.walk .before seen = t.id :: t.branches.flatMap (·.2.walk .before seen) := by
  obtain ⟨id, kind, branches⟩ := t
  have hseen : ¬seen.contains id = true := fun h' => h (List.contains_iff_mem.1 h')
  rw [walk, if_neg hseen, ← walkBranches_eq]
  rfl

theorem walk_after_of_notMem (h : t.id ∉ seen) :
    t.walk .after seen = t.branches.flatMap (·.2.walk .after seen) ++ [t.id] := by
  obtain ⟨id, kind, branches⟩ := t
  have hseen : ¬seen.contains id = true := fun h' => h (List.contains_iff_mem.1 h')
  rw [walk, if_neg hseen, ← walkBranches_eq]
  rfl

/-! ## Nothing seen before -/

/-- Nodes are named in the order of the walk before. -/
theorem walk_before (t : Tree) : t.walk .before [] = t.ids := by
  induction t using Tree.induction with
  | node id kind branches ih =>
    rw [walk_before_of_notMem List.not_mem_nil, ids_eq]
    exact congrArg _ (List.flatMap_congr ih)

/-- A walk comes to every node once. -/
theorem walk_perm (order : Order) (t : Tree) : (t.walk order []).Perm t.ids := by
  cases order with
  | before => rw [walk_before]
  | after =>
    induction t using Tree.induction with
    | node id kind branches ih =>
      rw [walk_after_of_notMem List.not_mem_nil, ids_eq]
      exact (List.perm_append_singleton ..).trans ((List.Perm.flatMap_left _ ih).cons _)

theorem mem_walk_iff : n ∈ t.walk order [] ↔ n ∈ t.ids := (walk_perm order t).mem_iff

/-- The walk after comes to the top last. -/
theorem getLast?_walk_after (t : Tree) : (t.walk .after []).getLast? = some t.id := by
  rw [walk_after_of_notMem List.not_mem_nil, List.getLast?_concat]

/-! ## Above and below -/

/-- Whether a node lies below another, or is the same. -/
def LiesBelow (t : Tree) (n m : NodeId) : Prop := ∃ u ∈ t.subtrees, u.id = m ∧ n ∈ u.ids

/-- What the node of a branch has below it lies in the branch. -/
theorem LiesBelow.of_branch {b : Int × Tree} (h : t.LiesBelow n m) (nodup : t.ids.Nodup)
    (hb : b ∈ t.branches) (hm : m ∈ b.2.ids) : b.2.LiesBelow n m ∧ n ∈ b.2.ids := by
  obtain ⟨u, hu, rfl, hn⟩ := h
  obtain ⟨v, hv, hid⟩ := mem_ids_iff_subtrees.1 hm
  rw [eq_of_id_eq nodup (mem_subtrees_trans hv (branch_mem_subtrees hb)) hu hid] at hv
  exact ⟨⟨u, hv, rfl, hn⟩, ids_subset hv hn⟩

theorem not_liesBelow_of_ne {b c : Int × Tree} (nodup : t.ids.Nodup) (hb : b ∈ t.branches)
    (hc : c ∈ t.branches) (hne : b ≠ c) (hm : m ∈ b.2.ids) (hn : n ∈ c.2.ids) :
    ¬t.LiesBelow n m :=
  fun h => hne (eq_of_mem_branches nodup hb hc (h.of_branch nodup hb hm).2 hn)

theorem not_top_liesBelow {b : Int × Tree} (nodup : t.ids.Nodup) (hb : b ∈ t.branches)
    (hm : m ∈ b.2.ids) : ¬t.LiesBelow t.id m :=
  fun h => id_notMem_branch nodup hb (h.of_branch nodup hb hm).2

/-- What holds along every branch, and between nodes of different branches, holds along all
    branches. -/
theorem pairwise_branches {R : NodeId → NodeId → Prop} (nodup : t.ids.Nodup)
    (along : ∀ b ∈ t.branches, (b.2.walk order []).Pairwise R)
    (apart : ∀ b ∈ t.branches, ∀ c ∈ t.branches, b ≠ c → ∀ m ∈ b.2.ids, ∀ n ∈ c.2.ids, R m n) :
    (t.branches.flatMap (·.2.walk order [])).Pairwise R := by
  refine List.pairwise_flatMap.2 ⟨along, ?_⟩
  rw [ids_eq, List.nodup_cons, List.nodup_flatMap] at nodup
  refine nodup.2.2.imp_of_mem fun {b c} hb hc hdisjoint m hm n hn => ?_
  refine apart b hb c hc ?_ m (mem_walk_iff.1 hm) n (mem_walk_iff.1 hn)
  rintro rfl
  exact hdisjoint (id_mem_ids b.2) (id_mem_ids b.2)

/-- In a walk after, no node stands before one that lies below it. -/
theorem pairwise_walk_after (nodup : t.ids.Nodup) :
    (t.walk .after []).Pairwise fun m n => ¬t.LiesBelow n m := by
  induction t using Tree.induction with
  | node id kind branches ih =>
    rw [walk_after_of_notMem List.not_mem_nil, List.pairwise_append]
    refine ⟨pairwise_branches nodup (fun b hb => ?_) fun b hb c hc hne m hm n hn => ?_,
      List.pairwise_singleton .., fun m hm n hn => ?_⟩
    · refine (ih b hb (nodup_branch nodup hb)).imp_of_mem fun hm _ hnot h => hnot ?_
      exact (h.of_branch nodup hb (mem_walk_iff.1 hm)).1
    · exact not_liesBelow_of_ne nodup hb hc hne hm hn
    · obtain ⟨b, hb, hmb⟩ := List.mem_flatMap.1 hm
      rw [List.mem_singleton.1 hn]
      exact not_top_liesBelow nodup hb (mem_walk_iff.1 hmb)

/-- In a walk before, no node stands before one that it lies below. -/
theorem pairwise_walk_before (nodup : t.ids.Nodup) :
    (t.walk .before []).Pairwise fun m n => ¬t.LiesBelow m n := by
  induction t using Tree.induction with
  | node id kind branches ih =>
    rw [walk_before_of_notMem List.not_mem_nil, List.pairwise_cons]
    refine ⟨fun n hn => ?_, pairwise_branches nodup (fun b hb => ?_)
      fun b hb c hc hne m hm n hn => ?_⟩
    · obtain ⟨b, hb, hnb⟩ := List.mem_flatMap.1 hn
      exact not_top_liesBelow nodup hb (mem_walk_iff.1 hnb)
    · refine (ih b hb (nodup_branch nodup hb)).imp_of_mem fun _ hn hnot h => hnot ?_
      exact (h.of_branch nodup hb (mem_walk_iff.1 hn)).1
    · exact not_liesBelow_of_ne nodup hc hb (Ne.symm hne) hn hm

/-! ## Something seen before -/

/-- Where with a node all below it has been seen, a walk passes over what has been seen and keeps
    the order of the rest. -/
theorem walk_eq_filter (closed : ∀ u ∈ t.subtrees, u.id ∈ seen → ∀ m ∈ u.ids, m ∈ seen) :
    t.walk order seen = (t.walk order []).filter (· ∉ seen) := by
  induction t using Tree.induction with
  | node id kind branches ih =>
    by_cases hseen : (node id kind branches).id ∈ seen
    · rw [walk_of_mem hseen, eq_comm, List.filter_eq_nil_iff]
      intro m hm
      simpa using closed _ (self_mem_subtrees _) hseen m (mem_walk_iff.1 hm)
    · have hbelow : branches.flatMap (·.2.walk order seen) =
          (branches.flatMap (·.2.walk order [])).filter (· ∉ seen) := by
        rw [List.filter_flatMap]
        refine List.flatMap_congr fun b hb => ih b hb fun u hu => ?_
        exact closed u (mem_subtrees_trans hu (branch_mem_subtrees hb))
      have htop :
          [(node id kind branches).id].filter (· ∉ seen) = [(node id kind branches).id] := by
        simp [hseen]
      cases order with
      | before =>
        rw [walk_before_of_notMem hseen, walk_before_of_notMem List.not_mem_nil,
          List.filter_cons_of_pos (by simpa using hseen)]
        exact congrArg _ hbelow
      | after =>
        rw [walk_after_of_notMem hseen, walk_after_of_notMem List.not_mem_nil,
          List.filter_append, htop]
        exact congrArg (· ++ _) hbelow

/-! ## Stretches -/

/-- The nodes of a subtree stand in one stretch. -/
theorem ids_infix (hu : u ∈ t.subtrees) : u.ids <:+: t.ids := by
  induction t using Tree.induction with
  | node id kind branches ih =>
    rcases mem_subtrees_iff.1 hu with rfl | ⟨b, hb, hub⟩
    · exact List.infix_rfl
    · obtain ⟨l, r, rfl⟩ := List.append_of_mem hb
      refine (ih b (by simp) hub).trans ⟨id :: l.flatMap (·.2.ids), r.flatMap (·.2.ids), ?_⟩
      simp [ids_node]

/-- The children of a node stand in the order in which they were attached. -/
theorem children_sublist (t : Tree) : (t.branches.map (·.2.id)).Sublist t.ids := by
  rw [ids_eq]
  refine .cons _ ?_
  rw [List.map_eq_flatMap]
  exact List.Sublist.flatMap_right _ fun b _ =>
    List.singleton_sublist.2 (id_mem_ids b.2)

end ShortCircuit.Tree

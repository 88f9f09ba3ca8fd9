/-
  ShortCircuit.Proofs.Arena

  What nodes and edges look like from outside, after any requests: the edges make
  up trees, the children of a node stand at slots of their own, and names are
  never given twice.
-/

import Mathlib.Logic.Relation
import ShortCircuit.Forest.Diagram
import ShortCircuit.Proofs.Forest.Query
import ShortCircuit.Proofs.History

namespace ShortCircuit

variable {f g : Forest} {t u : Tree} {n p q c d : NodeId} {s : Int}

namespace Forest

/-! ## Edges -/

/-- An edge leads from a node to its child, at some slot. -/
def Edge (f : Forest) (p c : NodeId) : Prop := ∃ s, (p, s, c) ∈ f.edges

/-- The forest as a set of nodes with edges between them, each for a slot, and the answers
    that it gives about them. -/
structure Arena (f : Forest) : Prop where
  /-- Every edge joins two nodes of the forest. -/
  ends : ∀ p s c, (p, s, c) ∈ f.edges → p ∈ f.ids ∧ c ∈ f.ids
  /-- A node has one parent at most, and hangs there at one slot. -/
  parent : ∀ p s q s' c, (p, s, c) ∈ f.edges → (q, s', c) ∈ f.edges → p = q ∧ s = s'
  /-- No way along edges leads back to where it started. -/
  acyclic : ∀ n, ¬Relation.TransGen f.Edge n n
  /-- Two children of a node do not share a slot. -/
  slot : ∀ p s c d, (p, s, c) ∈ f.edges → (p, s, d) ∈ f.edges → c = d
  /-- The children of a node are listed by slot, from lower to higher ones. -/
  children : ∀ n ∈ f.ids, ∃ cs, f.childrenOf (some n) = .ok cs ∧ (∀ c, c ∈ cs ↔ f.Edge n c) ∧
    cs.Pairwise fun c d => ∃ s s', (n, s, c) ∈ f.edges ∧ (n, s', d) ∈ f.edges ∧ s < s'
  /-- The child at a slot is the only one there. -/
  child : ∀ n ∈ f.ids, ∀ s, ∃ found, f.childOf (some n) s = .ok found ∧
    ∀ c, found = some c ↔ (n, s, c) ∈ f.edges
  /-- The parent and the slot that are told of a node are those of the edge to it. -/
  place : ∀ n ∈ f.ids, ∃ parent slot, f.parentOf (some n) = .ok parent ∧
    f.slotOf (some n) = .ok slot ∧ ∀ p s, parent = some p ∧ slot = some s ↔ (p, s, n) ∈ f.edges
  /-- Every name has been handed out by the counter. -/
  issued : ∀ n ∈ f.ids, 0 ≤ n ∧ n < f.next

namespace WellFormed

variable (wf : f.WellFormed)
include wf

theorem mem_inAge_iff : t ∈ f.inAge ↔ t ∈ f.subtrees := by
  rw [inAge, List.mem_filterMap]
  refine ⟨?_, ?_⟩
  · rintro ⟨n, -, h⟩
    exact (wf.find?_eq_some_iff.1 h).1
  · exact fun ht => ⟨t.id, id_mem_of_mem_subtrees ht, wf.find?_eq_some_iff.2 ⟨ht, rfl⟩⟩

/-- There is an edge to a node exactly if it hangs somewhere. -/
theorem mem_edges_iff : (p, s, c) ∈ f.edges ↔ f.place? c = some (p, s) := by
  rw [edges, List.mem_flatMap]
  refine ⟨?_, ?_⟩
  · rintro ⟨t, ht, h⟩
    obtain ⟨b, hb, heq⟩ := List.mem_map.1 h
    cases heq
    exact wf.place?_branch (wf.mem_inAge_iff.1 ht) hb
  · intro h
    obtain ⟨u, hu, rfl⟩ := mem_ids.1 (mem_ids_of_place? h)
    obtain ⟨t, ht, rfl, hb⟩ := wf.exists_branch_of_place? hu h
    exact ⟨t, wf.mem_inAge_iff.2 ht, List.mem_map.2 ⟨(s, u), hb, rfl⟩⟩

theorem mem_edges_iff_branch (ht : t ∈ f.subtrees) :
    (t.id, s, c) ∈ f.edges ↔ ∃ u, u.id = c ∧ (s, u) ∈ t.branches := by
  rw [wf.mem_edges_iff]
  refine ⟨?_, ?_⟩
  · intro h
    obtain ⟨u, hu, rfl⟩ := mem_ids.1 (mem_ids_of_place? h)
    exact ⟨u, rfl, (wf.mem_branches_iff ht).2 ⟨hu, h⟩⟩
  · rintro ⟨u, rfl, hb⟩
    exact wf.place?_branch ht hb

theorem ends_of_edge (h : (p, s, c) ∈ f.edges) : p ∈ f.ids ∧ c ∈ f.ids := by
  rw [wf.mem_edges_iff] at h
  obtain ⟨u, hu, rfl⟩ := mem_ids.1 (mem_ids_of_place? h)
  obtain ⟨t, ht, rfl, hb⟩ := wf.exists_branch_of_place? hu h
  exact ⟨id_mem_of_mem_subtrees ht, id_mem_of_mem_subtrees hu⟩

/-- Whatever edges lead to lies in a branch. -/
theorem below_of_transGen (h : Relation.TransGen f.Edge p c) :
    ∃ t ∈ f.subtrees, t.id = p ∧ ∃ b ∈ t.branches, c ∈ b.2.ids := by
  -- Along the way, all that edges lead to stays in one branch of the start.
  induction h with
  | single h =>
    obtain ⟨s, h⟩ := h
    rw [wf.mem_edges_iff] at h
    obtain ⟨u, hu, rfl⟩ := mem_ids.1 (mem_ids_of_place? h)
    obtain ⟨t, ht, rfl, hb⟩ := wf.exists_branch_of_place? hu h
    exact ⟨t, ht, rfl, (s, u), hb, Tree.id_mem_ids u⟩
  | tail _ h ih =>
    obtain ⟨s, h⟩ := h
    rw [wf.mem_edges_iff] at h
    obtain ⟨t, ht, hid, b, hb, hmem⟩ := ih
    exact ⟨t, ht, hid, b, hb, wf.mem_ids_of_parent (child_mem_subtrees ht hb) hmem h⟩

theorem acyclic (n : NodeId) : ¬Relation.TransGen f.Edge n n := by
  intro h
  obtain ⟨t, ht, rfl, b, hb, hmem⟩ := wf.below_of_transGen h
  exact Tree.id_notMem_branch (wf.nodup_tree ht) hb hmem

theorem arena : f.Arena where
  ends _ _ _ h := wf.ends_of_edge h
  parent p s q s' c h h' := by
    rw [wf.mem_edges_iff] at h h'
    rw [h] at h'
    cases h'
    exact ⟨rfl, rfl⟩
  acyclic := wf.acyclic
  slot p s c d h h' := by
    obtain ⟨t, ht, rfl⟩ := mem_ids.1 (wf.ends_of_edge h).1
    obtain ⟨u, rfl, hu⟩ := (wf.mem_edges_iff_branch ht).1 h
    obtain ⟨v, rfl, hv⟩ := (wf.mem_edges_iff_branch ht).1 h'
    rw [← wf.child?_eq_some_iff ht] at hu hv
    rw [hu] at hv
    exact congrArg Tree.id (Option.some.inj hv)
  children n hn := by
    obtain ⟨t, ht, rfl⟩ := mem_ids.1 hn
    refine ⟨_, wf.childrenOf_eq ht, fun c => ?_, ?_⟩
    · rw [List.mem_map]
      refine ⟨?_, ?_⟩
      · rintro ⟨b, hb, rfl⟩
        exact ⟨b.1, (wf.mem_edges_iff_branch ht).2 ⟨b.2, rfl, mem_inSlotOrder.1 hb⟩⟩
      · rintro ⟨s, h⟩
        obtain ⟨u, rfl, hu⟩ := (wf.mem_edges_iff_branch ht).1 h
        exact ⟨(s, u), mem_inSlotOrder.2 hu, rfl⟩
    · have hedge {b : Int × Tree} (hb : b ∈ inSlotOrder t.branches) :
          (t.id, b.1, b.2.id) ∈ f.edges :=
        (wf.mem_edges_iff_branch ht).2 ⟨b.2, rfl, mem_inSlotOrder.1 hb⟩
      rw [List.pairwise_map]
      -- They are sorted by slot, and no slot stands twice.
      refine (pairwise_inSlotOrder (wf.nodup_slots ht)).imp_of_mem fun ha hb hlt => ?_
      exact ⟨_, _, hedge ha, hedge hb, hlt⟩
  child n hn s := by
    obtain ⟨t, ht, rfl⟩ := mem_ids.1 hn
    refine ⟨_, wf.childOf_eq ht s, fun c => ?_⟩
    rw [wf.mem_edges_iff_branch ht, Option.map_eq_some_iff]
    refine ⟨?_, ?_⟩
    · rintro ⟨u, hu, rfl⟩
      exact ⟨u, rfl, (wf.child?_eq_some_iff ht).1 hu⟩
    · rintro ⟨u, rfl, hu⟩
      exact ⟨u, (wf.child?_eq_some_iff ht).2 hu, rfl⟩
  place n hn := by
    refine ⟨_, _, wf.parentOf_eq hn, wf.slotOf_eq hn, fun p s => ?_⟩
    rw [wf.mem_edges_iff]
    cases f.place? n with
    | none => simp
    | some place => simp [Prod.ext_iff]
  issued n hn := by
    obtain ⟨row, hrow, rfl⟩ := mem_ids_iff_rows.1 hn
    exact wf.issued row hrow

end WellFormed

end Forest

/-! ## Histories -/

namespace Session

/-- The arena after any requests, failed ones among them; and a name that a node of it has lost
    by further requests is not given to a node again. -/
theorem arena_after (threshold : Level) (requests : List Request) :
    ((start threshold).after requests).forest.Arena ∧
      ∀ more evermore n, n ∈ ((start threshold).after requests).forest.ids →
        n ∉ ((start threshold).after (requests ++ more)).forest.ids →
        n ∉ ((start threshold).after (requests ++ more ++ evermore)).forest.ids := by
  have wf : ((start threshold).after requests).forest.WellFormed :=
    Forest.Reachable.wellFormed ⟨threshold, requests, rfl⟩
  refine ⟨wf.arena, fun more evermore n hn hgone hback => ?_⟩
  rw [after_append] at hgone
  rw [after_append, after_append] at hback
  obtain ⟨wf', hnext, -⟩ :=
    across_after (R := Forest.Evolves) ((start threshold).after requests) more wf
  obtain ⟨-, -, hids⟩ :=
    across_after (R := Forest.Evolves) (((start threshold).after requests).after more) evermore wf'
  rcases hids n hback with hmem | hle
  · exact hgone hmem
  · -- The name was handed out long ago, and the counter has not gone back.
    have hlt := (wf.arena.issued n hn).2
    exact Int.not_le.2 hlt (Int.le_trans hnext hle)

end Session

end ShortCircuit

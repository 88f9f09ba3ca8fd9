/-
  ShortCircuit.Proofs.Termination

  All walks end.  Neither the way up from a node nor the analyses and the
  printing below it carry a bound of their own; that the nodes of a reachable
  forest make up trees is what ends them.  The walks by name do carry one, and
  find what clients are told: the number of nodes is bound enough, and a larger
  one changes nothing.
-/

import ShortCircuit.Proofs.Forest.Visits
import ShortCircuit.Proofs.Spans

namespace ShortCircuit

variable {α : Type} {f : Forest} {s : Session} {t : Tree} {n : NodeId}

namespace Forest

/-! ## Results -/

/-- Visits of a node come to this result, and always to the same nodes of the forest, each of them
    once, if they may go down as many levels as there are nodes. -/
def Returns (f : Forest) (inquiry : Site → Inquiry α) (n : NodeId) (a : α) : Prop :=
  ∃ nodes : List NodeId, nodes.Nodup ∧ (∀ m ∈ nodes, m ∈ f.ids) ∧
    ∀ levels, f.size ≤ levels → f.visit inquiry levels n [] = (.ok a, nodes)

/-- There are no more different nodes than the forest has. -/
theorem length_le_size {nodes : List NodeId} (nodup : nodes.Nodup) (h : ∀ m ∈ nodes, m ∈ f.ids) :
    nodes.length ≤ f.size := by
  rw [← length_ids]
  exact (List.subperm_of_subset nodup h).length_le

theorem WellFormed.returns (wf : f.WellFormed) {inquiry : Site → Inquiry α} {D : Tree → α}
    (computes : Computes inquiry D) (ht : t ∈ f.subtrees) : f.Returns inquiry t.id (D t) := by
  obtain ⟨noted, visited⟩ := wf.exists_visited computes ht
  refine ⟨noted, visited.nodup, fun m hm => ids_subset_ids ht (visited.below m hm), ?_⟩
  intro levels hlevels
  have hsize : t.size ≤ f.size := by
    rw [Tree.size_eq_length_ids]
    exact length_le_size (wf.nodup_tree ht) fun m hm => ids_subset_ids ht hm
  exact visited.returns levels (hsize.trans hlevels) []

end Forest

/-! ## Walks from a node -/

/-- The walks from a node end, with what clients are told. -/
structure Session.WalksEnd (s : Session) (n : NodeId) : Prop where
  /-- The way up comes to no node twice, and so to no more nodes than there are. -/
  above : ∃ nodes, s.forest.ancestorsOf (some n) = .ok nodes ∧ nodes.Nodup ∧
    (∀ m ∈ nodes, m ∈ s.forest.ids) ∧ nodes.length ≤ s.forest.size ∧
    ∀ limit, s.forest.size ≤ limit → s.forest.climb limit (some n) [] = (.ok (), nodes)
  value : ∃ known, s.forest.truthOf (some n) = .ok known ∧
    s.forest.Returns Truth.inquiry n known
  verdict : ∃ verdict, s.forest.purityOf (some n) = .ok verdict ∧
    s.forest.Returns Purity.inquiry n verdict
  /-- Nothing but an integer that is too long stops the printing. -/
  text : ∃ printed, s.forest.Returns Printed.inquiry n printed ∧
    generate (some n) s = (printed.result.map String.ofList, { s with spans := printed.spans }) ∧
    (s.forest.ShortIntegers → printed.result = .ok printed.text)

namespace Session

/-- In a reachable forest all walks from any node end, whatever hangs at its slots. -/
theorem walks_end (reachable : s.forest.Reachable) (hn : n ∈ s.forest.ids) : s.WalksEnd n := by
  have wf := reachable.wellFormed
  have hnodup := wf.nodup_ancestors hn
  have hids : ∀ m ∈ s.forest.ancestors n, m ∈ s.forest.ids :=
    fun m hm => (wf.mem_ids_of_mem_ancestors hm).2
  have hsize := Forest.length_le_size hnodup hids
  obtain ⟨t, ht, rfl⟩ := Forest.mem_ids.1 hn
  exact {
    above := ⟨_, wf.ancestorsOf_eq hn, hnodup, hids, hsize, fun limit hlimit =>
      wf.climb_eq hn (hsize.trans hlimit)⟩
    value := ⟨_, wf.truthOf_eq ht, wf.returns computes_truth ht⟩
    verdict := ⟨_, wf.purityOf_eq ht, wf.returns computes_purity ht⟩
    text := ⟨_, wf.returns computes_print ht, generate_of_toPrint (wf.toPrint_self ht),
      fun short => (wf.legible short ht).render_eq⟩ }

/-- `false && x`, node 2, where an empty pair of parentheses hangs at a negative slot of the
    operator, and `z` at a slot of `false`. -/
def overgrown : Session :=
  (start .info).after [.build [.fresh (.binary .logicalAnd)
    [.fresh (.literal (.bool false)) [], .fresh (.path "x") []]],
    .plant .paren, .attach (some 2) (some 3) (-1), .plant (.path "z"),
    .attach (some 0) (some 4) 7]

theorem walks_end_overgrown :
    overgrown.forest.ids = [0, 1, 2, 3, 4] ∧ overgrown.WalksEnd 2 := by
  have hids : overgrown.forest.ids = [0, 1, 2, 3, 4] := by decide +kernel
  exact ⟨hids, walks_end ⟨.info, _, rfl⟩ (by rw [hids]; decide)⟩

/-- Its value is found at two of its nodes. -/
example : (overgrown.forest.visit Truth.inquiry 5 2 []).2 = [2, 0] := by decide +kernel

end Session

end ShortCircuit

/-
  ShortCircuit.Proofs.Forest.Query

  What callers are told about a node of a well-formed forest.  No question about
  a node that exists is refused: it is answered from the tree below the node, or
  from the place that the node has.
-/

import ShortCircuit.Forest.Query
import ShortCircuit.Proofs.Forest.Table

namespace ShortCircuit.Forest.WellFormed

variable {f : Forest} {t : Tree} {n : NodeId} (wf : f.WellFormed)
include wf

theorem named_self (ht : t ∈ f.subtrees) : f.named (some t.id) = .ok t := wf.get_self ht

/-! ## Places -/

theorem parentOf_eq (hn : n ∈ f.ids) : f.parentOf (some n) = .ok ((f.place? n).map (·.1)) := by
  obtain ⟨t, ht, rfl⟩ := mem_ids.1 hn
  rw [parentOf, wf.named_self ht]
  rfl

theorem slotOf_eq (hn : n ∈ f.ids) : f.slotOf (some n) = .ok ((f.place? n).map (·.2)) := by
  obtain ⟨t, ht, rfl⟩ := mem_ids.1 hn
  rw [slotOf, wf.named_self ht]
  rfl

theorem childrenOf_eq (ht : t ∈ f.subtrees) :
    f.childrenOf (some t.id) = .ok ((inSlotOrder t.branches).map fun b => b.2.id) := by
  rw [childrenOf, wf.named_self ht]
  show Except.ok (t.children.map (·.id)) = _
  rw [Tree.children, List.map_map]
  rfl

theorem childOf_eq (ht : t ∈ f.subtrees) (s : Int) :
    f.childOf (some t.id) s = .ok ((t.child? s).map (·.id)) := by
  rw [childOf, wf.named_self ht]
  rfl

/-! ## Ways up and down -/

theorem ancestorsOf_eq (hn : n ∈ f.ids) : f.ancestorsOf (some n) = .ok (f.ancestors n) := by
  obtain ⟨t, ht, rfl⟩ := mem_ids.1 hn
  rw [ancestorsOf, wf.get_self ht]
  rfl

theorem descendantsOf_self (ht : t ∈ f.subtrees) :
    f.descendantsOf (some t.id) = .ok (sortBy (fun a b => decide (a ≤ b)) t.ids) := by
  rw [descendantsOf, wf.named_self ht]
  rfl

/-! ## Analyses -/

theorem truthOf_eq (ht : t ∈ f.subtrees) : f.truthOf (some t.id) = .ok t.truth := by
  rw [truthOf, wf.get_self ht]
  rfl

theorem purityOf_eq (ht : t ∈ f.subtrees) : f.purityOf (some t.id) = .ok t.purity := by
  rw [purityOf, wf.get_self ht]
  rfl

end ShortCircuit.Forest.WellFormed

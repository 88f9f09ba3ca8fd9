/-
  ShortCircuit.Proofs.Forest.Texts

  The texts of the nodes of a forest.  In a well-formed forest without long
  integers every tree can be written, and a caller who asks for the text of a
  node, or of the unique root, is given it.
-/

import ShortCircuit.Forest.Query
import ShortCircuit.Proofs.Forest.Contractions
import ShortCircuit.Proofs.Tree.Spans

namespace ShortCircuit

variable {f : Forest} {t : Tree} {n : NodeId}

theorem Tree.Legible.render_eq (h : t.Legible) : t.render = .ok t.print.text := by
  rw [Tree.render, Printed.result, h.fault]

namespace Forest

/-! ## The unique root -/

theorem root?_eq_some_iff : f.root? = some n ↔ f.roots = [n] := by
  unfold root?
  split
  · rename_i m heq
    rw [heq, Option.some.injEq, List.singleton_inj]
  · rename_i hne
    refine ⟨fun h => ?_, fun h => absurd h (hne n)⟩
    cases h

/-- The unique root heads a tree of the forest. -/
theorem exists_of_root? (h : f.root? = some n) : ∃ t ∈ f.trees, t.id = n := by
  rw [← mem_roots, root?_eq_some_iff.1 h]
  exact List.mem_singleton_self n

namespace WellFormed

variable (wf : f.WellFormed)
include wf

/-! ## Texts -/

theorem slotted (ht : t ∈ f.subtrees) : t.Slotted :=
  fun _ hu => wf.nodup_slots (subtree_mem_subtrees hu ht)

theorem legible (short : f.ShortIntegers) (ht : t ∈ f.subtrees) : t.Legible where
  nodup := wf.nodup_tree ht
  slotted := wf.slotted ht
  fault := Tree.fault_print fun _ hu => short _ (subtree_mem_subtrees hu ht)

/-- A tree whose text could be written is legible, and the text is the one printed. -/
theorem legible_of_render (ht : t ∈ f.subtrees) {text : List Char} (h : t.render = .ok text) :
    t.Legible ∧ text = t.print.text := by
  rw [Tree.render, Printed.result] at h
  split at h
  · cases h
  · rename_i hfault
    cases h
    exact ⟨⟨wf.nodup_tree ht, wf.slotted ht, hfault⟩, rfl⟩

theorem toPrint_self (ht : t ∈ f.subtrees) : f.toPrint (some t.id) = .ok t :=
  wf.get_self ht

theorem toPrint_none_eq_ok_iff :
    f.toPrint none = .ok t ↔ t ∈ f.subtrees ∧ f.root? = some t.id := by
  unfold toPrint
  cases hroot : f.root? with
  | none => simp
  | some root => simp [wf.get_eq_ok_iff, eq_comm]

theorem toPrint_root (ht : t ∈ f.trees) (hroot : f.root? = some t.id) : f.toPrint none = .ok t :=
  wf.toPrint_none_eq_ok_iff.2 ⟨mem_subtrees_of_mem_trees ht, hroot⟩

/-- The text of the root is refused only where there is no unique root. -/
theorem root?_of_toPrint_error {fault : Fault} (h : f.toPrint none = .error fault) :
    f.root? = none := by
  cases hroot : f.root? with
  | none => rfl
  | some root =>
    obtain ⟨t, ht, rfl⟩ := exists_of_root? hroot
    rw [wf.toPrint_root ht hroot] at h
    cases h

theorem mem_subtrees_of_toPrint {n : Option NodeId} (h : f.toPrint n = .ok t) :
    t ∈ f.subtrees := by
  cases n with
  | some m => exact (wf.get_eq_ok_iff.1 h).1
  | none => exact (wf.toPrint_none_eq_ok_iff.1 h).1

/-- The tree to print is that of the root if the root is asked for, or no node at all. -/
theorem root?_of_toPrint {n : Option NodeId} (h : f.toPrint n = .ok t)
    (hroot : n = none ∨ n = f.root?) : f.root? = some t.id := by
  cases n with
  | some m => rw [← hroot.resolve_left (Option.some_ne_none m), (wf.get_eq_ok_iff.1 h).2]
  | none => exact (wf.toPrint_none_eq_ok_iff.1 h).2

theorem renderOf_of_toPrint (short : f.ShortIntegers) (ht : t ∈ f.subtrees) {n : Option NodeId}
    (h : f.toPrint n = .ok t) : f.renderOf n = .ok (String.ofList t.print.text) := by
  rw [renderOf, h]
  show (do return String.ofList (← t.render)) = _
  rw [(wf.legible short ht).render_eq]
  rfl

end WellFormed

end Forest

end ShortCircuit

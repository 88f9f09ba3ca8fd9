/-
  ShortCircuit.Proofs.Forest.Loosened

  A forest some nodes of which have been taken from their places, to be put back
  there later, in whatever order.  Meanwhile each of them heads a tree of its own,
  and its place stays free, since nothing is put anywhere but where it was.  When
  all are back the forest differs from what it was in the order of children and
  roots only.
-/

import ShortCircuit.Proofs.Forest.Renaming
import ShortCircuit.Proofs.Forest.Replacement

namespace ShortCircuit

variable {f g g' : Forest} {t : Tree} {n m p : NodeId} {s : Int} {nodes : List NodeId}
  {place : Option (NodeId × Int)}

/-! ## Rows -/

namespace Row

/-- The row after some nodes have been taken from their places. -/
def loosen (nodes : List NodeId) (row : Row) : Row :=
  if row.id ∈ nodes then { row with place := none } else row

@[simp] theorem id_loosen (nodes : List NodeId) (row : Row) : (row.loosen nodes).id = row.id := by
  unfold loosen
  split <;> rfl

theorem place_loosen (nodes : List NodeId) (row : Row) :
    (row.loosen nodes).place = if row.id ∈ nodes then none else row.place := by
  unfold loosen
  split <;> rfl

@[simp] theorem loosen_nil (row : Row) : row.loosen [] = row :=
  if_neg List.not_mem_nil

theorem hang_none_loosen (n : NodeId) (nodes : List NodeId) (row : Row) :
    (row.loosen nodes).hang n none = row.loosen (n :: nodes) := by
  unfold hang
  rw [id_loosen]
  unfold loosen
  by_cases hn : row.id = n
  · have hmem : row.id ∈ n :: nodes := hn ▸ List.mem_cons_self ..
    rw [if_pos hn, if_pos hmem]
    split <;> rfl
  · rw [if_neg hn]
    by_cases hnodes : row.id ∈ nodes <;> simp [hn, hnodes]

/-- A node that is put back where it was is no longer one of those that have been taken. -/
theorem hang_loosen {row : Row} (h : row.id = n → row.place = place) :
    (row.loosen nodes).hang n place = row.loosen (nodes.filter (· ≠ n)) := by
  unfold hang
  rw [id_loosen]
  unfold loosen
  by_cases hn : row.id = n
  · have hnot : row.id ∉ nodes.filter (· ≠ n) := by simp [hn]
    rw [if_pos hn, if_neg hnot, ← h hn]
    split <;> rfl
  · rw [if_neg hn]
    by_cases hnodes : row.id ∈ nodes <;> simp [hn, hnodes]

end Row

namespace Forest

/-- The forest `g` is `f`, but some nodes have been taken from their places. -/
structure Loosened (f : Forest) (nodes : List NodeId) (g : Forest) : Prop where
  wellFormed : g.WellFormed
  rows : g.rows.Perm (f.rows.map (Row.loosen nodes))

namespace Loosened

theorem start (wf : f.WellFormed) : f.Loosened [] f where
  wellFormed := wf
  rows := by
    rw [map_eq_self fun row _ => row.loosen_nil]

variable (loosened : f.Loosened nodes g) (wf : f.WellFormed)
include loosened

theorem mem_ids_iff : n ∈ g.ids ↔ n ∈ f.ids := by
  rw [mem_ids_iff_rows, mem_ids_iff_rows]
  constructor
  · rintro ⟨row', hrow', rfl⟩
    obtain ⟨row, hrow, rfl⟩ := List.mem_map.1 (loosened.rows.mem_iff.1 hrow')
    exact ⟨row, hrow, (row.id_loosen nodes).symm⟩
  · rintro ⟨row, hrow, rfl⟩
    exact ⟨_, loosened.rows.mem_iff.2 (List.mem_map_of_mem hrow), row.id_loosen nodes⟩

include wf

theorem place?_eq (hn : n ∈ f.ids) : g.place? n = if n ∈ nodes then none else f.place? n := by
  obtain ⟨row, hrow, rfl, hplace⟩ := wf.exists_row hn
  have h := loosened.wellFormed.place?_eq_some_of_row
    (loosened.rows.mem_iff.2 (List.mem_map_of_mem hrow))
  rwa [Row.id_loosen, Row.place_loosen, hplace] at h

/-- What hangs anywhere hangs where it was, and has not been taken. -/
theorem place?_of_some (h : g.place? n = some (p, s)) : f.place? n = some (p, s) ∧ n ∉ nodes := by
  rw [loosened.place?_eq wf (loosened.mem_ids_iff.1 (WellFormed.mem_ids_of_place? h))] at h
  split at h
  · cases h
  · rename_i hnot
    exact ⟨h, hnot⟩

/-- What lies above a node has always done so. -/
theorem ancestors_subset (hm : m ∈ g.ancestors n) : m ∈ f.ancestors n := by
  have wf' := loosened.wellFormed
  obtain ⟨t, ht, rfl⟩ := mem_ids.1 (wf'.mem_ids_of_mem_ancestors hm).1
  refine subtrees_induction (P := fun t => ∀ m ∈ g.ancestors t.id, m ∈ f.ancestors t.id)
    (fun t ht m hm => ?_) (fun t ht ih b hb m hm => ?_) t ht m hm
  · have hmem := id_mem_of_mem_subtrees (mem_subtrees_of_mem_trees ht)
    rw [wf'.ancestors_root hmem (wf'.place?_root ht), List.mem_singleton] at hm
    rw [hm]
    exact wf.self_mem_ancestors (loosened.mem_ids_iff.1 hmem)
  · have hplace := wf'.place?_branch ht hb
    rw [wf'.ancestors_child hplace] at hm
    rw [wf.ancestors_child (loosened.place?_of_some wf hplace).1]
    rcases List.mem_cons.1 hm with rfl | hm
    · exact List.mem_cons_self ..
    · exact List.mem_cons_of_mem _ (ih m hm)

/-! ## Taking nodes and putting them back -/

omit wf in
theorem detach (h : g.detach n = .ok (place, g')) :
    place = g.place? n ∧ f.Loosened (n :: nodes) g' ∧ (place = none → g' = g) := by
  have wf' := loosened.wellFormed
  obtain ⟨t, ht, rfl⟩ := wf'.exists_of_detach h
  have wf'' := wf'.of_detach h
  obtain ⟨g₁, heq, -, -, hsame, hrows, -⟩ := wf'.detach ht
  rw [heq] at h
  cases h
  refine ⟨rfl, ⟨wf'', ?_⟩, fun hroot => hsame (wf'.mem_trees_iff.2 ⟨ht, hroot⟩)⟩
  refine (hrows.trans (loosened.rows.map _)).trans (.of_eq ?_)
  rw [List.map_map]
  exact List.map_congr_left fun row _ => Row.hang_none_loosen t.id nodes row

/-- A node that has been taken can be put back. -/
theorem attach (hn : n ∈ nodes) (hplace : f.place? n = some (p, s)) :
    ∃ g', g.attach p n s = .ok g' ∧ f.Loosened (nodes.filter (· ≠ n)) g' := by
  have wf' := loosened.wellFormed
  obtain ⟨t, ht, rfl⟩ := mem_ids.1 (loosened.mem_ids_iff.2 (wf.parent_mem_ids_of_place? hplace))
  obtain ⟨u, hu, rfl⟩ := mem_ids.1 (loosened.mem_ids_iff.2 (WellFormed.mem_ids_of_place? hplace))
  have hroot : g.place? u.id = none := by
    rw [loosened.place?_eq wf (WellFormed.mem_ids_of_place? hplace), if_pos hn]
  have free : t.child? s = none := by
    -- What hung there now would have hung there before, beside the node that did.
    cases hc : t.child? s with
    | none => rfl
    | some c =>
      have hc' := wf'.place?_branch ht (Tree.branch_of_child? hc)
      obtain ⟨hbefore, hnot⟩ := loosened.place?_of_some wf hc'
      obtain ⟨v, hv, hvp⟩ := mem_ids.1 (wf.parent_mem_ids_of_place? hplace)
      obtain ⟨x, hx, hxu⟩ := mem_ids.1 (WellFormed.mem_ids_of_place? hplace)
      obtain ⟨y, hy, hyc⟩ := mem_ids.1 (WellFormed.mem_ids_of_place? hbefore)
      rw [← hxu, ← hvp] at hplace
      rw [← hyc, ← hvp] at hbefore
      have hxy : x = y := Option.some.inj
        (((wf.child?_eq_some_iff_place hv).2 ⟨hx, hplace⟩).symm.trans
          ((wf.child?_eq_some_iff_place hv).2 ⟨hy, hbefore⟩))
      have hcu : c.id = u.id := by rw [← hyc, ← hxy, hxu]
      exact absurd (hcu ▸ hn) hnot
  have outside : t.id ∉ u.ids := by
    intro hmem
    have habove := loosened.ancestors_subset wf
      ((wf'.mem_ancestors_iff (mem_subtrees_of_mem_trees (wf'.mem_trees_iff.2 ⟨hu, hroot⟩))).2 hmem)
    exact wf.child_notMem_ancestors hplace habove
  obtain ⟨g', heq, -, -, hrows⟩ := wf'.attach ht (wf'.mem_trees_iff.2 ⟨hu, hroot⟩) free outside
  refine ⟨g', heq, wf'.of_attach heq, ?_⟩
  refine (hrows.trans (loosened.rows.map _)).trans (.of_eq ?_)
  rw [List.map_map]
  refine List.map_congr_left fun row hrow => Row.hang_loosen fun hid => ?_
  rw [← wf.place?_eq_some_of_row hrow, hid, hplace]

end Loosened

/-- Where all nodes are in their places, only the order of children and roots may have changed. -/
theorem Loosened.renaming (loosened : f.Loosened [] g) (wf : f.WellFormed) : f.Renaming g id := by
  have wf' := loosened.wellFormed
  refine ⟨⟨fun n hn => loosened.mem_ids_iff.2 hn, Function.injective_id.injOn, fun n hn => ?_⟩,
    fun n hn => ?_, fun n hn => ?_⟩
  · exact ⟨n, loosened.mem_ids_iff.1 hn, rfl⟩
  · obtain ⟨t, ht, rfl⟩ := mem_ids.1 hn
    -- The row of the node is the same in both tables.
    have hrow := loosened.rows.mem_iff.2 (List.mem_map_of_mem (wf.mem_rows_iff.2 ⟨t, ht, rfl⟩))
    rw [Row.loosen_nil] at hrow
    obtain ⟨u, hu, heq⟩ := wf'.mem_rows_iff.1 hrow
    rw [id_eq, wf.find?_eq_some_iff.2 ⟨ht, rfl⟩,
      wf'.find?_eq_some_iff.2 ⟨hu, (congrArg Row.id heq).symm⟩]
    exact congrArg some (congrArg Row.kind heq).symm
  · rw [id_eq, loosened.place?_eq wf hn, if_neg List.not_mem_nil]
    show f.place? n = (f.place? n).map id
    rw [Option.map_id, id]

end Forest

end ShortCircuit

/-
  ShortCircuit.Proofs.Forest.Replacement

  Putting one node in the place of another.  The four edits that it is made of
  all succeed where the check before them passes, and what they come to is said
  once: the rows of what is gone are taken out, and one row gets a new place.
-/

import ShortCircuit.Proofs.Failing
import ShortCircuit.Proofs.Forest.Edits

namespace ShortCircuit.Forest

open Failing

variable {f g : Forest} {t r u v : Tree} {n p : NodeId} {s : Int}
  {place : Option (NodeId × Int)}

/-! ## What a table says after a change -/

/-- There is a row for each node. -/
theorem WellFormed.exists_row (wf : f.WellFormed) (hn : n ∈ f.ids) :
    ∃ row ∈ f.rows, row.id = n ∧ row.place = f.place? n := by
  obtain ⟨t, ht, rfl⟩ := mem_ids.1 hn
  exact ⟨_, wf.mem_rows_iff.2 ⟨t, ht, rfl⟩, rfl, rfl⟩

/-- A node that has got a new place is there, all others are where they were. -/
theorem WellFormed.place?_of_hang (wf : f.WellFormed) (wf' : g.WellFormed)
    (hrows : g.rows.Perm (f.rows.map (Row.hang n place))) {m : NodeId} (hm : m ∈ f.ids) :
    g.place? m = if m = n then place else f.place? m := by
  obtain ⟨row, hrow, rfl, hplace⟩ := wf.exists_row hm
  have hmem : row.hang n place ∈ g.rows := hrows.mem_iff.2 (List.mem_map_of_mem hrow)
  have h := wf'.place?_eq_some_of_row hmem
  rw [Row.id_hang, Row.place_hang, hplace] at h
  exact h

/-! ## When a node can take the place of another -/

/-- The replacement is another node, which lies below the one that it replaces, or is a root
    that the latter does not lie below. -/
structure Replaceable (f : Forest) (t r : Tree) : Prop where
  replacee : t ∈ f.subtrees
  replacement : r ∈ f.subtrees
  ne : r.id ≠ t.id
  source : r ∈ t.subtrees ∨ r ∈ f.trees ∧ t.id ∉ r.ids

namespace Replaceable

variable (h : f.Replaceable t r) (wf : f.WellFormed)
include h wf

/-- The node that is replaced does not lie below the one that replaces it. -/
theorem outside : t.id ∉ r.ids := by
  rcases h.source with hr | ⟨-, hout⟩
  · intro hmem
    obtain ⟨b, hb, hrb⟩ := Tree.mem_branch_of_ne hr fun heq => h.ne (by rw [heq])
    exact Tree.id_notMem_branch (wf.nodup_tree h.replacee) hb (Tree.ids_subset hrb hmem)
  · exact hout

/-- A replacement that is a root shares no node with what is replaced. -/
theorem disjoint_of_root (hr : r ∈ f.trees) (hn : n ∈ r.ids) : n ∉ t.ids := by
  intro hnt
  obtain ⟨T, hT, htT⟩ := List.mem_flatMap.1 h.replacee
  have hTr : T = r := wf.tree_eq hT hr (Tree.ids_subset htT hnt) hn
  exact h.outside wf (Tree.mem_ids_iff_subtrees.2 ⟨t, hTr ▸ htT, rfl⟩)

/-- What is gone is what lies below the one and not below the other. -/
theorem notMem_prune_iff : n ∉ (t.prune r.id).ids ↔ n ∉ t.ids ∨ n ∈ r.ids := by
  have nodup := wf.nodup_tree h.replacee
  rcases h.source with hr | ⟨hr, -⟩
  · -- A replacement from below has been cut out before the rest of the tree goes.
    have hperm := Tree.ids_prune nodup hr h.ne.symm
    rw [hperm.mem_iff, List.mem_append]
    have apart : n ∈ (t.prune r.id).ids → n ∉ r.ids := fun h₁ h₂ =>
      (List.nodup_append.1 (hperm.nodup_iff.1 nodup)).2.2 n h₁ n h₂ rfl
    tauto
  · -- A root lies apart from it.
    have hrt : r.id ∉ t.ids := h.disjoint_of_root wf hr (Tree.id_mem_ids r)
    rw [Tree.prune_of_notMem hrt]
    refine ⟨?_, ?_⟩
    · exact fun hn => .inl hn
    · rintro (hn | hn)
      · exact hn
      · exact h.disjoint_of_root wf hr hn

theorem nodup_prune : (t.prune r.id).ids.Nodup := by
  have nodup := wf.nodup_tree h.replacee
  rcases h.source with hr | ⟨hr, -⟩
  · have hperm := Tree.ids_prune nodup hr h.ne.symm
    exact (List.nodup_append.1 (hperm.nodup_iff.1 nodup)).1
  · rw [Tree.prune_of_notMem (h.disjoint_of_root wf hr (Tree.id_mem_ids r))]
    exact nodup

theorem parent_notMem (hplace : f.place? t.id = some (p, s)) : p ∉ t.ids ∧ p ∉ r.ids := by
  obtain ⟨u, hu, rfl, hb⟩ := wf.exists_branch_of_place? h.replacee hplace
  have hpt : u.id ∉ t.ids := Tree.id_notMem_branch (wf.nodup_tree hu) hb
  refine ⟨hpt, ?_⟩
  rcases h.source with hr | ⟨-, hout⟩
  · exact fun hmem => hpt (Tree.ids_subset hr hmem)
  · exact fun hmem => hout (wf.mem_ids_of_parent h.replacement hmem hplace)

theorem check : Edit.checkReplacement f t.id r.id = .ok () := by
  -- A replacement that hangs anywhere hangs below what it replaces.
  have hanc : (f.place? r.id).isSome → t.id ∈ f.ancestors r.id := by
    intro hplace
    rcases h.source with hr | ⟨hr, -⟩
    · refine List.mem_map.2 ⟨t, wf.mem_trail_iff.2 ⟨h.replacee, ?_⟩, rfl⟩
      exact Tree.mem_ids_iff_subtrees.2 ⟨r, hr, rfl⟩
    · rw [wf.place?_root hr] at hplace
      cases hplace
  rw [Edit.checkReplacement, wf.get_self h.replacee, wf.get_self h.replacement]
  simp only [bind, Except.bind, pure, Except.pure, if_neg h.ne]
  rw [if_neg]
  simpa using hanc

end Replaceable

/-! ## What a replacement does -/

/-- The forest after `r` has taken the place of `t`: of what was below `t` only what is below
    `r` is left, `r` is where `t` was, and all else is as before. -/
structure Replaced (f : Forest) (t r : Tree) (g : Forest) : Prop where
  next : g.next = f.next
  mem : r ∈ g.subtrees
  rows : g.rows.Perm ((f.rows.filter fun row => row.id ∉ (t.prune r.id).ids).map
    (Row.hang r.id (f.place? t.id)))

/-- Both nodes are roots once they have been taken off, and of what was below the one nothing
    is left that is below the other. -/
theorem WellFormed.detach_both (wf : f.WellFormed) (h : f.Replaceable t r) :
    ∃ f₁ f₂, f.detach r.id = .ok (f.place? r.id, f₁) ∧
      f₁.detach t.id = .ok (f.place? t.id, f₂) ∧ f₂.WellFormed ∧ f₂.next = f.next ∧
      t.prune r.id ∈ f₂.trees ∧ r ∈ f₂.trees ∧
      f₂.rows.Perm ((f.rows.map (Row.hang r.id none)).map (Row.hang t.id none)) := by
  obtain ⟨f₁, heq₁, hnext₁, hroot₁, -, hrows₁, hothers₁⟩ := wf.detach h.replacement
  have wf₁ : f₁.WellFormed := wf.of_detach heq₁
  -- The replacement is taken off first; what is left of the other node is its tree without it.
  have htr : t ∉ r.subtrees :=
    fun hmem => h.outside wf (Tree.mem_ids_iff_subtrees.2 ⟨t, hmem, rfl⟩)
  have ht₁ : t.prune r.id ∈ f₁.subtrees := hothers₁ t h.replacee htr
  have hplace : f₁.place? t.id = f.place? t.id := by
    rw [wf.place?_of_hang wf₁ hrows₁ (id_mem_of_mem_subtrees h.replacee), if_neg h.ne.symm]
  -- That rest is taken off in turn, and the replacement stays a root.
  obtain ⟨f₂, heq₂, hnext₂, hroot₂, -, hrows₂, hothers₂⟩ := wf₁.detach ht₁
  rw [Tree.id_prune] at heq₂ hrows₂ hothers₂
  have wf₂ : f₂.WellFormed := wf₁.of_detach heq₂
  have hr₁ : r ∈ f₁.subtrees := mem_subtrees_of_mem_trees hroot₁
  have hr₂ : r ∈ f₂.subtrees := by
    have hout : r ∉ (t.prune r.id).subtrees := by
      intro hmem
      have hmem' : r.id ∈ (t.prune r.id).ids := Tree.mem_ids_iff_subtrees.2 ⟨r, hmem, rfl⟩
      exact (h.notMem_prune_iff wf).2 (.inr (Tree.id_mem_ids r)) hmem'
    have hmem := hothers₂ r hr₁ hout
    rwa [Tree.prune_of_notMem (h.outside wf)] at hmem
  have hplace₂ : f₂.place? r.id = none := by
    rw [wf₁.place?_of_hang wf₂ hrows₂ (id_mem_of_mem_subtrees hr₁), if_neg h.ne,
      wf₁.place?_root hroot₁]
  refine ⟨f₁, f₂, heq₁, ?_, wf₂, hnext₂.trans hnext₁, hroot₂, wf₂.mem_trees_iff.2 ⟨hr₂, hplace₂⟩,
    hrows₂.trans (hrows₁.map _)⟩
  rw [heq₂, hplace]

/-- The same after the rest of the one has been taken out. -/
theorem WellFormed.remove_rest (wf : f.WellFormed) (h : f.Replaceable t r) :
    ∃ f₁ f₂ f₃, f.detach r.id = .ok (f.place? r.id, f₁) ∧
      f₁.detach t.id = .ok (f.place? t.id, f₂) ∧ f₂.remove t.id = .ok f₃ ∧ f₃.WellFormed ∧
      f₃.next = f.next ∧ r ∈ f₃.trees ∧
      f₃.rows.Perm ((f.rows.filter fun row => row.id ∉ (t.prune r.id).ids).map
        (Row.hang r.id none)) := by
  obtain ⟨f₁, f₂, heq₁, heq₂, wf₂, hnext₂, ht₂, hr₂, hrows₂⟩ := wf.detach_both h
  obtain ⟨f₃, heq₃, hnext₃, htrees₃, hrows₃⟩ := wf₂.remove (mem_subtrees_of_mem_trees ht₂)
  rw [Tree.id_prune] at heq₃ htrees₃
  refine ⟨f₁, f₂, f₃, heq₁, heq₂, heq₃, wf₂.of_remove heq₃, hnext₃.trans hnext₂, ?_, ?_⟩
  · rw [htrees₃ ht₂, List.mem_filter]
    exact ⟨hr₂, by simpa using h.ne⟩
  · refine hrows₃.trans ((hrows₂.filter _).trans (List.Perm.of_eq ?_))
    rw [Row.filter_map_hang fun n => n ∉ (t.prune r.id).ids, Row.map_hang_of_notMem,
      Row.filter_map_hang fun n => n ∉ (t.prune r.id).ids]
    -- No row is left that is that of the node that was replaced.
    intro hmem
    obtain ⟨row, hrow, hid⟩ := List.mem_map.1 hmem
    have hout : row.id ∉ (t.prune r.id).ids := by simpa using (List.mem_filter.1 hrow).2
    rw [hid, ← Tree.id_prune r.id t] at hout
    exact hout (Tree.id_mem_ids _)

/-- The parent of what was replaced is still there, and the slot is free. -/
theorem WellFormed.exists_parent_of_rest (wf : f.WellFormed) (h : f.Replaceable t r)
    (wf' : g.WellFormed)
    (hrows : g.rows.Perm ((f.rows.filter fun row => row.id ∉ (t.prune r.id).ids).map
      (Row.hang r.id none)))
    (hplace : f.place? t.id = some (p, s)) :
    ∃ u ∈ g.subtrees, u.id = p ∧ u.child? s = none ∧ u.id ∉ r.ids := by
  obtain ⟨hpt, hpr⟩ := h.parent_notMem wf hplace
  obtain ⟨P, hP, rfl, hb⟩ := wf.exists_branch_of_place? h.replacee hplace
  -- The parent is outside what is gone, so its row is left.
  have hu : ∃ u ∈ g.subtrees, u.id = P.id := by
    rw [← mem_ids, mem_ids_iff_rows]
    obtain ⟨row, hrow, hid, -⟩ := wf.exists_row (id_mem_of_mem_subtrees hP)
    refine ⟨row.hang r.id none, ?_, by rw [Row.id_hang, hid]⟩
    refine hrows.mem_iff.2 (List.mem_map_of_mem (List.mem_filter.2 ⟨hrow, ?_⟩))
    rw [hid]
    exact decide_eq_true ((h.notMem_prune_iff wf).2 (.inl hpt))
  obtain ⟨u, hu, hid⟩ := hu
  refine ⟨u, hu, hid, ?_, hid ▸ hpr⟩
  cases hc : u.child? s with
  | none => rfl
  | some c =>
    -- A child at the slot would have been there before, and so be the node that is gone.
    obtain ⟨hc', hplace'⟩ := (wf'.child?_eq_some_iff_place hu).1 hc
    have hrow' := wf'.mem_rows_iff.2 ⟨c, hc', rfl⟩
    obtain ⟨row, hrow, heq⟩ := List.mem_map.1 (hrows.mem_iff.1 hrow')
    obtain ⟨hrow, hkeep⟩ := List.mem_filter.1 hrow
    obtain ⟨v, hv, rfl⟩ := wf.mem_rows_iff.1 hrow
    have hhung := congrArg Row.place heq
    rw [Row.place_hang, hplace', hid] at hhung
    by_cases hvr : v.id = r.id
    · rw [if_pos hvr] at hhung
      cases hhung
    · rw [if_neg hvr] at hhung
      have hvt : v = t := by
        have hv' := (wf.child?_eq_some_iff_place hP).2 ⟨hv, hhung⟩
        rw [(wf.child?_eq_some_iff hP).2 hb] at hv'
        exact (Option.some.inj hv').symm
      subst hvt
      have hout : v.id ∉ (v.prune r.id).ids := by simpa using hkeep
      rw [← Tree.id_prune r.id v] at hout
      exact absurd (Tree.id_mem_ids _) hout

/-- Removing as an edit is removing. -/
theorem edit_of_remove (h : f.remove n = .ok g) : Edit.remove n f = (.ok (), g) := by
  rw [Edit.remove, Edit.step, h]
  rfl

/-- One node takes the place of another wherever it may. -/
theorem WellFormed.replace (wf : f.WellFormed) (h : f.Replaceable t r) :
    ∃ g, Edit.replace t.id r.id f = (.ok (), g) ∧ g.WellFormed ∧ f.Replaced t r g := by
  obtain ⟨f₁, f₂, f₃, heq₁, heq₂, heq₃, wf₃, hnext, hr₃, hrows⟩ := wf.remove_rest h
  -- The steps of the edit, none of which fails.
  have hask : Edit.ask (fun f => Edit.checkReplacement f t.id r.id) f = (.ok (), f) := by
    rw [Edit.ask, h.check wf]
  have hd₁ : Edit.detach r.id f = (.ok (f.place? r.id), f₁) := by
    rw [Edit.detach, Edit.step, heq₁]
  have hd₂ : Edit.detach t.id f₁ = (.ok (f.place? t.id), f₂) := by
    rw [Edit.detach, Edit.step, heq₂]
  have hd₃ : Edit.remove t.id f₂ = (.ok (), f₃) := edit_of_remove heq₃
  rw [Edit.replace, bind_of_ok hask, bind_of_ok hd₁, bind_of_ok hd₂, bind_of_ok hd₃]
  cases hplace : f.place? t.id with
  | none =>
    -- In the place of a root the replacement is a root, which it is already.
    refine ⟨f₃, rfl, wf₃, hnext, mem_subtrees_of_mem_trees hr₃, ?_⟩
    rw [hplace]
    exact hrows
  | some place =>
    obtain ⟨p, s⟩ := place
    -- Otherwise it is hung where the node hung, and only this place of it counts.
    obtain ⟨u, hu, rfl, free, outside⟩ := wf.exists_parent_of_rest h wf₃ hrows hplace
    obtain ⟨g, heq, hnext', hr, hrows'⟩ := wf₃.attach hu hr₃ free outside
    refine ⟨g, ?_, wf₃.of_attach heq, hnext'.trans hnext, hr, ?_⟩
    · show Edit.attach u.id r.id s f₃ = _
      rw [Edit.attach, Edit.step, heq]
      rfl
    · rw [hplace]
      refine hrows'.trans ((hrows.map _).trans (List.Perm.of_eq ?_))
      rw [List.map_map]
      exact List.map_congr_left fun row _ => Row.hang_hang ..

namespace Replaced

variable (hg : f.Replaced t r g) (h : f.Replaceable t r) (wf : f.WellFormed)
include hg wf

/-- Every node that is left has its row of before, but for the place of one. -/
theorem exists_row_hang (wf' : g.WellFormed) (hu : u ∈ g.subtrees) :
    ∃ v ∈ f.subtrees, v.id = u.id ∧ v.kind = u.kind ∧
      g.place? u.id = if u.id = r.id then f.place? t.id else f.place? u.id := by
  obtain ⟨row, hrow, heq⟩ := List.mem_map.1 (hg.rows.mem_iff.1 (wf'.mem_rows_iff.2 ⟨u, hu, rfl⟩))
  obtain ⟨v, hv, rfl⟩ := wf.mem_rows_iff.1 (List.mem_filter.1 hrow).1
  have hid : v.id = u.id := (Row.id_hang ..).symm.trans (congrArg Row.id heq)
  have hkind : v.kind = u.kind := (Row.kind_hang ..).symm.trans (congrArg Row.kind heq)
  have hplace := congrArg Row.place heq
  rw [Row.place_hang] at hplace
  refine ⟨v, hv, hid, hkind, ?_⟩
  rw [← hid]
  rw [← hid] at hplace
  exact hplace.symm

theorem place?_eq (wf' : g.WellFormed) (hn : n ∈ g.ids) :
    g.place? n = if n = r.id then f.place? t.id else f.place? n := by
  obtain ⟨u, hu, rfl⟩ := mem_ids.1 hn
  obtain ⟨v, hv, -, -, hplace⟩ := hg.exists_row_hang wf wf' hu
  exact hplace

/-- The replacement stands where the other node stood. -/
theorem place?_replacement (wf' : g.WellFormed) : g.place? r.id = f.place? t.id := by
  rw [hg.place?_eq wf wf' (id_mem_of_mem_subtrees hg.mem), if_pos rfl]

include h

/-- Of the nodes below the one, those are left that are below the other. -/
theorem mem_ids_iff : n ∈ g.ids ↔ n ∈ f.ids ∧ (n ∉ t.ids ∨ n ∈ r.ids) := by
  rw [← h.notMem_prune_iff wf, mem_ids_iff_rows, mem_ids_iff_rows]
  refine ⟨?_, ?_⟩
  · rintro ⟨row, hrow, rfl⟩
    obtain ⟨row, hmem, rfl⟩ := List.mem_map.1 (hg.rows.mem_iff.1 hrow)
    obtain ⟨hmem, hkeep⟩ := List.mem_filter.1 hmem
    exact ⟨⟨row, hmem, (Row.id_hang ..).symm⟩, by simpa using hkeep⟩
  · rintro ⟨⟨row, hrow, rfl⟩, hkeep⟩
    refine ⟨row.hang r.id (f.place? t.id), ?_, Row.id_hang ..⟩
    refine hg.rows.mem_iff.2 (List.mem_map_of_mem (List.mem_filter.2 ⟨hrow, ?_⟩))
    exact decide_eq_true hkeep

/-- A child that a node had before it still has, unless it is the node that was replaced. -/
theorem place?_of_child (wf' : g.WellFormed) (hp : p ∈ g.ids) (hplace : f.place? n = some (p, s))
    (hne : n ≠ t.id) : n ∈ g.ids ∧ g.place? n = some (p, s) := by
  have hn : n ∈ f.ids := WellFormed.mem_ids_of_place? hplace
  obtain ⟨v, hv, rfl⟩ := mem_ids.1 hn
  have hp' := (hg.mem_ids_iff h wf).1 hp
  -- A child stays with its parent, outside the one node or below the other.
  have hleft : v.id ∉ t.ids ∨ v.id ∈ r.ids := by
    rcases hp'.2 with hpt | hpr
    · exact .inl fun hmem => hpt (wf.parent_mem_ids h.replacee hmem hne hplace)
    · exact .inr (wf.mem_ids_of_parent h.replacement hpr hplace)
  have hmem : v.id ∈ g.ids := (hg.mem_ids_iff h wf).2 ⟨hn, hleft⟩
  refine ⟨hmem, ?_⟩
  -- The replacement itself had a parent below the node, which is gone, or none.
  have hvr : v.id ≠ r.id := by
    intro hvr
    rw [hvr] at hplace
    rcases h.source with hr | ⟨hr, -⟩
    · have hrt : r.id ∈ t.ids := Tree.mem_ids_iff_subtrees.2 ⟨r, hr, rfl⟩
      have hpt : p ∈ t.ids := wf.parent_mem_ids h.replacee hrt h.ne hplace
      obtain ⟨P, hP, rfl, hb⟩ := wf.exists_branch_of_place? h.replacement hplace
      have hpr := hp'.2.resolve_left fun h' => h' hpt
      exact Tree.id_notMem_branch (wf.nodup_tree hP) hb hpr
    · rw [wf.place?_root hr] at hplace
      cases hplace
  rw [hg.place?_eq wf wf' hmem, if_neg hvr, hplace]

/-- A node has the children that it had before, the replacement in the place of what it
    replaces. -/
theorem exists_origin (wf' : g.WellFormed) (hu : u ∈ g.subtrees) :
    ∃ v ∈ f.subtrees, v.id = u.id ∧ v.kind = u.kind ∧
      ∀ s, (u.child? s).map (fun c => if c.id = r.id then t.id else c.id) =
        (v.child? s).map (·.id) := by
  obtain ⟨v, hv, hid, hkind, -⟩ := hg.exists_row_hang wf wf' hu
  refine ⟨v, hv, hid, hkind, fun s => Option.ext fun n => ?_⟩
  rw [Option.map_eq_some_iff, Option.map_eq_some_iff]
  refine ⟨?_, ?_⟩
  · -- What hangs at the slot now hung there before, or has come in the place of the node.
    rintro ⟨c, hc, himage⟩
    obtain ⟨hc, hplace⟩ := (wf'.child?_eq_some_iff_place hu).1 hc
    rw [hg.place?_eq wf wf' (id_mem_of_mem_subtrees hc), ← hid] at hplace
    have hn : f.place? n = some (v.id, s) := by
      rw [← himage]
      by_cases hcr : c.id = r.id
      · rw [if_pos hcr] at hplace ⊢
        exact hplace
      · rw [if_neg hcr] at hplace ⊢
        exact hplace
    obtain ⟨d, hd, rfl⟩ := mem_ids.1 (WellFormed.mem_ids_of_place? hn)
    exact ⟨d, (wf.child?_eq_some_iff_place hv).2 ⟨hd, hn⟩, rfl⟩
  · -- What hung there before hangs there still, unless it is the node that was replaced.
    rintro ⟨d, hd, rfl⟩
    obtain ⟨-, hplace⟩ := (wf.child?_eq_some_iff_place hv).1 hd
    by_cases hdt : d.id = t.id
    · refine ⟨r, (wf'.child?_eq_some_iff_place hu).2 ⟨hg.mem, ?_⟩, ?_⟩
      · rw [hg.place?_replacement wf wf', ← hdt, hplace, hid]
      · rw [if_pos rfl, hdt]
    · have hp : v.id ∈ g.ids := hid ▸ id_mem_of_mem_subtrees hu
      obtain ⟨hmem, hplace'⟩ := hg.place?_of_child h wf wf' hp hplace hdt
      obtain ⟨c, hc, hcd⟩ := mem_ids.1 hmem
      have hcr : c.id ≠ r.id := by
        intro hcr
        -- The replacement hangs where the other node hung, at a place of its own.
        have hroot := hg.place?_replacement wf wf'
        rw [← hcr, hcd, hplace'] at hroot
        obtain ⟨P, hP, hPv, hb⟩ := wf.exists_branch_of_place? h.replacee hroot.symm
        rw [wf.eq_of_id_eq hP hv hPv] at hb
        rw [(wf.child?_eq_some_iff hv).2 hb] at hd
        exact hdt (congrArg Tree.id (Option.some.inj hd)).symm
      refine ⟨c, (wf'.child?_eq_some_iff_place hu).2 ⟨hc, ?_⟩, ?_⟩
      · rw [hcd, hplace', hid]
      · rw [if_neg hcr, hcd]

/-- As many nodes are gone as were below the one and not below the other. -/
theorem size_eq : g.size + (t.prune r.id).size = f.size := by
  have hsize (f : Forest) : f.size = (f.rows.map (·.id)).length := by
    rw [map_id_rows, List.length_map, size]
  -- The names that are gone are those below the one and not below the other, each once.
  have hgone : ((f.rows.map (·.id)).filter (· ∈ (t.prune r.id).ids)).Perm (t.prune r.id).ids := by
    refine (List.perm_ext_iff_of_nodup (wf.nodup_ids.filter _) (h.nodup_prune wf)).2 fun n => ?_
    rw [List.mem_filter, decide_eq_true_iff, and_iff_right_iff_imp]
    intro hn
    have hmem : n ∈ f.ids := by
      by_contra hout
      exact (h.notMem_prune_iff wf).2 (.inl fun hnt => hout (ids_subset_ids h.replacee hnt)) hn
    obtain ⟨row, hrow, rfl⟩ := mem_ids_iff_rows.1 hmem
    exact List.mem_map_of_mem hrow
  have hleft : g.size = ((f.rows.map (·.id)).filter (· ∉ (t.prune r.id).ids)).length := by
    rw [hsize, (hg.rows.map _).length_eq, Row.map_id_map_hang, List.filter_map, List.length_map,
      List.length_map]
    rfl
  have hall := List.length_eq_length_filter_add (l := f.rows.map (·.id))
    (fun n => decide (n ∉ (t.prune r.id).ids))
  have hnot : ((f.rows.map (·.id)).filter fun n => !decide (n ∉ (t.prune r.id).ids)) =
      (f.rows.map (·.id)).filter (· ∈ (t.prune r.id).ids) := by
    simp
  rw [hnot, hgone.length_eq] at hall
  rw [hleft, hsize f, Tree.size_eq_length_ids]
  exact hall.symm

/-! ### Roots -/

/-- Of the roots, those are left that are neither of the two nodes, and in the place of a root
    the replacement is one. -/
theorem mem_roots_iff (wf' : g.WellFormed) :
    n ∈ g.roots ↔
      n = r.id ∧ f.place? t.id = none ∨ n ≠ r.id ∧ n ≠ t.id ∧ n ∈ f.roots := by
  by_cases hnr : n = r.id
  · subst hnr
    rw [wf'.mem_roots_iff, hg.place?_replacement wf wf']
    have hmem : r.id ∈ g.ids := id_mem_of_mem_subtrees hg.mem
    simp [hmem]
  · refine Iff.trans ?_ (or_iff_right fun heq => hnr heq.1).symm
    rw [wf'.mem_roots_iff]
    refine ⟨?_, ?_⟩
    · rintro ⟨hmem, hplace⟩
      rw [hg.place?_eq wf wf' hmem, if_neg hnr] at hplace
      obtain ⟨hn, hleft⟩ := (hg.mem_ids_iff h wf).1 hmem
      have hroot : n ∈ f.roots := wf.mem_roots_iff.2 ⟨hn, hplace⟩
      rw [wf.root_mem_ids_iff h.replacee hroot, wf.root_mem_ids_iff h.replacement hroot] at hleft
      exact ⟨hnr, hleft.resolve_right hnr, hroot⟩
    · rintro ⟨-, hnt, hroot⟩
      obtain ⟨hn, hplace⟩ := wf.mem_roots_iff.1 hroot
      have hmem : n ∈ g.ids := (hg.mem_ids_iff h wf).2
        ⟨hn, .inl fun hmem => hnt ((wf.root_mem_ids_iff h.replacee hroot).1 hmem)⟩
      rw [hg.place?_eq wf wf' hmem, if_neg hnr]
      exact ⟨hmem, hplace⟩

/-- A replacement that was a root is one root less, and any other leaves as many as there were. -/
theorem length_roots (wf' : g.WellFormed) :
    g.roots.length + (if f.place? r.id = none then 1 else 0) = f.roots.length := by
  have hroot {u : Tree} (hu : u ∈ f.subtrees) : u.id ∈ f.roots ↔ f.place? u.id = none := by
    rw [wf.mem_roots_iff, and_iff_right (id_mem_of_mem_subtrees hu)]
  have herase (roots : List NodeId) (m : NodeId) :
      (roots.erase m).length + (if m ∈ roots then 1 else 0) = roots.length := by
    by_cases hm : m ∈ roots
    · rw [if_pos hm, List.length_erase_add_one hm]
    · rw [if_neg hm, List.erase_of_not_mem hm, Nat.add_zero]
  -- What stays is counted by taking the two nodes out of the roots of before.
  let kept := (f.roots.erase t.id).erase r.id
  have hkept {m : NodeId} : m ∈ kept ↔ m ≠ r.id ∧ m ≠ t.id ∧ m ∈ f.roots := by
    rw [(wf.nodup_roots.erase _).mem_erase_iff, wf.nodup_roots.mem_erase_iff]
  have hbefore : kept.length + (if f.place? r.id = none then 1 else 0) +
      (if f.place? t.id = none then 1 else 0) = f.roots.length := by
    have ht := herase f.roots t.id
    have hr := herase (f.roots.erase t.id) r.id
    simp only [List.mem_erase_of_ne h.ne, hroot h.replacement] at hr
    simp only [hroot h.replacee] at ht
    rw [← ht, ← hr]
  have hafter : g.roots.length = kept.length + (if f.place? t.id = none then 1 else 0) := by
    have nodup : kept.Nodup := (wf.nodup_roots.erase _).erase _
    by_cases hplace : f.place? t.id = none
    · have hperm : g.roots.Perm (r.id :: kept) := by
        refine (List.perm_ext_iff_of_nodup wf'.nodup_roots ?_).2 fun m => ?_
        · exact List.nodup_cons.2 ⟨fun hr => (hkept.1 hr).1 rfl, nodup⟩
        · rw [hg.mem_roots_iff h wf wf', List.mem_cons, hkept, and_iff_left hplace]
      rw [if_pos hplace, hperm.length_eq, List.length_cons]
    · have hperm : g.roots.Perm kept := by
        refine (List.perm_ext_iff_of_nodup wf'.nodup_roots nodup).2 fun m => ?_
        rw [hg.mem_roots_iff h wf wf', hkept]
        exact or_iff_right fun heq => hplace heq.2
      rw [if_neg hplace, hperm.length_eq, Nat.add_zero]
  omega

end Replaced

end ShortCircuit.Forest

/-
  ShortCircuit.Proofs.Forest.Edits

  What each single edit does to the table of a well-formed forest, and that the
  forest stays well formed.  Planting adds a row; attaching and detaching change
  the place in the row of one node; removing takes out the rows of a subtree.
-/

import Mathlib.Data.List.Flatten
import ShortCircuit.Forest.Edit
import ShortCircuit.Proofs.Forest.Table

namespace ShortCircuit

variable {f g : Forest} {t u v : Tree} {n p c : NodeId} {s : Int}
  {place hung : Option (NodeId × Int)}

/-! ## Rows with a new place -/

/-- The row after the node of a given name has got a new place. -/
def Row.hang (n : NodeId) (place : Option (NodeId × Int)) (row : Row) : Row :=
  if row.id = n then { row with place } else row

namespace Row

@[simp] theorem id_hang (n : NodeId) (place : Option (NodeId × Int)) (row : Row) :
    (row.hang n place).id = row.id := by
  unfold hang
  split <;> rfl

@[simp] theorem kind_hang (n : NodeId) (place : Option (NodeId × Int)) (row : Row) :
    (row.hang n place).kind = row.kind := by
  unfold hang
  split <;> rfl

theorem place_hang (n : NodeId) (place : Option (NodeId × Int)) (row : Row) :
    (row.hang n place).place = if row.id = n then place else row.place := by
  unfold hang
  split <;> rfl

theorem hang_of_ne {row : Row} (h : row.id ≠ n) : row.hang n place = row :=
  if_neg h

/-- Only the last place counts. -/
theorem hang_hang (n : NodeId) (place hung : Option (NodeId × Int)) (row : Row) :
    (row.hang n hung).hang n place = row.hang n place := by
  by_cases h : row.id = n
  · unfold hang
    simp [h]
  · rw [hang_of_ne h]

theorem map_id_map_hang (n : NodeId) (place : Option (NodeId × Int)) (rows : List Row) :
    (rows.map (hang n place)).map (·.id) = rows.map (·.id) := by
  rw [List.map_map]
  exact List.map_congr_left fun row _ => id_hang n place row

theorem map_hang_of_notMem {rows : List Row} (h : n ∉ rows.map (·.id)) :
    rows.map (hang n place) = rows :=
  map_eq_self fun row hrow => if_neg fun hid => h (List.mem_map.2 ⟨row, hrow, hid⟩)

/-- Whether rows are chosen by name before or after a node gets a new place makes no
    difference. -/
theorem filter_map_hang (keep : NodeId → Bool) (n : NodeId) (place : Option (NodeId × Int))
    (rows : List Row) :
    ((rows.map (hang n place)).filter fun row => keep row.id) =
      (rows.filter fun row => keep row.id).map (hang n place) := by
  rw [List.filter_map]
  simp [Function.comp_def]

/-- A tree that gets a new place changes in the row of its top only. -/
theorem map_hang_tree (nodup : t.ids.Nodup) :
    (t.rows hung).map (hang t.id place) = t.rows place := by
  -- All other rows of the tree are those of nodes with other names.
  have hbelow : t.id ∉ (t.branches.flatMap fun b => b.2.rows (some (t.id, b.1))).map (·.id) := by
    rw [List.map_flatMap]
    intro h
    obtain ⟨b, hb, h⟩ := List.mem_flatMap.1 h
    rw [Tree.map_id_rows] at h
    exact Tree.id_notMem_branch nodup hb h
  rw [Tree.rows_eq, Tree.rows_eq, List.map_cons, map_hang_of_notMem hbelow]
  exact congrArg (· :: _) (if_pos rfl)

end Row

namespace Forest

namespace WellFormed

/-- Give a subtree a new place in a table of which it is a part. -/
theorem map_hang_perm (wf : f.WellFormed) {rest : List Row}
    (h : f.rows.Perm (rest ++ t.rows hung)) (place : Option (NodeId × Int)) :
    (f.rows.map (Row.hang t.id place)).Perm (rest ++ t.rows place) := by
  have nodup : ((rest ++ t.rows hung).map (·.id)).Nodup := (h.map _).nodup_iff.1 wf.nodup_ids
  rw [List.map_append, Tree.map_id_rows, List.nodup_append] at nodup
  have hrest : t.id ∉ rest.map (·.id) :=
    fun hmem => nodup.2.2 _ hmem _ (Tree.id_mem_ids t) rfl
  refine (h.map _).trans ?_
  rw [List.map_append, Row.map_hang_of_notMem hrest, Row.map_hang_tree nodup.2.1]

/-- A forest stays well formed if a node gets a place that is free, or none. -/
theorem of_hang (wf : f.WellFormed) (hrows : g.rows.Perm (f.rows.map (Row.hang n place)))
    (hnext : g.next = f.next)
    (free : ∀ q, place = some q → q ∉ f.rows.filterMap (·.place)) : g.WellFormed where
  nodup_ids := by
    rw [(hrows.map _).nodup_iff, Row.map_id_map_hang]
    exact wf.nodup_ids
  nodup_places := by
    rw [(hrows.filterMap _).nodup_iff]
    by_cases hn : n ∈ f.rows.map (·.id)
    · obtain ⟨row, hrow, rfl⟩ := List.mem_map.1 hn
      obtain ⟨l, r, heq⟩ := List.append_of_mem hrow
      have nodup := wf.nodup_ids
      have nodup' := wf.nodup_places
      rw [heq] at nodup nodup' free ⊢
      rw [List.map_append, List.map_cons, List.nodup_append, List.nodup_cons] at nodup
      have hl : row.id ∉ l.map (·.id) :=
        fun h => nodup.2.2 _ h _ (List.mem_cons_self ..) rfl
      -- One row gets another place; all others keep theirs, which differ from the new one.
      rw [List.map_append, List.map_cons, Row.map_hang_of_notMem hl,
        Row.map_hang_of_notMem nodup.2.1.1, List.filterMap_append, List.filterMap_cons,
        Row.place_hang, if_pos rfl]
      have hsub : (l.filterMap (·.place) ++ r.filterMap (·.place)).Sublist
          ((l ++ row :: r).filterMap (·.place)) := by
        rw [← List.filterMap_append]
        exact ((List.sublist_cons_self row r).append_left l).filterMap _
      cases place with
      | none => exact nodup'.sublist hsub
      | some q =>
        refine (List.perm_middle.nodup_iff).2 (List.nodup_cons.2 ⟨?_, nodup'.sublist hsub⟩)
        exact fun h => free q rfl (hsub.subset h)
    · rw [Row.map_hang_of_notMem hn]
      exact wf.nodup_places
  issued := by
    intro row hrow
    obtain ⟨row', hrow', rfl⟩ := List.mem_map.1 (hrows.mem_iff.1 hrow)
    rw [Row.id_hang, hnext]
    exact wf.issued row' hrow'
  next_nonneg := by
    rw [hnext]
    exact wf.next_nonneg

/-- A forest stays well formed if it loses nodes. -/
theorem of_sublist (wf : f.WellFormed) {rows : List Row} (hrows : g.rows.Perm rows)
    (hsub : rows.Sublist f.rows) (hnext : g.next = f.next) : g.WellFormed where
  nodup_ids := (hrows.map _).nodup_iff.2 (wf.nodup_ids.sublist (hsub.map _))
  nodup_places := (hrows.filterMap _).nodup_iff.2 (wf.nodup_places.sublist (hsub.filterMap _))
  issued := by
    intro row hrow
    rw [hnext]
    exact wf.issued row (hsub.subset (hrows.mem_iff.1 hrow))
  next_nonneg := by
    rw [hnext]
    exact wf.next_nonneg

end WellFormed

/-! ## Planting -/

theorem rows_plant (f : Forest) (kind : Kind) :
    (f.plant kind).2.rows = f.rows ++ [⟨f.next, kind, none⟩] := by
  simp [plant, rows, Tree.rows_node]

/-- Names are handed out in turn. -/
theorem WellFormed.lt_next (wf : f.WellFormed) (hn : n ∈ f.ids) : n < f.next := by
  obtain ⟨row, hrow, rfl⟩ := mem_ids_iff_rows.1 hn
  exact (wf.issued row hrow).2

/-- The next name is new. -/
theorem WellFormed.next_notMem (wf : f.WellFormed) : f.next ∉ f.ids :=
  fun hmem => Int.lt_irrefl _ (wf.lt_next hmem)

theorem WellFormed.plant (wf : f.WellFormed) (kind : Kind) : (f.plant kind).2.WellFormed where
  nodup_ids := by
    rw [rows_plant, List.map_append, List.nodup_append]
    refine ⟨wf.nodup_ids, List.nodup_singleton _, ?_⟩
    intro m hm k hk
    obtain ⟨row, hrow, rfl⟩ := List.mem_map.1 hm
    rw [List.mem_singleton.1 hk]
    exact Int.ne_of_lt (wf.issued row hrow).2
  nodup_places := by
    rw [rows_plant, List.filterMap_append]
    simpa using wf.nodup_places
  issued := by
    intro row hrow
    rw [rows_plant, List.mem_append, List.mem_singleton] at hrow
    rcases hrow with hrow | rfl
    · exact ⟨(wf.issued row hrow).1, Int.lt_trans (wf.issued row hrow).2 (Int.lt_succ _)⟩
    · exact ⟨wf.next_nonneg, Int.lt_succ _⟩
  next_nonneg := Int.le_trans wf.next_nonneg (Int.le_of_lt (Int.lt_succ _))

/-! ## Detaching -/

/-- Trees that do not contain a node are not headed by it. -/
theorem filter_ne_of_notMem {trees : List Tree} (h : ∀ c ∈ trees, n ∉ c.ids) :
    trees.filter (·.id != n) = trees := by
  rw [List.filter_eq_self]
  intro c hc
  have hne : c.id ≠ n := fun hid => h c hc (hid ▸ Tree.id_mem_ids c)
  simpa using hne

/-- The rows of one tree, apart from those of all others. -/
theorem WellFormed.rows_perm (wf : f.WellFormed) (ht : t ∈ f.trees) :
    f.rows.Perm ((f.trees.filter (·.id != t.id)).flatMap (·.rows none) ++ t.rows none) := by
  obtain ⟨l, r, htrees⟩ := List.append_of_mem ht
  have nodup := wf.nodup_trees
  rw [htrees] at nodup
  obtain ⟨hl, hr⟩ := notMem_of_split nodup (Tree.id_mem_ids t)
  rw [htrees, List.filter_append, List.filter_cons, filter_ne_of_notMem hl, filter_ne_of_notMem hr,
    rows, htrees, List.flatMap_append, List.flatMap_cons]
  simp only [bne_self_eq_false, Bool.false_eq_true, if_false, List.flatMap_append,
    List.append_assoc]
  exact List.Perm.append_left _ List.perm_append_comm

/-- Of several trees, taking a subtree off changes the one that contains it. -/
theorem rows_map_prune {trees : List Tree} (nodup : (trees.flatMap (·.ids)).Nodup) {T : Tree}
    (hT : T ∈ trees) (hu : u ∈ T.subtrees) (hne : T.id ≠ u.id) :
    ∃ hung, (trees.flatMap (·.rows none)).Perm
      ((trees.map (·.prune u.id)).flatMap (·.rows none) ++ u.rows (some hung)) := by
  obtain ⟨l, r, rfl⟩ := List.append_of_mem hT
  obtain ⟨hl, hr⟩ := notMem_of_split nodup (Tree.ids_subset hu (Tree.id_mem_ids u))
  have nodupT : T.ids.Nodup := (List.nodup_flatMap.1 nodup).1 T hT
  obtain ⟨hung, hperm⟩ := Tree.rows_prune nodupT hu hne none
  rw [List.map_append, List.map_cons, map_eq_self fun c hc => Tree.prune_of_notMem (hl c hc),
    map_eq_self fun c hc => Tree.prune_of_notMem (hr c hc)]
  simp only [List.flatMap_append, List.flatMap_cons]
  exact ⟨hung, perm_of_middle hperm _ _⟩

/-- Detaching a node makes it the top of a tree of its own.  A subtree outside loses it, and
    nothing else changes. -/
theorem WellFormed.detach (wf : f.WellFormed) (ht : t ∈ f.subtrees) :
    ∃ g, f.detach t.id = .ok (f.place? t.id, g) ∧ g.next = f.next ∧ t ∈ g.trees ∧
      (t ∈ f.trees → g = f) ∧ g.rows.Perm (f.rows.map (Row.hang t.id none)) ∧
      ∀ v ∈ f.subtrees, v ∉ t.subtrees → v.prune t.id ∈ g.subtrees := by
  rw [Forest.detach, wf.get_self ht]
  cases hplace : f.place? t.id with
  | none =>
    -- A root stays where it is; it has had no place before.
    have hroot : t ∈ f.trees := wf.mem_trees_iff.2 ⟨ht, hplace⟩
    refine ⟨f, rfl, rfl, hroot, fun _ => rfl, ?_, ?_⟩
    · have hrows := wf.rows_perm hroot
      exact hrows.trans (wf.map_hang_perm hrows none).symm
    · intro v hv hout
      rw [Tree.prune_of_notMem]
      · exact hv
      · intro hmem
        rw [wf.eq_of_root_mem hroot hv hmem] at hout
        exact hout (Tree.self_mem_subtrees t)
  | some hung =>
    -- Any other node leaves the tree that it hangs in, and is put behind all trees.
    have hne {T : Tree} (hT : T ∈ f.trees) : T.id ≠ t.id := by
      intro hid
      rw [← hid, wf.place?_root hT] at hplace
      cases hplace
    refine ⟨_, rfl, rfl, List.mem_append_right _ (List.mem_singleton_self t),
      fun hroot => absurd rfl (hne hroot), ?_, ?_⟩
    · obtain ⟨T, hT, htT⟩ := List.mem_flatMap.1 ht
      obtain ⟨hung', hrows⟩ := rows_map_prune wf.nodup_trees hT htT (hne hT)
      refine List.Perm.trans (List.Perm.of_eq ?_) (wf.map_hang_perm hrows none).symm
      rw [rows, List.flatMap_append, List.flatMap_singleton]
    · intro v hv hout
      obtain ⟨T, hT, hvT⟩ := List.mem_flatMap.1 hv
      refine List.mem_flatMap.2 ⟨T.prune t.id, ?_, ?_⟩
      · exact List.mem_append_left _ (List.mem_map_of_mem hT)
      · refine Tree.prune_mem_subtrees hvT (hne hT) fun u hu hid => ?_
        have hu' := subtree_mem_subtrees hu (mem_subtrees_of_mem_trees hT)
        rwa [wf.eq_of_id_eq hu' ht hid]

/-- Detaching succeeds on the nodes of the forest only. -/
theorem WellFormed.exists_of_detach (wf : f.WellFormed) (h : f.detach n = .ok (hung, g)) :
    ∃ t ∈ f.subtrees, t.id = n := by
  cases hget : f.get n with
  | ok t => exact ⟨t, wf.get_eq_ok_iff.1 hget⟩
  | error fault =>
    rw [Forest.detach, hget] at h
    cases h

theorem WellFormed.of_detach (wf : f.WellFormed) (h : f.detach n = .ok (hung, g)) :
    g.WellFormed := by
  obtain ⟨t, ht, rfl⟩ := wf.exists_of_detach h
  obtain ⟨g', heq, hnext, -, -, hrows, -⟩ := wf.detach ht
  rw [heq] at h
  cases h
  exact wf.of_hang hrows hnext fun q hq => nomatch hq

/-! ## Removing -/

/-- Removing a node takes the rows of its subtree out.  From a forest in which the node is a
    root, it takes out one tree. -/
theorem WellFormed.remove (wf : f.WellFormed) (ht : t ∈ f.subtrees) :
    ∃ g, f.remove t.id = .ok g ∧ g.next = f.next ∧
      (t ∈ f.trees → g.trees = f.trees.filter (·.id != t.id)) ∧
      g.rows.Perm (f.rows.filter fun row => row.id ∉ t.ids) := by
  obtain ⟨f', hdetach, hnext, hroot, hsame, hrows, -⟩ := wf.detach ht
  have wf' : f'.WellFormed := wf.of_detach hdetach
  refine ⟨{ f' with trees := f'.trees.filter (·.id != t.id) }, ?_, hnext, ?_, ?_⟩
  · rw [Forest.remove, hdetach]
    rfl
  · intro h
    rw [hsame h]
  · have hparts := wf'.rows_perm hroot
    have nodup := (hparts.map (·.id)).nodup_iff.1 wf'.nodup_ids
    rw [List.map_append, Tree.map_id_rows, List.nodup_append] at nodup
    -- Of the two parts of the table, the first stays and the second goes.
    have hrest : (((f'.trees.filter (·.id != t.id)).flatMap (·.rows none)).filter
        fun row => row.id ∉ t.ids) = (f'.trees.filter (·.id != t.id)).flatMap (·.rows none) := by
      rw [List.filter_eq_self]
      intro row hrow
      exact decide_eq_true fun hid => nodup.2.2 _ (List.mem_map_of_mem hrow) _ hid rfl
    have hgone : ((t.rows none).filter fun row => row.id ∉ t.ids) = [] := by
      rw [List.filter_eq_nil_iff]
      intro row hrow
      have hmem : row.id ∈ t.ids := by
        rw [← Tree.map_id_rows t none]
        exact List.mem_map_of_mem hrow
      simpa using hmem
    have hfilter := hparts.filter fun row => row.id ∉ t.ids
    rw [List.filter_append, hrest, hgone, List.append_nil] at hfilter
    -- The row that has a new place is among those that go.
    have hcommute : ((f.rows.map (Row.hang t.id none)).filter fun row => row.id ∉ t.ids) =
        f.rows.filter fun row => row.id ∉ t.ids := by
      rw [List.filter_map, Row.map_hang_of_notMem]
      · simp [Function.comp_def]
      · intro h
        obtain ⟨row, hrow, hid⟩ := List.mem_map.1 h
        have := (List.mem_filter.1 hrow).2
        simp [hid, Tree.id_mem_ids] at this
    rw [← hcommute]
    exact hfilter.symm.trans (hrows.filter _)

/-- Removing succeeds on the nodes of the forest only. -/
theorem WellFormed.exists_of_remove (wf : f.WellFormed) (h : f.remove n = .ok g) :
    ∃ t ∈ f.subtrees, t.id = n := by
  cases hd : f.detach n with
  | ok result => exact wf.exists_of_detach hd
  | error fault =>
    rw [Forest.remove, hd] at h
    cases h

theorem WellFormed.of_remove (wf : f.WellFormed) (h : f.remove n = .ok g) : g.WellFormed := by
  obtain ⟨t, ht, rfl⟩ := wf.exists_of_remove h
  obtain ⟨g', heq, hnext, -, hrows⟩ := wf.remove ht
  rw [heq] at h
  cases h
  exact wf.of_sublist hrows List.filter_sublist hnext

/-! ## Attaching -/

/-- The checks of an attachment, one after another. -/
theorem attach_eq (f : Forest) (p c : NodeId) (s : Int) :
    f.attach p c s =
      match f.get p, f.get c, f.place? c with
      | .error fault, _, _ => .error fault
      | .ok _, .error fault, _ => .error fault
      | .ok _, .ok _, some (holder, _) => .error (.alreadyAttached c holder)
      | .ok above, .ok below, none =>
        if (above.child? s).isSome then .error (.slotOccupied s p)
        else if c ∈ f.ancestors p then .error (.wouldCycle c p)
        else .ok { f with trees := (f.trees.filter (·.id != c)).map (·.graft p (s, below)) } := by
  rw [Forest.attach]
  cases f.get p with
  | error fault => rfl
  | ok above =>
    cases f.get c with
    | error fault => rfl
    | ok below =>
      cases f.place? c with
      | some holder => rfl
      | none =>
        simp only [bind, Except.bind, pure, Except.pure, throw, throwThe, MonadExceptOf.throw]

/-- Of several trees, hanging something below a node changes the one that contains it. -/
theorem rows_map_graft {trees : List Tree} (nodup : (trees.flatMap (·.ids)).Nodup)
    {T : Tree} (hT : T ∈ trees) (hp : p ∈ T.ids) (s : Int) (u : Tree) :
    ((trees.map (·.graft p (s, u))).flatMap (·.rows none)).Perm
      (trees.flatMap (·.rows none) ++ u.rows (some (p, s))) := by
  obtain ⟨l, r, rfl⟩ := List.append_of_mem hT
  obtain ⟨hl, hr⟩ := notMem_of_split nodup hp
  have nodupT : T.ids.Nodup := (List.nodup_flatMap.1 nodup).1 T hT
  rw [List.map_append, List.map_cons, map_eq_self fun c hc => Tree.graft_of_notMem (hl c hc),
    map_eq_self fun c hc => Tree.graft_of_notMem (hr c hc)]
  simp only [List.flatMap_append, List.flatMap_cons]
  exact perm_of_middle (Tree.rows_graft nodupT hp s u none) _ _

/-- A root is hung below a node at an empty slot, unless the node lies below the root. -/
theorem WellFormed.attach (wf : f.WellFormed) (ht : t ∈ f.subtrees) (hu : u ∈ f.trees)
    (free : t.child? s = none) (outside : t.id ∉ u.ids) :
    ∃ g, f.attach t.id u.id s = .ok g ∧ g.next = f.next ∧ u ∈ g.subtrees ∧
      g.rows.Perm (f.rows.map (Row.hang u.id (some (t.id, s)))) := by
  have hu' : u ∈ f.subtrees := mem_subtrees_of_mem_trees hu
  -- The root is not above the node, or the node would lie in its tree.
  have hanc : u.id ∉ f.ancestors t.id := by
    intro h
    obtain ⟨v, hv, hid⟩ := List.mem_map.1 h
    obtain ⟨hv, hmem⟩ := wf.mem_trail_iff.1 hv
    rw [wf.eq_of_id_eq hv hu' hid] at hmem
    exact outside hmem
  -- So the node lies in another tree, which is there still when the root is taken out.
  obtain ⟨T, hT, htT⟩ := List.mem_flatMap.1 ht
  have hTu : T.id ≠ u.id := by
    intro hid
    rw [wf.eq_of_id_eq (mem_subtrees_of_mem_trees hT) hu' hid] at htT
    exact outside (Tree.mem_ids_iff_subtrees.2 ⟨t, htT, rfl⟩)
  have hT' : T ∈ f.trees.filter (·.id != u.id) := List.mem_filter.2 ⟨hT, by simpa using hTu⟩
  have htT' : t.id ∈ T.ids := Tree.mem_ids_iff_subtrees.2 ⟨t, htT, rfl⟩
  refine ⟨{ f with trees := (f.trees.filter (·.id != u.id)).map (·.graft t.id (s, u)) },
    ?_, rfl, ?_, ?_⟩
  · rw [attach_eq, wf.get_self ht, wf.get_self hu', wf.place?_root hu]
    simp [free, hanc]
  · exact List.mem_flatMap.2 ⟨T.graft t.id (s, u), List.mem_map_of_mem hT',
      Tree.branch_mem_graft htT' s u⟩
  · have hparts := wf.rows_perm hu
    have hrest : ((f.trees.filter (·.id != u.id)).map (·.graft t.id (s, u))).flatMap
        (·.rows none) |>.Perm ((f.trees.filter (·.id != u.id)).flatMap (·.rows none) ++
          u.rows (some (t.id, s))) := by
      refine rows_map_graft ?_ hT' htT' s u
      exact wf.nodup_trees.sublist (List.filter_sublist.flatMap _)
    exact hrest.trans (wf.map_hang_perm hparts (some (t.id, s))).symm

/-- A slot that a node has no child at is nobody's place. -/
theorem WellFormed.free_place (wf : f.WellFormed) (ht : t ∈ f.subtrees) (free : t.child? s = none) :
    (t.id, s) ∉ f.rows.filterMap (·.place) := by
  intro h
  obtain ⟨row, hrow, hplace⟩ := List.mem_filterMap.1 h
  obtain ⟨v, hv, rfl⟩ := wf.mem_rows_iff.1 hrow
  rw [(wf.child?_eq_some_iff_place ht).2 ⟨hv, hplace⟩] at free
  cases free

/-- An attachment that succeeds has passed all checks. -/
theorem WellFormed.exists_of_attach (wf : f.WellFormed) (h : f.attach p c s = .ok g) :
    ∃ t ∈ f.subtrees, ∃ u ∈ f.trees, t.id = p ∧ u.id = c ∧ t.child? s = none ∧ p ∉ u.ids := by
  rw [attach_eq] at h
  cases ht : f.get p with
  | error fault => simp [ht] at h
  | ok t =>
    cases hu : f.get c with
    | error fault => simp [ht, hu] at h
    | ok u =>
      cases hplace : f.place? c with
      | some holder => simp [ht, hu, hplace] at h
      | none =>
        obtain ⟨ht', rfl⟩ := wf.get_eq_ok_iff.1 ht
        obtain ⟨hu', rfl⟩ := wf.get_eq_ok_iff.1 hu
        -- What is left are the two checks that depend on both nodes.
        simp only [ht, hu, hplace] at h
        by_cases hs : (t.child? s).isSome
        · rw [if_pos hs] at h
          cases h
        · by_cases hc : u.id ∈ f.ancestors t.id
          · rw [if_neg hs, if_pos hc] at h
            cases h
          · refine ⟨t, ht', u, wf.mem_trees_iff.2 ⟨hu', hplace⟩, rfl, rfl, by simpa using hs, ?_⟩
            intro hmem
            exact hc (List.mem_map.2 ⟨u, wf.mem_trail_iff.2 ⟨hu', hmem⟩, rfl⟩)

theorem WellFormed.of_attach (wf : f.WellFormed) (h : f.attach p c s = .ok g) :
    g.WellFormed := by
  obtain ⟨t, ht, u, hu, rfl, rfl, free, outside⟩ := wf.exists_of_attach h
  obtain ⟨g', heq, hnext, -, hrows⟩ := wf.attach ht hu free outside
  rw [heq] at h
  cases h
  refine wf.of_hang hrows hnext fun q hq => ?_
  cases hq
  exact wf.free_place ht free

end Forest

end ShortCircuit

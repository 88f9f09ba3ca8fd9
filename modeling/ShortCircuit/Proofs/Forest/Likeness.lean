/-
  ShortCircuit.Proofs.Forest.Likeness

  What is kept when nodes get other names and children are listed in another
  order, as long as every node keeps its kind and its place.  A node shows to
  others what stands at which of its slots, and no two children share a slot; so
  analyses come to the same results, texts are the same, and what is recorded of
  a node, found around it or pointed at is that of the node with its new name.
-/

import ShortCircuit.Proofs.Forest.Carets
import ShortCircuit.Proofs.Forest.Renaming
import ShortCircuit.Proofs.Regions
import ShortCircuit.Proofs.Tree.Splicing

namespace ShortCircuit

variable {f g : Forest} {t u v : Tree} {n m : NodeId} {name : NodeId → NodeId}
  {spans : List Span} {nodes chain : List NodeId} {x offset : Int}

/-! ## Recorded spans -/

namespace Span

/-- The same stretch of text, for a node with a new name. -/
def rename (name : NodeId → NodeId) (s : Span) : Span := { s with node := name s.node }

theorem nodesAt_rename (name : NodeId → NodeId) (spans : List Span) (x : Int) :
    nodesAt (spans.map (.rename name)) x = (nodesAt spans x).map name := by
  rw [nodesAt, List.filter_map, List.map_map, nodesAt, List.map_map]
  rfl

end Span

namespace Printed

def rename (name : NodeId → NodeId) (p : Printed) : Printed :=
  { p with spans := p.spans.map (.rename name) }

variable (name)

theorem rename_append (p q : Printed) :
    (p.append q).rename name = (p.rename name).append (q.rename name) := by
  obtain ⟨text, spans, _ | fault⟩ := p
  · simp [append, rename, Span.rename, Span.shift, Function.comp_def]
  · rfl

theorem rename_concat (parts : List Printed) :
    (concat parts).rename name = concat (parts.map (.rename name)) := by
  induction parts with
  | nil => rfl
  | cons part rest ih =>
    show (part.append (concat rest)).rename name = (part.rename name).append (concat _)
    rw [rename_append, ih]

theorem rename_finish (n : NodeId) (p : Printed) :
    (p.finish n).rename name = (p.rename name).finish (name n) := by
  obtain ⟨text, spans, _ | fault⟩ := p
  · simp [finish, rename, Span.rename]
  · rfl

end Printed

/-! ## Trees -/

namespace Tree

/-- A tree whose children have been renamed is printed as it was, with the new names. -/
theorem print_rename (hid : v.id = name u.id) (hkind : v.kind = u.kind)
    (hu : (u.branches.map (·.1)).Nodup) (hv : (v.branches.map (·.1)).Nodup)
    (h : ∀ s, Option.Rel (fun c d => d.print = c.print.rename name) (u.child? s) (v.child? s)) :
    v.print = u.print.rename name := by
  have hpieces : v.pieces = u.pieces := by
    rw [pieces, pieces, hkind, slots_eq hv hu fun s => (isSome_eq_of_rel (h s)).symm]
  have hprint (piece : Piece) : piece.print v.operands = (piece.print u.operands).rename name := by
    cases piece with
    | words text => rfl
    | literal value =>
      simp only [Piece.print]
      cases value.source <;> rfl
    | operand s =>
      have hs := h s
      rw [print_operand, print_operand]
      generalize u.child? s = c, v.child? s = d at hs
      cases hs with
      | some hcd => exact hcd
      | none => rfl
  have hbody : v.body = u.body.rename name := by
    rw [body, body, Printed.rename_concat, hpieces, List.map_map]
    exact congrArg _ (List.map_congr_left fun piece _ => hprint piece)
  rw [print_eq, print_eq, Printed.rename_finish, hbody, hid]

/-- The shape does not depend on names and order. -/
theorem nameless_shape : Nameless shape := by
  intro u v hkind hu hv hslots
  rw [shape_eq, shape_eq, rebuild_congr hkind hu hv hslots]

end Tree

/-! ## The deepest of some nodes -/

theorem deepest?_rename (name : NodeId → NodeId) (nodes : List (NodeId × Nat)) :
    deepest? (nodes.map fun a => (name a.1, a.2)) = (deepest? nodes).map name := by
  match nodes with
  | [] => rfl
  | a :: rest =>
    induction rest generalizing a with
    | nil => rfl
    | cons b rest ih =>
      rw [deepest?_cons_cons, List.map_cons, List.map_cons, deepest?_cons_cons]
      split
      · exact ih b
      · exact ih a

namespace Forest

theorem pointedAt_rename (name : NodeId → NodeId) (spans : List Span) (offset : Int) :
    pointedAt (spans.map (.rename name)) offset = (pointedAt spans offset).map name := by
  rw [pointedAt, pointedAt, Span.nodesAt_rename, Span.nodesAt_rename]
  cases Span.nodesAt spans offset <;> rfl

/-! ## Forests -/

namespace Renaming

variable (h : f.Renaming g name) (wf : f.WellFormed) (wf' : g.WellFormed)
include h

theorem exists_tree (hu : u ∈ f.subtrees) : ∃ v ∈ g.subtrees, v.id = name u.id :=
  Forest.mem_ids.1 (h.mem_ids (id_mem_of_mem_subtrees hu))

include wf wf'

/-- Corresponding nodes head trees of one shape. -/
theorem shape_eq (hu : u ∈ f.subtrees) (hv : v ∈ g.subtrees) (hid : v.id = name u.id) :
    u.shape = v.shape :=
  h.answer_eq wf wf' Tree.nameless_shape hu hv hid

theorem isSimplifiable_eq (hu : u ∈ f.subtrees) (hv : v ∈ g.subtrees) (hid : v.id = name u.id) :
    u.isSimplifiable = v.isSimplifiable := by
  rw [← Tree.isSimplifiable_shape (wf.slotted hu), h.shape_eq wf wf' hu hv hid,
    Tree.isSimplifiable_shape (wf'.slotted hv)]

/-- Corresponding nodes have one text, and the spans recorded in it correspond. -/
theorem print_eq (hu : u ∈ f.subtrees) (hv : v ∈ g.subtrees) (hid : v.id = name u.id) :
    v.print = u.print.rename name := by
  refine related_of_image (R := fun u v => v.print = u.print.rename name) name
    (fun u hu v hv hid => .inr ⟨fun s => h.children_eq wf wf' hu hv hid s, fun hslots => ?_⟩)
    hu hv hid
  exact Tree.print_rename hid (h.kind_eq wf wf' hu hv hid) (wf.nodup_slots hu)
    (wf'.nodup_slots hv) hslots

/-! ## What lies above -/

theorem ancestors_eq (hn : n ∈ f.ids) : g.ancestors (name n) = (f.ancestors n).map name := by
  obtain ⟨t, ht, rfl⟩ := Forest.mem_ids.1 hn
  refine subtrees_induction (P := fun t => g.ancestors (name t.id) = (f.ancestors t.id).map name)
    (fun t ht => ?_) (fun t ht ih b hb => ?_) t ht
  · have hmem := id_mem_of_mem_subtrees (mem_subtrees_of_mem_trees ht)
    have hplace := wf.place?_root ht
    have hplace' := h.place t.id hmem
    rw [hplace] at hplace'
    rw [wf.ancestors_root hmem hplace, wf'.ancestors_root (h.mem_ids hmem) hplace']
    rfl
  · have hplace := wf.place?_branch ht hb
    have hplace' := h.place b.2.id (id_mem_of_mem_subtrees (child_mem_subtrees ht hb))
    rw [hplace] at hplace'
    rw [wf.ancestors_child hplace, wf'.ancestors_child hplace', ih]
    rfl

theorem depth_eq (hn : n ∈ f.ids) : g.depth (name n) = f.depth n := by
  rw [depth, h.ancestors_eq wf wf' hn, List.length_map]
  rfl

/-! ## Targets -/

/-- What is described alike in corresponding trees holds at corresponding nodes. -/
theorem holdsAt_eq {describes : Tree → Bool} (hn : n ∈ f.ids)
    (hdescribes : ∀ u ∈ f.subtrees, ∀ v ∈ g.subtrees, v.id = name u.id →
      describes u = describes v) :
    g.holdsAt describes (name n) = f.holdsAt describes n := by
  obtain ⟨u, hu, rfl⟩ := Forest.mem_ids.1 hn
  obtain ⟨v, hv, hid⟩ := h.exists_tree hu
  rw [← hid, wf.holdsAt_id hu, wf'.holdsAt_id hv, hdescribes u hu v hv hid]

theorem isExpression_holdsAt_eq (hn : n ∈ f.ids) :
    g.holdsAt (·.isExpression) (name n) = f.holdsAt (·.isExpression) n :=
  h.holdsAt_eq wf wf' hn fun u hu v hv hid => by
    rw [Tree.isExpression, Tree.isExpression, h.kind_eq wf wf' hu hv hid]

theorem isSimplifiable_holdsAt_eq (hn : n ∈ f.ids) :
    g.holdsAt (·.isSimplifiable) (name n) = f.holdsAt (·.isSimplifiable) n :=
  h.holdsAt_eq wf wf' hn fun _ hu _ hv hid => h.isSimplifiable_eq wf wf' hu hv hid

theorem climbs (hn : n ∈ f.ids) (climbs : f.Climbs n chain) :
    g.Climbs (name n) (chain.map name) := by
  induction climbs with
  | stop other => exact .stop ((h.isExpression_holdsAt_eq wf wf' hn).trans other)
  | root expression place =>
    refine .root ((h.isExpression_holdsAt_eq wf wf' hn).trans expression) ?_
    rw [h.place _ hn, place]
    rfl
  | @up n p s above expression place _ ih =>
    refine .up ((h.isExpression_holdsAt_eq wf wf' hn).trans expression) (s := s) ?_
      (ih (wf.parent_mem_ids_of_place? place))
    rw [h.place _ hn, place]
    rfl

theorem surrounds (hn : n ∈ f.ids) (surrounds : f.Surrounds chain n) :
    g.Surrounds (chain.map name) (name n) := by
  induction surrounds with
  | here expression climbs =>
    exact .here ((h.isExpression_holdsAt_eq wf wf' hn).trans expression) (h.climbs wf wf' hn climbs)
  | nowhere other place =>
    refine .nowhere ((h.isExpression_holdsAt_eq wf wf' hn).trans other) ?_
    rw [h.place _ hn, place]
    rfl
  | @above n p s chain other place _ ih =>
    refine .above ((h.isExpression_holdsAt_eq wf wf' hn).trans other) (s := s) ?_
      (ih (wf.parent_mem_ids_of_place? place))
    rw [h.place _ hn, place]
    rfl

/-- What is found to be simplified around corresponding nodes corresponds. -/
theorem target?_eq (hn : n ∈ f.ids) : g.target? (name n) = (f.target? n).map name := by
  obtain ⟨t, ht, rfl⟩ := Forest.mem_ids.1 hn
  have surrounds := wf.surrounds_region ht
  have surrounds' := h.surrounds wf wf' hn surrounds
  have hn' := h.mem_ids hn
  obtain ⟨top, htop, climbs⟩ := surrounds.exists_climbs wf hn
  have hids {k : NodeId} (hk : k ∈ (f.region t.id).map (·.id)) : k ∈ f.ids :=
    (wf.mem_ids_of_mem_ancestors
      (climbs.mem_ancestors wf (wf.mem_ids_of_mem_ancestors htop).2 hk)).2
  cases htarget : f.target? t.id with
  | none =>
    refine (wf'.target?_eq_none_iff hn' surrounds').2 (List.forall_mem_map.2 fun k hk => ?_)
    rw [h.isSimplifiable_holdsAt_eq wf wf' (hids hk)]
    exact (wf.target?_eq_none_iff hn surrounds).1 htarget k hk
  | some m =>
    obtain ⟨inner, outer, heq, hm, houter⟩ := (wf.target?_eq_some_iff hn surrounds).1 htarget
    have hmem {k : NodeId} (hk : k ∈ m :: outer) : k ∈ f.ids :=
      hids (heq ▸ List.mem_append_right inner hk)
    refine (wf'.target?_eq_some_iff hn' surrounds').2
      ⟨inner.map name, outer.map name, ?_, ?_, List.forall_mem_map.2 fun k hk => ?_⟩
    · rw [heq, List.map_append, List.map_cons]
    · rw [h.isSimplifiable_holdsAt_eq wf wf' (hmem (List.mem_cons_self ..)), hm]
    · rw [h.isSimplifiable_holdsAt_eq wf wf' (hmem (List.mem_cons_of_mem m hk)), houter k hk]

/-! ## The root -/

theorem roots_perm : (f.roots.map name).Perm g.roots := by
  have hroots := h.bijOn_roots wf wf'
  refine (List.perm_ext_iff_of_nodup ?_ wf'.nodup_roots).2 fun m => ?_
  · exact wf.nodup_roots.map_on fun a ha b hb heq => hroots.injOn ha hb heq
  · rw [List.mem_map]
    exact ⟨fun ⟨n, hn, heq⟩ => heq ▸ hroots.mapsTo hn, fun hm => hroots.surjOn hm⟩

/-- If one forest has a unique root, so has the other, and the roots correspond. -/
theorem root?_eq : g.root? = f.root?.map name := by
  have hperm := h.roots_perm wf wf'
  have hsome (n : NodeId) : g.root? = some n ↔ f.root?.map name = some n := by
    rw [root?_eq_some_iff, Option.map_eq_some_iff]
    constructor
    · intro hroots
      rw [hroots] at hperm
      obtain ⟨m, hm, rfl⟩ := List.map_eq_singleton_iff.1 (List.perm_singleton.1 hperm)
      exact ⟨m, root?_eq_some_iff.2 hm, rfl⟩
    · rintro ⟨m, hm, rfl⟩
      rw [root?_eq_some_iff.1 hm] at hperm
      exact (List.singleton_perm.1 hperm).symm
  exact Option.ext hsome

/-! ## Carets -/

/-- Carets point at corresponding nodes, wherever all that is recorded is there. -/
theorem elementAt_eq (hspans : ∀ c ∈ spans, c.node ∈ f.ids) (offset : Int) :
    ∃ found, f.elementAt spans offset = .ok found ∧
      g.elementAt (spans.map (.rename name)) offset = .ok (found.map name) := by
  have hids : ∀ n ∈ pointedAt spans offset, n ∈ f.ids := by
    intro n hn
    obtain ⟨c, hc, rfl, -⟩ := mem_pointedAt hn
    exact hspans c hc
  have hids' : ∀ m ∈ (pointedAt spans offset).map name, m ∈ g.ids :=
    List.forall_mem_map.2 fun n hn => h.mem_ids (hids n hn)
  refine ⟨_, (Forest.elementAt_eq).trans (deepestOf_eq hids), ?_⟩
  have hdepths : ((pointedAt spans offset).map name).map (fun n => (n, g.depth n)) =
      ((pointedAt spans offset).map fun n => (n, f.depth n)).map fun a => (name a.1, a.2) := by
    rw [List.map_map, List.map_map]
    exact List.map_congr_left fun n hn => congrArg _ (h.depth_eq wf wf' (hids n hn))
  rw [Forest.elementAt_eq, pointedAt_rename, deepestOf_eq hids', hdepths, deepest?_rename]

end Renaming

end Forest

end ShortCircuit

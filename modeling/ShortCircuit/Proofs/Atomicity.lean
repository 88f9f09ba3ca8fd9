/-
  ShortCircuit.Proofs.Atomicity

  When one node can be put in the place of another, and what is left where it
  cannot.  Whatever the checks refuse leaves the forest as it is.  They let one
  thing pass that must fail, a root in the place of a node below it: it fails
  only when that node and all below it have gone.
-/

import ShortCircuit.Proofs.Applicability
import ShortCircuit.Proofs.Forest.Ancestry
import ShortCircuit.Proofs.Forest.Replacement

namespace ShortCircuit

open Failing

variable {f g : Forest} {s : Session} {t r : Tree} {a b n p : NodeId} {slot : Int}

namespace Forest

/-! ## Nodes above one another -/

/-- One node may be put in the place of another that it lies below, and so may a root in that of a
    node that does not lie below it. -/
def MayReplace (f : Forest) (a b : NodeId) : Prop :=
  a ∈ f.ids ∧ b ∈ f.ids ∧ a ≠ b ∧
    (a ∈ f.ancestors b ∨ f.place? b = none ∧ b ∉ f.ancestors a)

/-- The node `b` is the root of the tree of `a`, and not `a` itself. -/
def IsRootAbove (f : Forest) (a b : NodeId) : Prop :=
  a ≠ b ∧ f.place? b = none ∧ b ∈ f.ancestors a

instance (f : Forest) (a b : NodeId) : Decidable (f.MayReplace a b) :=
  inferInstanceAs (Decidable (_ ∧ _ ∧ _ ∧ _))

instance (f : Forest) (a b : NodeId) : Decidable (f.IsRootAbove a b) :=
  inferInstanceAs (Decidable (_ ∧ _ ∧ _))

namespace WellFormed

variable (wf : f.WellFormed)
include wf

theorem replaceable_of_mayReplace (ht : t ∈ f.subtrees) (hr : r ∈ f.subtrees)
    (h : f.MayReplace t.id r.id) : f.Replaceable t r := by
  obtain ⟨-, -, hne, hbelow | ⟨hroot, hout⟩⟩ := h
  · -- What lies below a node is a subtree of its tree.
    obtain ⟨u, hu, hid⟩ := Tree.mem_ids_iff_subtrees.1 ((wf.mem_ancestors_iff ht).1 hbelow)
    rw [wf.eq_of_id_eq (subtree_mem_subtrees hu ht) hr hid] at hu
    exact ⟨ht, hr, hne.symm, .inl hu⟩
  · refine ⟨ht, hr, hne.symm, .inr ⟨wf.mem_trees_iff.2 ⟨hr, hroot⟩, ?_⟩⟩
    rwa [wf.mem_ancestors_iff hr] at hout

/-- The root above a node may not be put in its place. -/
theorem not_mayReplace_of_isRootAbove (h : f.IsRootAbove a b) : ¬f.MayReplace a b := by
  obtain ⟨-, hroot, habove⟩ := h
  rintro ⟨ha, hb, hne, hbelow | ⟨-, hout⟩⟩
  · obtain ⟨t, ht, rfl⟩ := mem_ids.1 ha
    obtain ⟨r, hr, rfl⟩ := mem_ids.1 hb
    have htr := wf.eq_of_root_mem (wf.mem_trees_iff.2 ⟨hr, hroot⟩) ht
      ((wf.mem_ancestors_iff ht).1 hbelow)
    exact hne (congrArg Tree.id htr)
  · exact hout habove

/-! ## A root in the place of a node below it -/

/-- A place is that of one node. -/
theorem eq_of_place?_eq (ht : t ∈ f.subtrees) (hr : r ∈ f.subtrees)
    (htp : f.place? t.id = some (p, slot)) (hrp : f.place? r.id = some (p, slot)) : t = r := by
  obtain ⟨P, hP, rfl, -⟩ := wf.exists_branch_of_place? ht htp
  have hct := (wf.child?_eq_some_iff_place hP).2 ⟨ht, htp⟩
  have hcr := (wf.child?_eq_some_iff_place hP).2 ⟨hr, hrp⟩
  exact Option.some.inj (hct.symm.trans hcr)

section

variable (ht : t ∈ f.subtrees) (hg : f.remove t.id = .ok g)
include ht hg

theorem mem_ids_of_remove : n ∈ g.ids ↔ n ∈ f.ids ∧ n ∉ t.ids := by
  obtain ⟨g', heq, -, -, hrows⟩ := wf.remove ht
  rw [heq] at hg
  cases hg
  rw [mem_ids_iff_rows, mem_ids_iff_rows]
  refine ⟨?_, ?_⟩
  · rintro ⟨row, hrow, rfl⟩
    obtain ⟨hrow, hout⟩ := List.mem_filter.1 (hrows.mem_iff.1 hrow)
    exact ⟨⟨row, hrow, rfl⟩, of_decide_eq_true hout⟩
  · rintro ⟨⟨row, hrow, rfl⟩, hout⟩
    exact ⟨row, hrows.mem_iff.2 (List.mem_filter.2 ⟨hrow, decide_eq_true hout⟩), rfl⟩

/-- What is not removed stays where it is. -/
theorem place?_of_remove (hn : n ∈ g.ids) : g.place? n = f.place? n := by
  obtain ⟨row, hrow, rfl, hplace⟩ := (wf.of_remove hg).exists_row hn
  obtain ⟨g', heq, -, -, hrows⟩ := wf.remove ht
  rw [heq] at hg
  cases hg
  rw [← hplace, wf.place?_eq_some_of_row (List.mem_filter.1 (hrows.mem_iff.1 hrow)).1]

/-- The tree from which a node is removed is there still, without it. -/
theorem prune_mem_of_remove (hr : r ∈ f.trees) (hne : t.id ≠ r.id) :
    r.prune t.id ∈ g.trees := by
  have hr' := mem_subtrees_of_mem_trees hr
  obtain ⟨f', hdetach, -, -, -, hrows, hothers⟩ := wf.detach ht
  have wf' : f'.WellFormed := wf.of_detach hdetach
  -- In the forest in which the node has been taken off, what is left of the tree is a root.
  have hout : r ∉ t.subtrees := by
    intro hrt
    have hmem' : r.id ∈ t.ids := Tree.mem_ids_iff_subtrees.2 ⟨r, hrt, rfl⟩
    exact hne (congrArg Tree.id (wf.eq_of_root_mem hr ht hmem'))
  have hplace : f'.place? r.id = none := by
    rw [wf.place?_of_hang wf' hrows (id_mem_of_mem_subtrees hr'), if_neg hne.symm,
      wf.place?_root hr]
  have hpruned : r.prune t.id ∈ f'.trees :=
    wf'.mem_trees_iff.2 ⟨hothers r hr' hout, by rw [Tree.id_prune, hplace]⟩
  rw [Forest.remove, hdetach] at hg
  cases hg
  exact List.mem_filter.2 ⟨hpruned, by simpa using hne.symm⟩

end

/-- Hanging a root where a node below it hung is refused, since it would lead in a circle. -/
theorem attach_of_isRootAbove (ht : t ∈ f.subtrees) (hr : r ∈ f.trees) (hne : t.id ≠ r.id)
    (hmem : t.id ∈ r.ids) (hplace : f.place? t.id = some (p, slot)) (hg : f.remove t.id = .ok g) :
    g.attach p r.id slot = .error (.wouldCycle r.id p) := by
  have wf' := wf.of_remove hg
  have hpruned := wf.prune_mem_of_remove ht hg hr hne
  have hpruned' := mem_subtrees_of_mem_trees hpruned
  have hr' := mem_subtrees_of_mem_trees hr
  have hroot : (r.prune t.id).id = r.id := Tree.id_prune ..
  -- The parent is above the node that has gone, and in the tree of the root still.
  obtain ⟨P, hP, rfl, hb⟩ := wf.exists_branch_of_place? ht hplace
  have hPt : P.id ∉ t.ids := Tree.id_notMem_branch (wf.nodup_tree hP) hb
  have hPr : P.id ∈ (r.prune t.id).ids := by
    have htr : t ∈ r.subtrees := by
      obtain ⟨u, hu, hid⟩ := Tree.mem_ids_iff_subtrees.1 hmem
      rwa [wf.eq_of_id_eq (subtree_mem_subtrees hu hr') ht hid] at hu
    have hall := (Tree.ids_prune (wf.nodup_tree hr') htr hne.symm).mem_iff.1
      (wf.parent_mem_ids hr' hmem hne hplace)
    exact (List.mem_append.1 hall).resolve_right hPt
  obtain ⟨Q, hQ, hQP⟩ := mem_ids.1 (ids_subset_ids hpruned' hPr)
  have hfree : Q.child? slot = none := by
    cases hc : Q.child? slot with
    | none => rfl
    | some c =>
      -- Whatever hangs there would be the node that has gone.
      obtain ⟨hc', hcplace⟩ := (wf'.child?_eq_some_iff_place hQ).1 hc
      have hcmem := id_mem_of_mem_subtrees hc'
      obtain ⟨hcf, hct⟩ := (wf.mem_ids_of_remove ht hg).1 hcmem
      rw [wf.place?_of_remove ht hg hcmem, hQP] at hcplace
      obtain ⟨d, hd, hdc⟩ := mem_ids.1 hcf
      have hdt := wf.eq_of_place?_eq ht hd hplace (hdc ▸ hcplace)
      rw [← hdc, ← hdt] at hct
      exact absurd (Tree.id_mem_ids t) hct
  have hanc : r.id ∈ g.ancestors P.id := by
    rw [← hroot, wf'.mem_ancestors_iff hpruned']
    exact hPr
  rw [← hQP] at hanc ⊢
  rw [attach_eq, wf'.get_self hQ, ← hroot, wf'.get_self hpruned', wf'.place?_root hpruned, hroot]
  simp [hfree, hanc]

/-! ## Replacing -/

/-- The checks refuse whatever may not be done, but for one thing. -/
theorem check_of_not_mayReplace (ht : t ∈ f.subtrees) (hr : r ∈ f.subtrees)
    (hnot : ¬f.MayReplace t.id r.id) (hroot : ¬f.IsRootAbove t.id r.id) :
    ∃ fault, Edit.checkReplacement f t.id r.id = .error fault := by
  rw [Edit.checkReplacement, wf.get_self ht, wf.get_self hr]
  simp only [bind, Except.bind, pure, Except.pure, throw, throwThe, MonadExceptOf.throw]
  by_cases hid : r.id = t.id
  · rw [if_pos hid]
    exact ⟨_, rfl⟩
  · rw [if_neg hid]
    have hne : t.id ≠ r.id := fun h => hid h.symm
    -- What is refused hangs somewhere, and not below the node.
    have hbelow : t.id ∉ f.ancestors r.id := fun h =>
      hnot ⟨id_mem_of_mem_subtrees ht, id_mem_of_mem_subtrees hr, hne, .inl h⟩
    have hhangs : (f.place? r.id).isSome = true := by
      rw [Option.isSome_iff_ne_none]
      intro hnone
      by_cases habove : r.id ∈ f.ancestors t.id
      · exact hroot ⟨hne, hnone, habove⟩
      · exact hnot ⟨id_mem_of_mem_subtrees ht, id_mem_of_mem_subtrees hr, hne, .inr ⟨hnone, habove⟩⟩
    refine ⟨_, if_pos ?_⟩
    simpa [hhangs] using hbelow

/-- A root in the place of a node below it passes the checks, and fails when the node has gone. -/
theorem replace_of_isRootAbove (ht : t ∈ f.subtrees) (hr : r ∈ f.trees)
    (h : f.IsRootAbove t.id r.id) :
    ∃ p slot g, f.place? t.id = some (p, slot) ∧ f.remove t.id = .ok g ∧
      Edit.replace t.id r.id f = (.error (.wouldCycle r.id p), g) := by
  obtain ⟨hne, hnone, habove⟩ := h
  have hr' := mem_subtrees_of_mem_trees hr
  have hmem : t.id ∈ r.ids := (wf.mem_ancestors_iff hr').1 habove
  -- The node hangs somewhere, or it would be the root.
  obtain ⟨⟨p, slot⟩, hplace⟩ : ∃ place, f.place? t.id = some place := by
    rw [← Option.isSome_iff_exists, Option.isSome_iff_ne_none]
    intro hroot
    have hrt := wf.eq_of_root_mem (wf.mem_trees_iff.2 ⟨ht, hroot⟩) hr' hmem
    exact hne (congrArg Tree.id hrt).symm
  obtain ⟨f₁, hdetach, -, hroot₁, -⟩ := wf.detach ht
  obtain ⟨f₂, hsame, -, -, hf₂, -⟩ := wf.detach hr'
  obtain ⟨g, hg, -⟩ := wf.remove ht
  -- To remove the node when it has been taken off comes to the same.
  have hremove : f₁.remove t.id = .ok g := by
    have wf₁ := wf.of_detach hdetach
    obtain ⟨f₃, hdetach₁, -, -, hf₃, -⟩ := wf₁.detach (mem_subtrees_of_mem_trees hroot₁)
    rw [Forest.remove, hdetach₁, hf₃ hroot₁, ← hg, Forest.remove, hdetach]
    rfl
  refine ⟨p, slot, g, hplace, hg, ?_⟩
  have hask : Edit.ask (fun f => Edit.checkReplacement f t.id r.id) f = (.ok (), f) := by
    rw [Edit.ask, Edit.checkReplacement, wf.get_self ht, wf.get_self hr', hnone]
    simp only [bind, Except.bind, pure, Except.pure, if_neg hne.symm]
    rfl
  have hd₁ : Edit.detach r.id f = (.ok none, f) := by
    rw [Edit.detach, Edit.step, hsame, hf₂ hr, hnone]
  have hd₂ : Edit.detach t.id f = (.ok (some (p, slot)), f₁) := by
    rw [Edit.detach, Edit.step, hdetach, hplace]
  have hd₃ : Edit.remove t.id f₁ = (.ok (), g) := edit_of_remove hremove
  rw [Edit.replace, bind_of_ok hask, bind_of_ok hd₁, bind_of_ok hd₂, bind_of_ok hd₃]
  show Edit.attach p r.id slot g = _
  rw [Edit.attach, Edit.step, wf.attach_of_isRootAbove ht hr hne hmem hplace hg]
  rfl

/-- What comes of putting one node in the place of another. -/
theorem replace_cases (ha : a ∈ f.ids) (hb : b ∈ f.ids) :
    (f.MayReplace a b ∧ ∃ g, Edit.replace a b f = (.ok (), g)) ∨
      (¬f.MayReplace a b ∧ ¬f.IsRootAbove a b ∧
        ∃ fault, Edit.replace a b f = (.error fault, f)) ∨
      f.IsRootAbove a b ∧ ∃ p slot g, f.place? a = some (p, slot) ∧ f.remove a = .ok g ∧
        Edit.replace a b f = (.error (.wouldCycle b p), g) := by
  obtain ⟨t, ht, rfl⟩ := mem_ids.1 ha
  obtain ⟨r, hr, rfl⟩ := mem_ids.1 hb
  by_cases hmay : f.MayReplace t.id r.id
  · obtain ⟨g, heq, -⟩ := wf.replace (wf.replaceable_of_mayReplace ht hr hmay)
    exact .inl ⟨hmay, g, heq⟩
  · by_cases habove : f.IsRootAbove t.id r.id
    · have hroot := wf.mem_trees_iff.2 ⟨hr, habove.2.1⟩
      exact .inr (.inr ⟨habove, wf.replace_of_isRootAbove ht hroot habove⟩)
    · obtain ⟨fault, hcheck⟩ := wf.check_of_not_mayReplace ht hr hmay habove
      refine .inr (.inl ⟨hmay, habove, fault, ?_⟩)
      have hask : Edit.ask (fun f => Edit.checkReplacement f t.id r.id) f = (.error fault, f) := by
        rw [Edit.ask, hcheck]
      rw [Edit.replace, bind_of_error hask]

end WellFormed

end Forest

/-! ## Requests -/

namespace Session

/-- The request comes to what the edit comes to. -/
theorem replace_of_eq (wf : s.forest.WellFormed) (ha : a ∈ s.forest.ids) (hb : b ∈ s.forest.ids)
    {outcome : Except Fault Unit} (h : Edit.replace a b s.forest = (outcome, g)) :
    replace (some a) (some b) s = (outcome, { s with forest := g }) := by
  obtain ⟨t, ht, rfl⟩ := Forest.mem_ids.1 ha
  obtain ⟨r, hr, rfl⟩ := Forest.mem_ids.1 hb
  rw [replace, bind_of_ok (ask_named wf ht), bind_of_ok (ask_named wf hr)]
  exact perform_of_eq (Simplify.edit_of_eq h)

/-- Nothing is done with a node that is not there. -/
theorem replace_unknown (wf : s.forest.WellFormed) (h : ¬(a ∈ s.forest.ids ∧ b ∈ s.forest.ids)) :
    ∃ fault, replace (some a) (some b) s = (.error fault, s) := by
  by_cases ha : a ∈ s.forest.ids
  · obtain ⟨t, ht, rfl⟩ := Forest.mem_ids.1 ha
    have hb : b ∉ s.forest.ids := fun hb => h ⟨ha, hb⟩
    refine ⟨.unknownNode b, ?_⟩
    rw [replace, bind_of_ok (ask_named wf ht), bind_of_error (ask_unknown hb)]
  · exact ⟨.unknownNode a, by rw [replace, bind_of_error (ask_unknown ha)]⟩

/-- Putting one node of a reachable forest in the place of another fails exactly where it may not
    be done.  It leaves the session as it was then, unless it was a root that was to stand in the
    place of a node below it: that node has been removed. -/
theorem replace_fails_iff (reachable : s.forest.Reachable) (a b : NodeId) :
    ∃ outcome s', replace (some a) (some b) s = (outcome, s') ∧
      (outcome = .ok () ↔ s.forest.MayReplace a b) ∧
      (¬s.forest.MayReplace a b → ¬s.forest.IsRootAbove a b → s' = s) ∧
      (s.forest.IsRootAbove a b → ∃ p slot g, s.forest.place? a = some (p, slot) ∧
        s.forest.remove a = .ok g ∧ outcome = .error (.wouldCycle b p) ∧
        s' = { s with forest := g }) := by
  have wf := reachable.wellFormed
  by_cases hids : a ∈ s.forest.ids ∧ b ∈ s.forest.ids
  · obtain ⟨ha, hb⟩ := hids
    rcases wf.replace_cases ha hb with ⟨hmay, g, heq⟩ | ⟨hnot, hroot, fault, heq⟩ |
      ⟨hroot, p, slot, g, hplace, hg, heq⟩
    · refine ⟨_, _, replace_of_eq wf ha hb heq, ?_, fun h => absurd hmay h, fun h => ?_⟩
      · exact ⟨fun _ => hmay, fun _ => rfl⟩
      · exact absurd hmay (wf.not_mayReplace_of_isRootAbove h)
    · refine ⟨_, _, replace_of_eq wf ha hb heq, ?_, fun _ _ => rfl, fun h => ?_⟩
      · exact ⟨fun h => (nomatch h), fun h => absurd h hnot⟩
      · exact absurd h hroot
    · refine ⟨_, _, replace_of_eq wf ha hb heq, ?_, fun _ h => absurd hroot h, fun _ => ?_⟩
      · exact ⟨fun h => (nomatch h), fun h => absurd h (wf.not_mayReplace_of_isRootAbove hroot)⟩
      · exact ⟨p, slot, g, hplace, hg, rfl, rfl⟩
  · obtain ⟨fault, heq⟩ := replace_unknown wf hids
    refine ⟨_, _, heq, ?_, fun _ _ => rfl, fun h => ?_⟩
    · exact ⟨fun h => (nomatch h), fun h => absurd ⟨h.1, h.2.1⟩ hids⟩
    · exact absurd (wf.mem_ids_of_mem_ancestors h.2.2) hids

/-- A node in parentheses, and the parentheses, which are node 1. -/
def enclosed : Session :=
  (start .debug).after [.build [.fresh .paren [.fresh .unit []]]]

theorem replace_fails_iff_enclosed :
    enclosed.forest.IsRootAbove 0 1 ∧ ∃ s',
      replace (some 0) (some 1) enclosed = (.error (.wouldCycle 1 1), s') ∧
        enclosed.forest.remove 0 = .ok s'.forest := by
  have habove : enclosed.forest.IsRootAbove 0 1 := by decide
  have hplace : enclosed.forest.place? 0 = some (1, 0) := by decide
  obtain ⟨outcome, s', heq, -, -, hroot⟩ := replace_fails_iff (s := enclosed) ⟨.debug, _, rfl⟩ 0 1
  obtain ⟨p, slot, g, hplace', hg, rfl, rfl⟩ := hroot habove
  rw [hplace] at hplace'
  cases hplace'
  exact ⟨habove, _, heq, hg⟩

/-- A replacement that fails does not always leave the nodes as they were. -/
theorem not_replace_atomic :
    ¬∀ s : Session, s.forest.Reachable → ∀ a b fault s',
      replace (some a) (some b) s = (.error fault, s') → s'.forest.ids = s.forest.ids := by
  intro h
  have hfails : replace (some 0) (some 1) enclosed =
      (.error (.wouldCycle 1 1), (replace (some 0) (some 1) enclosed).2) := rfl
  have hids := h enclosed ⟨.debug, _, rfl⟩ 0 1 _ _ hfails
  exact absurd hids (by decide)

end Session

end ShortCircuit

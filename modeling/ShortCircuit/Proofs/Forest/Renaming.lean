/-
  ShortCircuit.Proofs.Forest.Renaming

  Forests that differ in nothing but the names of their nodes and the order in
  which children and roots are listed.  Such a renaming comes about wherever the
  roots of two forests can be matched so that matched roots have one shape: from
  there it is continued slot by slot.
-/

import Mathlib.Data.Set.Function
import ShortCircuit.Proofs.Forest.Contractions
import ShortCircuit.Proofs.Tree.Shape

namespace ShortCircuit.Forest

variable {α : Type} {f g : Forest} {t u v : Tree} {n : NodeId} {s : Int}
  {name : NodeId → NodeId} {R : NodeId → NodeId → Prop} {D : Tree → α}

/-- A renaming of the nodes of a forest to those of another, which keeps kinds and places. -/
structure Renaming (f g : Forest) (name : NodeId → NodeId) : Prop where
  nodes : Set.BijOn name {n | n ∈ f.ids} {n | n ∈ g.ids}
  kind : ∀ n ∈ f.ids, (g.find? (name n)).map (·.kind) = (f.find? n).map (·.kind)
  place : ∀ n ∈ f.ids, g.place? (name n) = (f.place? n).map fun place => (name place.1, place.2)

namespace Renaming

/-- Every forest is a renaming of itself. -/
theorem refl (f : Forest) : f.Renaming f id where
  nodes := Set.bijOn_id _
  kind _ _ := rfl
  place n _ := by
    show f.place? n = (f.place? n).map id
    rw [Option.map_id, id]

variable (h : f.Renaming g name) (wf : f.WellFormed) (wf' : g.WellFormed)
include h

theorem mem_ids (hn : n ∈ f.ids) : name n ∈ g.ids := h.nodes.mapsTo hn

include wf wf'

/-- Roots are renamed to roots. -/
theorem bijOn_roots : Set.BijOn name {n | n ∈ f.roots} {n | n ∈ g.roots} := by
  refine ⟨fun n hn => ?_, fun n hn m hm heq => ?_, fun m hm => ?_⟩
  · obtain ⟨hmem, hplace⟩ := wf.mem_roots_iff.1 hn
    refine wf'.mem_roots_iff.2 ⟨h.mem_ids hmem, ?_⟩
    rw [h.place n hmem, hplace]
    rfl
  · exact h.nodes.injOn (wf.mem_roots_iff.1 hn).1 (wf.mem_roots_iff.1 hm).1 heq
  · obtain ⟨hmem, hplace⟩ := wf'.mem_roots_iff.1 hm
    obtain ⟨n, hn, rfl⟩ := h.nodes.surjOn hmem
    rw [h.place n hn, Option.map_eq_none_iff] at hplace
    exact ⟨n, wf.mem_roots_iff.2 ⟨hn, hplace⟩, rfl⟩

theorem kind_eq (hu : u ∈ f.subtrees) (hv : v ∈ g.subtrees) (hid : v.id = name u.id) :
    v.kind = u.kind := by
  have hkind := h.kind u.id (id_mem_of_mem_subtrees hu)
  rw [wf.find?_eq_some_iff.2 ⟨hu, rfl⟩, wf'.find?_eq_some_iff.2 ⟨hv, hid⟩] at hkind
  exact Option.some.inj hkind

/-- Long integers do not come from renaming. -/
theorem shortIntegers (short : f.ShortIntegers) : g.ShortIntegers := by
  intro v hv
  obtain ⟨n, hn, heq⟩ := h.nodes.surjOn (id_mem_of_mem_subtrees hv)
  obtain ⟨u, hu, rfl⟩ := Forest.mem_ids.1 hn
  rw [h.kind_eq wf wf' hu hv heq.symm]
  exact short u hu

/-- Children are renamed slot by slot. -/
theorem children_eq (hu : u ∈ f.subtrees) (hv : v ∈ g.subtrees) (hid : v.id = name u.id) (s : Int) :
    (u.child? s).map (fun c => name c.id) = (v.child? s).map (·.id) := by
  cases hc : u.child? s with
  | some c =>
    have hb := Tree.branch_of_child? hc
    have hc' := child_mem_subtrees hu hb
    obtain ⟨d, hd, hdc⟩ := Forest.mem_ids.1 (h.mem_ids (id_mem_of_mem_subtrees hc'))
    have hplace := h.place c.id (id_mem_of_mem_subtrees hc')
    rw [wf.place?_branch hu hb, ← hdc] at hplace
    have hplace' : g.place? d.id = some (v.id, s) := by
      rw [hplace, hid]
      rfl
    rw [(wf'.child?_eq_some_iff_place hv).2 ⟨hd, hplace'⟩]
    exact congrArg some hdc.symm
  | none =>
    cases hd : v.child? s with
    | none => rfl
    | some d =>
      -- What hangs there has been renamed, and its name before leads back to a child.
      have hb := Tree.branch_of_child? hd
      have hd' := child_mem_subtrees hv hb
      obtain ⟨m, hm, hmd⟩ := h.nodes.surjOn (id_mem_of_mem_subtrees hd')
      obtain ⟨c, hc', rfl⟩ := Forest.mem_ids.1 hm
      have hplace := h.place c.id hm
      rw [hmd, wf'.place?_branch hv hb, hid] at hplace
      obtain ⟨⟨p, slot⟩, hp, heq⟩ := Option.map_eq_some_iff.1 hplace.symm
      obtain ⟨w, hw, rfl, hbranch⟩ := wf.exists_branch_of_place? hc' hp
      have hwu : w = u := by
        refine wf.eq_of_id_eq hw hu ?_
        exact h.nodes.injOn (id_mem_of_mem_subtrees hw) (id_mem_of_mem_subtrees hu)
          (Prod.mk.inj heq).1
      subst hwu
      have hslot : slot = s := (Prod.mk.inj heq).2
      subst hslot
      rw [(wf.child?_eq_some_iff hw).2 hbranch] at hc
      cases hc

/-- Answers that depend neither on names nor on order are kept. -/
theorem answer_eq (hnameless : Tree.Nameless D) (hu : u ∈ f.subtrees) (hv : v ∈ g.subtrees)
    (hid : v.id = name u.id) : D u = D v := by
  refine answer_eq_of_image name (fun u hu v hv hid => .inr ⟨?_, fun hslots => ?_⟩) hu hv hid
  · exact fun s => h.children_eq wf wf' hu hv hid s
  · have hkind := h.kind_eq wf wf' hu hv hid
    exact hnameless u v hkind.symm (wf.nodup_slots hu) (wf'.nodup_slots hv) hslots

end Renaming

/-! ## Matched roots -/

/-- The roots of two forests, matched one to one, those that match being of one shape. -/
structure Matching (f g : Forest) (R : NodeId → NodeId → Prop) : Prop where
  forth : ∀ u ∈ f.trees, ∃ v ∈ g.trees, R u.id v.id
  back : ∀ v ∈ g.trees, ∃ u ∈ f.trees, R u.id v.id
  unique : ∀ {a b b'}, R a b → R a b' → b = b'
  unique' : ∀ {a a' b}, R a b → R a' b → a = a'
  shape : ∀ u ∈ f.trees, ∀ v ∈ g.trees, R u.id v.id → u.shape = v.shape

theorem Matching.symm (h : f.Matching g R) : g.Matching f (flip R) where
  forth := h.back
  back := h.forth
  unique := h.unique'
  unique' := h.unique
  shape u hu v hv hR := (h.shape v hv u hu hR).symm

/-- Nodes that are reached along the same slots from roots that match. -/
inductive Twins (f g : Forest) (R : NodeId → NodeId → Prop) : Tree → Tree → Prop
  | root {u v : Tree} (hu : u ∈ f.trees) (hv : v ∈ g.trees) (hR : R u.id v.id) : Twins f g R u v
  | child {u v c d : Tree} {s : Int} (twins : Twins f g R u v) (hc : u.child? s = some c)
    (hd : v.child? s = some d) : Twins f g R c d

namespace Twins

theorem symm (h : f.Twins g R u v) : g.Twins f (flip R) v u := by
  induction h with
  | root hu hv hR => exact .root hv hu hR
  | child _ hc hd ih => exact .child ih hd hc

theorem mem_left (h : f.Twins g R u v) : u ∈ f.subtrees := by
  induction h with
  | root hu => exact mem_subtrees_of_mem_trees hu
  | child _ hc _ ih => exact child_mem_subtrees ih (Tree.branch_of_child? hc)

theorem mem_right (h : f.Twins g R u v) : v ∈ g.subtrees := h.symm.mem_left

variable (matching : f.Matching g R) (wf : f.WellFormed) (wf' : g.WellFormed)
include matching wf wf'

theorem shape_eq (h : f.Twins g R u v) : u.shape = v.shape := by
  induction h with
  | root hu hv hR => exact matching.shape _ hu _ hv hR
  | @child u v c d s twins hc hd ih =>
    have hs := Tree.child?_of_shape_eq (wf.nodup_slots twins.mem_left)
      (wf'.nodup_slots twins.mem_right) ih s
    rw [hc, hd] at hs
    exact Option.some.inj hs

/-- No node has two twins. -/
theorem unique {v' : Tree} (h : f.Twins g R u v) (h' : f.Twins g R u v') : v = v' := by
  induction h generalizing v' with
  | @root u v hu hv hR =>
    cases h' with
    | root hu' hv' hR' =>
      have hid : v.id = v'.id := matching.unique hR hR'
      exact wf'.eq_of_id_eq (mem_subtrees_of_mem_trees hv) (mem_subtrees_of_mem_trees hv') hid
    | child twins hc hd =>
      have hplace := wf.place?_branch twins.mem_left (Tree.branch_of_child? hc)
      rw [wf.place?_root hu] at hplace
      cases hplace
  | @child u v c d s twins hc hd ih =>
    have hplace := wf.place?_branch twins.mem_left (Tree.branch_of_child? hc)
    cases h' with
    | root hu' hv' hR' =>
      rw [wf.place?_root hu'] at hplace
      cases hplace
    | @child u' w _ _ s' twins' hc' hd' =>
      have hplace' := wf.place?_branch twins'.mem_left (Tree.branch_of_child? hc')
      have heq := Option.some.inj (hplace.symm.trans hplace')
      have huu : u = u' := wf.eq_of_id_eq twins.mem_left twins'.mem_left (Prod.mk.inj heq).1
      have hss : s = s' := (Prod.mk.inj heq).2
      subst huu hss
      have hvw : v = w := ih twins'
      subst hvw
      exact Option.some.inj (hd.symm.trans hd')

/-- Every node has a twin. -/
theorem exists_right (hu : u ∈ f.subtrees) : ∃ v, f.Twins g R u v := by
  refine subtrees_induction (P := fun u => ∃ v, f.Twins g R u v) (fun u hu => ?_)
    (fun u hu hv b hb => ?_) u hu
  · obtain ⟨v, hv, hR⟩ := matching.forth u hu
    exact ⟨v, .root hu hv hR⟩
  · obtain ⟨v, twins⟩ := hv
    have hc : u.child? b.1 = some b.2 := (wf.child?_eq_some_iff hu).2 hb
    have hs := Tree.child?_of_shape_eq (wf.nodup_slots hu) (wf'.nodup_slots twins.mem_right)
      (twins.shape_eq matching wf wf') b.1
    rw [hc] at hs
    obtain ⟨d, hd, -⟩ := Option.map_eq_some_iff.1 hs.symm
    exact ⟨d, .child twins hc hd⟩

end Twins

/-- If roots match, the forests differ in names and order only. -/
theorem Matching.exists_renaming (matching : f.Matching g R) (wf : f.WellFormed)
    (wf' : g.WellFormed) :
    ∃ name, f.Renaming g name ∧ ∀ u ∈ f.trees, ∀ v ∈ g.trees, R u.id v.id → name u.id = v.id := by
  have hexists : ∀ n ∈ f.ids, ∃ m, ∃ u v, f.Twins g R u v ∧ u.id = n ∧ v.id = m := by
    intro n hn
    obtain ⟨u, hu, rfl⟩ := mem_ids.1 hn
    obtain ⟨v, twins⟩ := Twins.exists_right matching wf wf' hu
    exact ⟨v.id, u, v, twins, rfl, rfl⟩
  choose! name hname using hexists
  have hid {u v : Tree} (twins : f.Twins g R u v) : name u.id = v.id := by
    obtain ⟨u', v', twins', hu', hv'⟩ := hname u.id (id_mem_of_mem_subtrees twins.mem_left)
    -- The name was chosen for some twins of that name, and there are no others.
    have huu : u' = u := wf.eq_of_id_eq twins'.mem_left twins.mem_left hu'
    subst huu
    rw [twins.unique matching wf wf' twins', hv']
  have htwin {n : NodeId} (hn : n ∈ f.ids) : ∃ u v, f.Twins g R u v ∧ u.id = n ∧ v.id = name n :=
    hname n hn
  refine ⟨name, ⟨⟨fun n hn => ?_, fun n hn m hm heq => ?_, fun m hm => ?_⟩, fun n hn => ?_,
    fun n hn => ?_⟩, fun u hu v hv hR => hid (.root hu hv hR)⟩
  · obtain ⟨u, v, twins, -, hv⟩ := htwin hn
    exact hv ▸ id_mem_of_mem_subtrees twins.mem_right
  · -- Nodes of one new name have one twin, and a twin has one twin in turn.
    obtain ⟨u, v, twins, rfl, hv⟩ := htwin hn
    obtain ⟨u', v', twins', rfl, hv'⟩ := htwin hm
    have hvv : v = v' :=
      wf'.eq_of_id_eq twins.mem_right twins'.mem_right (hv.trans (heq.trans hv'.symm))
    subst hvv
    rw [twins.symm.unique matching.symm wf' wf twins'.symm]
  · -- Every node on the right is a twin, by the same argument the other way round.
    obtain ⟨v, hv, rfl⟩ := mem_ids.1 hm
    obtain ⟨u, twins⟩ := Twins.exists_right matching.symm wf' wf hv
    exact ⟨u.id, id_mem_of_mem_subtrees twins.mem_right, hid twins.symm⟩
  · -- Twins have one shape, hence one kind.
    obtain ⟨u, v, twins, rfl, hv⟩ := htwin hn
    have hkind : u.kind = v.kind := Tree.kind_of_shape_eq (twins.shape_eq matching wf wf')
    rw [wf.find?_eq_some_iff.2 ⟨twins.mem_left, rfl⟩,
      wf'.find?_eq_some_iff.2 ⟨twins.mem_right, hv⟩]
    exact congrArg some hkind.symm
  · -- They are roots both, or hang at the same slot of twins.
    obtain ⟨u, v, twins, rfl, hv⟩ := htwin hn
    rw [← hv]
    cases twins with
    | root hu hv' =>
      rw [wf.place?_root hu, wf'.place?_root hv']
      rfl
    | child twins hc hd =>
      rw [wf.place?_branch twins.mem_left (Tree.branch_of_child? hc),
        wf'.place?_branch twins.mem_right (Tree.branch_of_child? hd), ← hid twins]
      rfl

end ShortCircuit.Forest

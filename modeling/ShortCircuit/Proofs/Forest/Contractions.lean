/-
  ShortCircuit.Proofs.Forest.Contractions

  Contractions one after another.  Every root keeps its place, or hands it on to
  what it reduces to, so that after any number of contractions the roots of
  before have heirs, one each; and whatever a node gets from its slots stays as
  it was if no single contraction changes it.
-/

import Mathlib.Data.Set.Function
import ShortCircuit.Proofs.Forest.Answers
import ShortCircuit.Proofs.Tree.Printing

namespace ShortCircuit.Forest

variable {α : Type} {f g : Forest} {t u v r : Tree} {n : NodeId} {D : Tree → α}
  {heir : NodeId → NodeId}

/-- Who stands in the place of a node once `r` has taken that of `t`. -/
def moved (t r n : NodeId) : NodeId := if n = t then r else n

theorem moved_self (t r : NodeId) : moved t r t = r := if_pos rfl

theorem moved_of_ne {t : NodeId} (r : NodeId) (hn : n ≠ t) : moved t r n = n := if_neg hn

/-- No integer of the forest is too long to be written. -/
def ShortIntegers (f : Forest) : Prop := ∀ t ∈ f.subtrees, t.kind.isShort = true

instance (f : Forest) : Decidable f.ShortIntegers :=
  inferInstanceAs (Decidable (∀ t ∈ f.subtrees, t.kind.isShort = true))

/-! ## One reduction -/

namespace Reduced

variable (step : f.Reduced t r g) (wf : f.WellFormed) (wf' : g.WellFormed)
  (ht : t ∈ f.subtrees)
include step

/-- What takes the place of an expression was below it, or is new. -/
theorem heir_cases : r ∈ t.subtrees ∨ ∃ b, r = Tree.ofConstant f.next b := by
  obtain ⟨reduction, heir, replaced⟩ := step
  cases heir with
  | constant b => exact .inr ⟨b, rfl⟩
  | operand child => exact .inl (Tree.branch_mem_subtrees (Tree.branch_of_child? child))

theorem next_le : f.next ≤ g.next := by
  obtain ⟨reduction, heir, replaced⟩ := step
  rw [replaced.next]
  cases heir with
  | constant b =>
    show f.next ≤ f.next + 1
    exact Int.le_of_lt (Int.lt_add_one_of_le (Int.le_refl _))
  | operand child => exact Int.le_refl _

include wf ht

theorem heir_ne : r.id ≠ t.id := by
  obtain ⟨reduction, heir, replaced⟩ := step
  exact (wf.replaceable ht heir).ne

/-- The expression itself is gone. -/
theorem id_notMem : t.id ∉ g.ids := by
  have hout : t.id ∉ r.ids := by
    obtain ⟨reduction, heir, replaced⟩ := step
    exact (wf.replaceable ht heir).outside (wf.prepare _)
  rw [step.mem_ids_iff wf ht]
  rintro (⟨-, hnot⟩ | hr)
  · exact hnot (Tree.id_mem_ids t)
  · exact hout hr

/-- Names that had been handed out before belong to nodes that were there before. -/
theorem mem_ids_of_lt (hn : n ∈ g.ids) (hlt : n < f.next) : n ∈ f.ids := by
  rcases (step.mem_ids_iff wf ht).1 hn with ⟨hmem, -⟩ | hr
  · exact hmem
  · rcases step.heir_cases with hrt | ⟨b, rfl⟩
    · exact ids_subset_ids (subtree_mem_subtrees hrt ht) hr
    · have hid : n = f.next := List.mem_singleton.1 hr
      exact absurd hlt (hid ▸ Int.lt_irrefl _)

/-- What takes the place of an expression was no root before. -/
theorem heir_notMem_roots : r.id ∉ f.roots := by
  intro hroot
  rcases step.heir_cases with hr | ⟨b, rfl⟩
  · -- An operand is not a root, since it lies below the expression.
    obtain ⟨u, hu, hid⟩ := mem_roots.1 hroot
    have hur : u.id ∈ t.ids := hid ▸ Tree.mem_ids_iff_subtrees.2 ⟨r, hr, rfl⟩
    have htu : t = u := wf.eq_of_root_mem hu ht hur
    exact step.heir_ne wf ht (htu ▸ hid.symm)
  · exact wf.next_notMem (wf.mem_roots_iff.1 hroot).1

/-- A root that is not contracted stays a root. -/
theorem mem_roots_of_ne (wf' : g.WellFormed) (hn : n ∈ f.roots) (hne : n ≠ t.id) :
    n ∈ g.roots := by
  obtain ⟨hmem, hplace⟩ := wf.mem_roots_iff.1 hn
  -- A root lies below nothing else, so it is not among what is gone.
  have hout : n ∉ t.ids := fun hnt => hne ((wf.root_mem_ids_iff ht hn).1 hnt)
  have hkept : n ∈ g.ids := (step.mem_ids_iff wf ht).2 (.inl ⟨hmem, hout⟩)
  have hnr : n ≠ r.id := fun heq => step.heir_notMem_roots wf ht (heq ▸ hn)
  refine wf'.mem_roots_iff.2 ⟨hkept, ?_⟩
  rw [step.place?_eq wf wf' hkept, if_neg hnr, hplace]

/-- The roots keep their places, or hand them on. -/
theorem bijOn_roots (wf' : g.WellFormed) :
    Set.BijOn (moved t.id r.id) {n | n ∈ f.roots} {n | n ∈ g.roots} := by
  refine ⟨fun n hn => ?_, fun n hn m hm heq => ?_, fun n hn => ?_⟩
  · -- The heir of a root is a root: the expression's, or the root itself.
    show moved t.id r.id n ∈ g.roots
    by_cases hnt : n = t.id
    · obtain ⟨-, hplace⟩ := wf.mem_roots_iff.1 hn
      rw [hnt, moved_self, wf'.mem_roots_iff, step.place?_heir wf wf', ← hnt]
      exact ⟨id_mem_of_mem_subtrees step.mem, hplace⟩
    · rw [moved_of_ne _ hnt]
      exact step.mem_roots_of_ne wf ht wf' hn hnt
  · -- Two roots with one heir would be one root, as the heir of the expression was none before.
    have hout := step.heir_notMem_roots wf ht
    by_cases hnt : n = t.id
    · by_cases hmt : m = t.id
      · rw [hnt, hmt]
      · rw [hnt, moved_self, moved_of_ne _ hmt] at heq
        exact absurd (heq ▸ hm) hout
    · by_cases hmt : m = t.id
      · rw [hmt, moved_self, moved_of_ne _ hnt] at heq
        exact absurd (heq ▸ hn) hout
      · rwa [moved_of_ne _ hnt, moved_of_ne _ hmt] at heq
  · -- Every root has been a root before, or has come in the place of one.
    obtain ⟨hmem, hplace⟩ := wf'.mem_roots_iff.1 hn
    rw [step.place?_eq wf wf' hmem] at hplace
    by_cases hnr : n = r.id
    · rw [if_pos hnr] at hplace
      refine ⟨t.id, wf.mem_roots_iff.2 ⟨id_mem_of_mem_subtrees ht, hplace⟩, ?_⟩
      rw [moved_self, hnr]
    · rw [if_neg hnr] at hplace
      obtain ⟨u, hu, rfl⟩ := mem_ids.1 hmem
      obtain ⟨v, hv, hid, -⟩ := step.exists_origin wf ht wf' hu hnr
      have hold : u.id ∈ f.ids := hid ▸ id_mem_of_mem_subtrees hv
      refine ⟨u.id, wf.mem_roots_iff.2 ⟨hold, hplace⟩, ?_⟩
      exact moved_of_ne _ fun heq => step.id_notMem wf ht (heq ▸ hmem)

/-- Literals that are too long do not come from contractions. -/
theorem shortIntegers (wf' : g.WellFormed) (short : f.ShortIntegers) : g.ShortIntegers := by
  intro u hu
  by_cases hur : u.id = r.id
  · rw [wf'.eq_of_id_eq hu step.mem hur]
    rcases step.heir_cases with hr | ⟨b, rfl⟩
    · exact short r (subtree_mem_subtrees hr ht)
    · rfl
  · obtain ⟨v, hv, -, hkind, -⟩ := step.exists_origin wf ht wf' hu hur
    rw [← hkind]
    exact short v hv

/-- What takes the place of an expression is no other than the node of that name before. -/
theorem heir_eq_of_id_eq (hv : v ∈ f.subtrees) (hid : r.id = v.id) : r = v := by
  rcases step.heir_cases with hr | ⟨b, rfl⟩
  · exact wf.eq_of_id_eq (subtree_mem_subtrees hr ht) hv hid
  · have hnext : v.id = f.next := hid.symm
    exact absurd (hnext ▸ id_mem_of_mem_subtrees hv) wf.next_notMem

include wf' in
/-- Nodes that stay keep their answers, if the expression hands on its own. -/
theorem answer_eq_of_id_eq (hlocal : Tree.Local D) (hD : D r = D t) (hu : u ∈ g.subtrees)
    (hv : v ∈ f.subtrees) (hid : u.id = v.id) : D u = D v := by
  by_cases hur : u.id = r.id
  · rw [wf'.eq_of_id_eq hu step.mem hur,
      step.heir_eq_of_id_eq wf ht hv (hur.symm.trans hid)]
  · refine step.answer_eq wf wf' ht hlocal hD hu hv ?_
    rw [if_neg hur, hid]

include wf' in
/-- What stands in the place of a node has the answer that the node had. -/
theorem answer_eq_of_moved (hlocal : Tree.Local D) (hD : D r = D t) (hu : u ∈ g.subtrees)
    (hv : v ∈ f.subtrees) (hid : u.id = moved t.id r.id v.id) : D u = D v := by
  by_cases hvt : v.id = t.id
  · rw [hvt, moved_self] at hid
    rw [wf.eq_of_id_eq hv ht hvt, wf'.eq_of_id_eq hu step.mem hid, hD]
  · rw [moved_of_ne _ hvt] at hid
    exact step.answer_eq_of_id_eq wf wf' ht hlocal hD hu hv hid

end Reduced

/-! ## Many contractions -/

/-- Contractions one after another, with the heirs of the roots. -/
inductive Contractions (f : Forest) : Forest → (NodeId → NodeId) → Prop
  | refl : Contractions f f id
  | tail {g h : Forest} {t r : Tree} {heir : NodeId → NodeId} (steps : Contractions f g heir)
    (ht : t ∈ g.subtrees) (step : g.Contraction t r h) (wf : h.WellFormed) :
    Contractions f h (moved t.id r.id ∘ heir)

namespace Contractions

variable (steps : f.Contractions g heir) (wf : f.WellFormed)
include steps

theorem next_le : f.next ≤ g.next := by
  induction steps with
  | refl => exact Int.le_refl _
  | tail _ _ step _ ih => exact Int.le_trans ih step.reduced.next_le

include wf

theorem wellFormed : g.WellFormed := by
  cases steps with
  | refl => exact wf
  | tail _ _ _ wf => exact wf

theorem shortIntegers (short : f.ShortIntegers) : g.ShortIntegers := by
  induction steps with
  | refl => exact short
  | tail steps ht step wf' ih => exact step.reduced.shortIntegers (steps.wellFormed wf) ht wf' ih

/-- The roots of before have heirs that are the roots of afterwards. -/
theorem bijOn_roots : Set.BijOn heir {n | n ∈ f.roots} {n | n ∈ g.roots} := by
  induction steps with
  | refl => exact Set.bijOn_id _
  | tail steps ht step wf' ih =>
    exact (step.reduced.bijOn_roots (steps.wellFormed wf) ht wf').comp ih

/-- What every contraction of a forest of some sort leaves as it is, many leave as it is: the
    answers of nodes that stay, and of those that stand where the roots stood. -/
theorem answer_eq (hlocal : Tree.Local D) {P : Forest → Prop} (hf : P f)
    (hstep : ∀ {g h t r}, g.WellFormed → h.WellFormed → P g → t ∈ g.subtrees →
      g.Contraction t r h → P h ∧ D r = D t) :
    P g ∧ (∀ u ∈ g.subtrees, ∀ v ∈ f.subtrees, u.id = v.id → D u = D v) ∧
      ∀ u ∈ g.subtrees, ∀ v ∈ f.trees, u.id = heir v.id → D u = D v := by
  induction steps with
  | refl =>
    have hsame : ∀ u ∈ f.subtrees, ∀ v ∈ f.subtrees, u.id = v.id → D u = D v :=
      fun u hu v hv hid => congrArg D (wf.eq_of_id_eq hu hv hid)
    exact ⟨hf, hsame, fun u hu v hv => hsame u hu v (mem_subtrees_of_mem_trees hv)⟩
  | @tail g h t r heir steps ht step wf' ih =>
    obtain ⟨hg, hkept, hheirs⟩ := ih
    have wfg := steps.wellFormed wf
    obtain ⟨hh, hD⟩ := hstep wfg wf' hg ht step
    refine ⟨hh, fun u hu v hv hid => ?_, fun u hu v hv hid => ?_⟩
    · -- A name that is old enough was there all the time.
      have hlt : u.id < g.next := by
        rw [hid]
        exact Int.lt_of_lt_of_le (wf.lt_next (id_mem_of_mem_subtrees hv)) steps.next_le
      obtain ⟨o, ho, hou⟩ := mem_ids.1
        (step.reduced.mem_ids_of_lt wfg ht (id_mem_of_mem_subtrees hu) hlt)
      rw [step.reduced.answer_eq_of_id_eq wfg wf' ht hlocal hD hu ho hou.symm]
      exact hkept o ho v hv (hou.trans hid)
    · -- The heir so far is a root, and hands its place on, or keeps it.
      have hroot : heir v.id ∈ g.roots :=
        (steps.bijOn_roots wf).mapsTo (mem_roots.2 ⟨v, hv, rfl⟩)
      obtain ⟨o, ho, hov⟩ := mem_roots.1 hroot
      have ho' := mem_subtrees_of_mem_trees ho
      have hmoved : u.id = moved t.id r.id o.id := by rw [hov]; exact hid
      rw [step.reduced.answer_eq_of_moved wfg wf' ht hlocal hD hu ho' hmoved]
      exact hheirs o ho' v hv hov

end Contractions

end ShortCircuit.Forest

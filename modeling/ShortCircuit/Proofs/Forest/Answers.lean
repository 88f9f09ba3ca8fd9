/-
  ShortCircuit.Proofs.Forest.Answers

  Answers that a node gets from what stands at its slots, whatever the order in
  which it was attached.  If two forests correspond, node by node and slot by
  slot, such answers are the same; so a contraction leaves them alone where what
  has come to another place has the answer that was there before.
-/

import ShortCircuit.Proofs.Forest.Contraction

namespace ShortCircuit

variable {α : Type} {f g : Forest} {t u v r : Tree} {D : Tree → α}

/-! ## Answers at slots -/

/-- An answer that depends on nothing but the name of a node, its kind, and the answers for the
    children at its slots. -/
def Tree.Local (D : Tree → α) : Prop :=
  ∀ u v : Tree, u.id = v.id → u.kind = v.kind → (u.branches.map (·.1)).Nodup →
    (v.branches.map (·.1)).Nodup → (∀ s, (u.child? s).map D = (v.child? s).map D) → D u = D v

/-- An answer that does not depend on the name either. -/
def Tree.Nameless (D : Tree → α) : Prop :=
  ∀ u v : Tree, u.kind = v.kind → (u.branches.map (·.1)).Nodup → (v.branches.map (·.1)).Nodup →
    (∀ s, (u.child? s).map D = (v.child? s).map D) → D u = D v

theorem Tree.Nameless.local (h : Tree.Nameless D) : Tree.Local D :=
  fun u v _ hkind hu hv hchildren => h u v hkind hu hv hchildren

namespace Forest

/-! ## Corresponding forests -/

/-- Nodes that correspond are related, if each two of them are for some other reason, or because
    their children correspond, slot by slot, and related children relate them. -/
theorem related_of_image {R : Tree → Tree → Prop} (image : NodeId → NodeId)
    (h : ∀ u ∈ g.subtrees, ∀ v ∈ f.subtrees, v.id = image u.id → R u v ∨
      (∀ s, (u.child? s).map (fun c => image c.id) = (v.child? s).map (·.id)) ∧
        ((∀ s, Option.Rel R (u.child? s) (v.child? s)) → R u v))
    (hu : u ∈ g.subtrees) (hv : v ∈ f.subtrees) (hid : v.id = image u.id) : R u v := by
  induction u using Tree.induction generalizing v with
  | node id kind branches ih =>
    -- Children that correspond are related by induction, slot by slot.
    rcases h _ hu v hv hid with hR | ⟨hchildren, hstep⟩
    · exact hR
    · refine hstep fun s => ?_
      have hs := hchildren s
      cases hc : (Tree.node id kind branches).child? s with
      | none =>
        rw [hc] at hs
        rw [Option.map_eq_none_iff.1 hs.symm]
        exact .none
      | some c =>
        rw [hc] at hs
        obtain ⟨d, hd, hcd⟩ := Option.map_eq_some_iff.1 hs.symm
        have hb := Tree.branch_of_child? hc
        have hc' : c ∈ g.subtrees := child_mem_subtrees hu hb
        have hd' : d ∈ f.subtrees := child_mem_subtrees hv (Tree.branch_of_child? hd)
        rw [hd]
        exact .some (ih (s, c) hb hc' hd' hcd)

/-- Answers are the same along a correspondence of nodes, if each node has the same answer for
    some other reason, or gets it from children that correspond slot by slot. -/
theorem answer_eq_of_image (image : NodeId → NodeId)
    (h : ∀ u ∈ g.subtrees, ∀ v ∈ f.subtrees, v.id = image u.id → D u = D v ∨
      (∀ s, (u.child? s).map (fun c => image c.id) = (v.child? s).map (·.id)) ∧
        ((∀ s, (u.child? s).map D = (v.child? s).map D) → D u = D v))
    (hu : u ∈ g.subtrees) (hv : v ∈ f.subtrees) (hid : v.id = image u.id) : D u = D v := by
  refine related_of_image (R := fun u v => D u = D v) image (fun u hu v hv hid => ?_) hu hv hid
  refine (h u hu v hv hid).imp_right fun ⟨hchildren, hstep⟩ => ⟨hchildren, fun hrel => ?_⟩
  exact hstep fun s => map_eq_of_rel (hrel s) fun _ _ h => h

/-- A reduction that puts a node with the same answer in the place of another leaves all answers
    as they were. -/
theorem Reduced.answer_eq (h : f.Reduced t r g) (wf : f.WellFormed) (wf' : g.WellFormed)
    (ht : t ∈ f.subtrees) (hlocal : Tree.Local D) (hD : D r = D t) (hu : u ∈ g.subtrees)
    (hv : v ∈ f.subtrees) (hid : v.id = if u.id = r.id then t.id else u.id) : D u = D v := by
  refine answer_eq_of_image (fun n => if n = r.id then t.id else n) ?_ hu hv hid
  intro u hu v hv hid
  by_cases hur : u.id = r.id
  · rw [if_pos hur] at hid
    rw [wf'.eq_of_id_eq hu h.mem hur, wf.eq_of_id_eq hv ht hid]
    exact .inl hD
  · rw [if_neg hur] at hid
    obtain ⟨o, ho, hoid, hkind, hchildren⟩ := h.exists_origin wf ht wf' hu hur
    rw [wf.eq_of_id_eq ho hv (hoid.trans hid.symm)] at hkind hchildren
    refine .inr ⟨hchildren, fun hslots => ?_⟩
    exact hlocal u v hid.symm hkind.symm (wf'.nodup_slots hu) (wf.nodup_slots hv) hslots

end Forest

end ShortCircuit

/-
  ShortCircuit.Proofs.Forest.Contraction

  One simplification of a forest: an expression that a rule applies to gives its
  place to what it reduces to, one of its operands or a new literal.
-/

import ShortCircuit.Proofs.Forest.Replacement
import ShortCircuit.Proofs.Forest.Target

namespace ShortCircuit

variable {f g : Forest} {t u r : Tree} {reduction : Reduction} {n p : NodeId} {s : Int} {b : Bool}

namespace Tree

/-- The literal that a constant is put down as. -/
def ofConstant (n : NodeId) (b : Bool) : Tree := node n (.literal (.bool b)) []

/-- The tree that an expression reduces to, if the next name to be handed out is given. -/
inductive Heir (t : Tree) (next : NodeId) : Reduction → Tree → Prop
  | constant (b : Bool) : Heir t next (.constant b) (ofConstant next b)
  | operand {s : Int} {r : Tree} (child : t.child? s = some r) : Heir t next (.operand r.id) r

/-- What an expression reduces to is there. -/
theorem exists_heir (h : t.reduction = .ok reduction) (next : NodeId) :
    ∃ r, t.Heir next reduction r := by
  unfold Tree.reduction at h
  split at h
  · cases h
    exact ⟨_, .constant _⟩
  · split at h
    · cases h
    · split at h
      · rename_i left right hleft hright
        unfold joinReduction at h
        split at h
        · -- The left operand is known, so the right one is left.
          split at h
          · cases h
            exact ⟨_, .operand hright⟩
          · cases h
        · split at h
          · cases h
            exact ⟨_, .operand hleft⟩
          · split at h
            · cases h
              exact ⟨_, .constant _⟩
            · cases h
      · cases h

theorem Heir.eq_of_constant {next : NodeId} (heir : t.Heir next (.constant b) r) :
    r = ofConstant next b := by
  cases heir
  rfl

/-- Where names are distinct, an operand is known by its name. -/
theorem Heir.eq_of_operand {next : NodeId} (heir : t.Heir next (.operand u.id) r)
    (nodup : t.ids.Nodup) (hu : t.child? s = some u) : r = u := by
  generalize hn : u.id = n at heir
  cases heir with
  | operand child =>
    have hr : r ∈ t.subtrees := branch_mem_subtrees (branch_of_child? child)
    have hu' : u ∈ t.subtrees := branch_mem_subtrees (branch_of_child? hu)
    exact eq_of_id_eq nodup hr hu' hn.symm

/-- Something stands at the left of whatever a rule applies to. -/
theorem Rule.exists_left (rule : t.Rule reduction) : ∃ l, t.child? 0 = some l := by
  cases rule with
  | constant notLiteral value => exact exists_left_of_known notLiteral value
  | right neutral left => exact ⟨_, left⟩
  | left neutral left => exact ⟨_, left⟩
  | decided neutral left => exact ⟨_, left⟩

theorem size_lt_of_branch {b : Int × Tree} (hb : b ∈ t.branches) : b.2.size < t.size := by
  rw [size_eq_length_ids, size_eq_length_ids, ids_eq t, List.length_cons]
  obtain ⟨l, r, heq⟩ := List.append_of_mem hb
  rw [heq, List.flatMap_append, List.flatMap_cons, List.length_append, List.length_append]
  omega

theorem size_pos (t : Tree) : 0 < t.size := by
  rw [size_eq_length_ids, ids_eq, List.length_cons]
  omega

/-- What an expression reduces to is smaller. -/
theorem Heir.size_lt {next : NodeId} (heir : t.Heir next reduction r) (rule : t.Rule reduction) :
    r.size < t.size := by
  cases heir with
  | constant b =>
    -- A constant is one node, and below the expression there is a left operand at least.
    obtain ⟨l, hl⟩ := rule.exists_left
    have hlt : l.size < t.size := size_lt_of_branch (branch_of_child? hl)
    have hpos : 0 < l.size := l.size_pos
    show 1 < t.size
    omega
  | operand child => exact size_lt_of_branch (branch_of_child? child)

end Tree

namespace Forest

/-! ## Room for a constant -/

/-- The forest with the literal in it that a reduction asks for. -/
def prepare (f : Forest) : Reduction → Forest
  | .constant b => (f.plant (.literal (.bool b))).2
  | .operand _ => f

theorem mem_subtrees_plant {kind : Kind} :
    u ∈ (f.plant kind).2.subtrees ↔ u ∈ f.subtrees ∨ u = .node f.next kind [] := by
  simp [plant, subtrees, Tree.subtrees_node]

theorem mem_subtrees_prepare (ht : u ∈ f.subtrees) (reduction : Reduction) :
    u ∈ (f.prepare reduction).subtrees := by
  cases reduction with
  | constant b => exact mem_subtrees_plant.2 (.inl ht)
  | operand n => exact ht

theorem place?_plant (f : Forest) (kind : Kind) (n : NodeId) :
    (f.plant kind).2.place? n = f.place? n := by
  simp [plant, place?, subtrees, Tree.subtrees_node, Tree.branches]

theorem place?_prepare (f : Forest) (reduction : Reduction) (n : NodeId) :
    (f.prepare reduction).place? n = f.place? n := by
  cases reduction with
  | constant b => exact place?_plant ..
  | operand m => rfl

theorem WellFormed.prepare (wf : f.WellFormed) (reduction : Reduction) :
    (f.prepare reduction).WellFormed := by
  cases reduction with
  | constant b => exact wf.plant _
  | operand n => exact wf

/-- A subtree of the forest with room for a constant is one of before, or the constant. -/
theorem mem_of_prepare (heir : t.Heir f.next reduction r)
    (hu : u ∈ (f.prepare reduction).subtrees) (hne : u.id ≠ r.id) : u ∈ f.subtrees := by
  cases heir with
  | constant b =>
    rcases mem_subtrees_plant.1 hu with hu | rfl
    · exact hu
    · exact absurd rfl hne
  | operand child => exact hu

/-- What an expression reduces to can take its place. -/
theorem WellFormed.replaceable (wf : f.WellFormed) (ht : t ∈ f.subtrees)
    (heir : t.Heir f.next reduction r) : (f.prepare reduction).Replaceable t r := by
  cases heir with
  | constant b =>
    have hroot : Tree.ofConstant f.next b ∈ (f.prepare (.constant b)).trees := by
      show Tree.ofConstant f.next b ∈ f.trees ++ [Tree.ofConstant f.next b]
      exact List.mem_append_right _ (List.mem_singleton_self _)
    -- The constant is a new root, with nothing below it.
    have hne : t.id ≠ f.next :=
      fun hid => wf.next_notMem (hid ▸ id_mem_of_mem_subtrees ht)
    refine ⟨mem_subtrees_prepare ht _, mem_subtrees_of_mem_trees hroot, hne.symm, .inr ⟨hroot, ?_⟩⟩
    intro hmem
    rcases Tree.mem_ids_iff.1 hmem with hid | ⟨b, hb, -⟩
    · exact hne hid
    · cases hb
  | operand child =>
    -- An operand lies below the expression, whose name does not return there.
    have hb := Tree.branch_of_child? child
    refine ⟨ht, child_mem_subtrees ht hb, ?_, .inl (Tree.branch_mem_subtrees hb)⟩
    intro hid
    exact Tree.id_notMem_branch (wf.nodup_tree ht) hb (hid ▸ Tree.id_mem_ids r)

/-! ## Reduction -/

/-- `r`, what `t` reduces to, has taken the place of `t`. -/
inductive Reduced (f : Forest) (t : Tree) : Tree → Forest → Prop
  | intro (reduction : Reduction) {r : Tree} {g : Forest} (heir : t.Heir f.next reduction r)
    (replaced : (f.prepare reduction).Replaced t r g) : Reduced f t r g

namespace Reduced

variable (h : f.Reduced t r g) (wf : f.WellFormed) (ht : t ∈ f.subtrees)
include h

theorem mem : r ∈ g.subtrees := by
  obtain ⟨reduction, heir, replaced⟩ := h
  exact replaced.mem

include wf

theorem place?_eq (wf' : g.WellFormed) (hn : n ∈ g.ids) :
    g.place? n = if n = r.id then f.place? t.id else f.place? n := by
  obtain ⟨reduction, heir, replaced⟩ := h
  rw [replaced.place?_eq (wf.prepare _) wf' hn, place?_prepare, place?_prepare]

/-- What an expression reduces to stands where the expression stood. -/
theorem place?_heir (wf' : g.WellFormed) : g.place? r.id = f.place? t.id := by
  rw [h.place?_eq wf wf' (id_mem_of_mem_subtrees h.mem), if_pos rfl]

include ht

/-- What was below the expression is gone, unless it is below what has taken its place. -/
theorem mem_ids_iff : n ∈ g.ids ↔ n ∈ f.ids ∧ n ∉ t.ids ∨ n ∈ r.ids := by
  obtain ⟨reduction, heir, replaced⟩ := h
  rw [replaced.mem_ids_iff (wf.replaceable ht heir) (wf.prepare _)]
  -- Room for a constant adds the constant, which is all of the heir then.
  have hids : n ∈ (f.prepare reduction).ids ↔ n ∈ f.ids ∨ n ∈ r.ids := by
    cases heir with
    | constant b =>
      show n ∈ (f.plant _).2.ids ↔ _
      rw [mem_ids, mem_ids, Tree.mem_ids_iff_subtrees]
      simp only [mem_subtrees_plant, Tree.ofConstant, Tree.subtrees_node]
      refine ⟨?_, ?_⟩
      · rintro ⟨u, hu | rfl, rfl⟩
        · exact .inl ⟨u, hu, rfl⟩
        · exact .inr ⟨_, List.mem_cons_self .., rfl⟩
      · rintro (⟨u, hu, rfl⟩ | ⟨u, hu, rfl⟩)
        · exact ⟨u, .inl hu, rfl⟩
        · exact ⟨u, .inr (List.mem_singleton.1 hu), rfl⟩
    | operand child =>
      have hr := child_mem_subtrees ht (Tree.branch_of_child? child)
      refine ⟨?_, ?_⟩
      · exact fun hn => .inl hn
      · rintro (hn | hn)
        · exact hn
        · exact ids_subset_ids hr hn
  rw [hids]
  tauto

/-- All nodes but the one that has come to another place have the children that they had
    before, that one in the place of what it replaces. -/
theorem exists_origin (wf' : g.WellFormed) (hu : u ∈ g.subtrees) (hne : u.id ≠ r.id) :
    ∃ v ∈ f.subtrees, v.id = u.id ∧ v.kind = u.kind ∧
      ∀ s, (u.child? s).map (fun c => if c.id = r.id then t.id else c.id) =
        (v.child? s).map (·.id) := by
  obtain ⟨reduction, heir, replaced⟩ := h
  obtain ⟨v, hv, hid, hkind, hchildren⟩ :=
    replaced.exists_origin (wf.replaceable ht heir) (wf.prepare _) wf' hu
  exact ⟨v, mem_of_prepare heir hv (hid ▸ hne), hid, hkind, hchildren⟩

/-- A forest shrinks by as much as the expression does. -/
theorem size_eq : g.size + t.size = f.size + r.size := by
  obtain ⟨reduction, heir, replaced⟩ := h
  have hreplaceable := wf.replaceable ht heir
  have hsize := replaced.size_eq hreplaceable (wf.prepare _)
  cases heir with
  | constant b =>
    -- One node has come, and the whole of the expression is gone.
    have hout : f.next ∉ t.ids := fun hmem => wf.next_notMem (ids_subset_ids ht hmem)
    have hprune : t.prune (Tree.ofConstant f.next b).id = t := Tree.prune_of_notMem hout
    rw [hprune] at hsize
    have hplant : (f.prepare (.constant b)).size = f.size + 1 := size_plant ..
    have hone : (Tree.ofConstant f.next b).size = 1 := rfl
    omega
  | operand child =>
    -- Of the expression all is gone but the operand.
    have hr : r ∈ t.subtrees := Tree.branch_mem_subtrees (Tree.branch_of_child? child)
    have hids := (Tree.ids_prune (wf.nodup_tree ht) hr hreplaceable.ne.symm).length_eq
    rw [List.length_append, ← Tree.size_eq_length_ids, ← Tree.size_eq_length_ids,
      ← Tree.size_eq_length_ids] at hids
    have hsame : (f.prepare (.operand r.id)).size = f.size := rfl
    omega

end Reduced

/-! ## Contraction -/

/-- One simplification: an expression that a rule applies to has been reduced. -/
inductive Contraction (f : Forest) (t : Tree) : Tree → Forest → Prop
  | intro (reduction : Reduction) {r : Tree} {g : Forest} (rule : t.Rule reduction)
    (heir : t.Heir f.next reduction r) (replaced : (f.prepare reduction).Replaced t r g) :
    Contraction f t r g

namespace Contraction

variable (h : f.Contraction t r g)
include h

theorem reduced : f.Reduced t r g := by
  obtain ⟨reduction, rule, heir, replaced⟩ := h
  exact .intro reduction heir replaced

theorem size_lt : r.size < t.size := by
  obtain ⟨reduction, rule, heir, replaced⟩ := h
  exact heir.size_lt rule

/-- A contraction leaves fewer nodes. -/
theorem size_lt_size (wf : f.WellFormed) (ht : t ∈ f.subtrees) : g.size < f.size := by
  have hsize := h.reduced.size_eq wf ht
  have hlt := h.size_lt
  omega

end Contraction

end Forest

end ShortCircuit

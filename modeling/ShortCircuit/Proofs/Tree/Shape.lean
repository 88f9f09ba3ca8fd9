/-
  ShortCircuit.Proofs.Tree.Shape

  Trees without names, their children in the order of their slots.  Two trees of
  one shape differ in names and in the order in which children were attached, and
  what is known of them does not depend on either.
-/

import ShortCircuit.Proofs.Tree.Rules

namespace ShortCircuit.Tree

variable {t u v : Tree} {φ ψ : Tree → Tree}

/-- Nowhere in the tree two children of a node hang at the same slot. -/
def Slotted (t : Tree) : Prop := ∀ u ∈ t.subtrees, (u.branches.map (·.1)).Nodup

theorem Slotted.nodup (h : t.Slotted) : (t.branches.map (·.1)).Nodup := h t (self_mem_subtrees t)

theorem Slotted.child (h : t.Slotted) (hu : t.child? s = some u) : u.Slotted :=
  fun v hv => h v (mem_subtrees_trans hv (branch_mem_subtrees (branch_of_child? hu)))

/-- The node without its name, with other children, which stand in the order of their slots. -/
def rebuild (φ : Tree → Tree) (t : Tree) : Tree :=
  node 0 t.kind (inSlotOrder (t.branches.map fun b => (b.1, φ b.2)))

theorem nodup_rebuild (nodup : (t.branches.map (·.1)).Nodup) :
    ((t.rebuild φ).branches.map (·.1)).Nodup := by
  refine nodup_inSlotOrder ?_
  rw [List.map_map]
  exact nodup

theorem child?_rebuild (nodup : (t.branches.map (·.1)).Nodup) (s : Int) :
    (t.rebuild φ).child? s = (t.child? s).map φ := by
  have hnodup : ((t.branches.map fun b => (b.1, φ b.2)).map (·.1)).Nodup := by
    rw [List.map_map]
    exact nodup
  show (inSlotOrder _).lookup s = _
  rw [lookup_inSlotOrder hnodup, lookup_map]
  rfl

theorem rebuild_congr (hkind : u.kind = v.kind) (hu : (u.branches.map (·.1)).Nodup)
    (hv : (v.branches.map (·.1)).Nodup)
    (hslots : ∀ s, (u.child? s).map φ = (v.child? s).map ψ) : u.rebuild φ = v.rebuild ψ := by
  have hu' : ((u.branches.map fun b => (b.1, φ b.2)).map (·.1)).Nodup := by
    rw [List.map_map]
    exact hu
  have hv' : ((v.branches.map fun b => (b.1, ψ b.2)).map (·.1)).Nodup := by
    rw [List.map_map]
    exact hv
  have hperm : (u.branches.map fun b => (b.1, φ b.2)).Perm
      (v.branches.map fun b => (b.1, ψ b.2)) := by
    refine (List.perm_ext_iff_of_nodup hu'.of_map hv'.of_map).2 fun ⟨s, c⟩ => ?_
    rw [← lookup_eq_some_iff_mem hu', ← lookup_eq_some_iff_mem hv', lookup_map, lookup_map]
    exact iff_of_eq (congrArg (· = some c) (hslots s))
  rw [rebuild, rebuild, hkind, inSlotOrder_eq_of_perm hu' hperm]

/-! ## Shapes -/

/-- A tree without names, its children in the order of their slots. -/
def shape : Tree → Tree := fold fun _ kind branches => node 0 kind (inSlotOrder branches)

theorem shape_eq (t : Tree) : t.shape = t.rebuild shape := by
  cases t
  exact fold_node ..

theorem kind_of_shape_eq (h : u.shape = v.shape) : u.kind = v.kind := by
  have hkind : u.shape.kind = v.shape.kind := congrArg kind h
  rw [shape_eq, shape_eq] at hkind
  exact hkind

/-- Trees of one shape have children of one shape. -/
theorem child?_of_shape_eq (hu : (u.branches.map (·.1)).Nodup) (hv : (v.branches.map (·.1)).Nodup)
    (h : u.shape = v.shape) (s : Int) : (u.child? s).map shape = (v.child? s).map shape := by
  rw [← child?_rebuild hu, ← child?_rebuild hv, ← shape_eq, ← shape_eq, h]

theorem truth_shape (h : t.Slotted) : t.shape.truth = t.truth := by
  induction t using Tree.induction with
  | node id kind branches ih =>
    rw [shape_eq]
    refine truth_congr rfl fun s => ?_
    rw [truthAt, truthAt, child?_rebuild h.nodup]
    cases hc : (node id kind branches).child? s with
    | none => rfl
    | some c => exact ih (s, c) (branch_of_child? hc) (h.child hc)

theorem purity_shape (h : t.Slotted) : t.shape.purity = t.purity := by
  induction t using Tree.induction with
  | node id kind branches ih =>
    rw [shape_eq]
    refine purity_congr rfl h.nodup (nodup_rebuild h.nodup) fun s => ?_
    rw [child?_rebuild h.nodup]
    cases hc : (node id kind branches).child? s with
    | none => rfl
    | some c => exact congrArg some (ih (s, c) (branch_of_child? hc) (h.child hc))

/-- Whether there is something to simplify does not depend on names and order. -/
theorem isSimplifiable_shape (h : t.Slotted) : t.shape.isSimplifiable = t.isSimplifiable := by
  have hkind : t.shape.kind = t.kind := by
    rw [shape_eq]
    rfl
  have hneutral : t.shape.neutral? = t.neutral? := by
    rw [neutral?, hkind]
    rfl
  have hchild (s : Int) : t.shape.child? s = (t.child? s).map shape := by
    rw [shape_eq, child?_rebuild h.nodup]
  rw [isSimplifiable, isSimplifiable, hkind, truth_shape h, hneutral, hchild, hchild]
  cases t.neutral? with
  | none => rfl
  | some e =>
    cases hl : t.child? 0 with
    | none => rfl
    | some l =>
      cases hr : t.child? 1 with
      | none => rfl
      | some r =>
        have hls := h.child hl
        have hrs := h.child hr
        have hjoin : shouldJoin e l.shape r.shape = shouldJoin e l r := by
          rw [shouldJoin, shouldJoin, truth_shape hls, truth_shape hrs, purity_shape hls,
            purity_shape hrs]
        exact congrArg _ hjoin

end ShortCircuit.Tree

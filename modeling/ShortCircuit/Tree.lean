/-
  ShortCircuit.Tree

  Syntax trees.  A node has a name, a kind and branches; each branch leads to a
  child and says which slot the child occupies.  Branches are kept in the order
  in which the children were attached, and slots may be left empty.

  Nearly all functions on trees are folds: an answer for each child, with its
  slot, gives the answer for the node.  They have an answer for every tree,
  however high: the bound of a machine on nested calls is abstracted from.
-/

import ShortCircuit.Kind
import ShortCircuit.NodeId
import ShortCircuit.Sorting

namespace ShortCircuit

/-- A syntax tree. -/
inductive Tree where
  | node (id : NodeId) (kind : Kind) (branches : List (Int × Tree))

namespace Tree

variable {α : Type}

def id : Tree → NodeId
  | node id _ _ => id

def kind : Tree → Kind
  | node _ kind _ => kind

/-- The children with their slots, in the order in which they were attached. -/
def branches : Tree → List (Int × Tree)
  | node _ _ branches => branches

/-- Whether the node at the top is an expression. -/
def isExpression (t : Tree) : Bool := t.kind.isExpression

/-! ## Recursion -/

mutual

/-- Compute an answer for a tree from the answers for its children. -/
def fold (f : NodeId → Kind → List (Int × α) → α) : Tree → α
  | node id kind branches => f id kind (foldBranches f branches)

/-- The answers for the children, with their slots. -/
def foldBranches (f : NodeId → Kind → List (Int × α) → α) : List (Int × Tree) → List (Int × α)
  | [] => []
  | (slot, child) :: rest => (slot, child.fold f) :: foldBranches f rest

end

@[simp] theorem foldBranches_eq (f : NodeId → Kind → List (Int × α) → α)
    (branches : List (Int × Tree)) :
    foldBranches f branches = branches.map fun b => (b.1, b.2.fold f) := by
  induction branches with
  | nil => simp [foldBranches]
  | cons b rest ih => obtain ⟨slot, child⟩ := b; simp [foldBranches, ih]

theorem fold_node (f : NodeId → Kind → List (Int × α) → α) (id : NodeId) (kind : Kind)
    (branches : List (Int × Tree)) :
    (node id kind branches).fold f = f id kind (branches.map fun b => (b.1, b.2.fold f)) := by
  simp [fold]

/-- Induction over trees: a property passes from the children of a node to the node. -/
@[elab_as_elim]
theorem induction {P : Tree → Prop}
    (node : ∀ id kind branches, (∀ b ∈ branches, P b.2) → P (.node id kind branches)) (t : Tree) :
    P t :=
  match t with
  | .node id kind branches => node id kind branches (all branches)
where
  all : ∀ branches : List (Int × Tree), ∀ b ∈ branches, P b.2
    | [], _, hb => nomatch hb
    | (_, child) :: rest, b, hb => by
      rcases List.mem_cons.1 hb with rfl | hb
      · exact induction node child
      · exact all rest b hb

/-! ## Slots -/

/-- The occupied slots in increasing order. -/
def slots (t : Tree) : List Int := sortBy (fun a b => decide (a ≤ b)) (t.branches.map (·.1))

/-- The children in the order of their slots. -/
def children (t : Tree) : List Tree :=
  (sortBy (fun a b => decide (a.1 ≤ b.1)) t.branches).map (·.2)

/-- The child at a slot. -/
def child? (t : Tree) (slot : Int) : Option Tree := t.branches.lookup slot

/-! ## Nodes -/

mutual

/-- The tree itself and all trees below it, each before the ones below it. -/
def subtrees : Tree → List Tree
  | node id kind branches => node id kind branches :: branchSubtrees branches

/-- All trees in a list of branches. -/
def branchSubtrees : List (Int × Tree) → List Tree
  | [] => []
  | (_, child) :: rest => child.subtrees ++ branchSubtrees rest

end

@[simp] theorem branchSubtrees_eq (branches : List (Int × Tree)) :
    branchSubtrees branches = branches.flatMap (·.2.subtrees) := by
  induction branches with
  | nil => simp [branchSubtrees]
  | cons b rest ih => obtain ⟨slot, child⟩ := b; simp [branchSubtrees, ih]

theorem subtrees_node (id : NodeId) (kind : Kind) (branches : List (Int × Tree)) :
    (node id kind branches).subtrees =
      node id kind branches :: branches.flatMap (·.2.subtrees) := by
  simp [subtrees]

theorem self_mem_subtrees (t : Tree) : t ∈ t.subtrees := by
  cases t
  exact List.mem_cons_self ..

/-- The names of all nodes of the tree. -/
def ids (t : Tree) : List NodeId := t.subtrees.map (·.id)

theorem ids_node (id : NodeId) (kind : Kind) (branches : List (Int × Tree)) :
    (node id kind branches).ids = id :: branches.flatMap (·.2.ids) := by
  simp [ids, subtrees_node, List.map_flatMap, Tree.id]

/-- The number of nodes. -/
def size (t : Tree) : Nat := t.subtrees.length

/-- The tree below the node of a given name. -/
def find? (t : Tree) (n : NodeId) : Option Tree := t.subtrees.find? (·.id == n)

mutual

/-- The trees that contain the node of a given name, from the one it heads to the whole. -/
def trail (n : NodeId) : Tree → List Tree
  | node id kind branches =>
    if id = n then [node id kind branches]
    else
      match branchTrail n branches with
      | [] => []
      | trail => trail ++ [node id kind branches]

/-- The trail inside the first branch that contains the node; empty if none does. -/
def branchTrail (n : NodeId) : List (Int × Tree) → List Tree
  | [] => []
  | (_, child) :: rest =>
    match child.trail n with
    | [] => branchTrail n rest
    | trail => trail

end

theorem branchTrail_eq_nil_iff {n : NodeId} {branches : List (Int × Tree)} :
    branchTrail n branches = [] ↔ ∀ b ∈ branches, b.2.trail n = [] := by
  induction branches with
  | nil => simp [branchTrail]
  | cons b rest ih =>
    obtain ⟨slot, child⟩ := b
    rw [branchTrail]
    split
    · rename_i h
      simp [ih, h]
    · rename_i h
      refine ⟨?_, ?_⟩
      · exact fun h' => absurd h' h
      · exact fun h' => absurd (h' _ (List.mem_cons_self ..)) h

/-- There is a trail to a node exactly if the tree contains it. -/
theorem trail_eq_nil_iff {n : NodeId} {t : Tree} : t.trail n = [] ↔ n ∉ t.ids := by
  induction t using Tree.induction with
  | node id kind branches ih =>
    have below : branchTrail n branches = [] ↔ ∀ b ∈ branches, n ∉ b.2.ids := by
      rw [branchTrail_eq_nil_iff]
      exact ⟨fun h b hb => (ih b hb).1 (h b hb), fun h b hb => (ih b hb).2 (h b hb)⟩
    rw [trail, ids_node, List.mem_cons, List.mem_flatMap]
    split
    · rename_i h
      simp [h]
    · rename_i h
      split
      · rename_i hb
        have := below.1 hb
        refine ⟨?_, ?_⟩
        · rintro - (rfl | ⟨b, hmem, hn⟩)
          · exact h rfl
          · exact this b hmem hn
        · intro _
          rfl
      · rename_i hb
        refine ⟨?_, ?_⟩
        · intro h'
          simp at h'
        · intro h'
          exact absurd (below.2 fun b hmem hn => h' (.inr ⟨b, hmem, hn⟩)) hb

/-! ## Surgery -/

/-- Take the node of a given name, and all below it, off its parent. -/
def prune (n : NodeId) : Tree → Tree :=
  fold fun id kind branches => node id kind (branches.filter (·.2.id != n))

/-- Attach a further branch to the node of a given name. -/
def graft (n : NodeId) (branch : Int × Tree) : Tree → Tree :=
  fold fun id kind branches => node id kind (if id = n then branches ++ [branch] else branches)

theorem prune_node (n id : NodeId) (kind : Kind) (branches : List (Int × Tree)) :
    (node id kind branches).prune n =
      node id kind ((branches.map fun b => (b.1, b.2.prune n)).filter (·.2.id != n)) :=
  fold_node ..

theorem graft_node (n : NodeId) (branch : Int × Tree) (id : NodeId) (kind : Kind)
    (branches : List (Int × Tree)) :
    (node id kind branches).graft n branch =
      node id kind
        (if id = n then (branches.map fun b => (b.1, b.2.graft n branch)) ++ [branch]
         else branches.map fun b => (b.1, b.2.graft n branch)) :=
  fold_node ..

@[simp] theorem id_prune (n : NodeId) (t : Tree) : (t.prune n).id = t.id := by
  cases t; simp [prune, fold, id]

@[simp] theorem id_graft (n : NodeId) (branch : Int × Tree) (t : Tree) :
    (t.graft n branch).id = t.id := by
  cases t; simp [graft, fold, id]

/-! ## Walks -/

/-- Whether a node comes before or after the nodes below it. -/
inductive Order where
  | before
  | after
  deriving DecidableEq

mutual

/-- Walk a tree depth first, taking branches as they were attached, and entering no node that
    has been seen. -/
def walk (order : Order) (seen : List NodeId) : Tree → List NodeId
  | node id _ branches =>
    if seen.contains id then []
    else
      match order with
      | .before => id :: walkBranches order seen branches
      | .after => walkBranches order seen branches ++ [id]

/-- Walk the branches of a node, one after another. -/
def walkBranches (order : Order) (seen : List NodeId) : List (Int × Tree) → List NodeId
  | [] => []
  | (_, child) :: rest => child.walk order seen ++ walkBranches order seen rest

end

end Tree

end ShortCircuit

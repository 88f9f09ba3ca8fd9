/-
  ShortCircuit.Proofs.Forest.Visits

  Walks by name.  A walk knows no trees: all it learns of a node it learns by
  asking the forest, it notes every node that it comes to, and it gives up where
  a question is refused or where it has gone further than it may.  Climbing asks
  for one parent after the other; a visit makes the inquiry of a node, and visits
  those children that the inquiry asks for.

  In a well-formed forest no question is refused, and a walk that may go as far
  as there are nodes never has to give up: it comes to the answer that is found
  on the tree, and to no node twice.
-/

import ShortCircuit.Proofs.Failing
import ShortCircuit.Proofs.Forest.Ancestry
import ShortCircuit.Proofs.Forest.Contraction
import ShortCircuit.Proofs.Forest.Query
import ShortCircuit.Proofs.Tree.Inquiries

namespace ShortCircuit

open Failing

variable {α : Type} {f : Forest} {t : Tree} {n : NodeId} {nodes : List NodeId}

/-! ## Walks -/

/-- Why a walk gives up. -/
inductive Halt where
  | refused (fault : Fault)
  | tooFar

/-- A walk that notes the nodes it comes to. -/
abbrev Visit (α : Type) := ExceptT Halt (StateM (List NodeId)) α

namespace Visit

def note (n : NodeId) : Visit Unit := fun nodes => (.ok (), nodes ++ [n])

/-- Ask the forest. -/
def question (answer : Except Fault α) : Visit α :=
  fun nodes => (answer.mapError .refused, nodes)

end Visit

namespace Forest

/-- Go from a node to its parent, and on from there, up to so many nodes. -/
def climb (f : Forest) : Nat → Option NodeId → Visit Unit
  | _, none => pure ()
  | 0, some _ => throw .tooFar
  | limit + 1, some n => do
    Visit.note n
    f.climb limit (← Visit.question (f.parentOf (some n)))

/-- What is seen of a node, by asking for its kind, its children and their slots. -/
def siteOf (f : Forest) (n : NodeId) : Except Fault Site := do
  let kind := (← f.get n).kind
  let slots ← (← f.childrenOf (some n)).mapM fun child => f.slotOf (some child)
  return ⟨n, kind, slots.filterMap id⟩

end Forest

/-- Go through with an inquiry, looking at slots as it asks for them. -/
def Inquiry.conduct (look : Int → Visit (Option α)) : Inquiry α → Visit α
  | answer a => pure a
  | ask slot next => look slot >>= fun found => (next found).conduct look

namespace Forest

/-- Walk on at the child at a slot, if there is one. -/
def lookAt (f : Forest) (walk : NodeId → Visit α) (n : NodeId) (slot : Int) : Visit (Option α) := do
  (← Visit.question (f.childOf (some n) slot)).mapM walk

/-- Make the inquiry of a node, and of the children that it asks for, down so many levels. -/
def visit (f : Forest) (inquiry : Site → Inquiry α) : Nat → NodeId → Visit α
  | 0, _ => throw .tooFar
  | levels + 1, n => do
    Visit.note n
    let site ← Visit.question (f.siteOf n)
    (inquiry site).conduct (f.lookAt (f.visit inquiry levels) n)

end Forest

/-! ## Steps of a walk -/

theorem Visit.note_eq (n : NodeId) : note n nodes = (.ok (), nodes ++ [n]) := rfl

theorem Visit.question_of_ok {answer : Except Fault α} {a : α} (h : answer = .ok a) :
    question answer nodes = (.ok a, nodes) := by
  rw [h]
  rfl

/-- An inquiry goes through if every look at a slot does, and notes what these looks note. -/
theorem Inquiry.conduct_eq {look : Int → Visit (Option α)} {found : Int → Option α}
    {noted : Int → List NodeId}
    (hlook : ∀ slot nodes, look slot nodes = (.ok (found slot), nodes ++ noted slot))
    (q : Inquiry α) :
    q.conduct look nodes = (.ok (q.settle found), nodes ++ (q.asked found).flatMap noted) := by
  induction q generalizing nodes with
  | answer a => exact congrArg (Prod.mk _) (List.append_nil nodes).symm
  | ask slot next ih =>
    rw [conduct, bind_of_ok (hlook slot nodes), ih, settle, asked, List.flatMap_cons,
      List.append_assoc]

/-- Children at different slots share no node, and do not contain their parent. -/
theorem Tree.nodup_cons_flatMap (nodup : t.ids.Nodup) {slots : List Int}
    (increasing : slots.Pairwise (· < ·)) {noted : Int → List NodeId}
    (hnoted : ∀ slot, (noted slot).Nodup)
    (below : ∀ slot, ∀ m ∈ noted slot, ∃ c, (slot, c) ∈ t.branches ∧ m ∈ c.ids) :
    (t.id :: slots.flatMap noted).Nodup := by
  refine List.nodup_cons.2 ⟨fun h => ?_, List.nodup_flatMap.2 ⟨fun slot _ => hnoted slot, ?_⟩⟩
  · obtain ⟨slot, -, hm⟩ := List.mem_flatMap.1 h
    obtain ⟨c, hb, hc⟩ := below slot _ hm
    exact id_notMem_branch nodup hb hc
  · refine increasing.imp fun {a b} hlt m hma hmb => ?_
    obtain ⟨c, hc, hmc⟩ := below a m hma
    obtain ⟨d, hd, hmd⟩ := below b m hmb
    cases eq_of_mem_branches nodup hc hd hmc hmd
    exact Int.lt_irrefl a hlt

namespace Forest

namespace WellFormed

variable (wf : f.WellFormed)
include wf

/-! ## Climbing -/

/-- Climbing ends at the root, and has then noted what lies above the node. -/
theorem climb_eq {limit : Nat} (hn : n ∈ f.ids) (hlimit : (f.ancestors n).length ≤ limit) :
    f.climb limit (some n) nodes = (.ok (), nodes ++ f.ancestors n) := by
  induction limit generalizing n nodes with
  | zero =>
    have hnil : f.ancestors n = [] := List.length_eq_zero_iff.1 (Nat.le_zero.1 hlimit)
    have hself := wf.self_mem_ancestors hn
    rw [hnil] at hself
    cases hself
  | succ limit ih =>
    rw [climb, bind_of_ok (Visit.note_eq n), bind_of_ok (Visit.question_of_ok (wf.parentOf_eq hn))]
    cases hplace : f.place? n with
    | none =>
      rw [wf.ancestors_root hn hplace, Option.map_none, climb]
      rfl
    | some place =>
      rw [wf.ancestors_child hplace] at hlimit ⊢
      have hparent := wf.parent_mem_ids_of_place? hplace
      rw [Option.map_some, ih hparent (Nat.le_of_succ_le_succ hlimit), List.append_assoc]
      rfl

/-! ## Sites -/

theorem siteOf_eq (ht : t ∈ f.subtrees) : f.siteOf t.id = .ok t.site := by
  have hslots : ((inSlotOrder t.branches).map fun b => b.2.id).mapM
      (fun child => f.slotOf (some child)) = .ok (t.slots.map some) := by
    rw [t.slots_inSlotOrder, List.map_map, mapM_eq_ok_iff, List.forall₂_map_left_iff,
      List.forall₂_map_right_iff, List.forall₂_same]
    intro b hb
    have hbranch : b ∈ t.branches := mem_inSlotOrder.1 hb
    have hchild := id_mem_of_mem_subtrees (child_mem_subtrees ht hbranch)
    rw [wf.slotOf_eq hchild, wf.place?_branch ht hbranch]
    rfl
  rw [siteOf, wf.get_self ht, ok_bind, wf.childrenOf_eq ht, ok_bind, hslots, ok_bind,
    List.filterMap_map]
  exact congrArg (fun slots => Except.ok (Site.mk t.id t.kind slots)) (List.filterMap_some ..)

end WellFormed

/-! ## Visits -/

/-- A visit of the node on top of a tree, down as many levels as the tree has nodes, comes to the
    answer for the tree.  It comes to these nodes, each of them once and all of the tree. -/
structure Visited (f : Forest) (inquiry : Site → Inquiry α) (D : Tree → α) (t : Tree)
    (noted : List NodeId) : Prop where
  returns : ∀ levels, t.size ≤ levels → ∀ nodes,
    f.visit inquiry levels t.id nodes = (.ok (D t), nodes ++ noted)
  nodup : noted.Nodup
  below : ∀ m ∈ noted, m ∈ t.ids

namespace WellFormed

variable (wf : f.WellFormed) {inquiry : Site → Inquiry α} {D : Tree → α}
include wf

/-- A look at a slot is a visit of the child there, and comes to no node if there is none. -/
theorem exists_lookAt (ht : t ∈ f.subtrees)
    (children : ∀ b ∈ t.branches, ∃ noted, f.Visited inquiry D b.2 noted) (slot : Int) :
    ∃ noted : List NodeId, noted.Nodup ∧ (∀ m ∈ noted, ∃ c, (slot, c) ∈ t.branches ∧ m ∈ c.ids) ∧
      ∀ levels, t.size ≤ levels + 1 → ∀ nodes,
        f.lookAt (f.visit inquiry levels) t.id slot nodes =
          (.ok ((t.child? slot).map D), nodes ++ noted) := by
  cases hchild : t.child? slot with
  | none =>
    refine ⟨[], .nil, fun m hm => absurd hm List.not_mem_nil, fun levels _ nodes => ?_⟩
    rw [lookAt, bind_of_ok (Visit.question_of_ok (wf.childOf_eq ht slot)), hchild, List.append_nil]
    rfl
  | some c =>
    have hb : (slot, c) ∈ t.branches := Tree.branch_of_child? hchild
    obtain ⟨noted, visited⟩ := children (slot, c) hb
    refine ⟨noted, visited.nodup, fun m hm => ⟨c, hb, visited.below m hm⟩,
      fun levels hlevels nodes => ?_⟩
    have hsize : c.size < t.size := Tree.size_lt_of_branch hb
    have hvisit := visited.returns levels (Nat.le_of_lt_succ (hsize.trans_le hlevels)) nodes
    rw [lookAt, bind_of_ok (Visit.question_of_ok (wf.childOf_eq ht slot)), hchild]
    exact (bind_of_ok hvisit).trans rfl

/-- From the children a visit passes to the node. -/
theorem visited_of_children (computes : Computes inquiry D) (ht : t ∈ f.subtrees)
    (children : ∀ b ∈ t.branches, ∃ noted, f.Visited inquiry D b.2 noted) :
    ∃ noted, f.Visited inquiry D t noted := by
  choose noted hnodup hbelow hlook using wf.exists_lookAt ht children
  have hslots := wf.nodup_slots ht
  refine ⟨t.id :: ((inquiry t.site).asked fun s => (t.child? s).map D).flatMap noted, ?_,
    Tree.nodup_cons_flatMap (wf.nodup_tree ht) (computes.increasing hslots) hnodup hbelow, ?_⟩
  · intro levels hlevels nodes
    cases levels with
    | zero => exact absurd t.size_pos (Nat.not_lt.2 hlevels)
    | succ levels =>
      rw [visit, bind_of_ok (Visit.note_eq _), bind_of_ok (Visit.question_of_ok (wf.siteOf_eq ht)),
        Inquiry.conduct_eq fun slot nodes => hlook slot levels hlevels nodes,
        computes.settle hslots, List.append_assoc]
      rfl
  · intro m hm
    rcases List.mem_cons.1 hm with rfl | hm
    · exact Tree.id_mem_ids t
    · obtain ⟨slot, -, hm⟩ := List.mem_flatMap.1 hm
      obtain ⟨c, hb, hc⟩ := hbelow slot m hm
      exact Tree.mem_ids_iff.2 (.inr ⟨(slot, c), hb, hc⟩)

/-- Every node can be visited. -/
theorem exists_visited (computes : Computes inquiry D) (ht : t ∈ f.subtrees) :
    ∃ noted, f.Visited inquiry D t noted := by
  induction t using Tree.induction with
  | node id kind branches ih =>
    exact wf.visited_of_children computes ht fun b hb => ih b hb (child_mem_subtrees ht hb)

end WellFormed

end Forest

end ShortCircuit

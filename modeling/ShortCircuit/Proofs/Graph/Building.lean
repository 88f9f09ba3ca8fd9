/-
  ShortCircuit.Proofs.Graph.Building

  Graphs whose nodes are named by integers, as they are built up.  A node that is
  new comes behind the others, and so does an edge between nodes that are there.
  Edges that were added by the node they leave are listed as they were added.
-/

import Mathlib.Data.List.Nodup
import ShortCircuit.Graph
import ShortCircuit.Proofs.Table

namespace ShortCircuit.Graph

open Scalar (sameKey_int)

variable {nodes : List (Int × Table Value)} {edges : List (Int × Int × Table Value)}
  {n source sink : Int}

/-- The graph of nodes and edges with integers for names. -/
def numbered (nodes : List (Int × Table Value)) (edges : List (Int × Int × Table Value)) :
    Graph where
  nodes := nodes.map fun node => (.int node.1, node.2)
  edges := edges.map fun edge => (.int edge.1, .int edge.2.1, edge.2.2)

/-! ## Nodes -/

theorem get?_eq_none_iff_notMem :
    (numbered nodes edges).nodes.get? (.int n) = none ↔ n ∉ nodes.map (·.1) := by
  rw [Table.get?_eq_none_iff, numbered, List.forall_mem_map, List.mem_map]
  simp only [← Bool.not_eq_true, sameKey_int, not_exists, not_and]

theorem addNode_of_notMem (h : n ∉ nodes.map (·.1)) (attributes : List (Scalar × Value)) :
    (numbered nodes edges).addNode (.int n) attributes =
      numbered (nodes ++ [(n, Table.ofList attributes)]) edges := by
  have hnone : (numbered nodes edges).nodes.get? (.int n) = none := get?_eq_none_iff_notMem.2 h
  rw [addNode, hnone, Table.put_of_none hnone]
  simp [numbered, Table.ofList]

/-- To add a node that is there, and nothing to it, changes nothing. -/
theorem addNode_nil_of_mem (h : n ∈ nodes.map (·.1)) :
    (numbered nodes edges).addNode (.int n) [] = numbered nodes edges := by
  obtain ⟨attributes, hsome⟩ : ∃ attributes,
      (numbered nodes edges).nodes.get? (.int n) = some attributes := by
    rw [← Option.ne_none_iff_exists', Ne, get?_eq_none_iff_notMem]
    exact not_not.2 h
  have hput : (numbered nodes edges).nodes.put (.int n) attributes = (numbered nodes edges).nodes :=
    Table.put_of_some hsome
  rw [addNode, hsome]
  exact congrArg (Graph.mk · _) hput

theorem foldl_addNode (nodes : List (Int × Table Value)) (edges : List (Int × Int × Table Value))
    {β : Type} (name : β → Int) (attributes : β → List (Scalar × Value)) (added : List β)
    (nodup : (nodes.map (·.1) ++ added.map name).Nodup) :
    added.foldl (fun g x => g.addNode (.int (name x)) (attributes x)) (numbered nodes edges) =
      numbered (nodes ++ added.map fun x => (name x, Table.ofList (attributes x))) edges := by
  induction added generalizing nodes with
  | nil => simp
  | cons x added ih =>
    have hfresh : name x ∉ nodes.map (·.1) := fun h =>
      (List.nodup_append.1 nodup).2.2 _ h _ (List.mem_cons_self ..) rfl
    rw [List.foldl_cons, addNode_of_notMem hfresh, ih]
    · simp
    · simpa using nodup

/-! ## Edges -/

theorem putEdge_of_notMem (h : (source, sink) ∉ edges.map fun edge => (edge.1, edge.2.1))
    (attributes : List (Scalar × Value)) :
    putEdge (.int source) (.int sink) attributes (numbered nodes edges).edges =
      (numbered nodes (edges ++ [(source, sink, Table.ofList attributes)])).edges := by
  induction edges with
  | nil => rfl
  | cons edge rest ih =>
    obtain ⟨a, b, old⟩ := edge
    rw [List.map_cons, List.mem_cons, not_or] at h
    have hne : ¬((Scalar.int a).sameKey (.int source) && (Scalar.int b).sameKey (.int sink)) =
        true := by
      rw [Bool.and_eq_true, sameKey_int, sameKey_int]
      rintro ⟨rfl, rfl⟩
      exact h.1 rfl
    show putEdge _ _ _ ((.int a, .int b, old) :: (numbered nodes rest).edges) = _
    rw [putEdge, if_neg hne, ih h.2]
    rfl

theorem addEdge_of_notMem (hsource : source ∈ nodes.map (·.1)) (hsink : sink ∈ nodes.map (·.1))
    (h : (source, sink) ∉ edges.map fun edge => (edge.1, edge.2.1))
    (attributes : List (Scalar × Value)) :
    (numbered nodes edges).addEdge (.int source) (.int sink) attributes =
      numbered nodes (edges ++ [(source, sink, Table.ofList attributes)]) := by
  have hput : putEdge (.int source) (.int sink) attributes (numbered nodes edges).edges =
      (numbered nodes (edges ++ [(source, sink, Table.ofList attributes)])).edges :=
    putEdge_of_notMem h attributes
  rw [addEdge, addNode_nil_of_mem hsource, addNode_nil_of_mem hsink]
  exact congrArg (Graph.mk (numbered nodes edges).nodes) hput

theorem foldl_addEdge (nodes : List (Int × Table Value)) (edges : List (Int × Int × Table Value))
    {β : Type} (source sink : β → Int) (attributes : β → List (Scalar × Value)) (added : List β)
    (ends : ∀ x ∈ added, source x ∈ nodes.map (·.1) ∧ sink x ∈ nodes.map (·.1))
    (nodup : ((edges.map fun edge => (edge.1, edge.2.1)) ++
      added.map fun x => (source x, sink x)).Nodup) :
    added.foldl (fun g x => g.addEdge (.int (source x)) (.int (sink x)) (attributes x))
        (numbered nodes edges) =
      numbered nodes
        (edges ++ added.map fun x => (source x, sink x, Table.ofList (attributes x))) := by
  induction added generalizing edges with
  | nil => simp
  | cons x added ih =>
    obtain ⟨⟨hsource, hsink⟩, hends⟩ := List.forall_mem_cons.1 ends
    have hfresh : (source x, sink x) ∉ edges.map fun edge => (edge.1, edge.2.1) := fun h =>
      (List.nodup_append.1 nodup).2.2 _ h _ (List.mem_cons_self ..) rfl
    rw [List.foldl_cons, addEdge_of_notMem hsource hsink hfresh, ih _ hends]
    · simp
    · simpa using nodup

variable {β : Type} {ns : List Int} {part : Int → List β}

/-- Among edges by the node they leave, those of one node are found. -/
theorem filter_flatMap_source (nodup : ns.Nodup) (hn : n ∈ ns) :
    (ns.flatMap fun m => (part m).map (m, ·)).filter (·.1 == n) = (part n).map (n, ·) := by
  have hother {m : Int} (hne : m ≠ n) : ((part m).map (m, ·)).filter (·.1 == n) = [] := by
    simp [List.filter_eq_nil_iff, hne]
  have hown : ((part n).map (n, ·)).filter (·.1 == n) = (part n).map (n, ·) := by
    simp [List.filter_eq_self]
  induction ns with
  | nil => cases hn
  | cons m ns ih =>
    obtain ⟨hm, nodup⟩ := List.nodup_cons.1 nodup
    rw [List.flatMap_cons, List.filter_append]
    rcases List.mem_cons.1 hn with rfl | hn
    · have hrest : (ns.flatMap fun m => (part m).map (m, ·)).filter (·.1 == n) = [] := by
        rw [List.filter_flatMap, List.flatMap_eq_nil_iff]
        exact fun k hk => hother (ne_of_mem_of_not_mem hk hm)
      rw [hown, hrest, List.append_nil]
    · rw [hother (ne_of_mem_of_not_mem hn hm).symm, ih nodup hn, List.nil_append]

/-- Edges that were added by the node they leave, in the order of the nodes, are listed as they
    were added. -/
theorem edgesInOrder_numbered (part : Int → List (Int × Table Value))
    (nodup : (nodes.map (·.1)).Nodup)
    (h : edges = (nodes.map (·.1)).flatMap fun n => (part n).map (n, ·)) :
    (numbered nodes edges).edgesInOrder = (numbered nodes edges).edges := by
  have hnode : ∀ node ∈ nodes,
      ((numbered nodes edges).edges.filter (·.1.sameKey (.int node.1))).map
          (fun edge => (Scalar.int node.1, edge.2)) =
        ((part node.1).map (node.1, ·)).map fun edge => (.int edge.1, .int edge.2.1, edge.2.2) := by
    intro node hmem
    have hfilter : (numbered nodes edges).edges.filter (·.1.sameKey (.int node.1)) =
        (edges.filter (·.1 == node.1)).map fun edge => (.int edge.1, .int edge.2.1, edge.2.2) := by
      rw [numbered, List.filter_map]
      refine congrArg _ (List.filter_congr fun edge _ => ?_)
      rw [Function.comp, Bool.eq_iff_iff, sameKey_int, beq_iff_eq]
    rw [hfilter, h, filter_flatMap_source nodup (List.mem_map_of_mem hmem),
      List.map_map, List.map_map, List.map_map]
    rfl
  have hnodes : (numbered nodes edges).edgesInOrder = nodes.flatMap fun node =>
      ((numbered nodes edges).edges.filter (·.1.sameKey (.int node.1))).map
        fun edge => (Scalar.int node.1, edge.2) :=
    List.flatMap_map ..
  have hedges : (numbered nodes edges).edges = nodes.flatMap fun node =>
      ((part node.1).map (node.1, ·)).map fun edge => (.int edge.1, .int edge.2.1, edge.2.2) := by
    rw [numbered, h, List.flatMap_map, List.map_flatMap]
  rw [hnodes, List.flatMap_congr hnode, hedges]

end ShortCircuit.Graph

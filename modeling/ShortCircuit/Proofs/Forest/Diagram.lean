/-
  ShortCircuit.Proofs.Forest.Diagram

  The diagram of a forest, line by line.  There is a line for each node, the
  oldest first, and then one for each edge; each line says which node or edge it
  is for, and what its label is.
-/

import Mathlib.Data.List.Basic
import ShortCircuit.Proofs.Arena
import ShortCircuit.Proofs.Decimal.Numeral
import ShortCircuit.Proofs.Graph.Building
import ShortCircuit.Proofs.Graph.Quoting
import ShortCircuit.Proofs.Kind.Label

namespace ShortCircuit

open Decimal (Writable writeInt intText)
open Failing ShortCircuit.Graph

variable {f g : Forest} {t u : Tree} {text : Text} {nodes : List (NodeId × String)}
  {n p c : NodeId} {s : Int}

/-- The label of a node that has one begins with its name. -/
theorem Tree.label_eq_ok_iff {label : String} :
    t.label = .ok label ↔ Writable t.id ∧ ∃ shown, t.kind.label = .ok shown ∧
      label = String.ofList (intText t.id ++ ": ".toList ++ shown) := by
  constructor
  · intro h
    obtain ⟨name, hname, h⟩ := exists_of_bind_eq_ok h
    obtain ⟨shown, hshown, h⟩ := exists_of_bind_eq_ok h
    obtain ⟨hwritable, rfl⟩ := Decimal.writeInt_eq_ok_iff.1 hname
    cases h
    exact ⟨hwritable, shown, hshown, rfl⟩
  · rintro ⟨hwritable, shown, hshown, rfl⟩
    rw [label, Decimal.writeInt_eq_ok_iff.2 ⟨hwritable, rfl⟩, hshown]
    rfl

namespace Forest

/-! ## Labels -/

theorem labels_eq_ok_iff :
    f.labels = .ok nodes ↔
      List.Forall₂ (fun t node => node.1 = t.id ∧ t.label = .ok node.2) f.inAge nodes := by
  have hnode (t : Tree) (node : NodeId × String) :
      (do return (t.id, ← t.label) : Except Fault _) = .ok node ↔
        node.1 = t.id ∧ t.label = .ok node.2 := by
    constructor
    · intro h
      obtain ⟨label, hlabel, h⟩ := exists_of_bind_eq_ok h
      cases h
      exact ⟨rfl, hlabel⟩
    · rintro ⟨hid, hlabel⟩
      rw [hlabel, ← hid]
      rfl
  rw [labels, mapM_eq_ok_iff]
  simp only [hnode]

/-- The label of an edge is its slot. -/
theorem slotLabels_eq_ok_iff {slots : List (NodeId × NodeId × String)} :
    f.slotLabels = .ok slots ↔ (∀ edge ∈ f.edges, Writable edge.2.1) ∧
      slots = f.edges.map fun edge =>
        (edge.1, edge.2.2, String.ofList (intText edge.2.1)) := by
  have hentry (edge : NodeId × Int × NodeId) (entry : NodeId × NodeId × String) :
      (do return (edge.1, edge.2.2, String.ofList (← writeInt edge.2.1)) : Except Fault _) =
          .ok entry ↔
        Writable edge.2.1 ∧ (edge.1, edge.2.2, String.ofList (intText edge.2.1)) = entry := by
    constructor
    · intro h
      obtain ⟨slot, hslot, h⟩ := exists_of_bind_eq_ok h
      obtain ⟨hwritable, rfl⟩ := Decimal.writeInt_eq_ok_iff.1 hslot
      exact ⟨hwritable, Except.ok.inj h⟩
    · rintro ⟨hwritable, rfl⟩
      rw [Decimal.writeInt_eq_ok_iff.2 ⟨hwritable, rfl⟩]
      rfl
  rw [slotLabels, mapM_eq_ok_iff]
  simp only [hentry]
  rw [List.forall₂_and_left, ← List.forall₂_map_left_iff, List.forall₂_eq_eq_eq, eq_comm]

/-! ## The graph -/

/-- The attributes of a node that is shown with a label. -/
def nodeAttributes (label : String) : Table Value :=
  [(.text "label", .scalar (.text label)), (.text "shape", .scalar (.text nodeShape))]

/-- The attributes of an edge that is shown with a slot. -/
def edgeAttributes (slot : Int) : Table Value :=
  [(.text "label", .scalar (.text (String.ofList (intText slot))))]

/-- The graph of a forest whose nodes have the given labels. -/
def drawn (f : Forest) (nodes : List (NodeId × String)) : Graph :=
  numbered (nodes.map fun node => (node.1, nodeAttributes node.2))
    (f.edges.map fun edge => (edge.1, edge.2.2, edgeAttributes edge.2.1))

namespace WellFormed

variable (wf : f.WellFormed)
include wf

theorem map_id_inAge : f.inAge.map (·.id) = f.ids := by
  have hfind : ∀ n ∈ f.ids, (f.find? n).map (·.id) = some n := by
    intro n hn
    obtain ⟨t, ht, rfl⟩ := mem_ids.1 hn
    rw [wf.find?_eq_some_iff.2 ⟨ht, rfl⟩]
    rfl
  rw [inAge, List.map_filterMap, List.filterMap_congr hfind]
  exact List.filterMap_some

theorem nodup_edges : f.edges.Nodup := by
  rw [edges, List.nodup_flatMap]
  refine ⟨fun t ht => ?_, ?_⟩
  · refine List.Nodup.of_map (fun edge => edge.2.1) ?_
    rw [List.map_map]
    exact wf.nodup_slots (wf.mem_inAge_iff.1 ht)
  · have hnames := wf.nodup_names
    rw [← wf.map_id_inAge, List.Nodup, List.pairwise_map] at hnames
    refine hnames.imp fun hne edge ht hu => hne ?_
    obtain ⟨b, -, rfl⟩ := List.mem_map.1 ht
    obtain ⟨c, -, heq⟩ := List.mem_map.1 hu
    exact (congrArg (·.1) heq).symm

/-- No two edges have both ends in common. -/
theorem nodup_ends : (f.edges.map fun edge => (edge.1, edge.2.2)).Nodup := by
  refine List.Nodup.map_on ?_ wf.nodup_edges
  rintro ⟨p, s, c⟩ h ⟨q, s', d⟩ h' heq
  obtain ⟨rfl, rfl⟩ := Prod.mk.inj heq
  rw [(wf.arena.parent p s p s' c h h').2]

/-- Labels are listed by the names of the nodes. -/
theorem map_name_labels (h : f.labels = .ok nodes) : nodes.map (·.1) = f.ids := by
  have hids : List.Forall₂ (fun t node => t.id = node.1) f.inAge nodes :=
    (labels_eq_ok_iff.1 h).imp fun t node hnode => hnode.1.symm
  rw [← wf.map_id_inAge, ← List.forall₂_eq_eq_eq, List.forall₂_map_left_iff,
    List.forall₂_map_right_iff]
  exact hids.flip.imp fun _ _ => Eq.symm

/-- Every node and every edge is added for the first time, with all that it has. -/
theorem diagram_eq (hlabels : f.labels = .ok nodes)
    (hslots : ∀ edge ∈ f.edges, Writable edge.2.1) : f.diagram = .ok (f.drawn nodes) := by
  have hnames := wf.map_name_labels hlabels
  have hnodes : (nodes.map fun node => (node.1, nodeAttributes node.2)).map (·.1) = f.ids := by
    rw [List.map_map, ← hnames]
    rfl
  have hbuilt := foldl_addNode [] [] (fun node : NodeId × String => node.1)
    (fun node => nodeAttributes node.2) nodes (by
      rw [hnames]
      exact wf.nodup_names)
  have hjoined := foldl_addEdge (nodes.map fun node => (node.1, nodeAttributes node.2)) []
    (fun edge : NodeId × Int × NodeId => edge.1) (fun edge => edge.2.2)
    (fun edge => edgeAttributes edge.2.1) f.edges (by
      rw [hnodes]
      exact fun edge hedge => wf.ends_of_edge hedge) wf.nodup_ends
  rw [diagram, hlabels, slotLabels_eq_ok_iff.2 ⟨hslots, rfl⟩]
  show Except.ok (List.foldl (fun g (x : NodeId × NodeId × String) =>
    g.addEdge (.int x.1) (.int x.2.1) [(.text "label", .scalar (.text x.2.2))])
    (nodes.foldl (fun g node => g.addNode (.int node.1) (nodeAttributes node.2)) (numbered [] []))
    (f.edges.map _)) = _
  rw [hbuilt, List.foldl_map]
  show Except.ok (f.edges.foldl (fun g edge =>
    g.addEdge (.int edge.1) (.int edge.2.2) (edgeAttributes edge.2.1)) (numbered
      (nodes.map fun node => (node.1, nodeAttributes node.2)) [])) = _
  rw [hjoined]
  rfl

end WellFormed

/-! ## Lines -/

/-- The line of a node and its label. -/
def nodeLine (node : NodeId × String) : Text :=
  .ofChars (intText node.1) ++ Text.ofString " [label=" ++ dotText node.2 ++
    Text.ofString ", shape=\"box\"];"

/-- The line of an edge, which shows its slot. -/
def edgeLine (edge : NodeId × Int × NodeId) : Text :=
  .ofChars (intText edge.1) ++ Text.ofString " -> " ++ .ofChars (intText edge.2.2) ++
    Text.ofString " [label=" ++ dotText (.ofChars (intText edge.2.1)) ++ Text.ofString "];"

theorem plain_int (h : Writable n) : (Scalar.int n).plain = .ok (.ofChars (intText n)) := by
  have hshown : (Scalar.int n).shown = .ok (intText n) := Decimal.writeInt_eq_ok_iff.2 ⟨h, rfl⟩
  show ((Scalar.int n).shown >>= fun s => pure (Text.ofChars s)) = _
  rw [hshown]
  rfl

theorem dotNode_nodeAttributes (h : Writable n) (label : String) :
    dotNode (.int n) (nodeAttributes label) = .ok (nodeLine (n, label)) := by
  have hknown : knownAttributes (nodeAttributes label) =
      [("label", Text.ofString label), ("shape", Text.ofString nodeShape)].map fun entry =>
        (entry.1, .scalar (.text entry.2)) := rfl
  have hsorted : (nodeAttributes label).inOrder = .ok (nodeAttributes label) := rfl
  rw [dotNode, plain_int h, dotList_of_texts hsorted hknown]
  show Except.ok (_ ++ CodePoint.char ' ' :: _ ++ [CodePoint.char ';']) = _
  simp [nodeLine, dotPart, dotText, dotPoint, nodeShape, Text.ofString]

theorem dotEdge_edgeAttributes (hp : Writable p) (hc : Writable c) (s : Int) :
    dotEdge (.int p) (.int c) (edgeAttributes s) = .ok (edgeLine (p, s, c)) := by
  have hknown : knownAttributes (edgeAttributes s) =
      [("label", Text.ofChars (intText s))].map fun entry =>
        (entry.1, .scalar (.text entry.2)) := by
    simp [knownAttributes, edgeAttributes, dotName?, dotAttributes]
  have hsorted : (edgeAttributes s).inOrder = .ok (edgeAttributes s) := rfl
  rw [dotEdge, plain_int hp, plain_int hc, dotList_of_texts hsorted hknown]
  show Except.ok (_ ++ _ ++ _ ++ CodePoint.char ' ' :: _ ++ [CodePoint.char ';']) = _
  simp [edgeLine, dotPart, Text.ofString]

namespace WellFormed

variable (wf : f.WellFormed)
include wf

/-- Edges are attached by parent, the oldest first, and so they are listed. -/
theorem edgesInOrder_drawn (hlabels : f.labels = .ok nodes) :
    (f.drawn nodes).edgesInOrder = (f.drawn nodes).edges := by
  have hnames : (nodes.map fun node => (node.1, nodeAttributes node.2)).map (·.1) = f.ids := by
    rw [List.map_map, ← wf.map_name_labels hlabels]
    rfl
  refine edgesInOrder_numbered (fun n => ((f.find? n).elim [] (·.branches)).map
    fun branch => (branch.2.id, edgeAttributes branch.1)) ?_ ?_
  · rw [hnames]
    exact wf.nodup_names
  · rw [hnames, ← wf.map_id_inAge, List.flatMap_map, edges, List.map_flatMap]
    refine List.flatMap_congr fun t ht => ?_
    rw [wf.find?_eq_some_iff.2 ⟨wf.mem_inAge_iff.1 ht, rfl⟩, Option.elim_some, List.map_map,
      List.map_map]
    rfl

theorem dot_drawn (hlabels : f.labels = .ok nodes) :
    (f.drawn nodes).dot = .ok ([.char '\n'].intercalate
      (firstLine :: (nodes.map nodeLine ++ f.edges.map edgeLine) ++ [lastLine])) := by
  have hnames : ∀ n ∈ f.ids, Writable n := by
    intro n hn
    obtain ⟨t, ht, rfl⟩ := mem_ids.1 hn
    obtain ⟨node, -, -, hnode⟩ := exists_of_forall₂ (labels_eq_ok_iff.1 hlabels)
      (wf.mem_inAge_iff.2 ht)
    exact (Tree.label_eq_ok_iff.1 hnode).1
  refine Graph.dot_eq_ok_iff.2 ⟨_, _, ⟨?_, ?_⟩, rfl⟩
  · rw [drawn, numbered, List.forall₂_map_left_iff, List.forall₂_map_left_iff,
      List.forall₂_map_right_iff, List.forall₂_same]
    refine fun node hnode => dotNode_nodeAttributes (hnames _ ?_) _
    rw [← wf.map_name_labels hlabels]
    exact List.mem_map_of_mem hnode
  · rw [wf.edgesInOrder_drawn hlabels, drawn, numbered, List.forall₂_map_left_iff,
      List.forall₂_map_left_iff, List.forall₂_map_right_iff, List.forall₂_same]
    rintro ⟨p, s, c⟩ hedge
    obtain ⟨hp, hc⟩ := wf.ends_of_edge hedge
    exact dotEdge_edgeAttributes (hnames p hp) (hnames c hc) s

/-- What a forest is written as: a line for each node and for each edge, if all labels can be
    written. -/
theorem dot_eq_ok_iff :
    f.dot = .ok text ↔ ∃ nodes, f.labels = .ok nodes ∧ (∀ edge ∈ f.edges, Writable edge.2.1) ∧
      text = [.char '\n'].intercalate
        (firstLine :: (nodes.map nodeLine ++ f.edges.map edgeLine) ++ [lastLine]) := by
  constructor
  · intro h
    obtain ⟨graph, hgraph, h⟩ := exists_of_bind_eq_ok h
    obtain ⟨nodes, hlabels, hrest⟩ := exists_of_bind_eq_ok hgraph
    obtain ⟨slots, hslots, -⟩ := exists_of_bind_eq_ok hrest
    obtain ⟨hwritable, -⟩ := slotLabels_eq_ok_iff.1 hslots
    rw [wf.diagram_eq hlabels hwritable] at hgraph
    cases hgraph
    rw [wf.dot_drawn hlabels] at h
    exact ⟨nodes, hlabels, hwritable, (Except.ok.inj h).symm⟩
  · rintro ⟨nodes, hlabels, hslots, rfl⟩
    rw [Forest.dot, wf.diagram_eq hlabels hslots]
    exact wf.dot_drawn hlabels

end WellFormed

end Forest

end ShortCircuit

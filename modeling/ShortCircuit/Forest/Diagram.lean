/-
  ShortCircuit.Forest.Diagram

  A forest as a graph to look at: every node is a box that shows its name and
  what it is, and every edge shows the slot of the child it leads to.  An integer
  that is too long cannot be shown.
-/

import ShortCircuit.Forest
import ShortCircuit.Graph.Dot
import ShortCircuit.Kind.Label

namespace ShortCircuit

/-- The label of a node. -/
def Tree.label (t : Tree) : Except Fault String := do
  return String.ofList ((← Decimal.writeInt t.id) ++ ": ".toList ++ (← t.kind.label))

namespace Forest

/-- The trees below the nodes, the oldest node first. -/
def inAge (f : Forest) : List Tree := f.ids.filterMap f.find?

/-- The edges of the forest, by parent, those of one parent as they were attached. -/
def edges (f : Forest) : List (NodeId × Int × NodeId) :=
  f.inAge.flatMap fun t => t.branches.map fun (slot, child) => (t.id, slot, child.id)

/-- The shape of a node in a diagram. -/
def nodeShape : String := "box"

/-- The nodes with their labels, the oldest first. -/
def labels (f : Forest) : Except Fault (List (NodeId × String)) :=
  f.inAge.mapM fun t => do return (t.id, ← t.label)

/-- The edges with their labels, in their order. -/
def slotLabels (f : Forest) : Except Fault (List (NodeId × NodeId × String)) :=
  f.edges.mapM fun (parent, slot, child) => do
    return (parent, child, String.ofList (← Decimal.writeInt slot))

/-- The forest as a graph. -/
def diagram (f : Forest) : Except Fault Graph := do
  let entry (name value : String) : Scalar × Value := (.text name, .scalar (.text value))
  let nodes := (← f.labels).foldl (fun (g : Graph) (n, label) =>
    g.addNode (.int n) [entry "label" label, entry "shape" nodeShape]) Graph.empty
  return (← f.slotLabels).foldl (fun (g : Graph) (parent, child, label) =>
    g.addEdge (.int parent) (.int child) [entry "label" label]) nodes

/-- The forest in the DOT format. -/
def dot (f : Forest) : Except Fault Text := do (← f.diagram).dot

end Forest

end ShortCircuit

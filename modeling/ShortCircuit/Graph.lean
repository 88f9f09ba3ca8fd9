/-
  ShortCircuit.Graph

  Directed graphs whose nodes and edges carry attributes.  Nodes keep the order
  in which they came, and so do the edges that leave one node.  An edge brings
  its ends with it; what is added again only gains attributes.
-/

import ShortCircuit.Value

namespace ShortCircuit

/-- A directed graph with attributes. -/
structure Graph where
  nodes : Table (Table Value)
  edges : List (Scalar × Scalar × Table Value)

namespace Graph

def empty : Graph := ⟨[], []⟩

/-- Add a node, or attributes to one. -/
def addNode (g : Graph) (node : Scalar) (attributes : List (Scalar × Value)) : Graph :=
  { g with nodes := g.nodes.put node (((g.nodes.get? node).getD []).putAll attributes) }

/-- Add an edge between two nodes, or attributes to one, in a list of edges. -/
def putEdge (source sink : Scalar) (attributes : List (Scalar × Value)) :
    List (Scalar × Scalar × Table Value) → List (Scalar × Scalar × Table Value)
  | [] => [(source, sink, Table.ofList attributes)]
  | (a, b, old) :: rest =>
    if a.sameKey source && b.sameKey sink then (a, b, old.putAll attributes) :: rest
    else (a, b, old) :: putEdge source sink attributes rest

/-- Add an edge, or attributes to one. -/
def addEdge (g : Graph) (source sink : Scalar) (attributes : List (Scalar × Value)) : Graph :=
  let g := (g.addNode source []).addNode sink []
  { g with edges := putEdge source sink attributes g.edges }

/-- The edges, by the node they leave. -/
def edgesInOrder (g : Graph) : List (Scalar × Scalar × Table Value) :=
  g.nodes.flatMap fun (node, _) => (g.edges.filter (·.1.sameKey node)).map fun (_, edge) =>
    (node, edge)

end Graph

end ShortCircuit

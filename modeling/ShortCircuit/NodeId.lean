/-
  ShortCircuit.NodeId

  The names of nodes.
-/

namespace ShortCircuit

/-- The name of a node.  Names are handed out as 0, 1, 2, …; any other integer names no node,
    and a caller may still ask for it. -/
abbrev NodeId := Int

end ShortCircuit

/-
  ShortCircuit.Forest.Plan

  Plans of trees.  A plan names what is to stand at each slot of a new node:
  nothing, a node that exists already, or another new node.  Building it plants
  the new nodes from left to right, each after the ones below it.
-/

import ShortCircuit.Forest.Edit

namespace ShortCircuit

/-- What is to stand at a slot. -/
inductive Plan where
  | gap
  | existing (node : NodeId)
  | fresh (kind : Kind) (children : List Plan)

namespace Plan

mutual

/-- Build what a plan describes, and return the node, if there is to be one. -/
def build : Plan → Edit (Option NodeId)
  | gap => pure none
  | existing n => pure (some n)
  | fresh kind children => do
    let children ← buildAll children
    return some (← Edit.add kind children)

/-- Build plans one after another. -/
def buildAll : List Plan → Edit (List (Option NodeId))
  | [] => pure []
  | plan :: rest => do
    let first ← plan.build
    let others ← buildAll rest
    return first :: others

end

end Plan

end ShortCircuit

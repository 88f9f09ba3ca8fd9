/-
  ShortCircuit.Forest.Target

  The expression to simplify when someone points at a node.  Statements separate
  independent expressions: the search starts at the innermost expression around
  the node and ends below the next statement.
-/

import ShortCircuit.Forest
import ShortCircuit.Tree.Reduction

namespace ShortCircuit.Forest

/-- The expressions around a node, from the innermost one outwards, up to the next statement. -/
def region (f : Forest) (n : NodeId) : List Tree :=
  ((f.trail n).dropWhile fun t => !t.isExpression).takeWhile (·.isExpression)

/-- The outermost expression around a node that should be simplified. -/
def target? (f : Forest) (n : NodeId) : Option NodeId :=
  ((f.region n).filter (·.isSimplifiable)).getLast?.map (·.id)

/-- The first expression, children before parents, around which there is one to simplify. -/
def candidate? (f : Forest) : Option NodeId :=
  (f.walk .after).find? fun n =>
    ((f.find? n).elim false (·.isExpression)) && (f.target? n).isSome

end ShortCircuit.Forest

/-
  ShortCircuit.Forest.Caret

  The node that a caret in the source text points at: the innermost of those
  whose span holds the character behind the caret.  Where there is none, as at
  the end of the text, the character in front of the caret is taken.
-/

import ShortCircuit.Forest
import ShortCircuit.Tree.Print

namespace ShortCircuit

/-- Of several nodes with their depths, the first among the deepest. -/
def deepest? (nodes : List (NodeId × Nat)) : Option NodeId :=
  (nodes.foldl (fun best node =>
    match best with
    | some (_, depth) => if depth < node.2 then some node else best
    | none => some node) (none : Option (NodeId × Nat))).map (·.1)

namespace Forest

/-- The innermost node whose span holds the character at a position.  Depths are those in the
    forest as it is now, and each node concerned must still be there. -/
def innermost? (f : Forest) (spans : List Span) (position : Int) :
    Except Fault (Option NodeId) := do
  let nodes ← (spans.filter (·.covers position)).mapM fun span => do
    let _ ← f.get span.node
    return (span.node, (f.ancestors span.node).length)
  return deepest? nodes

/-- The node that a caret points at, given the spans of the text it stands in. -/
def elementAt (f : Forest) (spans : List Span) (offset : Int) :
    Except Fault (Option NodeId) := do
  match ← f.innermost? spans offset with
  | some n => return some n
  | none => f.innermost? spans (offset - 1)

/-- The node that a caret in the text of the root points at; none where there is no unique
    root, and so no text. -/
def elementInRoot (f : Forest) (offset : Int) : Except Fault (Option NodeId) :=
  match f.root? with
  | none => .ok none
  | some root => do
    let t ← f.get root
    let _ ← t.render
    f.elementAt t.print.spans offset

end Forest

end ShortCircuit

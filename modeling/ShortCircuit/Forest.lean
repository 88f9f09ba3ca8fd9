/-
  ShortCircuit.Forest

  A collection of syntax trees whose nodes all have names of their own.  Names
  are handed out in turn and never again, so that the order of names is the
  order in which nodes came to be.  What a caller can ask about a node (where
  it hangs, what hangs below it, what lies above it) is read off the trees.
-/

import ShortCircuit.Fault
import ShortCircuit.Tree

namespace ShortCircuit

/-- Syntax trees, and the name for the next node. -/
structure Forest where
  trees : List Tree
  next : NodeId

namespace Forest

def empty : Forest := ⟨[], 0⟩

/-! ## Nodes -/

/-- The trees and all trees below them, one for each node. -/
def subtrees (f : Forest) : List Tree := f.trees.flatMap (·.subtrees)

private def inOrder (ids : List NodeId) : List NodeId := sortBy (fun a b => decide (a ≤ b)) ids

/-- The names of all nodes, the oldest first. -/
def ids (f : Forest) : List NodeId := inOrder (f.subtrees.map (·.id))

/-- The number of nodes. -/
def size (f : Forest) : Nat := f.subtrees.length

def contains (f : Forest) (n : NodeId) : Bool := f.subtrees.any (·.id == n)

/-- The tree below a node. -/
def find? (f : Forest) (n : NodeId) : Option Tree := f.subtrees.find? (·.id == n)

/-- The tree below a node that has to exist. -/
def get (f : Forest) (n : NodeId) : Except Fault Tree :=
  match f.find? n with
  | some t => .ok t
  | none => .error (.unknownNode n)

theorem id_of_find? {f : Forest} {n : NodeId} {t : Tree} (h : f.find? n = some t) :
    t.id = n := by
  simpa using List.find?_some h

/-! ## Roots -/

/-- The nodes that hang nowhere, the oldest first. -/
def roots (f : Forest) : List NodeId := inOrder (f.trees.map (·.id))

/-- The root, if there is exactly one. -/
def root? (f : Forest) : Option NodeId :=
  match f.roots with
  | [n] => some n
  | _ => none

/-! ## Places -/

/-- The parent of a node and the slot at which it hangs, unless it is a root. -/
def place? (f : Forest) (n : NodeId) : Option (NodeId × Int) :=
  f.subtrees.findSome? fun t =>
    (t.branches.find? (·.2.id == n)).map fun branch => (t.id, branch.1)

/-- The trees that contain a node, from the one it heads to the whole one. -/
def trail (f : Forest) (n : NodeId) : List Tree :=
  (f.trees.find? fun t => !(t.trail n).isEmpty).elim [] (·.trail n)

/-- A node and all above it, moving towards the root. -/
def ancestors (f : Forest) (n : NodeId) : List NodeId := (f.trail n).map (·.id)

/-! ## Walks -/

/-- Walk all trees depth first.  Each node that has not been reached is the start of a walk of
    its own, the oldest first; hence a node older than its parent is reached without it. -/
def walk (f : Forest) (order : Tree.Order) : List NodeId :=
  f.ids.foldl (fun seen n => seen ++ (f.find? n).elim [] (·.walk order seen)) []

end Forest

end ShortCircuit

/-
  ShortCircuit.Forest.Edit

  Changes to a forest.  Planting, attaching, detaching and removing happen as a
  whole or not at all.  An `Edit` made of several such steps may fail on the
  way, and then the steps before stay done.
-/

import ShortCircuit.Forest

namespace ShortCircuit

/-! ## Single steps -/

namespace Forest

/-- Plant a tree of a single new node. -/
def plant (f : Forest) (kind : Kind) : NodeId × Forest :=
  (f.next, { trees := f.trees ++ [.node f.next kind []], next := f.next + 1 })

/-- Hang a root below another node, at a slot that is empty. -/
def attach (f : Forest) (parent child : NodeId) (slot : Int) : Except Fault Forest := do
  let above ← f.get parent
  let below ← f.get child
  if let some (holder, _) := f.place? child then throw (.alreadyAttached child holder)
  if (above.child? slot).isSome then throw (.slotOccupied slot parent)
  if child ∈ f.ancestors parent then throw (.wouldCycle child parent)
  let others := f.trees.filter (·.id != child)
  return { f with trees := others.map (·.graft parent (slot, below)) }

/-- Take a node off its parent, telling where it hung; a root stays as it is. -/
def detach (f : Forest) (n : NodeId) : Except Fault (Option (NodeId × Int) × Forest) := do
  let t ← f.get n
  match f.place? n with
  | none => return (none, f)
  | some place => return (some place, { f with trees := f.trees.map (·.prune n) ++ [t] })

/-- Take a node and all below it out of the forest. -/
def remove (f : Forest) (n : NodeId) : Except Fault Forest := do
  let (_, f) ← f.detach n
  return { f with trees := f.trees.filter (·.id != n) }

theorem size_plant (f : Forest) (kind : Kind) : (f.plant kind).2.size = f.size + 1 := by
  simp [plant, size, subtrees, Tree.subtrees_node]

end Forest

/-! ## Sequences of steps -/

/-- A change to a forest, made of steps one of which may fail. -/
abbrev Edit (α : Type) : Type := ExceptT Fault (StateM Forest) α

namespace Edit

/-- Ask a question about the forest. -/
def ask {α : Type} (question : Forest → Except Fault α) : Edit α := fun f => (question f, f)

/-- Make a step that happens as a whole or not at all. -/
def step {α : Type} (change : Forest → Except Fault (α × Forest)) : Edit α := fun f =>
  match change f with
  | .ok (a, f) => (.ok a, f)
  | .error fault => (.error fault, f)

def plant (kind : Kind) : Edit NodeId := step fun f => .ok (f.plant kind)

def attach (parent child : NodeId) (slot : Int) : Edit Unit :=
  step fun f => do return ((), ← f.attach parent child slot)

def detach (n : NodeId) : Edit (Option (NodeId × Int)) := step (·.detach n)

def remove (n : NodeId) : Edit Unit := step fun f => do return ((), ← f.remove n)

/-- Plant a node and hang existing roots below it, the one at position `i` at slot `i`. -/
def add (kind : Kind) (children : List (Option NodeId)) : Edit NodeId := do
  let n ← plant kind
  children.zipIdx.forM fun (child, i) =>
    match child with
    | some child => attach n child i
    | none => pure ()
  return n

/-- Whether one node may be put in the place of another: it must be a root, or lie below the
    node that it replaces. -/
def checkReplacement (f : Forest) (replacee replacement : NodeId) : Except Fault Unit := do
  let _ ← f.get replacee
  let _ ← f.get replacement
  if replacement = replacee then throw (.replacedByItself replacee)
  if (f.place? replacement).isSome && !(f.ancestors replacement).contains replacee then
    throw (.foreignReplacement replacement)

/-- Put a node in the place of another, and take out what is left of the latter. -/
def replace (replacee replacement : NodeId) : Edit Unit := do
  ask fun f => checkReplacement f replacee replacement
  let _ ← detach replacement
  let place ← detach replacee
  remove replacee
  match place with
  | some (parent, slot) => attach parent replacement slot
  | none => pure ()

end Edit

end ShortCircuit

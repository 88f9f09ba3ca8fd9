/-
  ShortCircuit.Forest.Query

  Questions of callers who may name no node at all, or one that does not exist.
  Where a question still makes sense without a node (an empty slot is of unknown
  value, and has nothing above it) it is answered; elsewhere it is refused.
-/

import ShortCircuit.Forest.Caret
import ShortCircuit.Forest.Target

namespace ShortCircuit.Forest

/-- The tree below a node that a caller names. -/
def named (f : Forest) : Option NodeId → Except Fault Tree
  | some n => f.get n
  | none => .error .noNode

def includes (f : Forest) (n : Option NodeId) : Bool := n.elim false f.contains

/-! ## Places -/

def parentOf (f : Forest) (n : Option NodeId) : Except Fault (Option NodeId) := do
  return (f.place? (← f.named n).id).map (·.1)

def slotOf (f : Forest) (n : Option NodeId) : Except Fault (Option Int) := do
  return (f.place? (← f.named n).id).map (·.2)

def childrenOf (f : Forest) (n : Option NodeId) : Except Fault (List NodeId) := do
  return (← f.named n).children.map (·.id)

def childOf (f : Forest) (n : Option NodeId) (slot : Int) : Except Fault (Option NodeId) := do
  return ((← f.named n).child? slot).map (·.id)

/-- A node and all above it; above nothing there is nothing. -/
def ancestorsOf (f : Forest) : Option NodeId → Except Fault (List NodeId)
  | none => .ok []
  | some n => do
    let _ ← f.get n
    return f.ancestors n

/-- A node and all below it, the oldest first. -/
def descendantsOf (f : Forest) (n : Option NodeId) : Except Fault (List NodeId) := do
  return sortBy (fun a b => decide (a ≤ b)) (← f.named n).ids

/-- Walk the tree below a node, or all trees. -/
def walkFrom (f : Forest) (order : Tree.Order) : Option NodeId → Except Fault (List NodeId)
  | none => .ok (f.walk order)
  | some n =>
    match f.find? n with
    | some t => .ok (t.walk order [])
    | none => .error (.unknownStart n)

/-! ## Analyses -/

def truthOf (f : Forest) : Option NodeId → Except Fault Truth
  | none => .ok .unknown
  | some n => do return (← f.get n).truth

def purityOf (f : Forest) : Option NodeId → Except Fault Purity
  | none => .ok .unknown
  | some n => do return (← f.get n).purity

/-- The expression to simplify around a node. -/
def targetOf (f : Forest) : Option NodeId → Except Fault (Option NodeId)
  | none => .ok none
  | some n => do
    let _ ← f.get n
    return f.target? n

def isApplicableAt (f : Forest) (n : Option NodeId) : Except Fault Bool := do
  return (← f.targetOf n).isSome

/-- Whether there is an expression to simplify around a caret in the text of the root. -/
def isApplicable (f : Forest) (offset : Int) : Except Fault Bool := do
  match ← f.elementInRoot offset with
  | some n => f.isApplicableAt (some n)
  | none => return false

/-! ## Text -/

/-- The tree to print: that below a node, or that of the root. -/
def toPrint (f : Forest) : Option NodeId → Except Fault Tree
  | some n => f.get n
  | none =>
    match f.root? with
    | some root => f.get root
    | none => .error .noUniqueRoot

def renderOf (f : Forest) (n : Option NodeId) : Except Fault String := do
  return String.ofList (← (← f.toPrint n).render)

end ShortCircuit.Forest

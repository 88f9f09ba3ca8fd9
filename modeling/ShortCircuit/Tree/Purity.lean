/-
  ShortCircuit.Tree.Purity

  Whether an expression can be evaluated without side effects and without
  failing.  The analysis looks at the text alone and is careful: operators may
  be overloaded, casts and indexing may fail, and what a call does is not known.
  An expression may be nested to any depth; the bound of a machine on nested
  calls is abstracted from.
-/

import ShortCircuit.Purity
import ShortCircuit.Tree

namespace ShortCircuit

/-- The verdict on a node, given the verdicts on its children. -/
def Purity.ofOperands (kind : Kind) (operands : List (Int × Purity)) : Purity :=
  let operand (slot : Int) := (operands.lookup slot).getD .unknown
  match kind with
  | .literal _ | .path _ | .qualifiedPath _ | .unit => .pure
  | .breakLoop | .continueLoop | .returnEarly | .propagate => .impure
  -- The size of a repeated array is a constant of the program.
  | .paren | .fieldAccess _ | .array true => operand 0
  | .array false | .tuple => allOf (operands.map (·.2))
  | .record _ fields false => allOf ((List.range fields.length).map fun (i : Nat) => operand i)
  | _ => .unknown

/-- The purity of an expression. -/
def Tree.purity : Tree → Purity :=
  Tree.fold fun _ kind operands => .ofOperands kind operands

theorem Tree.purity_node (id : NodeId) (kind : Kind) (branches : List (Int × Tree)) :
    (Tree.node id kind branches).purity =
      .ofOperands kind (branches.map fun b => (b.1, b.2.purity)) :=
  fold_node ..

end ShortCircuit

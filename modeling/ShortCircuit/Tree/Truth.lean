/-
  ShortCircuit.Tree.Truth

  The value of a boolean expression, where it is known without running the
  program.  Boolean literals, parentheses, `!`, `&&`, `||` and `^` take part;
  everything else, and an empty slot, is unknown.  `&&` and `||` are evaluated
  short-circuit, so `false && x` is false whatever `x` is, even missing.  An
  expression may be nested to any depth; the bound of a machine on nested calls
  is abstracted from.
-/

import ShortCircuit.Tree

namespace ShortCircuit

/-- The value of a node, given the values of its children. -/
def Truth.ofOperands (kind : Kind) (operands : List (Int × Truth)) : Truth :=
  let operand (slot : Int) := (operands.lookup slot).getD .unknown
  match kind with
  | .literal (.bool b) => .ofBool b
  | .binary .logicalAnd => (operand 0).andThen (operand 1)
  | .binary .logicalOr => (operand 0).orElse (operand 1)
  | .binary .bitwiseXor => (operand 0).exclusiveOr (operand 1)
  | .unary tokens =>
    if UnaryOperator.ofTokens? tokens = some .logicalNot then (operand 0).negate else .unknown
  | .paren => operand 0
  | _ => .unknown

/-- The statically known value of an expression. -/
def Tree.truth : Tree → Truth :=
  Tree.fold fun _ kind operands => .ofOperands kind operands

theorem Tree.truth_node (id : NodeId) (kind : Kind) (branches : List (Int × Tree)) :
    (Tree.node id kind branches).truth =
      .ofOperands kind (branches.map fun b => (b.1, b.2.truth)) :=
  fold_node ..

end ShortCircuit

/-
  ShortCircuit.Tree.Reduction

  What an expression reduces to: a constant, or one of its operands.  Two
  questions are answered here, each by its own rules.  Whether an expression
  should be simplified is asked by those who look for something to simplify;
  it minds side effects.  What it reduces to is asked when it is replaced.

  * a constant expression reduces to its value;
  * `true && e` and `false || e` reduce to `e`;
  * `e && true` and `e || false` reduce to `e`;
  * `e && false` and `e || true` reduce to a constant.

  Both ask for the values of operands, which may be nested to any depth; the
  bound of a machine on nested calls is abstracted from.
-/

import ShortCircuit.Fault
import ShortCircuit.Tree.Purity
import ShortCircuit.Tree.Truth

namespace ShortCircuit

/-- The outcome of simplifying an expression. -/
inductive Reduction where
  | constant (value : Bool)
  /-- The operand of this name takes the place of the whole. -/
  | operand (node : NodeId)
  deriving DecidableEq

namespace Tree

/-- The neutral value of the operator, where the node is made by a short-circuit one. -/
def neutral? (t : Tree) : Option Truth :=
  match t.kind with
  | .binary op => op.neutral?
  | _ => none

/-- Whether `left` and `right`, joined by an operator with this neutral value, should be
    simplified.  A right operand that decides the whole makes its evaluation superfluous, and
    that of the left one too: both must be free of side effects. -/
def shouldJoin (neutral : Truth) (left right : Tree) : Bool :=
  left.truth.isKnown || right.truth == neutral ||
    (left.purity.mayDiscard && right.purity.mayDiscard && right.truth.isKnown)

/-- Whether the expression should be simplified. -/
def isSimplifiable (t : Tree) : Bool :=
  (!t.kind.isLiteral && t.truth.isKnown) ||
    match t.neutral?, t.child? 0, t.child? 1 with
    | some neutral, some left, some right => shouldJoin neutral left right
    | _, _, _ => false

/-- What `left` and `right` reduce to when they are joined by an operator with this neutral
    value and the value of the whole is unknown. -/
def joinReduction (neutral : Truth) (left right : Tree) : Except Refusal Reduction :=
  if left.truth.isKnown then
    if left.truth = neutral then .ok (.operand right.id)
    else .error (.leftMismatch neutral left.truth)
  else if right.truth = neutral then .ok (.operand left.id)
  else
    match right.truth.toBool? with
    | some value => .ok (.constant value)
    | none => .error .neitherKnown

/-- What the expression reduces to. -/
def reduction (t : Tree) : Except Refusal Reduction :=
  match t.truth.toBool? with
  | some value => .ok (.constant value)
  | none =>
    match t.neutral? with
    | none => .error .unknownValue
    | some neutral =>
      match t.child? 0, t.child? 1 with
      | some left, some right => joinReduction neutral left right
      | _, _ => .error .missingOperand

end Tree

end ShortCircuit

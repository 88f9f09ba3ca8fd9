/-
  ShortCircuit.Kind

  The kinds of nodes.  A node carries only what belongs to itself, such as an
  operator or a name; its operands are its children, each at a slot of its own.
  The comments show which slot holds what, with `?` for one that may be empty.
-/

import ShortCircuit.Literal
import ShortCircuit.Operator

namespace ShortCircuit

/-- What a node is: an expression, or one of the two kinds of statements at the end. -/
inductive Kind where
  /-- Shape: `true`, `42`, `1.5` or a text -/
  | literal (value : Literal)
  /-- Shape: left(0) op right(1)? -/
  | binary (operator : BinaryOperator)
  /-- Shape: op operand(0)? -/
  | unary (tokens : UnaryTokens)
  /-- Shape: ( inner(0) ) -/
  | paren
  /-- Shape: a list of elements, or [ value(0) ; size(1) ] -/
  | array (repeated : Bool)
  /-- Shape: ( elements ) -/
  | tuple
  /-- Shape: name { field: value(i), …, ..base }, the base behind the last field -/
  | record (name : String) (fields : List String) (spread : Bool)
  /-- Shape: base(0) . field -/
  | fieldAccess (field : String)
  /-- Shape: `x` or `std::f64::consts::PI` -/
  | path (path : String)
  /-- Shape: `<T as Default>::default` -/
  | qualifiedPath (path : String)
  /-- Shape: `()` -/
  | unit
  /-- Shape: statements, and maybe an expression at the end -/
  | block (isUnsafe : Bool)
  /-- Shape: operand(0) as type -/
  | cast (typeName : String)
  /-- Shape: callee(0) ( arguments ) -/
  | call
  /-- Shape: for pattern in iterable(0) body(1) -/
  | forLoop (pattern : String)
  /-- Shape: if condition(0) block(1) else otherwise(2)? -/
  | conditional
  /-- Shape: base(0) [ index(1) ] -/
  | index
  /-- Shape: |parameters| body(0) -/
  | lambda (parameters : List String)
  /-- Shape: loop body(0) -/
  | loop
  /-- Shape: name!( arguments ) -/
  | macroCall (name : String)
  /-- Shape: match scrutinee(0) { pattern => body(i), … }, counted from one -/
  | matchOn (patterns : List String)
  /-- Shape: receiver(0) . method ( arguments ) -/
  | methodCall (method : String)
  /-- Shape: start(0)? .. end(1)? -/
  | range (inclusive : Bool)
  /-- Shape: while condition(0) body(1) -/
  | whileLoop
  /-- Shape: break value(0)? -/
  | breakLoop
  /-- Shape: continue -/
  | continueLoop
  /-- Shape: return value(0)? -/
  | returnEarly
  /-- Shape: operand(0) ? -/
  | propagate
  /-- Shape: let name = initializer(0)? ; -/
  | letBinding (name : String)
  /-- Shape: expression(0) ; -/
  | statement
  deriving DecidableEq

namespace Kind

/-- Statements stand for themselves; every other kind is an expression. -/
def isExpression : Kind → Bool
  | letBinding _ | statement => false
  | _ => true

def isLiteral : Kind → Bool
  | literal _ => true
  | _ => false

/-- The slot of the base of a record, which stands behind the last field. -/
def spreadSlot? : Kind → Option Nat
  | record _ fields _ => some fields.length
  | _ => none

def isBoolean : Kind → Bool
  | literal value => value.isBoolean
  | _ => false

/-- The operator that the tokens of a unary expression spell, if they spell one. -/
def unaryOperator? : Kind → Option UnaryOperator
  | unary tokens => UnaryOperator.ofTokens? tokens
  | _ => none

/-- Equality of kinds: literals are compared by value, all else by what it carries. -/
def same : Kind → Kind → Bool
  | literal a, literal b => a.same b
  | a, b => a == b

/-- How many different kinds there are in a list. -/
def classes : List Kind → Nat
  | [] => 0
  | kind :: rest => classes rest + if rest.any (same kind) then 0 else 1

end Kind

end ShortCircuit

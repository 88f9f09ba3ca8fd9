/-
  ShortCircuit.Kind.Label

  What a node is, as text on one line: the name of its kind, and in parentheses
  each attribute with its value.  The same table of names and attributes serves
  whoever exchanges nodes with another program.
-/

import ShortCircuit.Kind
import ShortCircuit.Literal.Source
import ShortCircuit.Text.Quoted

namespace ShortCircuit

/-- The value of one attribute of a node. -/
inductive Attribute where
  | literal (value : Literal)
  | operator (value : BinaryOperator)
  | tokens (value : UnaryTokens)
  | flag (value : Bool)
  | text (value : String)
  | texts (value : List String)

namespace Kind

/-- The name of the kind. -/
def kindName : Kind → String
  | literal .. => "Literal"
  | binary .. => "BinaryExpression"
  | unary .. => "UnaryExpression"
  | paren => "ParenExpression"
  | array .. => "ArrayExpression"
  | tuple => "TupleExpression"
  | record .. => "StructLiteral"
  | fieldAccess .. => "FieldAccess"
  | path .. => "PathExpression"
  | qualifiedPath .. => "QualifiedPathExpression"
  | unit => "UnitExpression"
  | block .. => "BlockExpression"
  | cast .. => "CastExpression"
  | call => "CallExpression"
  | forLoop .. => "ForExpression"
  | conditional => "IfExpression"
  | index => "IndexExpression"
  | lambda .. => "LambdaExpression"
  | loop => "LoopExpression"
  | macroCall .. => "MacroExpression"
  | matchOn .. => "MatchExpression"
  | methodCall .. => "MethodCallExpression"
  | range .. => "RangeExpression"
  | whileLoop => "WhileExpression"
  | breakLoop => "BreakExpression"
  | continueLoop => "ContinueExpression"
  | returnEarly => "ReturnExpression"
  | propagate => "TryExpression"
  | letBinding .. => "LetStatement"
  | statement => "ExpressionStatement"

/-- The attributes of a node, in their order. -/
def attributes : Kind → List (String × Attribute)
  | literal value => [("value", .literal value)]
  | binary operator => [("operation", .operator operator)]
  | unary tokens => [("tokens", .tokens tokens)]
  | array repeated => [("repeat", .flag repeated)]
  | record name fields spread =>
    [("name", .text name), ("fields", .texts fields), ("has_spread", .flag spread)]
  | fieldAccess field => [("field", .text field)]
  | .path p => [("path", .text p)]
  | .qualifiedPath p => [("path", .text p)]
  | block isUnsafe => [("unsafe", .flag isUnsafe)]
  | cast typeName => [("type_name", .text typeName)]
  | forLoop pattern => [("pattern", .text pattern)]
  | lambda parameters => [("parameters", .texts parameters)]
  | macroCall name => [("name", .text name)]
  | matchOn patterns => [("patterns", .texts patterns)]
  | methodCall method => [("method", .text method)]
  | range inclusive => [("inclusive", .flag inclusive)]
  | letBinding name => [("name", .text name)]
  | _ => []

/-- The name of the kind in small letters, words set off by underscores. -/
def snakeName (k : Kind) : String :=
  let letters := k.kindName.toList.flatMap fun c =>
    if c.isUpper then ['_', c.toLower] else [c]
  String.ofList (letters.drop 1)

/-- The name of the handler that a node of this kind is dispatched to. -/
def handlerName (k : Kind) : String := "visit_" ++ k.snakeName

end Kind

/-! ## Labels -/

def flagLabel (b : Bool) : List Char := (if b then "True" else "False").toList

/-- A list in parentheses; a single element is followed by a comma. -/
def tupleLabel : List (List Char) → List Char
  | [] => "()".toList
  | [x] => '(' :: x ++ ",)".toList
  | xs => '(' :: ", ".toList.intercalate xs ++ [')']

namespace Literal

/-- A literal as an attribute shows it. -/
def label : Literal → Except Fault (List Char)
  | bool b => .ok (flagLabel b)
  | int n => Decimal.writeInt n
  | float x => .ok x.text
  | text s => .ok (Text.quoted s)

end Literal

def UnaryToken.label (t : UnaryToken) : String := s!"<UnaryToken.{t.name}: '{t.spelling}'>"

def UnaryTokens.label (tokens : UnaryTokens) : String :=
  match tokens.toList with
  | [] => "frozenset()"
  | ts => "frozenset(\x7b" ++ ", ".intercalate (ts.map (·.label)) ++ "\x7d)"

def BinaryOperator.label (op : BinaryOperator) : String :=
  s!"<BinaryOperator.{op.name}: {op.number}>"

def Attribute.label : Attribute → Except Fault (List Char)
  | literal value => value.label
  | operator value => .ok value.label.toList
  | tokens value => .ok value.label.toList
  | flag value => .ok (flagLabel value)
  | text value => .ok (Text.quoted value)
  | texts values => .ok (tupleLabel (values.map fun s : String => Text.quoted s))

/-- A node as text on one line. -/
def Kind.label (k : Kind) : Except Fault (List Char) := do
  let attributes ← k.attributes.mapM fun (name, value) => do
    return name.toList ++ '=' :: (← value.label)
  return k.kindName.toList ++ '(' :: ", ".toList.intercalate attributes ++ [')']

end ShortCircuit

/-
  ShortCircuit.Graph.Dot

  Graphs in the DOT format: a line for each node, then one for each edge.  In
  each line the attributes are put in the order of their names, which fails if
  two names have no order, and those that the format knows are written.
-/

import ShortCircuit.Graph
import ShortCircuit.Sorting
import ShortCircuit.Value.Text

namespace ShortCircuit

/-! ## The order of names -/

namespace Scalar

def isNumber : Scalar → Bool
  | bool _ | int _ | float _ => true
  | null | text _ => false

/-- Whether two keys have an order: two texts have one, and so have two numbers. -/
def comparable : Scalar → Scalar → Bool
  | text _, text _ => true
  | a, b => a.isNumber && b.isNumber

/-- Whether a key may stand in front of another one.  Texts go by their code points.  Numbers are
    names of nothing that is written, and stay as they are. -/
def mayPrecede : Scalar → Scalar → Bool
  | text s, text t => s.mayPrecede t
  | _, _ => true

end Scalar

namespace Table

variable {α : Type}

/-- The first two neighbours that have no order. -/
def clash? : List Scalar → Option (Scalar × Scalar)
  | a :: b :: rest => if a.comparable b then clash? (b :: rest) else some (a, b)
  | _ => none

/-- The entries of a table in the order of their keys, if all of them have one. -/
def inOrder (table : Table α) : Except Fault (Table α) :=
  match clash? (table.map (·.1)) with
  | some (a, b) => .error (.incomparable b.typeName a.typeName)
  | none => .ok (sortBy (fun a b => a.1.mayPrecede b.1) table)

end Table

namespace Graph

/-! ## Quotes -/

/-- A code point between the quotes: the quote is escaped, and a line stays one line. -/
def dotPoint : CodePoint → Text
  | .char '"' => [.char '\\', .char '"']
  | .char '\n' => [.char '\\', .char 'n']
  | point => [point]

/-- A text in quotes. -/
def dotText (s : Text) : Text := .char '"' :: s.flatMap dotPoint ++ [.char '"']

/-! ## Attributes -/

/-- The attributes that are written. -/
def dotAttributes : List String := ["color", "dir", "fillcolor", "label", "shape", "style"]

/-- The name of an attribute that is written. -/
def dotName? : Scalar → Option String
  | .text name => dotAttributes.find? fun known => decide (Text.ofString known = name)
  | _ => none

/-- What is written for one attribute. -/
def dotPart (name : String) (value : Text) : Text := name ++ .char '=' :: dotText value

/-- The attributes of a node or an edge. -/
def dotList (attributes : Table Value) : Except Fault Text := do
  let known := (← attributes.inOrder).filterMap fun (key, value) => (dotName? key).map (·, value)
  let parts ← known.mapM fun (name, value) => do return dotPart name (← value.plain)
  return .char '[' :: (", " : Text).intercalate parts ++ [.char ']']

/-! ## Lines -/

def dotNode (node : Scalar) (attributes : Table Value) : Except Fault Text := do
  return (← node.plain) ++ .char ' ' :: (← dotList attributes) ++ [.char ';']

def dotEdge (source sink : Scalar) (attributes : Table Value) : Except Fault Text := do
  return (← source.plain) ++ Text.ofString " -> " ++ (← sink.plain) ++
    .char ' ' :: (← dotList attributes) ++ [.char ';']

/-- The line above all nodes. -/
def firstLine : Text := "digraph  \x7b"

/-- The line below all edges. -/
def lastLine : Text := "\x7d"

/-- The graph in the DOT format. -/
def dot (g : Graph) : Except Fault Text := do
  let nodes ← g.nodes.mapM fun (node, attributes) => dotNode node attributes
  let edges ← g.edgesInOrder.mapM fun (source, sink, attributes) =>
    dotEdge source sink attributes
  return [.char '\n'].intercalate (firstLine :: (nodes ++ edges) ++ [lastLine])

end Graph

end ShortCircuit

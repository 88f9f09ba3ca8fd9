/-
  ShortCircuit.Fault

  Everything that can go wrong, one constructor for each cause, and the text
  that a caller is shown for it.  What a cause needs to be told apart (nodes,
  slots, texts, counts) is carried by its constructor.
-/

import ShortCircuit.NodeId
import ShortCircuit.Purity
import ShortCircuit.Text.CodePoint
import ShortCircuit.Truth

namespace ShortCircuit

/-- Why an expression reduces to nothing. -/
inductive Refusal where
  /-- Neither is its value known, nor is it made by a short-circuit operator. -/
  | unknownValue
  | missingOperand
  /-- The left operand decides the whole, whose value is unknown nevertheless. -/
  | leftMismatch (expected got : Truth)
  | neitherKnown
  deriving DecidableEq

/-- The causes of failure. -/
inductive Fault where
  /-- The caller named a node that does not exist. -/
  | unknownNode (node : NodeId)
  /-- The caller named no node where one is needed. -/
  | noNode
  | alreadyAttached (child parent : NodeId)
  | slotOccupied (slot : Int) (parent : NodeId)
  /-- The child is the parent or one of its ancestors. -/
  | wouldCycle (child parent : NodeId)
  | replacedByItself (node : NodeId)
  /-- The replacement hangs in a tree, and not below the node it is to replace. -/
  | foreignReplacement (node : NodeId)
  /-- There is no root, or more than one, and a text was asked for. -/
  | noUniqueRoot
  /-- A walk was to start at a node that does not exist. -/
  | unknownStart (node : NodeId)
  /-- No expression around the node can be simplified. -/
  | notApplicable (node : Option NodeId)
  | noElementAt (offset : Int)
  /-- The expression of this text reduces to nothing. -/
  | refused (reason : Refusal) (text : String)
  | notALiteral (text : String)
  | unknownEscape (text : String)
  | codePointTooLarge
  /-- An integer with too many digits to be read. -/
  | numeralTooLong (digits : Nat)
  /-- An integer with too many digits to be written. -/
  | integerTooLong
  | invalidSetting (key : Text)
  /-- The settings last read have no entry of this key to add to. -/
  | unknownSource (key : Text)
  /-- The value has neither items nor characters. -/
  | noMembers (typeName : String)
  /-- A value that should be an entry has neither items nor characters. -/
  | entryWithoutMembers (index : Nat)
  /-- A value that should be an entry has not two members. -/
  | entryLength (index length : Nat)
  /-- The value cannot serve as a key. -/
  | noKey (typeName : String)
  /-- Two values of these types have no order. -/
  | incomparable (left right : String)
  | unknownLevel
  /-- A three-valued verdict was used where only true or false will do. -/
  | truthAsBool (value : Truth)
  | purityAsBool (value : Purity)
  deriving DecidableEq

namespace Fault

/-- The longest integer, in digits, that is read or written. -/
def digitLimit : Nat := 4300

private def exceeds (what : String) : String :=
  s!"Exceeds the limit ({digitLimit} digits) for integer string conversion{what}; " ++
    "use sys.set_int_max_str_digits() to increase the limit"

private def asBool (description : String) : String :=
  s!"<{description}> cannot be directly converted to a boolean value."

private def unknown (node : String) : String := s!"Node {node} is not part of the tree."

private def inapplicable (node : String) : String :=
  s!"No simplifiable boolean expression at node {node}."

private def entry (index : Nat) : String := s!"dictionary update sequence element #{index}"

/-- What a caller is told. -/
def message : Fault → Text
  | unknownNode node => unknown (toString node)
  | noNode => unknown "None"
  | alreadyAttached child parent => s!"Node {child} is already attached to {parent}."
  | slotOccupied slot parent => s!"Slot {slot} of node {parent} is already occupied."
  | wouldCycle child parent => s!"Attaching {child} to {parent} would introduce a cycle."
  | replacedByItself node => s!"Can not replace node {node} with itself."
  | foreignReplacement node =>
    s!"Replacement {node} is attached outside of the replaced subtree."
  | noUniqueRoot => "The tree has no unique root to generate code for."
  | unknownStart node => s!"The node {node} is not in the digraph."
  | notApplicable (some node) => inapplicable (toString node)
  | notApplicable none => inapplicable "None"
  | noElementAt offset => s!"No element at offset {offset}."
  | refused .unknownValue text => s!"Can't simplify '{text}' of unknown value."
  | refused .missingOperand text => s!"Can't simplify '{text}' with a missing operand."
  | refused (.leftMismatch expected got) text =>
    s!"Left operand of '{text}' should be {expected.name}, got {got.name}."
  | refused .neitherKnown text =>
    s!"Can't simplify '{text}', neither operand has a known value."
  | notALiteral text => s!"'{text}' is not a literal expression."
  | unknownEscape text => s!"Unknown escape sequence '{text}'."
  | codePointTooLarge => "chr() arg not in range(0x110000)"
  | numeralTooLong digits => exceeds s!": value has {digits} digits"
  | integerTooLong => exceeds ""
  | invalidSetting key => "Invalid setting for " ++ key
  | unknownSource key => key
  | noMembers typeName => s!"'{typeName}' object is not iterable"
  | entryWithoutMembers index => s!"cannot convert {entry index} to a sequence"
  | entryLength index length => s!"{entry index} has length {length}; 2 is required"
  | noKey typeName => s!"unhashable type: '{typeName}'"
  | incomparable left right =>
    s!"'<' not supported between instances of '{left}' and '{right}'"
  | unknownLevel => "Unable to configure logger ''"
  | truthAsBool value => asBool s!"BoolValue.{value.name}: '{value.name}'"
  | purityAsBool value => asBool s!"PurityValue.{value.name}: '{value.name}'"

end Fault

end ShortCircuit

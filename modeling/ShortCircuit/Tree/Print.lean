/-
  ShortCircuit.Tree.Print

  The source text of a tree, together with the span of every node in it.  Spans
  are half-open and count characters; they are listed in the order in which the
  nodes were finished, so children stand before their parents.  A literal that
  cannot be written stops the printing; what was finished before it remains.
  A tree of any height is printed; the bound of a machine on nested calls is
  abstracted from.
-/

import ShortCircuit.Kind.Layout
import ShortCircuit.Literal.Source
import ShortCircuit.Tree

namespace ShortCircuit

/-- The stretch of text from `start` up to but not including `stop` that a node was written to. -/
structure Span where
  node : NodeId
  start : Nat
  stop : Nat
  deriving DecidableEq

namespace Span

def shift (offset : Nat) (s : Span) : Span := ⟨s.node, s.start + offset, s.stop + offset⟩

/-- Whether the character at a position lies in the span. -/
def covers (s : Span) (position : Int) : Bool :=
  decide ((s.start : Int) ≤ position) && decide (position < s.stop)

end Span

/-- Text with the spans of the nodes finished in it, and what stopped the printing, if
    anything did. -/
structure Printed where
  text : List Char
  spans : List Span
  fault : Option Fault

namespace Printed

def empty : Printed := ⟨[], [], none⟩

def ofText (text : List Char) : Printed := ⟨text, [], none⟩

/-- One text behind the other, unless the first one was stopped. -/
def append (a b : Printed) : Printed :=
  if a.fault.isSome then a
  else ⟨a.text ++ b.text, a.spans ++ b.spans.map (.shift a.text.length), b.fault⟩

@[simp] theorem empty_append (p : Printed) : append empty p = p := by
  have unshifted : p.spans.map (Span.shift 0) = p.spans := by
    simp [List.map_congr_left (g := id) fun s _ => show Span.shift 0 s = s from rfl]
  simp [append, empty, unshifted]

@[simp] theorem append_empty (p : Printed) : append p empty = p := by
  unfold append
  split
  · rfl
  · rename_i h
    obtain ⟨text, spans, fault⟩ := p
    cases fault with
    | none => simp [empty]
    | some => simp at h

/-- How texts are grouped makes no difference. -/
theorem append_assoc (a b c : Printed) : append (append a b) c = append a (append b c) := by
  obtain ⟨_, _, _ | fault⟩ := a
  · obtain ⟨_, _, _ | fault⟩ := b <;>
      simp [append, Span.shift, Function.comp_def, Nat.add_comm, Nat.add_left_comm]
  · simp [append]

def concat (parts : List Printed) : Printed := parts.foldr append empty

/-- Finish a node: its span is all that was printed for it. -/
def finish (node : NodeId) (p : Printed) : Printed :=
  if p.fault.isSome then p else { p with spans := p.spans ++ [⟨node, 0, p.text.length⟩] }

/-- The text, if all of it could be written. -/
def result (p : Printed) : Except Fault (List Char) :=
  match p.fault with
  | some fault => .error fault
  | none => .ok p.text

end Printed

/-- Print a piece of a node, given what was printed for its children. -/
def Piece.print (operands : List (Int × Printed)) : Piece → Printed
  | words text => .ofText text.toList
  | literal value =>
    match value.source with
    | .ok text => .ofText text
    | .error fault => ⟨[], [], some fault⟩
  | operand slot => (operands.lookup slot).getD .empty

/-- Print a node, given what was printed for its children. -/
def Printed.ofOperands (id : NodeId) (kind : Kind) (operands : List (Int × Printed)) : Printed :=
  let slots := sortBy (fun a b => decide (a ≤ b)) (operands.map (·.1))
  (Printed.concat ((kind.layout slots).map (Piece.print operands))).finish id

namespace Tree

/-- Print a tree. -/
def print : Tree → Printed := fold .ofOperands

/-- The source text of a tree. -/
def render (t : Tree) : Except Fault (List Char) := t.print.result

theorem print_node (id : NodeId) (kind : Kind) (branches : List (Int × Tree)) :
    (node id kind branches).print =
      .ofOperands id kind (branches.map fun b => (b.1, b.2.print)) :=
  fold_node ..

end Tree

end ShortCircuit

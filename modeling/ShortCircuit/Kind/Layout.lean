/-
  ShortCircuit.Kind.Layout

  How a node is written: the pieces of its source text from left to right, given
  which of its slots are occupied.  A piece is fixed words, a literal, or the
  text of the child at a slot; an empty slot is written as nothing.  Parentheses
  come from parenthesis nodes alone, so that the text has the shape of the tree.
-/

import ShortCircuit.Kind

namespace ShortCircuit

/-- A part of the source text of a node. -/
inductive Piece where
  | words (text : String)
  | literal (value : Literal)
  | operand (slot : Int)
  deriving DecidableEq

namespace Piece

/-- The children at the given slots, separated by commas. -/
def listed (slots : List Int) : List Piece :=
  (slots.map operand).intersperse (words ", ")

/-- A slot that may be empty, with what is written in front of it if it is not. -/
def optional (slots : List Int) (slot : Int) (before : String) : List Piece :=
  if slots.contains slot then [words before, operand slot] else []

end Piece

namespace Kind

open Piece

/-- The fields of a record, each with its value unless it is a shorthand. -/
def fieldPieces (slots : List Int) (fields : List String) : List Piece :=
  fields.zipIdx.flatMap fun (field, i) =>
    words ((if i = 0 then " " else ", ") ++ field) :: optional slots i ": "

/-- The arms of a match, the first one at slot one. -/
def armPieces (patterns : List String) : List Piece :=
  patterns.zipIdx.flatMap fun (pattern, i) =>
    [words s!" {pattern} => ", operand (i + 1 : Nat), words ","]

/-- The arguments of a call, which stand behind slot zero. -/
def argumentPieces (slots : List Int) : List Piece :=
  listed (slots.filter fun slot => decide (1 ≤ slot))

/-- The pieces of the source text of a node whose occupied slots are given in order. -/
def layout (kind : Kind) (slots : List Int) : List Piece :=
  match kind with
  | literal value => [.literal value]
  | binary op => [operand 0, words (" " ++ op.symbol)] ++ optional slots 1 " "
  | unary tokens => [words tokens.spelling, operand 0]
  | paren => [words "(", operand 0, words ")"]
  | array true => [words "[", operand 0, words "; ", operand 1, words "]"]
  | array false => [words "["] ++ listed slots ++ [words "]"]
  | tuple => [words "("] ++ listed slots ++ [words (if slots.length = 1 then ",)" else ")")]
  | record name fields spread =>
    [words (name ++ " \x7b")] ++ fieldPieces slots fields ++
      (if spread then [words (if fields.isEmpty then " .." else ", .."), operand fields.length]
       else []) ++
      [words (if fields.isEmpty && !spread then "\x7d" else " \x7d")]
  | fieldAccess field => [operand 0, words ("." ++ field)]
  | path p | qualifiedPath p => [words p]
  | unit => [words "()"]
  | block isUnsafe =>
    [words (if isUnsafe then "unsafe " else "")] ++
      (if slots.isEmpty then [words "\x7b\x7d"]
       else [words "\x7b"] ++ slots.flatMap (fun slot => [words " ", operand slot]) ++
         [words " \x7d"])
  | cast typeName => [operand 0, words (" as " ++ typeName)]
  | call => [operand 0, words "("] ++ argumentPieces slots ++ [words ")"]
  | forLoop pattern => [words s!"for {pattern} in ", operand 0, words " ", operand 1]
  | conditional =>
    [words "if ", operand 0, words " ", operand 1] ++ optional slots 2 " else "
  | index => [operand 0, words "[", operand 1, words "]"]
  | lambda parameters => [words ("|" ++ ", ".intercalate parameters ++ "| "), operand 0]
  | loop => [words "loop ", operand 0]
  | macroCall name => [words (name ++ "!(")] ++ listed slots ++ [words ")"]
  | matchOn patterns =>
    [words "match ", operand 0, words " \x7b"] ++ armPieces patterns ++ [words " \x7d"]
  | methodCall method =>
    [operand 0, words s!".{method}("] ++ argumentPieces slots ++ [words ")"]
  | range inclusive => [operand 0, words (if inclusive then "..=" else ".."), operand 1]
  | whileLoop => [words "while ", operand 0, words " ", operand 1]
  | breakLoop => [words "break"] ++ optional slots 0 " "
  | continueLoop => [words "continue"]
  | returnEarly => [words "return"] ++ optional slots 0 " "
  | propagate => [operand 0, words "?"]
  | letBinding name => [words ("let " ++ name)] ++ optional slots 0 " = " ++ [words ";"]
  | statement => [operand 0, words ";"]

end Kind

end ShortCircuit

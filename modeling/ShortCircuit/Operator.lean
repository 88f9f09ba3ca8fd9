/-
  ShortCircuit.Operator

  The operators of binary and unary expressions.  A binary operator has a
  symbol, a name and a place in the list of all of them.  A unary operator is
  spelled by the set of tokens in front of its operand, and not every set of
  tokens spells one.
-/

import ShortCircuit.Truth

namespace ShortCircuit

/-! ## Binary operators -/

/-- The binary operators, the two short-circuit ones among them. -/
inductive BinaryOperator where
  | plus
  | minus
  | multiply
  | divide
  | modulo
  | bitwiseAnd
  | bitwiseOr
  | bitwiseXor
  | leftShift
  | rightShift
  | logicalAnd
  | logicalOr
  | equal
  | notEqual
  | less
  | lessOrEqual
  | greater
  | greaterOrEqual
  | assign
  | plusAssign
  | minusAssign
  | multiplyAssign
  | divideAssign
  | moduloAssign
  | bitwiseAndAssign
  | bitwiseOrAssign
  | bitwiseXorAssign
  | leftShiftAssign
  | rightShiftAssign
  deriving DecidableEq

namespace BinaryOperator

/-- All binary operators, in the order of their numbers. -/
def all : List BinaryOperator :=
  [.plus, .minus, .multiply, .divide, .modulo, .bitwiseAnd, .bitwiseOr, .bitwiseXor,
   .leftShift, .rightShift, .logicalAnd, .logicalOr, .equal, .notEqual, .less,
   .lessOrEqual, .greater, .greaterOrEqual, .assign, .plusAssign, .minusAssign,
   .multiplyAssign, .divideAssign, .moduloAssign, .bitwiseAndAssign, .bitwiseOrAssign,
   .bitwiseXorAssign, .leftShiftAssign, .rightShiftAssign]

def symbol : BinaryOperator → String
  | .plus => "+"
  | .minus => "-"
  | .multiply => "*"
  | .divide => "/"
  | .modulo => "%"
  | .bitwiseAnd => "&"
  | .bitwiseOr => "|"
  | .bitwiseXor => "^"
  | .leftShift => "<<"
  | .rightShift => ">>"
  | .logicalAnd => "&&"
  | .logicalOr => "||"
  | .equal => "=="
  | .notEqual => "!="
  | .less => "<"
  | .lessOrEqual => "<="
  | .greater => ">"
  | .greaterOrEqual => ">="
  | .assign => "="
  | .plusAssign => "+="
  | .minusAssign => "-="
  | .multiplyAssign => "*="
  | .divideAssign => "/="
  | .moduloAssign => "%="
  | .bitwiseAndAssign => "&="
  | .bitwiseOrAssign => "|="
  | .bitwiseXorAssign => "^="
  | .leftShiftAssign => "<<="
  | .rightShiftAssign => ">>="

def name : BinaryOperator → String
  | .plus => "plus"
  | .minus => "minus"
  | .multiply => "multiply"
  | .divide => "divide"
  | .modulo => "modulo"
  | .bitwiseAnd => "bitwise_and"
  | .bitwiseOr => "bitwise_or"
  | .bitwiseXor => "bitwise_xor"
  | .leftShift => "left_shift"
  | .rightShift => "right_shift"
  | .logicalAnd => "logical_and"
  | .logicalOr => "logical_or"
  | .equal => "equal"
  | .notEqual => "not_equal"
  | .less => "less"
  | .lessOrEqual => "less_or_equal"
  | .greater => "greater"
  | .greaterOrEqual => "greater_or_equal"
  | .assign => "assign"
  | .plusAssign => "plus_assign"
  | .minusAssign => "minus_assign"
  | .multiplyAssign => "multiply_assign"
  | .divideAssign => "divide_assign"
  | .moduloAssign => "modulo_assign"
  | .bitwiseAndAssign => "bitwise_and_assign"
  | .bitwiseOrAssign => "bitwise_or_assign"
  | .bitwiseXorAssign => "bitwise_xor_assign"
  | .leftShiftAssign => "left_shift_assign"
  | .rightShiftAssign => "right_shift_assign"

/-- The operator of a given name, if there is one. -/
def ofName? (name : String) : Option BinaryOperator :=
  all.find? (·.name == name)

/-- Operators are numbered from one, in the order of `all`. -/
def number (op : BinaryOperator) : Nat := all.idxOf op + 1

/-- The neutral value of a short-circuit operator: as an operand it leaves the other one as
    it is, while its opposite on the left decides the whole.  No other operator has one. -/
def neutral? : BinaryOperator → Option Truth
  | .logicalAnd => some .yes
  | .logicalOr => some .no
  | _ => none

/-- The operators that leave their right operand alone when the left one decides. -/
def isShortCircuit (op : BinaryOperator) : Bool := op.neutral?.isSome

theorem mem_all (op : BinaryOperator) : op ∈ all := by
  cases op <;> decide

theorem ofName?_name (op : BinaryOperator) : ofName? op.name = some op := by
  cases op <;> decide

end BinaryOperator

/-! ## Tokens in front of an operand -/

/-- A token that may stand in front of the operand of a unary expression. -/
inductive UnaryToken where
  | ampersand
  | mutable
  | asterisk
  | minus
  | exclamation
  | box
  deriving DecidableEq

namespace UnaryToken

def all : List UnaryToken := [.ampersand, .mutable, .asterisk, .minus, .exclamation, .box]

def name : UnaryToken → String
  | .ampersand => "ampersand"
  | .mutable => "mut"
  | .asterisk => "asterisk"
  | .minus => "minus"
  | .exclamation => "exclamation"
  | .box => "box"

def ofName? (name : String) : Option UnaryToken :=
  all.find? (·.name == name)

/-- How the token is written. -/
def spelling : UnaryToken → String
  | .ampersand => "&"
  | .mutable => "mut"
  | .asterisk => "*"
  | .minus => "-"
  | .exclamation => "!"
  | .box => "box"

/-- All tokens in the order of their spellings. -/
def bySpelling : List UnaryToken := [.exclamation, .ampersand, .asterisk, .minus, .box, .mutable]

end UnaryToken

/-- A set of tokens: one membership flag for each. -/
structure UnaryTokens where
  ampersand : Bool
  mutable : Bool
  asterisk : Bool
  minus : Bool
  exclamation : Bool
  box : Bool
  deriving DecidableEq

namespace UnaryTokens

def has (tokens : UnaryTokens) : UnaryToken → Bool
  | .ampersand => tokens.ampersand
  | .mutable => tokens.mutable
  | .asterisk => tokens.asterisk
  | .minus => tokens.minus
  | .exclamation => tokens.exclamation
  | .box => tokens.box

/-- The set of the listed tokens; order and repetition do not matter. -/
def ofList (tokens : List UnaryToken) : UnaryTokens where
  ampersand := tokens.contains .ampersand
  mutable := tokens.contains .mutable
  asterisk := tokens.contains .asterisk
  minus := tokens.contains .minus
  exclamation := tokens.contains .exclamation
  box := tokens.contains .box

def toList (tokens : UnaryTokens) : List UnaryToken :=
  UnaryToken.all.filter tokens.has

@[simp] theorem has_ofList (tokens : List UnaryToken) (t : UnaryToken) :
    (ofList tokens).has t = tokens.contains t := by
  cases t <;> rfl

theorem mem_toList {tokens : UnaryTokens} {t : UnaryToken} :
    t ∈ tokens.toList ↔ tokens.has t = true := by
  simp only [toList, List.mem_filter, and_iff_right_iff_imp]
  intro _
  cases t <;> decide

end UnaryTokens

/-! ## Unary operators -/

/-- The unary operators. -/
inductive UnaryOperator where
  | reference
  | mutableReference
  | dereference
  | minus
  | logicalNot
  | box
  deriving DecidableEq

namespace UnaryOperator

def all : List UnaryOperator :=
  [.reference, .mutableReference, .dereference, .minus, .logicalNot, .box]

def name : UnaryOperator → String
  | .reference => "ref"
  | .mutableReference => "ref_mut"
  | .dereference => "deref"
  | .minus => "minus"
  | .logicalNot => "not_"
  | .box => "box"

def ofName? (name : String) : Option UnaryOperator :=
  all.find? (·.name == name)

/-- The tokens that spell the operator. -/
def tokens : UnaryOperator → UnaryTokens
  | .reference => .ofList [.ampersand]
  | .mutableReference => .ofList [.ampersand, .mutable]
  | .dereference => .ofList [.asterisk]
  | .minus => .ofList [.minus]
  | .logicalNot => .ofList [.exclamation]
  | .box => .ofList [.box]

/-- The operator that a set of tokens spells, if it spells one. -/
def ofTokens? (tokens : UnaryTokens) : Option UnaryOperator :=
  all.find? (·.tokens == tokens)

/-- What is written in front of the operand. -/
def symbol : UnaryOperator → String
  | .reference => "&"
  | .mutableReference => "&mut "
  | .dereference => "*"
  | .minus => "-"
  | .logicalNot => "!"
  | .box => "box "

theorem ofTokens?_tokens (op : UnaryOperator) : ofTokens? op.tokens = some op := by
  cases op <;> decide

end UnaryOperator

/-- What is written in front of the operand: the symbol of the operator spelled, and where none
    is, the tokens one after another in the order of their spellings. -/
def UnaryTokens.spelling (tokens : UnaryTokens) : String :=
  match UnaryOperator.ofTokens? tokens with
  | some op => op.symbol
  | none => " ".intercalate ((UnaryToken.bySpelling.filter tokens.has).map (·.spelling)) ++ " "

end ShortCircuit

/-
  ShortCircuit.Json.Reader

  Reading JSON text, with three names for numbers that have no digits: `NaN`,
  `Infinity` and `-Infinity`.  A number with a point or an exponent is one of
  the binary format, any other an integer, and an integer may be too long to be
  read.  Of entries with equal keys the last one counts.

  Lists and tables may be nested as deep as the text goes.  A machine bounds how
  deep calls may be nested and gives up beyond; that bound is abstracted from,
  here and in all functions that go down a tree or a value.
-/

import ShortCircuit.Decimal.Notation
import ShortCircuit.Text.Hex
import ShortCircuit.Value

namespace ShortCircuit.Json

/-- Why a text cannot be read. -/
inductive Unreadable where
  /-- The text is no JSON. -/
  | malformed
  | fault (cause : Fault)

/-- What a reader makes of the front of a text, with the rest of the text. -/
abbrev Front (α : Type) : Type := α × List Char

def isBlank (c : Char) : Bool := c = ' ' || c = '\t' || c = '\n' || c = '\r'

def skipBlanks (s : List Char) : List Char := s.dropWhile isBlank

/-- Take fixed words off the front of a text. -/
def afterWords? (words : String) (s : List Char) : Option (List Char) :=
  if words.toList.isPrefixOf s then some (s.drop words.length) else none

/-! ## Numbers -/

/-- The digits before any point: a zero stands alone. -/
def wholeDigits : List Char → List Nat × List Char
  | '0' :: rest => ([0], rest)
  | s => Decimal.spanDigits s

/-- Read a number whose sign, if any, has been taken off. -/
def readUnsigned (negative : Bool) (s : List Char) : Except Unreadable (Front Scalar) :=
  match wholeDigits s with
  | ([], _) => .error .malformed
  | (whole, rest) =>
    let (tail, rest) := Decimal.spanTail rest
    if tail.isEmpty then
      match Decimal.readInt negative whole with
      | .ok n => .ok (.int n, rest)
      | .error cause => .error (.fault cause)
    else .ok (.float (Decimal.nearest negative whole tail), rest)

def readNumber : List Char → Except Unreadable (Front Scalar)
  | '-' :: rest => readUnsigned true rest
  | s => readUnsigned false s

/-! ## Texts -/

/-- The 16-bit unit of four hexadecimal digits. -/
def unit? (s : List Char) : Option Nat :=
  if 4 ≤ s.length then Text.readHex? (s.take 4) else none

/-- The low half of a pair of units, if its escape follows. -/
def lowUnit? : List Char → Option Nat
  | '\\' :: 'u' :: rest =>
    (unit? rest).filter fun unit => decide (0xDC00 ≤ unit) && decide (unit ≤ 0xDFFF)
  | _ => none

/-- The letters that stand for a character behind a backslash. -/
def letters : List (Char × Char) :=
  [('"', '"'), ('\\', '\\'), ('/', '/'), ('b', '\x08'), ('f', '\x0c'), ('n', '\n'), ('r', '\r'),
    ('t', '\t')]

/-- The code point that an escape stands for, given what follows its backslash, and how many
    characters the escape takes behind the backslash.  Half of a pair whose other half does not
    follow stands for itself. -/
def escape? : List Char → Option (CodePoint × Nat)
  | 'u' :: rest => do
    let unit ← unit? rest
    if isHalf : 0xD800 ≤ unit ∧ unit ≤ 0xDFFF then
      match (if unit < 0xDC00 then lowUnit? (rest.drop 4) else none) with
      | some low => return (Char.ofNat (0x10000 + (unit - 0xD800) * 0x400 + (low - 0xDC00)), 11)
      | none => return (.half unit isHalf, 5)
    else return (Char.ofNat unit, 5)
  | c :: _ => (letters.lookup c).map (.char ·, 1)
  | [] => none

/-- Read a text up to its closing quote, passing over `skip` characters first. -/
def textFrom? (skip : Nat) : List Char → Option (Text × List Char)
  | [] => none
  | c :: rest =>
    match skip with
    | skip + 1 => textFrom? skip rest
    | 0 =>
      if c = '"' then some ([], rest)
      else if c = '\\' then do
        let (point, length) ← escape? rest
        let (text, rest) ← textFrom? length rest
        return (point :: text, rest)
      else if c.toNat < 0x20 then none
      else do
        let (text, rest) ← textFrom? 0 rest
        return (.char c :: text, rest)

/-- Read a text whose opening quote has been taken off. -/
def readText (s : List Char) : Except Unreadable (Front Text) :=
  match textFrom? 0 s with
  | some found => .ok found
  | none => .error .malformed

/-! ## Values -/

/-- The scalars that are written as words. -/
def wordScalars : List (String × Scalar) :=
  [("null", .null), ("true", .bool true), ("false", .bool false), ("NaN", .float .nan),
    ("Infinity", .float (.infinite false)), ("-Infinity", .float (.infinite true))]

def readScalar (s : List Char) : Except Unreadable (Front Scalar) :=
  match wordScalars.findSome? fun (word, value) => (afterWords? word s).map (value, ·) with
  | some found => .ok found
  | none => readNumber s

mutual

/-- Read a value.  The fuel bounds the number of values and entries; the length of the text is
    always enough. -/
def readValue (fuel : Nat) (s : List Char) : Except Unreadable (Front Value) :=
  match fuel with
  | 0 => .error .malformed
  | fuel + 1 =>
    match s with
    | '"' :: rest => do
      let (text, rest) ← readText rest
      return (.scalar (.text text), rest)
    | '[' :: rest =>
      match skipBlanks rest with
      | ']' :: rest => .ok (.list [], rest)
      | rest => do
        let (items, rest) ← readItems fuel rest
        return (.list items, rest)
    | '\x7b' :: rest =>
      match skipBlanks rest with
      | '\x7d' :: rest => .ok (.table [], rest)
      | rest => do
        let (entries, rest) ← readEntries fuel rest
        return (.table (Table.ofList entries), rest)
    | s => do
      let (scalar, rest) ← readScalar s
      return (.scalar scalar, rest)

/-- Read the items of a list up to the closing bracket; there is at least one. -/
def readItems (fuel : Nat) (s : List Char) : Except Unreadable (Front (List Value)) :=
  match fuel with
  | 0 => .error .malformed
  | fuel + 1 => do
    let (item, rest) ← readValue fuel s
    match skipBlanks rest with
    | ']' :: rest => return ([item], rest)
    | ',' :: rest =>
      let (items, rest) ← readItems fuel (skipBlanks rest)
      return (item :: items, rest)
    | _ => throw .malformed

/-- Read the entries of a table up to the closing brace; there is at least one. -/
def readEntries (fuel : Nat) (s : List Char) : Except Unreadable (Front (List (Scalar × Value))) :=
  match fuel with
  | 0 => .error .malformed
  | fuel + 1 =>
    match s with
    | '"' :: rest => do
      let (key, rest) ← readText rest
      match skipBlanks rest with
      | ':' :: rest =>
        let (value, rest) ← readValue fuel (skipBlanks rest)
        match skipBlanks rest with
        | '\x7d' :: rest => return ([(.text key, value)], rest)
        | ',' :: rest =>
          let (entries, rest) ← readEntries fuel (skipBlanks rest)
          return ((.text key, value) :: entries, rest)
        | _ => throw .malformed
      | _ => throw .malformed
    | _ => throw .malformed

end

/-- Read a value from the whole of a text, which may have blanks around it. -/
def read (s : List Char) : Except Unreadable Value := do
  let (value, rest) ← readValue (2 * s.length + 1) (skipBlanks s)
  if (skipBlanks rest).isEmpty then return value else throw .malformed

end ShortCircuit.Json

/-
  ShortCircuit.Literal.Grammar

  Reading a literal from source text: `true` and `false`, an integer, a number
  with a decimal point, or a text between double quotes.  Digits may be those
  of any script.  Inside the quotes, a backslash starts an escape: one of a few
  letters, `x` with two hexadecimal digits, or `u` with one to six in braces.
-/

import ShortCircuit.Decimal.Numeral
import ShortCircuit.Literal.Source
import ShortCircuit.Text.Blank
import ShortCircuit.Text.Digit
import ShortCircuit.Text.Hex

namespace ShortCircuit.Literal

open Text (digitValue? hexValue? readHex? spanDigits)

/-! ## Numbers -/

/-- Split off a minus sign. -/
def splitSign : List Char → Bool × List Char
  | '-' :: rest => (true, rest)
  | s => (false, s)

/-- A number read from the whole of a text. -/
def readNumber? (s : List Char) : Option (Except Fault Literal) :=
  let (negative, s) := splitSign s
  match spanDigits s with
  | ([], _) => none
  | (whole, []) => some ((Decimal.readInt negative whole).map .int)
  | (whole, '.' :: rest) =>
    match spanDigits rest with
    | ([], _) => none
    | (fraction, []) =>
      let digits := Decimal.natOfDigits (whole ++ fraction)
      some (.ok (.float (.ofDecimal negative digits (-fraction.length))))
    | _ => none
  | _ => none

/-! ## Texts -/

/-- What stands between the opening quote, already taken off, and the closing one, which must
    end the text.  A backslash and the character behind it, not a line break, belong together. -/
def content? : List Char → Option (List Char)
  | [] => none
  | '"' :: rest => if rest.isEmpty then some [] else none
  | '\\' :: c :: rest => if c = '\n' then none else (content? rest).map ('\\' :: c :: ·)
  | ['\\'] => none
  | c :: rest => (content? rest).map (c :: ·)

/-- The character that a letter behind a backslash stands for. -/
def escaped? (letter : Char) : Option Char :=
  if letter = '\'' then some '\'' else (escapes.find? (·.2 == letter)).map (·.1)

/-- The character of a code point.  Half of a surrogate pair is no character. -/
def charOfCode (n : Nat) : Except Fault Char :=
  if n ≥ 0x110000 then .error .codePointTooLarge
  else if n.isValidChar then .ok (Char.ofNat n)
  else .ok '\uFFFD'

/-- The digits of an escape by code point, which follows the letter `u`. -/
def bracedCode? : List Char → Option (List Char)
  | '\x7b' :: rest =>
    let digits := rest.takeWhile fun c => (hexValue? c).isSome
    if 1 ≤ digits.length && digits.length ≤ 6 && (rest.drop digits.length).head? == some '\x7d'
    then some digits else none
  | _ => none

/-- The digits of an escape by a code below 128, which follows the letter `x`. -/
def asciiCode? : List Char → Option (List Char)
  | high :: low :: _ =>
    if '0' ≤ high && high ≤ '7' && (hexValue? low).isSome then some [high, low] else none
  | _ => none

/-- The character that an escape stands for, given what follows its backslash, and how many
    characters the escape takes behind the backslash. -/
def escape (s : List Char) : Except Fault (Char × Nat) :=
  let byCode (digits : List Char) (length : Nat) : Except Fault (Char × Nat) := do
    return (← charOfCode ((readHex? digits).getD 0), length)
  let byLetter : Except Fault (Char × Nat) :=
    match s.head?.bind escaped? with
    | some c => .ok (c, 1)
    | none => .error (.unknownEscape (String.ofList ('\\' :: s.take 1)))
  match s with
  | 'u' :: rest =>
    match bracedCode? rest with
    | some digits => byCode digits (digits.length + 3)
    | none => byLetter
  | 'x' :: rest =>
    match asciiCode? rest with
    | some digits => byCode digits 3
    | none => byLetter
  | _ => byLetter

/-- Replace the escapes, from left to right, passing over `skip` characters first. -/
def unescapeFrom (skip : Nat) : List Char → Except Fault (List Char)
  | [] => .ok []
  | c :: rest =>
    match skip with
    | skip + 1 => unescapeFrom skip rest
    | 0 => do
      if c = '\\' then
        let (char, length) ← escape rest
        return char :: (← unescapeFrom length rest)
      else
        return c :: (← unescapeFrom 0 rest)

def unescape (s : List Char) : Except Fault (List Char) := unescapeFrom 0 s

/-- A text read from the whole of a text. -/
def readText? : List Char → Option (Except Fault Literal)
  | '"' :: rest =>
    (content? rest).map fun content => do return .text (String.ofList (← unescape content))
  | _ => none

/-! ## Literals -/

/-- Read a literal; blanks around it must have been removed. -/
def read (s : List Char) : Except Fault Literal :=
  if s = "true".toList then .ok (.bool true)
  else if s = "false".toList then .ok (.bool false)
  else ((readNumber? s).or (readText? s)).getD (.error (.notALiteral (String.ofList s)))

end ShortCircuit.Literal

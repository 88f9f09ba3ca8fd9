/-
  ShortCircuit.Verbosity

  How much the program tells: the number from which on messages are shown.  It
  is given as a number or by name, or a reference says where it stands; and
  where it is not given, the settings decide.
-/

import ShortCircuit.Settings
import ShortCircuit.Text.Blank

namespace ShortCircuit.Verbosity

/-! ## Names -/

/-- The names of levels, some of which share a number. -/
def levelNumbers : List (String × Int) :=
  [("CRITICAL", 50), ("FATAL", 50), ("ERROR", 40), ("WARNING", 30), ("WARN", 30), ("INFO", 20),
    ("DEBUG", 10), ("NOTSET", 0)]

/-- The level before any is asked for. -/
def initial : Int := 30

/-! ## References -/

/-- Where a value stands that is not written out. -/
inductive Reference where
  /-- In the setup of the messages, which is being worked through. -/
  | entry (path : List Char)
  /-- Outside, at a path of names with points between them. -/
  | constant (path : List Char)
  deriving DecidableEq

namespace Reference

/-- The text of a single line, which may end in a line break. -/
def singleLine? (s : List Char) : Option (List Char) :=
  let line := if s.getLast? = some '\n' then s.dropLast else s
  if line.contains '\n' then none else some line

/-- The reference that a text is, if it is one. -/
def ofText? : List Char → Option Reference
  | 'c' :: 'f' :: 'g' :: ':' :: '/' :: '/' :: path => (singleLine? path).map entry
  | 'e' :: 'x' :: 't' :: ':' :: '/' :: '/' :: path => (singleLine? path).map constant
  | _ => none

/-- The entries of the setup that are values: its version alone.  All others are groups of
    entries, or handlers and formatters that have been made from them, and hold no value. -/
def entries : List (String × Scalar) := [("version", .int 1)]

/-- The values outside, by their paths. -/
def constants : List (String × Scalar) :=
  levelNumbers.map (fun (name, number) => ("logging." ++ name, .int number)) ++
  [("logging.root.level", .int initial), ("logging.lastResort.level", .int 30),
    ("logging.raiseExceptions", .bool true), ("logging.logThreads", .bool true),
    ("logging.logProcesses", .bool true), ("logging.logMultiprocessing", .bool true),
    ("logging.config.DEFAULT_LOGGING_CONFIG_PORT", .int 9030),
    ("logging.handlers.DEFAULT_TCP_LOGGING_PORT", .int 9020),
    ("logging.handlers.DEFAULT_UDP_LOGGING_PORT", .int 9021),
    ("logging.handlers.DEFAULT_HTTP_LOGGING_PORT", .int 9022),
    ("logging.handlers.DEFAULT_SOAP_LOGGING_PORT", .int 9023),
    ("logging.handlers.SYSLOG_UDP_PORT", .int 514),
    ("logging.handlers.SYSLOG_TCP_PORT", .int 514),
    ("sys.maxsize", .int 0x7FFFFFFFFFFFFFFF), ("sys.maxunicode", .int 0x10FFFF),
    ("builtins.True", .bool true), ("builtins.False", .bool false), ("builtins.None", .null)]

/-- The value that a reference leads to, if it leads to one.  The path of an entry may have
    blanks around it. -/
def value? : Reference → Option Scalar
  | entry path => entries.lookup (String.ofList (Text.strip path))
  | constant path => constants.lookup (String.ofList path)

end Reference

/-! ## Requests -/

/-- A level, as it may be asked for. -/
inductive Request where
  | name (name : Text)
  | number (number : Int)

/-- What is asked for, a reference being followed.  A text with half of a pair in it is neither a
    reference that leads anywhere nor the name of a level. -/
def Request.value : Request → Except Fault Scalar
  | number n => .ok (.int n)
  | name s =>
    match s.toString?.bind fun s => Reference.ofText? s.toList with
    | none => .ok (.text s)
    | some reference =>
      match reference.value? with
      | some v => .ok v
      | none => .error .unknownLevel

/-- The level that a value stands for.  Numbers and truth values are levels themselves, a text
    is the name of one, and where there is nothing the level stays what it was. -/
def levelOf : Scalar → Except Fault Scalar
  | .null => .ok (.int initial)
  | .text s =>
    match s.toString?.bind fun name => levelNumbers.lookup name with
    | some n => .ok (.int n)
    | none => .error .unknownLevel
  | .float _ => .error .unknownLevel
  | v => .ok v

def Request.level (request : Request) : Except Fault Scalar := do levelOf (← request.value)

/-- The level that settings ask for. -/
def ofSettings (settings : Settings) : Except Fault Request := do
  let fallback := Value.scalar (.text "WARNING")
  return .name (← settings.getText (.text Settings.logLevelKey) (some fallback))

/-- The level to use: the one asked for, else that of the settings given, else that of the
    user's settings. -/
def level (request : Option Request) (settings : Option Settings) (userFile : Option String) :
    ExceptT Fault (StateM Journal) Scalar := do
  match request, settings with
  | some request, _ => request.level
  | none, some settings => (← ofSettings settings).level
  | none, none =>
    let settings ← Settings.ofUserFile userFile
    (← ofSettings settings).level

end ShortCircuit.Verbosity

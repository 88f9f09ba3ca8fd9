/-
  ShortCircuit.Settings

  Settings by key, with their defaults, and the settings of a user laid over
  them.  A setting is asked for with the type it should have; a value of another
  type, or none, makes the request fail, except that every value can be had as a
  text.  Each time settings are set up, the journal is told.
-/

import ShortCircuit.Journal
import ShortCircuit.Json.Printer
import ShortCircuit.Json.Reader
import ShortCircuit.Text.Lowercase
import ShortCircuit.Value.Text

namespace ShortCircuit

/-! ## Updates from values -/

namespace Value

/-- What a value yields one after another: its items, its keys, or its code points. -/
def members? : Value → Option (List Value)
  | list items => some items
  | table entries => some (entries.map fun (key, _) => scalar key)
  | scalar (.text s) => some (s.map fun point => scalar (.text [point]))
  | scalar _ => none

/-- A value read as an entry: two members, a key and a value.  The index is that of the value
    among its neighbours. -/
def toEntry (index : Nat) (v : Value) : Except Fault (Scalar × Value) :=
  match v.members? with
  | none => .error (.entryWithoutMembers index)
  | some [scalar key, value] => .ok (key, value)
  | some [key, _] => .error (.noKey key.typeName)
  | some members => .error (.entryLength index members.length)

/-- A value read as entries: those of a table, or the members of another value, each read as
    an entry. -/
def toEntries (v : Value) : Except Fault (List (Scalar × Value)) :=
  match v with
  | table entries => .ok entries
  | v =>
    match v.members? with
    | none => .error (.noMembers v.typeName)
    | some members => members.zipIdx.mapM fun (member, index) => member.toEntry index

end Value

/-- Settings by key. -/
structure Settings where
  entries : Table Value

namespace Settings

/-! ## Setting up -/

/-- Set up settings. -/
def ofEntries (entries : List (Scalar × Value)) : StateM Journal Settings := fun journal =>
  (⟨Table.ofList entries⟩, journal.note .debug "initialize Options")

def logLevelKey : String := "logging.log_level"

def iterationsKey : String := "simplify-boolean.max_iterations"

/-- The settings that hold where nothing else is said. -/
def defaultEntries : List (Scalar × Value) :=
  [(.text logLevelKey, .scalar (.text "WARNING")), (.text iterationsKey, .scalar (.int 100))]

/-- Set up the default settings. -/
def defaults : StateM Journal Settings := ofEntries defaultEntries

/-- Where the settings of the user are kept. -/
def userFile : String := "config.json"

/-- Lay entries over the settings. -/
def update (settings : Settings) (entries : List (Scalar × Value)) : Settings :=
  ⟨settings.entries.putAll entries⟩

/-- Set up the default settings and lay over them what the user's file holds, if there is one.
    A file that cannot be read leaves the defaults as they are; one that can, but holds no
    entries, is a fault. -/
def ofUserFile (content : Option String) : ExceptT Fault (StateM Journal) Settings := do
  let settings ← defaults
  match content with
  | none => return settings
  | some text =>
    modify (·.note .debug s!"user config found at {userFile}")
    match Json.read text.toList with
    | .ok value => return settings.update (← value.toEntries)
    | .error (.fault cause) => throw cause
    | .error .malformed =>
      modify (·.note .warning s!"could not load user config at {userFile}")
      return settings

/-! ## Access -/

def set (settings : Settings) (key : Scalar) (value : Value) : Settings :=
  ⟨settings.entries.put key value⟩

/-- The value of a setting, or the fallback where there is no entry.  An entry that holds
    nothing hides the fallback. -/
def value? (settings : Settings) (key : Scalar) (fallback : Option Value) : Option Value :=
  ((settings.entries.get? key).or fallback).filter fun v => !v.isNull

/-- The request for a setting fails. -/
def invalid {α : Type} (key : Scalar) : Except Fault α := do
  throw (.invalidSetting (← key.plain))

/-- A setting as a text; what is no text is written in small letters. -/
def getText (settings : Settings) (key : Scalar) (fallback : Option Value) :
    Except Fault Text :=
  match settings.value? key fallback with
  | none => invalid key
  | some (.scalar (.text s)) => .ok s
  | some v => do return .ofChars (Text.lowercase (← v.shown))

def getFlag (settings : Settings) (key : Scalar) (fallback : Option Value) : Except Fault Bool :=
  match settings.value? key fallback with
  | some (.scalar (.bool b)) => .ok b
  | _ => invalid key

def getInt (settings : Settings) (key : Scalar) (fallback : Option Value) : Except Fault Int :=
  match settings.value? key fallback with
  | some (.scalar (.int n)) => .ok n
  | _ => invalid key

def getList (settings : Settings) (key : Scalar) (fallback : Option Value) :
    Except Fault (List Value) :=
  match settings.value? key fallback with
  | some (.list items) => .ok items
  | _ => invalid key

/-- Append a value to the list that an entry holds. -/
def appendTo (entries : Table Value) (key : Scalar) (value : Value) :
    Except Fault (Table Value) :=
  match entries.get? key with
  | some (.list items) => .ok (entries.put key (.list (items ++ [value])))
  | _ => do throw (.unknownSource (← key.plain))

/-- The most expressions that a pass over a forest may simplify. -/
def maxIterations (settings : Settings) : Except Fault Int :=
  settings.getInt (.text iterationsKey) none

/-- The settings as JSON text. -/
def text (settings : Settings) : Except Fault String := do
  return String.ofList (← Json.write (.table settings.entries))

end Settings

end ShortCircuit

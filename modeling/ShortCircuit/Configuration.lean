/-
  ShortCircuit.Configuration

  Settings being worked on: the settings in force, the entries that were last
  copied into settings, and the journal.  Where setting up fails, the settings
  in force stay in force.
-/

import ShortCircuit.Settings

namespace ShortCircuit

/-- Settings being worked on. -/
structure Configuration where
  settings : Settings
  /-- The entries that settings were last copied from.  They can grow afterwards, and the
      settings do not follow. -/
  source : Table Value
  journal : Journal

/-- Work on settings, which can fail; what it has noted stays noted. -/
abbrev Configuring (α : Type) : Type := ExceptT Fault (StateM Configuration) α

namespace Configuration

variable {α : Type}

def start (threshold : Level) : Configuration := ⟨⟨[]⟩, [], .empty threshold⟩

/-- Put settings in force that are set up by work on the journal. -/
def install (work : ExceptT Fault (StateM Journal) Settings) : Configuring Unit := fun c =>
  match work c.journal with
  | (.ok settings, journal) => (.ok (), { c with settings, journal })
  | (.error fault, journal) => (.error fault, { c with journal })

/-- Start from entries. -/
def useEntries (entries : List (Scalar × Value)) : Configuring Unit :=
  install (liftM (Settings.ofEntries entries))

/-- Start from a copy of entries, which are remembered. -/
def copyEntries (entries : List (Scalar × Value)) : Configuring Unit := do
  modify fun c => { c with source := Table.ofList entries }
  useEntries entries

def useDefaults : Configuring Unit := install (liftM Settings.defaults)

/-- Start from the defaults and the settings of the user. -/
def useUserFile (content : Option String) : Configuring Unit :=
  install (Settings.ofUserFile content)

/-- Append a value to a list among the remembered entries. -/
def appendToSource (key : Scalar) (value : Value) : Configuring Unit := fun c =>
  match Settings.appendTo c.source key value with
  | .ok source => (.ok (), { c with source })
  | .error fault => (.error fault, c)

def set (key : Scalar) (value : Value) : Configuring Unit := fun c =>
  (.ok (), { c with settings := c.settings.set key value })

/-- Ask for a setting. -/
def ask (question : Settings → Except Fault α) : Configuring α := fun c =>
  (question c.settings, c)

end Configuration

end ShortCircuit

/-
  ShortCircuit.Journal

  Messages to whoever watches the program, each of a certain weight.  A journal
  keeps those that reach its threshold and drops the others.
-/

namespace ShortCircuit

/-- The weight of a message. -/
inductive Level where
  | debug
  | info
  | warning
  | error
  | critical
  deriving DecidableEq

namespace Level

def all : List Level := [.debug, .info, .warning, .error, .critical]

def name : Level → String
  | .debug => "DEBUG"
  | .info => "INFO"
  | .warning => "WARNING"
  | .error => "ERROR"
  | .critical => "CRITICAL"

def ofName? (name : String) : Option Level := all.find? (·.name == name)

/-- Levels are compared by number. -/
def number : Level → Nat
  | .debug => 10
  | .info => 20
  | .warning => 30
  | .error => 40
  | .critical => 50

end Level

/-- A message and its weight. -/
structure Entry where
  level : Level
  message : String
  deriving DecidableEq

/-- The messages kept so far, the oldest first. -/
structure Journal where
  threshold : Level
  entries : List Entry
  deriving DecidableEq

namespace Journal

def empty (threshold : Level) : Journal := ⟨threshold, []⟩

/-- Whether messages of a level are kept. -/
def keeps (journal : Journal) (level : Level) : Bool :=
  decide (journal.threshold.number ≤ level.number)

/-- Enter a message, if it weighs enough. -/
def note (journal : Journal) (level : Level) (message : String) : Journal :=
  if journal.keeps level then
    { journal with entries := journal.entries ++ [⟨level, message⟩] }
  else journal

@[simp] theorem threshold_note (journal : Journal) (level : Level) (message : String) :
    (journal.note level message).threshold = journal.threshold := by
  unfold note; split <;> rfl

end Journal

end ShortCircuit

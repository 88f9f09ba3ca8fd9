/-
  ShortCircuit.Workspace

  A forest being worked on, and the journal of the work.  A `Task` reads and
  changes both; when it fails, what it has done so far stays done.
-/

import ShortCircuit.Forest.Edit
import ShortCircuit.Journal
import ShortCircuit.Tree.Print

namespace ShortCircuit

/-- A forest and the journal of the work on it. -/
structure Workspace where
  forest : Forest
  journal : Journal

/-- Work that can fail on the way. -/
abbrev Task (α : Type) : Type := ExceptT Fault (StateM Workspace) α

namespace Task

variable {α : Type}

/-- Ask a question about the forest. -/
def ask (question : Forest → Except Fault α) : Task α := fun w => (question w.forest, w)

/-- Look something up in the forest. -/
def view (question : Forest → α) : Task α := ask fun f => .ok (question f)

/-- Change the forest. -/
def edit (change : Edit α) : Task α := fun w =>
  let (outcome, forest) := change w.forest
  (outcome, { w with forest })

/-- Enter a message in the journal. -/
def note (level : Level) (message : String) : Task Unit := fun w =>
  (.ok (), { w with journal := w.journal.note level message })

/-- Whether messages of a level are kept. -/
def keeps (level : Level) : Task Bool := fun w => (.ok (w.journal.keeps level), w)

/-- The source text of a node. -/
def render (n : NodeId) : Task String :=
  ask fun f => do return String.ofList (← (← f.get n).render)

end Task

end ShortCircuit

/-
  ShortCircuit.Session

  What one client works with: a forest, the journal of the work, and the spans
  of the text generated last, which are kept while the forest changes.  The
  requests of a client may name no node, or one that does not exist.
-/

import ShortCircuit.Forest.Plan
import ShortCircuit.Forest.Query
import ShortCircuit.Kind.Constant
import ShortCircuit.Settings
import ShortCircuit.Simplify

namespace ShortCircuit

/-- The state of the work of one client. -/
structure Session extends Workspace where
  spans : List Span

/-- A request, which can fail on the way; what it has done so far stays done. -/
abbrev Action (α : Type) : Type := ExceptT Fault (StateM Session) α

namespace Session

variable {α : Type}

def start (threshold : Level) : Session := ⟨⟨.empty, .empty threshold⟩, []⟩

/-- Carry out a task. -/
def perform (task : Task α) : Action α := fun s =>
  let (outcome, workspace) := task s.toWorkspace
  (outcome, { s with toWorkspace := workspace })

/-- Ask a question about the forest. -/
def ask (question : Forest → Except Fault α) : Action α := perform (Task.ask question)

/-- Do what leaves a trace in the journal alone. -/
def record (work : StateM Journal α) : Action α := fun s =>
  let (result, journal) := work s.journal
  (.ok result, { s with journal })

/-! ## Changes -/

/-- Build what a plan describes. -/
def build (plan : Plan) : Action (Option NodeId) := perform (Task.edit plan.build)

/-- Build plans one after another, until one fails. -/
def buildAll (plans : List Plan) : Action (List (Option NodeId)) :=
  perform (Task.edit (Plan.buildAll plans))

/-- Plant a node without children. -/
def plant (kind : Kind) : Action NodeId := perform (Task.edit (Edit.add kind []))

/-- Plant the constant expression of a source text. -/
def create (source : String) : Action NodeId := do
  plant (← ask fun _ => Kind.ofSource source.toList)

def attach (parent child : Option NodeId) (slot : Int) : Action Unit := do
  let parent ← ask (·.named parent)
  let child ← ask (·.named child)
  perform (Task.edit (Edit.attach parent.id child.id slot))

def detach (n : Option NodeId) : Action (Option (NodeId × Int)) := do
  let t ← ask (·.named n)
  perform (Task.edit (Edit.detach t.id))

def remove (n : Option NodeId) : Action Unit := do
  let t ← ask (·.named n)
  perform (Task.edit (Edit.remove t.id))

def replace (replacee replacement : Option NodeId) : Action Unit := do
  let replacee ← ask (·.named replacee)
  let replacement ← ask (·.named replacement)
  perform (Task.edit (Edit.replace replacee.id replacement.id))

/-! ## Simplification -/

/-- Put in the place of an expression what it reduces to. -/
def reduce (n : Option NodeId) : Action NodeId := do
  let t ← ask (·.named n)
  perform (Simplify.reduce t.id)

/-- Simplify the outermost expression around a node that should be. -/
def simplifyAround : Option NodeId → Action NodeId
  | some n => perform (Simplify.simplifyAround n)
  | none => throw (.notApplicable none)

/-- Simplify the outermost expression around a caret in the text of the root. -/
def simplifyAtCaret (offset : Int) : Action NodeId := do
  match ← ask (·.elementInRoot offset) with
  | some n => simplifyAround (some n)
  | none => throw (.noElementAt offset)

/-- Simplify all expressions, as many as the settings allow. -/
def simplifyAll (settings : Option (List (Scalar × Value))) : Action Nat := do
  let settings ← record (settings.elim Settings.defaults Settings.ofEntries)
  perform (Simplify.pass (← ask fun _ => settings.maxIterations))

/-! ## Text -/

/-- Generate the text of a node, or of the root, and keep its spans.  The spans of the text
    before are given up as soon as it is clear what to print. -/
def generate (n : Option NodeId) : Action String := fun s =>
  match n, s.forest.toPrint n with
  | none, .error fault => (.error fault, s)
  | some _, .error fault => (.error fault, { s with spans := [] })
  | _, .ok t =>
    let printed := t.print
    (printed.result.map String.ofList, { s with spans := printed.spans })

/-- The node that a caret points at in the text generated last. -/
def locate (offset : Int) : Action (Option NodeId) := fun s =>
  (s.forest.elementAt s.spans offset, s)

end Session

end ShortCircuit

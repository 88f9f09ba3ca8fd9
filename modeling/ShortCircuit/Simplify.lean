/-
  ShortCircuit.Simplify

  Simplifying boolean expressions in a forest: putting in the place of an
  expression what it reduces to, doing so with the outermost one around a node,
  and in a pass with all there are.
-/

import ShortCircuit.Forest.Target
import ShortCircuit.Workspace

namespace ShortCircuit.Simplify

/-! ## One expression -/

/-- Put a node in the place of another.  The texts of both are worked out only for a journal
    that keeps them. -/
def substitute (replacee replacement : NodeId) : Task NodeId := do
  if ← Task.keeps .debug then
    let before ← Task.render replacee
    let after ← Task.render replacement
    Task.note .debug s!"[BooleanRewriter] Substituting '{before}' with '{after}'"
  Task.edit (Edit.replace replacee replacement)
  return replacement

/-- Put in the place of an expression what it reduces to, and return the node that stands
    there then. -/
def reduce (n : NodeId) : Task NodeId := do
  let t ← Task.ask (·.get n)
  match t.reduction with
  | .ok (.constant value) =>
    let fresh ← Task.edit (Edit.add (.literal (.bool value)) [])
    substitute n fresh
  | .ok (.operand operand) => substitute n operand
  | .error reason => throw (.refused reason (← Task.render n))

/-- Simplify the outermost expression around a node that should be. -/
def simplifyAround (n : NodeId) : Task NodeId := do
  let _ ← Task.ask (·.get n)
  match ← Task.view (·.target? n) with
  | none => throw (.notApplicable (some n))
  | some target =>
    let text ← Task.render target
    Task.note .info s!"Simplifying '{text}'"
    reduce target

/-! ## A whole forest -/

/-- The name of the pass over a whole forest. -/
def passName : String := "simplify-boolean"

/-- There is nothing left to simplify. -/
def finish (done : Nat) : Task Nat := do
  Task.note .info s!"Boolean simplification took {done} iterations"
  return done

/-- There is something left to simplify, but no more is to be done. -/
def giveUp (done : Nat) : Task Nat := do
  Task.note .warning s!"Exceeded max iteration count for {passName}"
  return done

/-- Simplify expressions until there are none left or the budget is used up, and return how
    many there were in all. -/
def exhaust : (budget done : Nat) → Task Nat
  | 0, done => do
    match ← Task.view (·.candidate?) with
    | none => finish done
    | some _ => giveUp done
  | budget + 1, done => do
    match ← Task.view (·.candidate?) with
    | none => finish done
    | some n =>
      let _ ← simplifyAround n
      exhaust budget (done + 1)

/-- Simplify all expressions of the forest, but at most `limit` of them. -/
def pass (limit : Int) : Task Nat := exhaust limit.toNat 0

/-! ## Texts -/

/-- What the action on the expression around a node is called. -/
def actionText : String := "Simplify boolean expression"

/-- The family of actions it belongs to. -/
def familyName : String := "Simplify boolean expression"

end ShortCircuit.Simplify

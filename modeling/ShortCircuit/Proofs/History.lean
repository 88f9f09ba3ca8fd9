/-
  ShortCircuit.Proofs.History

  What a client may ask for, request by request, and the forests that come about
  that way.  A relation that holds across the single steps of edits holds across
  every history, whichever of its requests fail.
-/

import ShortCircuit.Proofs.Forest.Carried
import ShortCircuit.Session

namespace ShortCircuit

open Failing

variable {α : Type} {R : Forest → Forest → Prop}

/-! ## Requests -/

/-- What a client can ask for that changes its session. -/
inductive Request where
  | build (plans : List Plan)
  | plant (kind : Kind)
  | create (source : String)
  | attach (parent child : Option NodeId) (slot : Int)
  | detach (node : Option NodeId)
  | remove (node : Option NodeId)
  | replace (replacee replacement : Option NodeId)
  | reduce (node : Option NodeId)
  | simplifyAround (node : Option NodeId)
  | simplifyAtCaret (offset : Int)
  | simplifyAll (settings : Option (List (Scalar × Value)))
  | generate (node : Option NodeId)
  /-- Keep messages of another weight from now on. -/
  | listen (threshold : Level)

/-- Serve a request; what it answers is left out. -/
def Request.action : Request → Action Unit
  | build plans => do let _ ← Session.buildAll plans
  | plant kind => do let _ ← Session.plant kind
  | create source => do let _ ← Session.create source
  | attach parent child slot => Session.attach parent child slot
  | detach n => do let _ ← Session.detach n
  | remove n => Session.remove n
  | replace replacee replacement => Session.replace replacee replacement
  | reduce n => do let _ ← Session.reduce n
  | simplifyAround n => do let _ ← Session.simplifyAround n
  | simplifyAtCaret offset => do let _ ← Session.simplifyAtCaret offset
  | simplifyAll settings => do let _ ← Session.simplifyAll settings
  | generate n => do let _ ← Session.generate n
  | listen threshold => Session.record fun journal => ((), { journal with threshold })

namespace Session

/-- The session after a request, which may have failed. -/
def serve (s : Session) (request : Request) : Session := (request.action s).2

/-- The session after a number of requests. -/
def after (s : Session) (requests : List Request) : Session := requests.foldl serve s

end Session

/-- The forests that come about from nothing by requests. -/
def Forest.Reachable (f : Forest) : Prop :=
  ∃ threshold requests, ((Session.start threshold).after requests).forest = f

/-! ## Tasks of a simplification -/

namespace Simplify

/-- A relation that holds across all that simplifications are made of. -/
structure Across (R : Workspace → Workspace → Prop) : Prop where
  ask {α : Type} (question : Forest → Except Fault α) : Moves R (Task.ask question)
  keeps (level : Level) : Moves R (Task.keeps level)
  note {level : Level} (h : level ≠ .warning) (message : String) : Moves R (Task.note level message)
  add (kind : Kind) : Moves R (Task.edit (Edit.add kind []))
  replace (replacee replacement : NodeId) : Moves R (Task.edit (Edit.replace replacee replacement))

namespace Across

variable {R : Workspace → Workspace → Prop} [IsPreorder Workspace R] (across : Across R)
include across

theorem moves_substitute (replacee replacement : NodeId) :
    Moves R (substitute replacee replacement) := by
  -- The texts that may be noted before change nothing.
  have hreplace : Moves R (Task.edit (Edit.replace replacee replacement) >>= fun _ =>
      pure replacement) :=
    Moves.bind (across.replace replacee replacement) fun _ => Moves.pure _
  refine Moves.bind (across.keeps .debug) fun keeps => ?_
  cases keeps with
  | true =>
    exact Moves.bind (across.ask _) fun _ => Moves.bind (across.ask _) fun _ =>
      Moves.bind (across.note (by decide) _) fun _ => hreplace
  | false => exact hreplace

theorem moves_reduce (n : NodeId) : Moves R (reduce n) := by
  refine Moves.bind (across.ask _) fun t => ?_
  cases t.reduction with
  | ok reduction =>
    cases reduction with
    | constant value =>
      exact Moves.bind (across.add _) fun fresh => across.moves_substitute n fresh
    | operand operand => exact across.moves_substitute n operand
  | error reason => exact Moves.bind (across.ask _) fun text => Moves.throw _

theorem moves_simplifyAround (n : NodeId) : Moves R (simplifyAround n) := by
  refine Moves.bind (across.ask _) fun _ => Moves.bind (across.ask _) fun target => ?_
  cases target with
  | none => exact Moves.throw _
  | some target =>
    exact Moves.bind (across.ask _) fun _ => Moves.bind (across.note (by decide) _) fun _ =>
      across.moves_reduce target

theorem moves_finish (done : Nat) : Moves R (finish done) :=
  Moves.bind (across.note (by decide) _) fun _ => Moves.pure done

theorem moves_exhaust (hgiveUp : ∀ done, Moves R (giveUp done)) (budget done : Nat) :
    Moves R (exhaust budget done) := by
  induction budget generalizing done with
  | zero =>
    refine Moves.bind (across.ask _) fun candidate => ?_
    cases candidate with
    | none => exact across.moves_finish done
    | some n => exact hgiveUp done
  | succ budget ih =>
    refine Moves.bind (across.ask _) fun candidate => ?_
    cases candidate with
    | none => exact across.moves_finish done
    | some n => exact Moves.bind (across.moves_simplifyAround n) fun _ => ih (done + 1)

end Across

variable [AcrossSteps R]

/-- What holds across the single steps of edits holds across simplifications. -/
theorem across_forest : Across (InvImage R Workspace.forest) where
  ask := Task.moves_ask
  keeps := Task.moves_keeps
  note _ := Task.moves_note _
  add kind := Task.moves_edit (Edit.moves_add kind [])
  replace replacee replacement := Task.moves_edit (Edit.moves_replace replacee replacement)

theorem moves_giveUp (done : Nat) : Moves (InvImage R Workspace.forest) (giveUp done) :=
  Moves.bind (Task.moves_note _ _) fun _ => Moves.pure done

end Simplify

/-! ## Requests and histories -/

namespace Session

/-- The forests of two sessions are related, and the spans are the same. -/
def Keeps (R : Forest → Forest → Prop) (s s' : Session) : Prop :=
  R s.forest s'.forest ∧ s'.spans = s.spans

instance isPreorder_keeps [IsPreorder Forest R] : IsPreorder Session (Keeps R) where
  refl s := ⟨refl_of R s.forest, rfl⟩
  trans _ _ _ h h' := ⟨trans_of R h.1 h'.1, h'.2.trans h.2⟩

theorem moves_perform {task : Task α} (h : Moves (InvImage R Workspace.forest) task) :
    Moves (Keeps R) (perform task) :=
  fun s => ⟨h s.toWorkspace, rfl⟩

theorem forest_generate (n : Option NodeId) (s : Session) :
    (generate n s).2.forest = s.forest := by
  unfold generate
  split <;> rfl

theorem serve_generate (s : Session) (n : Option NodeId) :
    s.serve (.generate n) = (generate n s).2 := by
  show ((generate n >>= fun _ => Pure.pure ()) s).2 = _
  rcases heq : generate n s with ⟨outcome, s'⟩
  cases outcome with
  | ok text => rw [bind_of_ok heq]; rfl
  | error fault => rw [bind_of_error heq]

variable [AcrossSteps R]

theorem moves_ask (question : Forest → Except Fault α) : Moves (Keeps R) (ask question) :=
  moves_perform (Task.moves_ask question)

theorem moves_record (work : StateM Journal α) : Moves (Keeps R) (record work) :=
  fun s => ⟨refl_of R s.forest, rfl⟩

theorem moves_simplifyAround (n : Option NodeId) : Moves (Keeps R) (simplifyAround n) := by
  cases n with
  | some n => exact moves_perform (Simplify.across_forest.moves_simplifyAround n)
  | none => exact Moves.throw _

theorem moves_create (source : String) : Moves (Keeps R) (create source) :=
  Moves.bind (moves_ask _) fun kind => moves_perform (Task.moves_edit (Edit.moves_add kind []))

theorem moves_detach (n : Option NodeId) : Moves (Keeps R) (detach n) :=
  Moves.bind (moves_ask _) fun t => moves_perform (Task.moves_edit (Edit.moves_detach t.id))

theorem moves_reduce (n : Option NodeId) : Moves (Keeps R) (reduce n) :=
  Moves.bind (moves_ask _) fun t => moves_perform (Simplify.across_forest.moves_reduce t.id)

theorem moves_simplifyAtCaret (offset : Int) : Moves (Keeps R) (simplifyAtCaret offset) := by
  refine Moves.bind (moves_ask _) fun element => ?_
  cases element with
  | some n => exact moves_simplifyAround (some n)
  | none => exact Moves.throw _

theorem moves_simplifyAll (settings : Option (List (Scalar × Value))) :
    Moves (Keeps R) (simplifyAll settings) :=
  Moves.bind (moves_record _) fun _ => Moves.bind (moves_ask _) fun limit =>
    moves_perform (Simplify.across_forest.moves_exhaust Simplify.moves_giveUp limit.toNat 0)

/-- What holds across single steps holds across a request, whatever comes of it; only a request for
    a text changes the spans. -/
theorem moves_action (request : Request) (hgenerate : ∀ n, request ≠ .generate n) :
    Moves (Keeps R) request.action := by
  cases request with
  | build plans =>
    exact Moves.bind (moves_perform (Task.moves_edit (Plan.moves_buildAll plans))) fun _ =>
      Moves.pure _
  | plant kind =>
    exact Moves.bind (moves_perform (Task.moves_edit (Edit.moves_add kind []))) fun _ =>
      Moves.pure _
  | create source => exact Moves.bind (moves_create source) fun _ => Moves.pure _
  | attach parent child slot =>
    exact Moves.bind (moves_ask _) fun p => Moves.bind (moves_ask _) fun c =>
      moves_perform (Task.moves_edit (Edit.moves_attach p.id c.id slot))
  | detach n => exact Moves.bind (moves_detach n) fun _ => Moves.pure _
  | remove n =>
    exact Moves.bind (moves_ask _) fun t => moves_perform (Task.moves_edit (Edit.moves_remove t.id))
  | replace replacee replacement =>
    exact Moves.bind (moves_ask _) fun t => Moves.bind (moves_ask _) fun r =>
      moves_perform (Task.moves_edit (Edit.moves_replace t.id r.id))
  | reduce n => exact Moves.bind (moves_reduce n) fun _ => Moves.pure _
  | simplifyAround n => exact Moves.bind (moves_simplifyAround n) fun _ => Moves.pure _
  | simplifyAtCaret offset => exact Moves.bind (moves_simplifyAtCaret offset) fun _ => Moves.pure _
  | simplifyAll settings => exact Moves.bind (moves_simplifyAll settings) fun _ => Moves.pure _
  | generate n => exact absurd rfl (hgenerate n)
  | listen threshold => exact moves_record _

theorem across_serve (s : Session) (request : Request) : R s.forest (s.serve request).forest := by
  by_cases hgenerate : ∃ n, request = .generate n
  · obtain ⟨n, rfl⟩ := hgenerate
    rw [serve_generate, forest_generate]
    exact refl_of R s.forest
  · have h : Keeps R s (s.serve request) :=
      moves_action request (fun n heq => hgenerate ⟨n, heq⟩) s
    exact h.1

theorem across_after (s : Session) (requests : List Request) :
    R s.forest (s.after requests).forest := by
  induction requests generalizing s with
  | nil => exact refl_of R s.forest
  | cons request rest ih =>
    exact trans_of R (s.across_serve request) (ih (s.serve request))

theorem after_append (s : Session) (requests more : List Request) :
    s.after (requests ++ more) = (s.after requests).after more :=
  List.foldl_append

end Session

theorem Forest.Reachable.wellFormed {f : Forest} (h : f.Reachable) : f.WellFormed := by
  obtain ⟨threshold, requests, rfl⟩ := h
  have hevolves : Forest.Evolves Forest.empty _ :=
    Session.across_after (R := Forest.Evolves) (Session.start threshold) requests
  exact (hevolves wellFormed_empty).1

end ShortCircuit

/-
  ShortCircuit.Proofs.Applicability

  Asking whether there is something to simplify, and simplifying it, agree: the
  action succeeds where it is said to be applicable, and elsewhere it is refused
  and leaves everything as it was.  Both hold of an action at a node and of one at
  a caret in the text of the root.
-/

import ShortCircuit.Proofs.Forest.Carets
import ShortCircuit.Proofs.History
import ShortCircuit.Proofs.Simplify

namespace ShortCircuit

variable {s : Session} {t : Tree} {n : NodeId} {α : Type}

/-! ## Actions -/

namespace Session

theorem perform_of_eq {task : Task α} {outcome : Except Fault α} {w : Workspace}
    (h : task s.toWorkspace = (outcome, w)) :
    perform task s = (outcome, { s with toWorkspace := w }) := by
  show ((task s.toWorkspace).1, { s with toWorkspace := (task s.toWorkspace).2 }) = _
  rw [h]

theorem eq_of_perform {task : Task α} {outcome : Except Fault α} {s' : Session}
    (h : perform task s = (outcome, s')) : task s.toWorkspace = (outcome, s'.toWorkspace) := by
  rw [perform_of_eq Prod.mk.eta.symm] at h
  cases h
  rfl

theorem ask_of_eq {question : Forest → Except Fault α} {outcome : Except Fault α}
    (h : question s.forest = outcome) : ask question s = (outcome, s) := by
  show (question s.forest, s) = _
  rw [h]

theorem ask_named (wf : s.forest.WellFormed) (ht : t ∈ s.forest.subtrees) :
    ask (·.named (some t.id)) s = (.ok t, s) :=
  ask_of_eq (wf.get_self ht)

theorem ask_unknown (hn : n ∉ s.forest.ids) :
    ask (·.named (some n)) s = (.error (.unknownNode n), s) :=
  ask_of_eq (Forest.get_eq_error_iff.2 ⟨hn, rfl⟩)

/-- Where reducing an expression succeeds, so does the task behind it. -/
theorem task_of_reduce {m : NodeId} {s' : Session} (wf : s.forest.WellFormed)
    (h : reduce (some n) s = (.ok m, s')) :
    Simplify.reduce n s.toWorkspace = (.ok m, s'.toWorkspace) := by
  by_cases hn : n ∈ s.forest.ids
  · obtain ⟨t, ht, rfl⟩ := Forest.mem_ids.1 hn
    rw [reduce, Failing.bind_of_ok (ask_named wf ht)] at h
    exact eq_of_perform h
  · rw [reduce, Failing.bind_of_error (ask_unknown hn)] at h
    cases h

/-- What an action on a node comes to: success and a node where the target was, or a refusal
    that changes nothing. -/
def Agrees (s : Session) (n : NodeId) (applicable : Bool) (result : Except Fault NodeId × Session) :
    Prop :=
  (applicable = true ∧ ∃ t r s', s.forest.target? n = some t ∧ result = (.ok r, s') ∧
      r ∈ s'.forest.ids ∧ s'.forest.place? r = s.forest.place? t) ∨
    (applicable = false ∧ result = (.error (.notApplicable (some n)), s))

theorem agrees_simplifyAround (wf : s.forest.WellFormed) (short : s.forest.ShortIntegers)
    (hn : n ∈ s.forest.ids) :
    s.Agrees n (s.forest.target? n).isSome (simplifyAround (some n) s) := by
  cases htarget : s.forest.target? n with
  | none =>
    exact .inr ⟨rfl, perform_of_eq (Simplify.simplifyAround_of_none wf hn htarget)⟩
  | some m =>
    obtain ⟨t, ht, rfl, -, hcases⟩ :=
      Simplify.simplifyAround_cases (w := s.toWorkspace) wf hn htarget
    rcases hcases with ⟨r, g, journal, heq, wf', contraction⟩ | ⟨fault, w', -, -, hlong⟩
    · refine .inl ⟨rfl, t.id, r.id, _, htarget, perform_of_eq heq, ?_, ?_⟩
      · exact Forest.id_mem_of_mem_subtrees contraction.reduced.mem
      · exact contraction.reduced.place?_heir wf wf'
    · exact absurd (fun u hu => short u (Forest.subtree_mem_subtrees hu ht)) hlong

/-- Whether an action is applicable and what it does agree, at every node of a reachable forest
    and at every caret, be it in the text of the root or beside it. -/
theorem applicable_iff_simplifies (reachable : s.forest.Reachable)
    (short : s.forest.ShortIntegers) :
    (∀ n ∈ s.forest.ids, ∃ applicable, s.forest.isApplicableAt (some n) = .ok applicable ∧
      s.Agrees n applicable (simplifyAround (some n) s)) ∧
    ∀ offset, ∃ applicable, s.forest.isApplicable offset = .ok applicable ∧
      ((∃ n ∈ s.forest.ids, s.forest.elementInRoot offset = .ok (some n) ∧
          s.Agrees n applicable (simplifyAtCaret offset s)) ∨
        s.forest.elementInRoot offset = .ok none ∧ applicable = false ∧
          simplifyAtCaret offset s = (.error (.noElementAt offset), s)) := by
  have wf := reachable.wellFormed
  refine ⟨fun n hn => ?_, fun offset => ?_⟩
  · exact ⟨_, Forest.isApplicableAt_eq hn wf, agrees_simplifyAround wf short hn⟩
  · obtain ⟨found, hfound, hids⟩ := wf.elementInRoot_ok short offset
    have hask : ask (·.elementInRoot offset) s = (.ok found, s) := by
      show (s.forest.elementInRoot offset, s) = _
      rw [hfound]
    rw [Forest.isApplicable, hfound, simplifyAtCaret, Failing.bind_of_ok hask]
    cases found with
    | none => exact ⟨false, rfl, .inr ⟨rfl, rfl, rfl⟩⟩
    | some n =>
      have hn := hids n rfl
      refine ⟨(s.forest.target? n).isSome, Forest.isApplicableAt_eq hn wf, .inl ?_⟩
      exact ⟨n, hn, rfl, agrees_simplifyAround wf short hn⟩

/-- `true && x` in a session that notes everything. -/
def conjunction : Session :=
  (start .debug).after [.build [.fresh (.binary .logicalAnd)
    [.fresh (.literal (.bool true)) [], .fresh (.path "x") []]]]

/-- Asked for at its right operand, the conjunction, which is the root, gives way to the operand. -/
theorem applicable_iff_simplifies_conjunction :
    conjunction.forest.ShortIntegers ∧
      conjunction.forest.isApplicableAt (some 1) = .ok true ∧
      ∃ s', simplifyAround (some 1) conjunction = (.ok 1, s') ∧
        conjunction.forest.target? 1 = some 2 ∧ s'.forest.ids = [1] ∧
        s'.forest.place? 1 = conjunction.forest.place? 2 := by
  have short : conjunction.forest.ShortIntegers := by decide
  have happlicable : conjunction.forest.isApplicableAt (some 1) = .ok true := by decide +kernel
  have htarget : conjunction.forest.target? 1 = some 2 := by decide
  have hids : (simplifyAround (some 1) conjunction).2.forest.ids = [1] := by decide +kernel
  obtain ⟨applicable, heq, hagrees⟩ :=
    (applicable_iff_simplifies (s := conjunction) ⟨.debug, _, rfl⟩ short).1 1 (by decide)
  rcases hagrees with ⟨-, t, r, s', ht, hresult, hr, hplace⟩ | ⟨rfl, -⟩
  · -- The node that is left is the only one that can have been returned.
    rw [hresult] at hids
    rw [hids, List.mem_singleton] at hr
    cases htarget.symm.trans ht
    subst hr
    exact ⟨short, happlicable, s', hresult, htarget, hids, hplace⟩
  · cases heq.symm.trans happlicable

end Session

end ShortCircuit

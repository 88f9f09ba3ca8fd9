/-
  ShortCircuit.Proofs.Pass

  A pass over a whole forest, simplification by simplification.  Each of them
  leaves fewer nodes, so there are no more of them than nodes that go.  With a
  limit of as many as there are nodes the pass ends by itself, without a warning,
  and then there is nothing left to simplify, now or in a second pass.
-/

import ShortCircuit.Proofs.Applicability
import ShortCircuit.Proofs.Rounds

namespace ShortCircuit

open Failing

variable {f : Forest} {w : Workspace} {s : Session} {t : Tree}

/-! ## What is known where nothing is left to simplify -/

theorem Tree.isKnown_iff_of_not_simplifiable (h : t.isSimplifiable = false) :
    t.truth.isKnown = true ↔ ∃ b, t.kind = .literal (.bool b) := by
  refine ⟨fun hknown => ?_, ?_⟩
  · -- What is known and not to be simplified is a literal, and only some literals are known.
    rw [isSimplifiable, Bool.or_eq_false_iff, hknown, Bool.and_true, Bool.not_eq_false'] at h
    obtain ⟨value, hvalue⟩ := Kind.exists_literal h.1
    rw [truth_eq, hvalue] at hknown
    cases value with
    | bool b => exact ⟨b, hvalue⟩
    | int n => cases hknown
    | float x => cases hknown
    | text s => cases hknown
  · rintro ⟨b, hb⟩
    rw [truth_eq, hb]
    exact Truth.isKnown_ofBool b

theorem Forest.Settled.isSimplifiable_eq_false (h : f.Settled) (ht : t ∈ f.subtrees) :
    t.isSimplifiable = false := by
  rw [Bool.eq_false_iff]
  intro hsimplifiable
  obtain ⟨reduction, rule⟩ := Tree.isSimplifiable_iff.1 hsimplifiable
  exact h t ht reduction rule

namespace Simplify

/-- A pass goes round by round.  At the end the forest is settled, and then no warning has been
    entered, or there is something left to simplify, and the budget is used up. -/
theorem exists_rounds_of_exhaust (wf : w.forest.WellFormed) (short : w.forest.ShortIntegers)
    (budget done : Nat) :
    ∃ count w', exhaust budget done w = (.ok (done + count), w') ∧
      Rounds w.forest count w'.forest ∧ w'.forest.WellFormed ∧
      (w'.forest.Settled ∧ w.journal.Unwarned w'.journal ∨
        ¬w'.forest.Settled ∧ count = budget) := by
  obtain ⟨total, final, all⟩ := exists_unbounded wf short
  obtain ⟨w', rounds, hquiet, hexhaust⟩ := exhaust_of_unbounded all wf short budget done
  have wf' := (rounds.preserves wf short).1
  have hsettled : w'.forest.Settled ↔ total ≤ min budget total := by
    rw [← wf'.candidate?_eq_none_iff]
    exact all.candidate?_eq_none_iff rounds (Nat.min_le_right ..)
  by_cases hcut : budget < total
  · rw [if_pos hcut] at hexhaust
    exact ⟨_, _, hexhaust, rounds, wf', .inr ⟨mt hsettled.1 (by omega), by omega⟩⟩
  · rw [if_neg hcut] at hexhaust
    have hunwarned := trans_of Journal.Unwarned hquiet.unwarned
      (across_quiet.moves_finish (done + min budget total) w').unwarned
    exact ⟨_, _, hexhaust, rounds, wf', .inl ⟨hsettled.2 (by omega), hunwarned⟩⟩

end Simplify

/-! ## Passes of a client -/

namespace Session

/-- The limit that settings put on a pass. -/
def limitOf (s : Session) (settings : Option (List (Scalar × Value))) : Except Fault Int :=
  ((settings.elim Settings.defaults Settings.ofEntries) s.journal).1.maxIterations

/-- A pass of a client is one of the forest, once the journal has been told of the settings. -/
theorem simplifyAll_eq_pass {settings : Option (List (Scalar × Value))} {limit : Int}
    (hlimit : s.limitOf settings = .ok limit) :
    simplifyAll settings s = perform (Simplify.pass limit)
      { s with journal := s.journal.note .debug "initialize Options" } := by
  let setUp := settings.elim Settings.defaults Settings.ofEntries
  let ready : Session := { s with journal := (setUp s.journal).2 }
  have hrecord : record setUp s = (.ok (setUp s.journal).1, ready) := rfl
  have hask : ask (fun _ => (setUp s.journal).1.maxIterations) ready = (.ok limit, ready) :=
    ask_of_eq hlimit
  rw [simplifyAll, bind_of_ok hrecord, bind_of_ok hask]
  cases settings <;> rfl

theorem simplifyAll_eq {settings : Option (List (Scalar × Value))} {limit : Int}
    (hlimit : s.limitOf settings = .ok limit) :
    ∃ journal, s.journal.Unwarned journal ∧
      simplifyAll settings s = perform (Simplify.pass limit) { s with journal } :=
  ⟨_, s.journal.unwarned_note (by decide) _, simplifyAll_eq_pass hlimit⟩

/-- In a reachable forest without long integers a pass with any limit goes round by round, and
    every round leaves fewer nodes.  With a limit of as many as there are nodes it ends without a
    warning: no node is left to be simplified, only literals are known, and another pass, with any
    limit, does nothing but note that. -/
theorem simplifyAll_settles (reachable : s.forest.Reachable) (short : s.forest.ShortIntegers)
    {settings : Option (List (Scalar × Value))} {limit : Int}
    (hlimit : s.limitOf settings = .ok limit) :
    ∃ count s', simplifyAll settings s = (.ok count, s') ∧
      Simplify.Rounds s.forest count s'.forest ∧ count + s'.forest.size ≤ s.forest.size ∧
      (s.forest.size ≤ limit →
        s.journal.Unwarned s'.journal ∧
        (∀ t ∈ s'.forest.subtrees, t.isSimplifiable = false ∧
          (t.truth.isKnown = true ↔ ∃ b, t.kind = .literal (.bool b))) ∧
        ∀ settings limit, s'.limitOf settings = .ok limit →
          ∃ journal, simplifyAll settings s' = (.ok 0, { s' with journal })) := by
  obtain ⟨journal, hready, heq⟩ := simplifyAll_eq hlimit
  obtain ⟨count, w', hpass, rounds, wf', hend⟩ := Simplify.exists_rounds_of_exhaust
    (w := ⟨s.forest, journal⟩) reachable.wellFormed short limit.toNat 0
  have hdone : simplifyAll settings s = (.ok count, { s with toWorkspace := w' }) := by
    rw [heq]
    refine perform_of_eq ?_
    rw [← Nat.zero_add count]
    exact hpass
  refine ⟨count, { s with toWorkspace := w' }, hdone, rounds, rounds.count_le, fun hsize => ?_⟩
  -- The limit is not reached before there is nothing left.
  have hbudget : s.forest.size ≤ limit.toNat := by omega
  obtain ⟨settled, hquiet⟩ := hend.resolve_right fun ⟨hnot, hcount⟩ =>
    hnot (rounds.settled_of_size_le (hcount ▸ hbudget))
  refine ⟨trans_of Journal.Unwarned hready hquiet, fun t ht => ?_, fun settings limit hlimit => ?_⟩
  · have hnot := settled.isSimplifiable_eq_false ht
    exact ⟨hnot, Tree.isKnown_iff_of_not_simplifiable hnot⟩
  · obtain ⟨journal, -, heq⟩ := simplifyAll_eq hlimit
    obtain ⟨journal', hover⟩ := Simplify.exhaust_of_settled
      (w := ⟨w'.forest, journal⟩) wf' settled limit.toNat 0
    exact ⟨journal', heq.trans (perform_of_eq hover)⟩

theorem simplifyAll_settles_conjunction :
    conjunction.forest.ShortIntegers ∧ conjunction.limitOf none = .ok 100 ∧
      conjunction.forest.size ≤ (100 : Int) ∧
      ∃ s', simplifyAll none conjunction = (.ok 1, s') ∧
        Simplify.Rounds conjunction.forest 1 s'.forest ∧ s'.forest.ids = [1] ∧
        conjunction.journal.Unwarned s'.journal ∧
        ∀ t ∈ s'.forest.subtrees, t.isSimplifiable = false := by
  have short : conjunction.forest.ShortIntegers := by decide
  have hlimit : conjunction.limitOf none = .ok 100 := rfl
  have hsize : conjunction.forest.size ≤ (100 : Int) := by decide
  have hrun : simplifyAll none conjunction = (.ok 1, (simplifyAll none conjunction).2) :=
    Failing.eq_of_toOption (by decide +kernel)
  have hids : (simplifyAll none conjunction).2.forest.ids = [1] := by decide +kernel
  obtain ⟨count, s', heq, rounds, -, hend⟩ :=
    simplifyAll_settles (s := conjunction) ⟨.debug, _, rfl⟩ short hlimit
  obtain ⟨hquiet, hsettled, -⟩ := hend hsize
  cases heq.symm.trans hrun
  exact ⟨short, hlimit, hsize, _, hrun, rounds, hids, hquiet, fun t ht => (hsettled t ht).1⟩

end Session

end ShortCircuit

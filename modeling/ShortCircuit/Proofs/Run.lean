/-
  ShortCircuit.Proofs.Run

  Simplifications one after another, around whatever nodes a client points at.
  A pass is such a run.  It ends where nothing is left to simplify or where its
  limit is reached, and since every simplification leaves fewer nodes, a limit
  of as many as there are nodes is never reached too early.
-/

import ShortCircuit.Proofs.Forest.Contractions
import ShortCircuit.Proofs.Simplify

namespace ShortCircuit.Simplify

open Failing

variable {w w' w'' : Workspace} {n m r : NodeId} {heir heir' : NodeId → NodeId}

/-- Simplifications that succeed, one after another, each around any node; with what stands
    afterwards in the places of the roots. -/
inductive Run (w : Workspace) : Workspace → (NodeId → NodeId) → Prop
  | refl : Run w w id
  | tail {w' w'' : Workspace} {n m r : NodeId} {heir : NodeId → NodeId} (run : Run w w' heir)
    (target : w'.forest.target? n = some m) (step : simplifyAround n w' = (.ok r, w'')) :
    Run w w'' (Forest.moved m r ∘ heir)

namespace Run

theorem trans (run : Run w w' heir) (run' : Run w' w'' heir') : Run w w'' (heir' ∘ heir) := by
  induction run' with
  | refl => exact run
  | tail _ target step ih => exact .tail ih target step

theorem single (target : w.forest.target? n = some m) (step : simplifyAround n w = (.ok r, w')) :
    Run w w' (Forest.moved m r) :=
  .tail .refl target step

/-- A run contracts the forest. -/
theorem contractions (run : Run w w' heir) (wf : w.forest.WellFormed) :
    w.forest.Contractions w'.forest heir := by
  induction run with
  | refl => exact .refl
  | @tail w₁ w₂ n m r heir run target step ih =>
    have wf₁ := ih.wellFormed wf
    obtain ⟨u, hu, rfl, hn, -⟩ := wf₁.exists_of_target? target
    obtain ⟨t, ht, htarget, -, r, rfl, wf', contraction⟩ :=
      exists_of_simplifyAround wf₁ (Forest.ids_subset_ids hu hn) step
    rw [target] at htarget
    rw [Option.some.inj htarget]
    exact .tail ih ht contraction wf'

theorem wellFormed (run : Run w w' heir) (wf : w.forest.WellFormed) : w'.forest.WellFormed :=
  (run.contractions wf).wellFormed wf

end Run

/-! ## Passes -/

theorem view_candidate (w : Workspace) :
    Task.view (·.candidate?) w = (.ok w.forest.candidate?, w) := rfl

/-- Without a candidate a pass is over, whatever its budget. -/
theorem exhaust_of_none (h : w.forest.candidate? = none) (budget done : Nat) :
    exhaust budget done w = finish done w := by
  cases budget with
  | zero => rw [exhaust, bind_of_ok (view_candidate w), h]
  | succ budget => rw [exhaust, bind_of_ok (view_candidate w), h]

/-- With one, it is simplified around, and the rest of the budget is for what is left. -/
theorem exhaust_of_simplifyAround (hcandidate : w.forest.candidate? = some n)
    (h : simplifyAround n w = (.ok r, w')) (budget done : Nat) :
    exhaust (budget + 1) done w = exhaust budget (done + 1) w' := by
  rw [exhaust, bind_of_ok (view_candidate w), hcandidate]
  simp only [bind_of_ok h]

/-- Where nothing is left to simplify, a pass is over. -/
theorem exhaust_eq_finish (wf : w.forest.WellFormed) (h : w.forest.Settled) (budget done : Nat) :
    exhaust budget done w = finish done w :=
  exhaust_of_none (wf.candidate?_eq_none_iff.2 h) budget done

theorem exhaust_of_settled (wf : w.forest.WellFormed) (h : w.forest.Settled) (budget done : Nat) :
    ∃ journal, exhaust budget done w = (.ok done, { w with journal }) := by
  rw [exhaust_eq_finish wf h]
  exact ⟨_, rfl⟩

/-- What a pass has done is a run.  It leaves a settled forest, unless its budget has been
    used up on nodes that are gone; and only a long integer can stop it on the way. -/
theorem exhaust_cases (wf : w.forest.WellFormed) (budget done : Nat) :
    ∃ w₁ heir, Run w w₁ heir ∧
      ((∃ count w', exhaust budget done w = (.ok count, w') ∧ w'.forest = w₁.forest ∧
          (w₁.forest.Settled ∨ w₁.forest.size + budget ≤ w.forest.size)) ∨
        ∃ fault w', exhaust budget done w = (.error fault, w') ∧
          (∃ reduction, w'.forest = w₁.forest.prepare reduction) ∧ ¬w₁.forest.ShortIntegers) := by
  induction budget generalizing w done with
  | zero =>
    -- Nothing is simplified without a budget, whether or not there is something to simplify.
    refine ⟨w, id, .refl, .inl ?_⟩
    rw [exhaust, bind_of_ok (view_candidate w)]
    cases w.forest.candidate? with
    | none => exact ⟨_, _, rfl, rfl, .inr (Nat.le_refl _)⟩
    | some n => exact ⟨_, _, rfl, rfl, .inr (Nat.le_refl _)⟩
  | succ budget ih =>
    cases hcandidate : w.forest.candidate? with
    | none =>
      -- No candidate: the pass is over before its budget is used up.
      have settled := wf.candidate?_eq_none_iff.1 hcandidate
      obtain ⟨journal, heq⟩ := exhaust_of_settled wf settled (budget + 1) done
      exact ⟨w, id, .refl, .inl ⟨_, _, heq, rfl, .inl settled⟩⟩
    | some n =>
      obtain ⟨hn, m, target⟩ := wf.exists_of_candidate? hcandidate
      obtain ⟨t, ht, rfl, -, hcases⟩ := simplifyAround_cases wf hn target
      rcases hcases with ⟨r, g, journal, heq, wf', contraction⟩ |
        ⟨fault, w', heq, hforest, hlong⟩
      · -- One simplification, and a pass with what is left of the budget.
        obtain ⟨w₁, heir, run, hrest⟩ := ih (w := ⟨g, journal⟩) wf' (done + 1)
        have hsize : g.size < w.forest.size := contraction.size_lt_size wf ht
        refine ⟨w₁, heir ∘ Forest.moved t.id r.id, (Run.single target heq).trans run, ?_⟩
        rw [exhaust_of_simplifyAround hcandidate heq]
        rcases hrest with ⟨count, w', heq', hforest, hend⟩ | hstopped
        · refine .inl ⟨count, w', heq', hforest, hend.imp_right fun hle => ?_⟩
          have hle' : w₁.forest.size + budget ≤ g.size := hle
          omega
        · exact .inr hstopped
      · -- The simplification is stopped, and with it the pass.
        refine ⟨w, id, .refl, .inr ⟨fault, w', ?_, hforest, fun short => hlong ?_⟩⟩
        · rw [exhaust, bind_of_ok (view_candidate w), hcandidate]
          exact bind_of_error heq
        · exact fun u hu => short u (Forest.subtree_mem_subtrees hu ht)

/-- With a limit of as many simplifications as there are nodes a pass leaves a settled forest,
    if no integer is too long. -/
theorem exists_run_of_pass (wf : w.forest.WellFormed) (short : w.forest.ShortIntegers)
    {limit : Int} (hlimit : w.forest.size ≤ limit) :
    ∃ count w₁ w' heir, Run w w₁ heir ∧ pass limit w = (.ok count, w') ∧
      w'.forest = w₁.forest ∧ w'.forest.Settled := by
  obtain ⟨w₁, heir, run, hcases⟩ := exhaust_cases wf limit.toNat 0
  have steps := run.contractions wf
  rcases hcases with ⟨count, w', heq, hforest, hend⟩ | ⟨fault, w', -, -, hlong⟩
  · refine ⟨count, w₁, w', heir, run, heq, hforest, hforest ▸ ?_⟩
    rcases hend with settled | hle
    · exact settled
    · -- Then there is no node left at all.
      exact Forest.settled_of_size_eq_zero (by omega)
  · exact absurd (steps.shortIntegers wf short) hlong

end ShortCircuit.Simplify

/-
  ShortCircuit.Proofs.Rounds

  A pass over a whole forest, round by round.  Every round leaves fewer nodes, so
  that there are no more of them than nodes that go.  Journals have no influence
  on what becomes of a forest: the rounds that there are to go are the same for
  every pass, and its budget says how many of them it goes.
-/

import ShortCircuit.Proofs.History
import ShortCircuit.Proofs.Run

namespace ShortCircuit

open Failing

variable {α β : Type} {f g h : Forest} {w : Workspace} {count total : Nat}

/-! ## Journals without warnings -/

/-- What has been entered since holds no warning. -/
def Journal.Unwarned (before after : Journal) : Prop :=
  ∃ entries, after.entries = before.entries ++ entries ∧ ∀ e ∈ entries, e.level ≠ .warning

namespace Journal

instance : IsPreorder Journal Unwarned where
  refl journal := ⟨[], (List.append_nil _).symm, fun e he => nomatch he⟩
  trans a b c := by
    rintro ⟨entries, heq, hne⟩ ⟨entries', heq', hne'⟩
    refine ⟨entries ++ entries', by rw [heq', heq, List.append_assoc], fun e he => ?_⟩
    exact (List.mem_append.1 he).elim (hne e) (hne' e)

theorem unwarned_note (journal : Journal) {level : Level} (h : level ≠ .warning)
    (message : String) : journal.Unwarned (journal.note level message) := by
  unfold note
  split
  · refine ⟨[⟨level, message⟩], rfl, fun e he => ?_⟩
    rw [List.mem_singleton.1 he]
    exact h
  · exact refl_of Unwarned journal

/-- Nothing has changed about the journal but for entries that are no warnings. -/
structure Quiet (before after : Journal) : Prop where
  unwarned : before.Unwarned after
  threshold : after.threshold = before.threshold

instance : IsPreorder Journal Quiet where
  refl journal := ⟨refl_of Unwarned journal, rfl⟩
  trans _ _ _ h h' := ⟨trans_of Unwarned h.unwarned h'.unwarned, h'.threshold.trans h.threshold⟩

theorem quiet_note (journal : Journal) {level : Level} (h : level ≠ .warning)
    (message : String) : journal.Quiet (journal.note level message) :=
  ⟨journal.unwarned_note h message, journal.threshold_note level message⟩

end Journal

/-! ## Journals have no influence -/

namespace Task

/-- Where a task succeeds, its answer and what it makes of the forest are the same for all
    journals. -/
def Blind (task : Task α) : Prop :=
  ∀ f journal₁ journal₂ a₁ a₂ w₁ w₂, task ⟨f, journal₁⟩ = (.ok a₁, w₁) →
    task ⟨f, journal₂⟩ = (.ok a₂, w₂) → a₁ = a₂ ∧ w₁.forest = w₂.forest

theorem blind_pure (a : α) : Blind (pure a) := by
  intro f journal₁ journal₂ a₁ a₂ w₁ w₂ h₁ h₂
  cases h₁
  cases h₂
  exact ⟨rfl, rfl⟩

theorem blind_throw (fault : Fault) : Blind (throw fault : Task α) := by
  intro f journal₁ journal₂ a₁ a₂ w₁ w₂ h₁
  cases h₁

theorem blind_ask (question : Forest → Except Fault α) : Blind (ask question) := by
  intro f journal₁ journal₂ a₁ a₂ w₁ w₂ h₁ h₂
  obtain ⟨ha₁, rfl⟩ := Prod.mk.inj h₁
  obtain ⟨ha₂, rfl⟩ := Prod.mk.inj h₂
  have ha : Except.ok a₁ = Except.ok a₂ := ha₁.symm.trans ha₂
  exact ⟨Except.ok.inj ha, rfl⟩

theorem blind_note (level : Level) (message : String) : Blind (note level message) := by
  intro f journal₁ journal₂ a₁ a₂ w₁ w₂ h₁ h₂
  cases h₁
  cases h₂
  exact ⟨rfl, rfl⟩

theorem blind_edit (change : Edit α) : Blind (edit change) := by
  intro f journal₁ journal₂ a₁ a₂ w₁ w₂ h₁ h₂
  obtain ⟨ha₁, rfl⟩ := Prod.mk.inj h₁
  obtain ⟨ha₂, rfl⟩ := Prod.mk.inj h₂
  have ha : Except.ok a₁ = Except.ok a₂ := ha₁.symm.trans ha₂
  exact ⟨Except.ok.inj ha, rfl⟩

theorem Blind.bind {task : Task α} {rest : α → Task β} (htask : Blind task)
    (hrest : ∀ a, Blind (rest a)) : Blind (task >>= rest) := by
  intro f journal₁ journal₂ b₁ b₂ w₁ w₂ h₁ h₂
  obtain ⟨a₁, ⟨g₁, mid₁⟩, hfirst₁, hlast₁⟩ := exists_of_bind_ok h₁
  obtain ⟨a₂, ⟨g₂, mid₂⟩, hfirst₂, hlast₂⟩ := exists_of_bind_ok h₂
  -- The rest starts from the same answer and the same forest both times.
  obtain ⟨rfl, hforest⟩ := htask _ _ _ _ _ _ _ hfirst₁ hfirst₂
  cases hforest
  exact hrest _ _ _ _ _ _ _ _ hlast₁ hlast₂

end Task

namespace Simplify

open ShortCircuit.Task

/-- Whether the texts of a substitution are noted or not, the forest becomes the same. -/
theorem exists_of_substitute {replacee replacement r : NodeId} {w' : Workspace}
    (h : substitute replacee replacement w = (.ok r, w')) :
    ∃ journal, (edit (Edit.replace replacee replacement) >>= fun _ => pure replacement :
      Task NodeId) { w with journal } = (.ok r, w') := by
  have hkeeps : keeps .debug w = (.ok (w.journal.keeps .debug), w) := rfl
  rw [substitute, bind_of_ok hkeeps] at h
  cases hdebug : w.journal.keeps .debug with
  | false =>
    rw [hdebug] at h
    exact ⟨w.journal, h⟩
  | true =>
    rw [hdebug] at h
    -- Asking for the texts and noting them leaves another journal, and the forest as it was.
    obtain ⟨before, w₁, hbefore, h⟩ := exists_of_bind_ok h
    obtain ⟨-, rfl⟩ := Prod.mk.inj hbefore
    obtain ⟨after, w₂, hafter, h⟩ := exists_of_bind_ok h
    obtain ⟨-, rfl⟩ := Prod.mk.inj hafter
    obtain ⟨noted, w₃, hnote, h⟩ := exists_of_bind_ok h
    obtain ⟨-, rfl⟩ := Prod.mk.inj hnote
    exact ⟨_, h⟩

theorem blind_substitute (replacee replacement : NodeId) :
    Blind (substitute replacee replacement) := by
  intro f journal₁ journal₂ a₁ a₂ w₁ w₂ h₁ h₂
  obtain ⟨noted₁, h₁⟩ := exists_of_substitute h₁
  obtain ⟨noted₂, h₂⟩ := exists_of_substitute h₂
  exact (blind_edit _).bind (fun _ => blind_pure _) _ _ _ _ _ _ _ h₁ h₂

theorem blind_reduce (n : NodeId) : Blind (reduce n) := by
  refine (blind_ask _).bind fun t => ?_
  cases t.reduction with
  | ok reduction =>
    cases reduction with
    | constant value => exact (blind_edit _).bind fun fresh => blind_substitute n fresh
    | operand operand => exact blind_substitute n operand
  | error reason => exact (blind_ask _).bind fun _ => blind_throw _

theorem blind_simplifyAround (n : NodeId) : Blind (simplifyAround n) := by
  refine (blind_ask _).bind fun _ => (blind_ask _).bind fun target => ?_
  cases target with
  | none => exact blind_throw _
  | some target =>
    exact (blind_ask _).bind fun _ => (blind_note _ _).bind fun _ => blind_reduce target

/-- A simplification enters no warning. -/
theorem across_quiet : Across (InvImage Journal.Quiet Workspace.journal) where
  ask _ w := refl_of Journal.Quiet w.journal
  keeps _ w := refl_of Journal.Quiet w.journal
  note h message w := w.journal.quiet_note h message
  add _ w := refl_of Journal.Quiet w.journal
  replace _ _ w := refl_of Journal.Quiet w.journal

/-! ## Rounds -/

/-- What a pass does in one round: it simplifies around the first candidate. -/
def Round (f g : Forest) : Prop :=
  ∃ n r journal journal', f.candidate? = some n ∧
    simplifyAround n ⟨f, journal⟩ = (.ok r, ⟨g, journal'⟩)

/-- A number of rounds, each of which leaves fewer nodes. -/
inductive Rounds : Forest → Nat → Forest → Prop
  | none (f : Forest) : Rounds f 0 f
  | next {f g h : Forest} {count : Nat} (round : Round f g) (fewer : g.size < f.size)
    (rest : Rounds g count h) : Rounds f (count + 1) h

/-- There are no more rounds than nodes that go. -/
theorem Rounds.count_le {count : Nat} (rounds : Rounds f count g) :
    count + g.size ≤ f.size := by
  induction rounds with
  | none f => exact Nat.le_of_eq (Nat.zero_add _)
  | next round fewer rest ih => omega

/-- After as many rounds as there were nodes there is no node left. -/
theorem Rounds.settled_of_size_le {count : Nat} (rounds : Rounds f count g) (h : f.size ≤ count) :
    g.Settled := by
  have hle := rounds.count_le
  exact Forest.settled_of_size_eq_zero (by omega)

/-- There is one way only to go one round. -/
theorem Round.unique (round : Round f g) (round' : Round f h) : g = h := by
  obtain ⟨n, r, journal, journal₁, hn, heq⟩ := round
  obtain ⟨m, k, journal', journal₁', hm, heq'⟩ := round'
  rw [hn] at hm
  cases hm
  exact (blind_simplifyAround n _ _ _ _ _ _ _ heq heq').2

/-- A round leaves the forest well-formed, and no integer too long that was not so before. -/
theorem Round.preserves (round : Round f g) (wf : f.WellFormed) (short : f.ShortIntegers) :
    g.WellFormed ∧ g.ShortIntegers := by
  obtain ⟨n, r, journal, journal', hcandidate, heq⟩ := round
  have hn := (wf.exists_of_candidate? hcandidate).1
  obtain ⟨t, ht, -, -, r, -, wf', contraction⟩ :=
    exists_of_simplifyAround (w := ⟨f, journal⟩) wf hn heq
  exact ⟨wf', contraction.reduced.shortIntegers wf ht wf' short⟩

namespace Rounds

theorem preserves (rounds : Rounds f count g) (wf : f.WellFormed) (short : f.ShortIntegers) :
    g.WellFormed ∧ g.ShortIntegers := by
  induction rounds with
  | none f => exact ⟨wf, short⟩
  | next round fewer rest ih =>
    obtain ⟨wf', short'⟩ := round.preserves wf short
    exact ih wf' short'

/-- As many rounds from one forest come to one forest. -/
theorem unique (rounds : Rounds f count g) (rounds' : Rounds f count h) : g = h := by
  induction rounds with
  | none f =>
    cases rounds'
    rfl
  | next round fewer rest ih =>
    cases rounds' with
    | next round' fewer' rest' =>
      cases round.unique round'
      exact ih rest'

theorem append {more : Nat} (rounds : Rounds f count g) (rounds' : Rounds g more h) :
    Rounds f (count + more) h := by
  induction rounds with
  | none f => rwa [Nat.zero_add]
  | next round fewer rest ih =>
    rw [Nat.add_right_comm]
    exact .next round fewer (ih rounds')

/-- Of many rounds, those that follow on the first ones. -/
theorem drop (rounds : Rounds f count g) (all : Rounds f total h) (hle : count ≤ total) :
    Rounds g (total - count) h := by
  induction rounds generalizing total with
  | none f => exact all
  | @next f g' g count round fewer rest ih =>
    cases all with
    | none => exact absurd hle (Nat.not_succ_le_zero count)
    | @next _ g'' _ total round' fewer' rest' =>
      cases round.unique round'
      rw [Nat.add_sub_add_right]
      exact ih rest' (Nat.le_of_succ_le_succ hle)

end Rounds

/-- Where there is a candidate there is a round to go, with every journal. -/
theorem exists_round {n : NodeId} (wf : w.forest.WellFormed) (short : w.forest.ShortIntegers)
    (hcandidate : w.forest.candidate? = some n) :
    ∃ r g journal, simplifyAround n w = (.ok r, ⟨g, journal⟩) ∧ Round w.forest g ∧
      g.size < w.forest.size ∧ w.journal.Quiet journal := by
  obtain ⟨hn, m, target⟩ := wf.exists_of_candidate? hcandidate
  obtain ⟨t, ht, -, -, ⟨r, g, journal, heq, -, contraction⟩ | ⟨-, -, -, -, hlong⟩⟩ :=
    simplifyAround_cases wf hn target
  · have hquiet := across_quiet.moves_simplifyAround n w
    rw [heq] at hquiet
    have round : Round w.forest g := ⟨n, r.id, w.journal, journal, hcandidate, heq⟩
    exact ⟨r.id, g, journal, heq, round, contraction.size_lt_size wf ht, hquiet⟩
  · exact absurd (fun u hu => short u (Forest.subtree_mem_subtrees hu ht)) hlong

/-! ## Passes -/

/-- What a pass comes to that nothing cuts short: after so many rounds there is nothing left to
    simplify. -/
structure Unbounded (f : Forest) (total : Nat) (final : Forest) : Prop where
  rounds : Rounds f total final
  done : final.candidate? = none

theorem exists_unbounded (wf : f.WellFormed) (short : f.ShortIntegers) :
    ∃ total final, Unbounded f total final := by
  induction hsize : f.size using Nat.strong_induction_on generalizing f with
  | _ size ih =>
    cases hcandidate : f.candidate? with
    | none => exact ⟨0, f, .none f, hcandidate⟩
    | some n =>
      -- One round, and then as many as there are in the smaller forest.
      obtain ⟨-, g, -, -, round, fewer, -⟩ :=
        exists_round (w := ⟨f, .empty .debug⟩) wf short hcandidate
      obtain ⟨wf', short'⟩ := round.preserves wf short
      obtain ⟨total, final, all⟩ := ih g.size (hsize ▸ fewer) wf' short' rfl
      exact ⟨total + 1, final, .next round fewer all.rounds, all.done⟩

/-- Before all rounds have been gone there is something left, and afterwards there is nothing. -/
theorem Unbounded.candidate?_eq_none_iff {final : Forest} (all : Unbounded f total final)
    (rounds : Rounds f count g) (hle : count ≤ total) : g.candidate? = none ↔ total ≤ count := by
  have rest := rounds.drop all.rounds hle
  generalize hleft : total - count = left at rest
  cases rest with
  | none => exact iff_of_true all.done (by omega)
  | next round fewer rest =>
    obtain ⟨n, -, -, -, hcandidate, -⟩ := round
    rw [hcandidate]
    exact iff_of_false (Option.some_ne_none n) (by omega)

/-- A pass goes as many rounds as there are, or as its budget allows for.  It gives up where
    there are more. -/
theorem exhaust_of_unbounded {final : Forest} (all : Unbounded w.forest total final)
    (wf : w.forest.WellFormed) (short : w.forest.ShortIntegers) (budget done : Nat) :
    ∃ w', Rounds w.forest (min budget total) w'.forest ∧ w.journal.Quiet w'.journal ∧
      exhaust budget done w =
        (if budget < total then giveUp else finish) (done + min budget total) w' := by
  obtain ⟨rounds, hdone⟩ := all
  generalize hf : w.forest = f at rounds
  induction rounds generalizing w budget done with
  | none f =>
    -- There is nothing to simplify, so the budget does not matter.
    subst hf
    rw [Nat.min_zero, if_neg (Nat.not_lt_zero budget)]
    exact ⟨w, .none _, refl_of Journal.Quiet w.journal, exhaust_of_none hdone budget done⟩
  | @next f g final total round fewer rest ih =>
    subst hf
    have hround := round
    obtain ⟨n, -, -, -, hcandidate, -⟩ := hround
    cases budget with
    | zero =>
      -- There is something left, but no more is to be done.
      rw [Nat.zero_min, if_pos (Nat.succ_pos total)]
      refine ⟨w, .none _, refl_of Journal.Quiet w.journal, ?_⟩
      rw [exhaust, bind_of_ok (view_candidate w), hcandidate]
      rfl
    | succ budget =>
      -- One round, which comes to the same with this journal as with any other, and a pass with
      -- what is left of the budget.
      obtain ⟨r, g', journal, heq, round', -, hquiet⟩ := exists_round wf short hcandidate
      cases round.unique round'
      obtain ⟨wf', short'⟩ := round.preserves wf short
      obtain ⟨w', rounds, hrest, hexhaust⟩ :=
        ih (w := ⟨g, journal⟩) wf' short' budget (done + 1) hdone rfl
      have hmin : min (budget + 1) (total + 1) = min budget total + 1 := by omega
      rw [hmin]
      refine ⟨w', .next round fewer rounds, trans_of Journal.Quiet hquiet hrest, ?_⟩
      rw [exhaust_of_simplifyAround hcandidate heq, hexhaust, Nat.add_assoc, Nat.add_comm 1]
      simp only [Nat.add_lt_add_iff_right]

end Simplify

end ShortCircuit

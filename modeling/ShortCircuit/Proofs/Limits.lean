/-
  ShortCircuit.Proofs.Limits

  What the limit of a pass does: it cuts the pass short, and nothing else.  A
  pass that was cut short can be taken up again, and then comes to what one pass
  with the sum of both limits comes to.
-/

import ShortCircuit.Proofs.Pass

namespace ShortCircuit

open Failing

variable {s : Session} {total : Nat}

/-! ## Warnings -/

namespace Journal

variable {journal journal' : Journal}

/-- The warning of some text has been entered since. -/
def Warned (before after : Journal) (message : String) : Prop :=
  ∃ entries, after.entries = before.entries ++ entries ∧ ⟨.warning, message⟩ ∈ entries

theorem Unwarned.not_warned (h : journal.Unwarned journal') (message : String) :
    ¬journal.Warned journal' message := by
  obtain ⟨entries, heq, hne⟩ := h
  rintro ⟨entries', heq', hmem⟩
  -- What has been entered since is the same list both times.
  rw [heq] at heq'
  rw [← List.append_cancel_left heq'] at hmem
  exact hne _ hmem rfl

theorem Quiet.warned_note (h : journal.Quiet journal') (hkeeps : journal.keeps .warning = true)
    (message : String) : journal.Warned (journal'.note .warning message) message := by
  obtain ⟨⟨entries, heq, -⟩, hthreshold⟩ := h
  have hkeeps' : journal'.keeps .warning = true := by
    rw [keeps, hthreshold]
    exact hkeeps
  refine ⟨entries ++ [⟨.warning, message⟩], ?_, by simp⟩
  rw [note, if_pos hkeeps', heq, List.append_assoc]

end Journal

/-! ## Passes of a client -/

namespace Session

open Simplify

variable {settings : Option (List (Scalar × Value))} {limit : Int} {final : Forest} {s' : Session}

/-- What is warned of where a pass gives up. -/
def exceeded : String := s!"Exceeded max iteration count for {passName}"

/-- What a pass comes to under a limit in a forest with so many rounds to go. -/
structure Limited (s : Session) (total : Nat) (limit : Int) (count : Nat) (s' : Session) :
    Prop where
  /-- It goes all of them or as many as the limit allows for. -/
  count_eq : (count : Int) = min (max limit 0) total
  rounds : Rounds s.forest count s'.forest
  /-- The last that it does is to give up, if there are more, and to come to its end, if not. -/
  ending : ∃ journal, s.journal.Unwarned journal ∧
    (if max limit 0 < total then giveUp else finish) count ⟨s'.forest, journal⟩ =
      (.ok count, s'.toWorkspace)
  /-- A journal that keeps warnings tells so. -/
  warned : s.journal.keeps .warning = true →
    (s.journal.Warned s'.journal exceeded ↔ max limit 0 < total)

/-- The limit that settings put on a pass is the same for all sessions. -/
theorem limitOf_eq (s s' : Session) : s.limitOf settings = s'.limitOf settings := by
  cases settings <;> rfl

/-- Settings with nothing in them but a limit. -/
def limitedTo (limit : Int) : Option (List (Scalar × Value)) :=
  some [(.text Settings.iterationsKey, .scalar (.int limit))]

/-- Every limit can be set. -/
theorem limitOf_limitedTo (s : Session) (limit : Int) :
    s.limitOf (limitedTo limit) = .ok limit := rfl

theorem simplifyAll_limited (all : Unbounded s.forest total final) (wf : s.forest.WellFormed)
    (short : s.forest.ShortIntegers) (hlimit : s.limitOf settings = .ok limit) :
    ∃ count s', simplifyAll settings s = (.ok count, s') ∧ s.Limited total limit count s' := by
  let ready := s.journal.note .debug "initialize Options"
  have hready : s.journal.Quiet ready := s.journal.quiet_note (by decide) _
  obtain ⟨w', rounds, hquiet, heq⟩ :=
    exhaust_of_unbounded (w := ⟨s.forest, ready⟩) all wf short limit.toNat 0
  have hquiet := trans_of Journal.Quiet hready hquiet
  rw [Nat.zero_add] at heq
  have hbudget : limit.toNat < total ↔ max limit 0 < total := by omega
  have hcount : ((min limit.toNat total : Nat) : Int) = min (max limit 0) total := by omega
  by_cases hcut : limit.toNat < total
  · rw [if_pos hcut] at heq
    refine ⟨_, _, (simplifyAll_eq_pass hlimit).trans (perform_of_eq heq), hcount, rounds, ?_, ?_⟩
    · rw [if_pos (hbudget.1 hcut)]
      exact ⟨w'.journal, hquiet.unwarned, rfl⟩
    · intro hkeeps
      exact iff_of_true (hquiet.warned_note hkeeps exceeded) (hbudget.1 hcut)
  · rw [if_neg hcut] at heq
    refine ⟨_, _, (simplifyAll_eq_pass hlimit).trans (perform_of_eq heq), hcount, rounds, ?_, ?_⟩
    · rw [if_neg (mt hbudget.2 hcut)]
      exact ⟨w'.journal, hquiet.unwarned, rfl⟩
    · intro _
      have hover : w'.journal.Quiet (finish (min limit.toNat total) w').2.journal :=
        w'.journal.quiet_note (by decide) _
      have hunwarned := (trans_of Journal.Quiet hquiet hover).unwarned
      exact iff_of_false (hunwarned.not_warned exceeded) (mt hbudget.2 hcut)

/-- Where a pass has been cut short, the rounds that are left are those it has not gone. -/
theorem Limited.unbounded {count : Nat} (limited : s.Limited total limit count s')
    (all : Unbounded s.forest total final) : Unbounded s'.forest (total - count) final := by
  have hcount := limited.count_eq
  exact ⟨limited.rounds.drop all.rounds (by omega), all.done⟩

/-- In a reachable forest without long integers the limit of a pass only cuts it short.  There is
    a number of simplifications after which a pass without a limit would end.  A pass with any
    limit goes as many of them as the limit allows for, none if it is negative, and gives up if
    and only if there are more.  Two passes in turn leave the forest, with names and order, that
    one pass leaves with both limits together, and have done as much. -/
theorem simplifyAll_cut_short (reachable : s.forest.Reachable) (short : s.forest.ShortIntegers) :
    (∃ total final, Unbounded s.forest total final) ∧
    ∀ total final, Unbounded s.forest total final →
      (∀ settings limit, s.limitOf settings = .ok limit →
        ∃ count s', simplifyAll settings s = (.ok count, s') ∧ s.Limited total limit count s') ∧
      ∀ settings₁ settings₂ settings limit₁ limit₂, 0 ≤ limit₁ → 0 ≤ limit₂ →
        s.limitOf settings₁ = .ok limit₁ → s.limitOf settings₂ = .ok limit₂ →
        s.limitOf settings = .ok (limit₁ + limit₂) →
        ∃ count₁ s₁ count₂ s₂ s', simplifyAll settings₁ s = (.ok count₁, s₁) ∧
          simplifyAll settings₂ s₁ = (.ok count₂, s₂) ∧
          simplifyAll settings s = (.ok (count₁ + count₂), s') ∧ s'.forest = s₂.forest := by
  have wf := reachable.wellFormed
  refine ⟨exists_unbounded wf short, fun total final all => ⟨?_, ?_⟩⟩
  · intro settings limit hlimit
    exact simplifyAll_limited all wf short hlimit
  · intro settings₁ settings₂ settings limit₁ limit₂ hnonneg₁ hnonneg₂ hlimit₁ hlimit₂ hlimit
    obtain ⟨count₁, s₁, heq₁, limited₁⟩ := simplifyAll_limited all wf short hlimit₁
    obtain ⟨wf₁, short₁⟩ := limited₁.rounds.preserves wf short
    rw [limitOf_eq s s₁] at hlimit₂
    obtain ⟨count₂, s₂, heq₂, limited₂⟩ :=
      simplifyAll_limited (limited₁.unbounded all) wf₁ short₁ hlimit₂
    obtain ⟨count, s', heq, limited⟩ := simplifyAll_limited all wf short hlimit
    -- Both ways go equally many rounds, and so they come to the same forest.
    have hcount : count = count₁ + count₂ := by
      have h₁ := limited₁.count_eq
      have h₂ := limited₂.count_eq
      have h := limited.count_eq
      omega
    subst hcount
    exact ⟨count₁, s₁, count₂, s₂, s', heq₁, heq₂, heq,
      limited.rounds.unique (limited₁.rounds.append limited₂.rounds)⟩

/-- `true && x` and `true && y`, beside one another. -/
def conjunctions : Session :=
  (start .warning).after [
    .build [.fresh (.binary .logicalAnd)
      [.fresh (.literal (.bool true)) [], .fresh (.path "x") []]],
    .build [.fresh (.binary .logicalAnd)
      [.fresh (.literal (.bool true)) [], .fresh (.path "y") []]]]

/-- There are two rounds to go.  A pass with a limit of one gives up after the first, and a second
    such pass goes the other. -/
theorem simplifyAll_cut_short_conjunctions :
    conjunctions.forest.ShortIntegers ∧ ∃ final, Unbounded conjunctions.forest 2 final ∧
      (∃ s₁, simplifyAll (limitedTo 1) conjunctions = (.ok 1, s₁) ∧
        conjunctions.journal.Warned s₁.journal exceeded) ∧
      (∃ s', simplifyAll (limitedTo 2) conjunctions = (.ok 2, s') ∧
        ¬conjunctions.journal.Warned s'.journal exceeded) ∧
      ∃ s₁ s₂ s', simplifyAll (limitedTo 1) conjunctions = (.ok 1, s₁) ∧
        simplifyAll (limitedTo 1) s₁ = (.ok 1, s₂) ∧
        simplifyAll (limitedTo 2) conjunctions = (.ok 2, s') ∧ s'.forest = s₂.forest := by
  have reachable : conjunctions.forest.Reachable := by
    unfold conjunctions
    exact ⟨.warning, _, rfl⟩
  have short : conjunctions.forest.ShortIntegers := by decide +kernel
  have keeps : conjunctions.journal.keeps .warning = true := by decide
  have hone : conjunctions.limitOf (limitedTo 1) = .ok 1 := limitOf_limitedTo conjunctions 1
  have htwo : conjunctions.limitOf (limitedTo 2) = .ok 2 := limitOf_limitedTo conjunctions 2
  have hthree : conjunctions.limitOf (limitedTo 3) = .ok 3 := limitOf_limitedTo conjunctions 3
  obtain ⟨total, final, all⟩ := (simplifyAll_cut_short reachable short).1
  obtain ⟨hlimited, hsplit⟩ := (simplifyAll_cut_short reachable short).2 total final all
  -- A pass that could go three rounds goes two, and so there are no more.
  obtain ⟨count, s', heq, limited⟩ := hlimited _ 3 hthree
  have hrun : simplifyAll (limitedTo 3) conjunctions =
      (.ok 2, (simplifyAll (limitedTo 3) conjunctions).2) :=
    Failing.eq_of_toOption (by decide +kernel)
  cases heq.symm.trans hrun
  obtain rfl : total = 2 := by
    have hcount := limited.count_eq
    omega
  obtain ⟨count₁, s₁, heq₁, limited₁⟩ := hlimited _ 1 hone
  obtain rfl : count₁ = 1 := by
    have hcount := limited₁.count_eq
    omega
  obtain ⟨count₂, s₂, heq₂, limited₂⟩ := hlimited _ 2 htwo
  obtain rfl : count₂ = 2 := by
    have hcount := limited₂.count_eq
    omega
  obtain ⟨first, t₁, second, t₂, t, h₁, h₂, h, hforest⟩ :=
    hsplit _ _ _ 1 1 (by decide) (by decide) hone hone htwo
  cases heq₁.symm.trans h₁
  obtain rfl : second = 1 := by
    injection heq₂.symm.trans h with hcount
    injection hcount with hcount
    omega
  exact ⟨short, final, all, ⟨s₁, heq₁, (limited₁.warned keeps).2 (by decide)⟩,
    ⟨s₂, heq₂, mt (limited₂.warned keeps).1 (by decide)⟩, s₁, t₂, t, heq₁, h₂, h, hforest⟩

end Session

end ShortCircuit

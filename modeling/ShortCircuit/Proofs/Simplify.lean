/-
  ShortCircuit.Proofs.Simplify

  The tasks of a simplification, by what they can come to.  Where a rule applies,
  the expression contracts; all that can stop it is an integer that is too long
  to be written, in a text that is asked for before anything is replaced.
-/

import ShortCircuit.Proofs.Failing
import ShortCircuit.Proofs.Forest.Contraction
import ShortCircuit.Proofs.Tree.Printing
import ShortCircuit.Simplify

namespace ShortCircuit.Simplify

open Failing

variable {w : Workspace} {t r : Tree} {n m : NodeId} {reduction : Reduction} {text : String}
  {fault : Fault}

/-! ## Questions -/

theorem get_task (wf : w.forest.WellFormed) (ht : t ∈ w.forest.subtrees) :
    Task.ask (·.get t.id) w = (.ok t, w) := by
  show (w.forest.get t.id, w) = _
  rw [wf.get_self ht]

theorem view_target (n : NodeId) (w : Workspace) :
    Task.view (·.target? n) w = (.ok (w.forest.target? n), w) := rfl

/-- Asking for the text of a node changes nothing, and only long integers can stop it. -/
theorem render_cases (wf : w.forest.WellFormed) (ht : t ∈ w.forest.subtrees) :
    (∃ text, Task.render t.id w = (.ok text, w)) ∨
      ∃ fault, Task.render t.id w = (.error fault, w) ∧
        ¬∀ u ∈ t.subtrees, u.kind.isShort = true := by
  have heq : Task.render t.id w = (t.render.map String.ofList, w) := by
    show (Except.bind (w.forest.get t.id) _, w) = _
    rw [wf.get_self ht]
    show (Except.bind t.render _, w) = _
    cases t.render <;> rfl
  cases hrender : t.render with
  | ok text =>
    rw [hrender] at heq
    exact .inl ⟨_, heq⟩
  | error fault =>
    rw [hrender] at heq
    refine .inr ⟨fault, heq, fun hshort => ?_⟩
    -- If all integers were short, the text would be there.
    obtain ⟨text, htext⟩ := Tree.render_of_short hshort
    rw [htext] at hrender
    cases hrender

/-! ## One expression -/

theorem edit_of_eq {α : Type} {change : Edit α} {outcome : Except Fault α} {g : Forest}
    (h : change w.forest = (outcome, g)) :
    Task.edit change w = (outcome, { w with forest := g }) := by
  show ((change w.forest).1, { w with forest := (change w.forest).2 }) = _
  rw [h]

/-- What is done once the texts have been noted, if they had to be. -/
theorem replace_task (wf : w.forest.WellFormed) (h : w.forest.Replaceable t r) :
    ∃ g, (Task.edit (Edit.replace t.id r.id) >>= fun _ => pure r.id : Task NodeId) w =
        (.ok r.id, { w with forest := g }) ∧ g.WellFormed ∧ w.forest.Replaced t r g := by
  obtain ⟨g, heq, wf', replaced⟩ := wf.replace h
  refine ⟨g, ?_, wf', replaced⟩
  rw [bind_of_ok (edit_of_eq heq)]
  rfl

/-- A substitution is carried through unless a text is asked for and cannot be had. -/
theorem substitute_cases (wf : w.forest.WellFormed) (h : w.forest.Replaceable t r) :
    (∃ g journal, substitute t.id r.id w = (.ok r.id, ⟨g, journal⟩) ∧ g.WellFormed ∧
        w.forest.Replaced t r g) ∨
      ∃ fault, substitute t.id r.id w = (.error fault, w) ∧ w.journal.keeps .debug = true ∧
        ¬((∀ u ∈ t.subtrees, u.kind.isShort = true) ∧ ∀ u ∈ r.subtrees, u.kind.isShort = true) := by
  have hkeeps : Task.keeps .debug w = (.ok (w.journal.keeps .debug), w) := rfl
  rw [substitute, bind_of_ok hkeeps]
  cases hdebug : w.journal.keeps .debug with
  | false =>
    obtain ⟨g, heq, wf', replaced⟩ := replace_task wf h
    exact .inl ⟨g, w.journal, heq, wf', replaced⟩
  | true =>
    rw [if_pos rfl]
    rcases render_cases wf h.replacee with ⟨before, hbefore⟩ | ⟨fault, hfault, hlong⟩
    · rcases render_cases wf h.replacement with ⟨after, hafter⟩ | ⟨fault, hfault, hlong⟩
      · -- Both texts are there; the note that is made of them leaves the forest alone.
        rw [bind_of_ok hbefore, bind_of_ok hafter]
        refine .inl ?_
        generalize hnote : Task.note _ _ = note
        have hnoted : ∃ journal, note w = (.ok (), { w with journal }) := by
          rw [← hnote]
          exact ⟨_, rfl⟩
        obtain ⟨journal, hjournal⟩ := hnoted
        obtain ⟨g, heq, wf', replaced⟩ := replace_task (w := { w with journal }) wf h
        refine ⟨g, journal, ?_, wf', replaced⟩
        rw [bind_of_ok hjournal]
        exact heq
      · refine .inr ⟨fault, ?_, rfl, fun hshort => hlong hshort.2⟩
        rw [bind_of_ok hbefore, bind_of_error hfault]
    · refine .inr ⟨fault, ?_, rfl, fun hshort => hlong hshort.1⟩
      rw [bind_of_error hfault]

/-- Putting down the constant that a rule asks for. -/
theorem edit_add (w : Workspace) (b : Bool) :
    Task.edit (Edit.add (.literal (.bool b)) []) w =
      (.ok w.forest.next, { w with forest := w.forest.prepare (.constant b) }) := rfl

/-- What an expression reduces to takes its place.  If this is stopped, all nodes are where they
    were, a constant apart that has been put down. -/
theorem reduce_of_reduction (wf : w.forest.WellFormed) (ht : t ∈ w.forest.subtrees)
    (hreduction : t.reduction = .ok reduction) :
    (∃ r g journal, reduce t.id w = (.ok r.id, ⟨g, journal⟩) ∧ g.WellFormed ∧
        t.Heir w.forest.next reduction r ∧ (w.forest.prepare reduction).Replaced t r g) ∨
      ∃ fault, reduce t.id w = (.error fault, { w with forest := w.forest.prepare reduction }) ∧
        w.journal.keeps .debug = true ∧ ¬∀ u ∈ t.subtrees, u.kind.isShort = true := by
  obtain ⟨r, heir⟩ := Tree.exists_heir hreduction w.forest.next
  have hreplaceable := wf.replaceable ht heir
  -- What is reduced to is substituted in the forest in which there is room for it.
  have hsteps : reduce t.id w =
      substitute t.id r.id { w with forest := w.forest.prepare reduction } := by
    rw [reduce, bind_of_ok (get_task wf ht)]
    simp only [hreduction]
    cases heir with
    | constant b =>
      show (Task.edit (Edit.add (.literal (.bool b)) []) >>= fun fresh =>
        substitute t.id fresh) w = _
      rw [bind_of_ok (edit_add w b)]
      rfl
    | operand child => rfl
  -- An integer that is too long for the heir is one of the expression's.
  have hshort (h : ∀ u ∈ t.subtrees, u.kind.isShort = true) :
      ∀ u ∈ r.subtrees, u.kind.isShort = true := by
    intro u hu
    cases heir with
    | constant b =>
      rw [List.mem_singleton.1 (show u ∈ [Tree.ofConstant w.forest.next b] from hu)]
      rfl
    | operand child =>
      have hr := Tree.branch_mem_subtrees (Tree.branch_of_child? child)
      exact h u (Tree.mem_subtrees_trans hu hr)
  rw [hsteps]
  have hcases := substitute_cases (w := { w with forest := w.forest.prepare reduction })
    (wf.prepare reduction) hreplaceable
  rcases hcases with ⟨g, journal, heq, wf', replaced⟩ | ⟨fault, heq, hdebug, hlong⟩
  · exact .inl ⟨r, g, journal, heq, wf', heir, replaced⟩
  · exact .inr ⟨fault, heq, hdebug, fun h => hlong ⟨h, hshort h⟩⟩

/-- Where a rule applies, reducing an expression contracts it. -/
theorem reduce_cases (wf : w.forest.WellFormed) (ht : t ∈ w.forest.subtrees)
    (rule : t.Rule reduction) :
    (∃ r g journal, reduce t.id w = (.ok r.id, ⟨g, journal⟩) ∧ g.WellFormed ∧
        w.forest.Contraction t r g) ∨
      ∃ fault, reduce t.id w = (.error fault, { w with forest := w.forest.prepare reduction }) ∧
        w.journal.keeps .debug = true ∧ ¬∀ u ∈ t.subtrees, u.kind.isShort = true := by
  rcases reduce_of_reduction wf ht rule.reduction_eq with
    ⟨r, g, journal, heq, wf', heir, replaced⟩ | stopped
  · exact .inl ⟨r, g, journal, heq, wf', .intro reduction rule heir replaced⟩
  · exact .inr stopped

/-- Where reducing an expression succeeds, what it reduces to has taken its place. -/
theorem exists_heir_of_reduce {w' : Workspace} (wf : w.forest.WellFormed)
    (h : reduce n w = (.ok m, w')) :
    ∃ t ∈ w.forest.subtrees, t.id = n ∧ ∃ reduction r, r.id = m ∧ t.reduction = .ok reduction ∧
      t.Heir w.forest.next reduction r ∧ w'.forest.WellFormed ∧
      (w.forest.prepare reduction).Replaced t r w'.forest := by
  by_cases hn : n ∈ w.forest.ids
  · obtain ⟨t, ht, rfl⟩ := Forest.mem_ids.1 hn
    refine ⟨t, ht, rfl, ?_⟩
    cases hreduction : t.reduction with
    | ok reduction =>
      rcases reduce_of_reduction wf ht hreduction with
        ⟨r, g, journal, heq, wf', heir, replaced⟩ | ⟨fault, heq, -⟩
      · rw [heq] at h
        cases h
        exact ⟨reduction, r, rfl, rfl, heir, wf', replaced⟩
      · rw [heq] at h
        cases h
    | error reason =>
      -- A refusal is an error, whether or not its text can be had.
      rw [reduce, bind_of_ok (get_task wf ht)] at h
      simp only [hreduction] at h
      rcases render_cases wf ht with ⟨text, htext⟩ | ⟨fault, hfault, -⟩
      · rw [bind_of_ok htext] at h
        cases h
      · rw [bind_of_error hfault] at h
        cases h
  · have hget : Task.ask (·.get n) w = (.error (.unknownNode n), w) := by
      show (w.forest.get n, w) = _
      rw [Forest.get_eq_error_iff.2 ⟨hn, rfl⟩]
    rw [reduce, bind_of_error hget] at h
    cases h

/-- Where reducing an expression succeeds, it has been reduced. -/
theorem exists_of_reduce {w' : Workspace} (wf : w.forest.WellFormed)
    (h : reduce n w = (.ok m, w')) :
    ∃ t ∈ w.forest.subtrees, t.id = n ∧ ∃ r, r.id = m ∧ w'.forest.WellFormed ∧
      w.forest.Reduced t r w'.forest := by
  obtain ⟨t, ht, hid, reduction, r, hr, -, heir, wf', replaced⟩ := exists_heir_of_reduce wf h
  exact ⟨t, ht, hid, r, hr, wf', .intro reduction heir replaced⟩

/-- Where there is nothing to simplify around a node, nothing is done. -/
theorem simplifyAround_of_none (wf : w.forest.WellFormed) (hn : n ∈ w.forest.ids)
    (h : w.forest.target? n = none) :
    simplifyAround n w = (.error (.notApplicable (some n)), w) := by
  obtain ⟨u, hu, rfl⟩ := Forest.mem_ids.1 hn
  rw [simplifyAround, bind_of_ok (get_task wf hu), bind_of_ok (view_target u.id w), h]
  rfl

/-- Where there is, the expression found contracts, unless it is stopped. -/
theorem simplifyAround_cases (wf : w.forest.WellFormed) (hn : n ∈ w.forest.ids)
    (h : w.forest.target? n = some m) :
    ∃ t ∈ w.forest.subtrees, t.id = m ∧ n ∈ t.ids ∧
      ((∃ r g journal, simplifyAround n w = (.ok r.id, ⟨g, journal⟩) ∧ g.WellFormed ∧
          w.forest.Contraction t r g) ∨
        ∃ fault w', simplifyAround n w = (.error fault, w') ∧
          (∃ reduction, w'.forest = w.forest.prepare reduction) ∧
            ¬∀ u ∈ t.subtrees, u.kind.isShort = true) := by
  obtain ⟨t, ht, rfl, hnt, reduction, rule⟩ := wf.exists_of_target? h
  obtain ⟨u, hu, rfl⟩ := Forest.mem_ids.1 hn
  refine ⟨t, ht, rfl, hnt, ?_⟩
  rw [simplifyAround, bind_of_ok (get_task wf hu), bind_of_ok (view_target u.id w), h]
  rcases render_cases wf ht with ⟨text, htext⟩ | ⟨fault, hfault, hlong⟩
  · let noted : Workspace := { w with journal := w.journal.note .info s!"Simplifying '{text}'" }
    have hsteps : (Task.render t.id >>= fun text =>
        Task.note .info s!"Simplifying '{text}'" >>= fun _ => reduce t.id) w =
          reduce t.id noted := by
      have hnote : Task.note .info s!"Simplifying '{text}'" w = (.ok (), noted) := rfl
      rw [bind_of_ok htext, bind_of_ok hnote]
    rcases reduce_cases (w := noted) wf ht rule with ⟨r, g, journal, heq, wf', contraction⟩ |
      ⟨fault, heq, -, hlong⟩
    · exact .inl ⟨r, g, journal, hsteps.trans heq, wf', contraction⟩
    · exact .inr ⟨fault, _, hsteps.trans heq, ⟨reduction, rfl⟩, hlong⟩
  · -- Nothing has been put down yet, not even a constant.
    exact .inr ⟨fault, w, bind_of_error hfault, ⟨.operand t.id, rfl⟩, hlong⟩

/-- Where simplifying around a node succeeds, an expression around it has contracted. -/
theorem exists_of_simplifyAround {w' : Workspace} {k : NodeId} (wf : w.forest.WellFormed)
    (hn : n ∈ w.forest.ids) (h : simplifyAround n w = (.ok k, w')) :
    ∃ t ∈ w.forest.subtrees, w.forest.target? n = some t.id ∧ n ∈ t.ids ∧ ∃ r, r.id = k ∧
      w'.forest.WellFormed ∧ w.forest.Contraction t r w'.forest := by
  cases htarget : w.forest.target? n with
  | none =>
    rw [simplifyAround_of_none wf hn htarget] at h
    cases h
  | some m =>
    obtain ⟨t, ht, rfl, hnt, hcases⟩ := simplifyAround_cases wf hn htarget
    refine ⟨t, ht, rfl, hnt, ?_⟩
    rcases hcases with ⟨r, g, journal, heq, wf', contraction⟩ | ⟨fault, w₁, heq, -⟩
    · rw [heq] at h
      cases h
      exact ⟨r, rfl, wf', contraction⟩
    · rw [heq] at h
      cases h

end ShortCircuit.Simplify

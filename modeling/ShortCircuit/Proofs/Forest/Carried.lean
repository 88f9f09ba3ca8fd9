/-
  ShortCircuit.Proofs.Forest.Carried

  Relations between forests that hold across each single step of an edit, and so
  across whole edits and tasks, be they carried through or broken off.  One such
  relation says how forests change over time.
-/

import ShortCircuit.Forest.Plan
import ShortCircuit.Proofs.Failing
import ShortCircuit.Proofs.Forest.Edits
import ShortCircuit.Workspace

namespace ShortCircuit

open Failing

variable {α : Type} {R : Forest → Forest → Prop} {f g : Forest} {n : NodeId}

/-- A preorder of forests that goes up with every step that an edit can make. -/
class AcrossSteps (R : Forest → Forest → Prop) : Prop extends IsPreorder Forest R where
  plant : ∀ f kind, R f (f.plant kind).2
  attach : ∀ {f g parent child slot}, f.attach parent child slot = .ok g → R f g
  detach : ∀ {f g n hung}, f.detach n = .ok (hung, g) → R f g
  remove : ∀ {f g n}, f.remove n = .ok g → R f g

instance isPreorder_invImage {β γ : Type} (S : γ → γ → Prop) [IsPreorder γ S] (view : β → γ) :
    IsPreorder β (InvImage S view) where
  refl b := refl_of S (view b)
  trans _ _ _ h h' := trans_of S h h'

/-! ## Edits -/

namespace Edit

theorem moves_ask [IsPreorder Forest R] (question : Forest → Except Fault α) :
    Moves R (ask question) :=
  fun f => refl_of R f

/-- A step that fails changes nothing. -/
theorem moves_step [IsPreorder Forest R] {change : Forest → Except Fault (α × Forest)}
    (h : ∀ f a g, change f = .ok (a, g) → R f g) : Moves R (step change) := by
  intro f
  show R f (step change f).2
  unfold step
  cases heq : change f with
  | ok result => exact h f result.1 result.2 heq
  | error fault => exact refl_of R f

variable [AcrossSteps R]

theorem moves_plant (kind : Kind) : Moves R (plant kind) := by
  refine moves_step fun f a g h => ?_
  cases h
  exact AcrossSteps.plant f kind

theorem moves_attach (parent child : NodeId) (slot : Int) : Moves R (attach parent child slot) := by
  refine moves_step fun f a g h => ?_
  cases heq : f.attach parent child slot with
  | ok g' =>
    rw [heq] at h
    cases h
    exact AcrossSteps.attach heq
  | error fault =>
    rw [heq] at h
    cases h

theorem moves_detach (n : NodeId) : Moves R (detach n) :=
  moves_step fun _ _ _ h => AcrossSteps.detach h

theorem moves_remove (n : NodeId) : Moves R (remove n) := by
  refine moves_step fun f a g h => ?_
  cases heq : f.remove n with
  | ok g' =>
    rw [heq] at h
    cases h
    exact AcrossSteps.remove heq
  | error fault =>
    rw [heq] at h
    cases h

theorem moves_add (kind : Kind) (children : List (Option NodeId)) :
    Moves R (add kind children) := by
  refine Moves.bind (moves_plant kind) fun n => Moves.bind (Moves.forM ?_) fun _ => Moves.pure n
  rintro ⟨child, i⟩ -
  cases child with
  | some child => exact moves_attach n child i
  | none => exact Moves.pure _

theorem moves_replace (replacee replacement : NodeId) : Moves R (replace replacee replacement) := by
  -- The edit may be broken off after any of its steps, so each step has to move the forest on.
  refine Moves.bind (moves_ask _) fun _ => Moves.bind (moves_detach replacement) fun _ =>
    Moves.bind (moves_detach replacee) fun place => Moves.bind (moves_remove replacee) fun _ => ?_
  cases place with
  | some place => exact moves_attach place.1 replacement place.2
  | none => exact Moves.pure _

end Edit

namespace Plan

variable [AcrossSteps R]

mutual

theorem moves_build : (plan : Plan) → Moves R plan.build
  | gap => by
    rw [build]
    exact Moves.pure _
  | existing n => by
    rw [build]
    exact Moves.pure _
  | fresh kind children => by
    rw [build]
    exact Moves.bind (moves_buildAll children) fun children =>
      Moves.bind (Edit.moves_add kind children) fun n => Moves.pure _

theorem moves_buildAll : (plans : List Plan) → Moves R (buildAll plans)
  | [] => by
    rw [buildAll]
    exact Moves.pure _
  | plan :: rest => by
    rw [buildAll]
    exact Moves.bind (moves_build plan) fun _ =>
      Moves.bind (moves_buildAll rest) fun _ => Moves.pure _

end

end Plan

/-! ## Tasks -/

namespace Task

variable {w : Workspace}

theorem moves_ask [IsPreorder Forest R] (question : Forest → Except Fault α) :
    Moves (InvImage R Workspace.forest) (ask question) :=
  fun w => refl_of R w.forest

theorem moves_note [IsPreorder Forest R] (level : Level) (message : String) :
    Moves (InvImage R Workspace.forest) (note level message) :=
  fun w => refl_of R w.forest

theorem moves_keeps [IsPreorder Forest R] (level : Level) :
    Moves (InvImage R Workspace.forest) (keeps level) :=
  fun w => refl_of R w.forest

theorem moves_edit {change : Edit α} (h : Moves R change) :
    Moves (InvImage R Workspace.forest) (edit change) :=
  fun w => h w.forest

end Task

/-! ## How forests change over time -/

/-- What is true of a well-formed forest and what has become of it: it is well formed still, and
    nodes that have come meanwhile have names that were not handed out then. -/
def Forest.Evolves (f g : Forest) : Prop :=
  f.WellFormed → g.WellFormed ∧ f.next ≤ g.next ∧ ∀ n ∈ g.ids, n ∈ f.ids ∨ f.next ≤ n

namespace Forest

/-- A new place brings no node in. -/
theorem mem_ids_of_map_hang {place : Option (NodeId × Int)} {m : NodeId}
    (hrows : g.rows.Perm (f.rows.map (Row.hang m place))) (hn : n ∈ g.ids) : n ∈ f.ids := by
  obtain ⟨row, hrow, rfl⟩ := mem_ids_iff_rows.1 hn
  obtain ⟨row, hmem, rfl⟩ := List.mem_map.1 (hrows.mem_iff.1 hrow)
  exact mem_ids_iff_rows.2 ⟨row, hmem, (Row.id_hang ..).symm⟩

theorem evolves_plant (f : Forest) (kind : Kind) : f.Evolves (f.plant kind).2 := by
  intro wf
  refine ⟨wf.plant kind, Int.le_of_lt (Int.lt_succ _), fun n hn => ?_⟩
  obtain ⟨row, hrow, rfl⟩ := mem_ids_iff_rows.1 hn
  rw [rows_plant, List.mem_append, List.mem_singleton] at hrow
  rcases hrow with hrow | rfl
  · exact .inl (mem_ids_iff_rows.2 ⟨row, hrow, rfl⟩)
  · exact .inr (Int.le_refl _)

theorem evolves_attach {p c : NodeId} {s : Int} (h : f.attach p c s = .ok g) : f.Evolves g := by
  intro wf
  obtain ⟨t, ht, u, hu, rfl, rfl, free, outside⟩ := wf.exists_of_attach h
  obtain ⟨g', heq, hnext, -, hrows⟩ := wf.attach ht hu free outside
  have wf' : g.WellFormed := wf.of_attach h
  rw [heq] at h
  cases h
  exact ⟨wf', Int.le_of_eq hnext.symm, fun n hn => .inl (mem_ids_of_map_hang hrows hn)⟩

theorem evolves_detach {hung : Option (NodeId × Int)} (h : f.detach n = .ok (hung, g)) :
    f.Evolves g := by
  intro wf
  obtain ⟨t, ht, rfl⟩ := wf.exists_of_detach h
  obtain ⟨g', heq, hnext, -, -, hrows, -⟩ := wf.detach ht
  have wf' : g.WellFormed := wf.of_detach h
  rw [heq] at h
  cases h
  exact ⟨wf', Int.le_of_eq hnext.symm, fun n hn => .inl (mem_ids_of_map_hang hrows hn)⟩

theorem evolves_remove (h : f.remove n = .ok g) : f.Evolves g := by
  intro wf
  obtain ⟨t, ht, rfl⟩ := wf.exists_of_remove h
  obtain ⟨g', heq, hnext, -, hrows⟩ := wf.remove ht
  have wf' : g.WellFormed := wf.of_remove h
  rw [heq] at h
  cases h
  refine ⟨wf', Int.le_of_eq hnext.symm, fun n hn => .inl ?_⟩
  obtain ⟨row, hrow, rfl⟩ := mem_ids_iff_rows.1 hn
  exact mem_ids_iff_rows.2 ⟨row, (List.mem_filter.1 (hrows.mem_iff.1 hrow)).1, rfl⟩

instance : AcrossSteps Evolves where
  refl _ wf := ⟨wf, Int.le_refl _, fun _ hn => .inl hn⟩
  trans _ _ _ h h' wf := by
    obtain ⟨wf₁, hnext₁, hids₁⟩ := h wf
    obtain ⟨wf₂, hnext₂, hids₂⟩ := h' wf₁
    refine ⟨wf₂, Int.le_trans hnext₁ hnext₂, fun n hn => ?_⟩
    rcases hids₂ n hn with hn | hn
    · exact hids₁ n hn
    · exact .inr (Int.le_trans hnext₁ hn)
  plant := evolves_plant
  attach := evolves_attach
  detach := evolves_detach
  remove := evolves_remove

end Forest

end ShortCircuit

/-
  ShortCircuit.Proofs.Failing

  Computations on a state that may fail, and keep what they have done then.  How
  two of them compose, and how relations between the states before and after
  carry over from the steps of a computation to the whole, whatever its outcome.
-/

import Mathlib.Data.List.Forall2
import Mathlib.Order.Defs.Unbundled
import ShortCircuit.Fault

namespace ShortCircuit.Failing

variable {σ α β : Type} {R : σ → σ → Prop} {s s' : σ} {a : α} {b : β} {fault : Fault}
  {e : ExceptT Fault (StateM σ) α} {k : α → ExceptT Fault (StateM σ) β}

/-! ## Sequences -/

section

variable {ε : Type} {failure : ε} {e : ExceptT ε (StateM σ) α} {k : α → ExceptT ε (StateM σ) β}

/-- After a success the computation goes on. -/
theorem bind_of_ok (h : e s = (.ok a, s')) : (e >>= k) s = k a s' := by
  show ExceptT.bindCont k (e s).1 (e s).2 = k a s'
  rw [h]
  rfl

/-- After a failure it does not. -/
theorem bind_of_error (h : e s = (.error failure, s')) : (e >>= k) s = (.error failure, s') := by
  show ExceptT.bindCont k (e s).1 (e s).2 = (.error failure, s')
  rw [h]
  rfl

end

/-- A sequence that succeeds does so in its first part, and then in the rest. -/
theorem exists_of_bind_ok (h : (e >>= k) s = (.ok b, s')) :
    ∃ a t, e s = (.ok a, t) ∧ k a t = (.ok b, s') := by
  rcases heq : e s with ⟨outcome, t⟩
  cases outcome with
  | ok a => exact ⟨a, t, rfl, (bind_of_ok heq).symm.trans h⟩
  | error fault =>
    rw [bind_of_error heq] at h
    cases h

/-- What a computation came to is known from the answer that it gave. -/
theorem eq_of_toOption {result : Except Fault α × σ} (h : result.1.toOption = some a) :
    result = (.ok a, result.2) := by
  obtain ⟨outcome, s⟩ := result
  cases outcome with
  | ok b =>
    cases h
    rfl
  | error fault => cases h

/-! ## Outcomes -/

section

variable {ε : Type} {failure : ε} {first : Except ε α} {rest : α → Except ε β} {f : α → β}

theorem exists_of_map_ok (h : first.map f = .ok b) : ∃ a, first = .ok a ∧ f a = b := by
  cases first with
  | ok a => exact ⟨a, rfl, Except.ok.inj h⟩
  | error cause => cases h

theorem eq_error_of_map (h : first.map f = .error failure) : first = .error failure := by
  cases first with
  | ok a => cases h
  | error cause =>
    cases h
    rfl

theorem ok_bind (a : α) (rest : α → Except ε β) : (Except.ok a >>= rest) = rest a := rfl

/-- A sequence that gives an answer has one from its first part, and the answer from the rest. -/
theorem exists_of_bind_eq_ok (h : (first >>= rest) = .ok b) :
    ∃ a, first = .ok a ∧ rest a = .ok b := by
  cases first with
  | ok a => exact ⟨a, rfl, h⟩
  | error cause => cases h

/-- A sequence that fails does so in its first part, or in the rest. -/
theorem cases_of_bind_error (h : (first >>= rest) = .error failure) :
    first = .error failure ∨ ∃ a, first = .ok a ∧ rest a = .error failure := by
  cases first with
  | ok a => exact .inr ⟨a, rfl, h⟩
  | error cause =>
    cases h
    exact .inl rfl

/-- A sequence over a list succeeds if it does so for each member, and gives the answers in turn. -/
theorem mapM_eq_ok_iff {f : α → Except ε β} {xs : List α} {ys : List β} :
    xs.mapM f = .ok ys ↔ List.Forall₂ (fun x y => f x = .ok y) xs ys := by
  induction xs generalizing ys with
  | nil =>
    rw [List.mapM_nil, List.forall₂_nil_left_iff]
    exact ⟨fun h => (Except.ok.inj h).symm, fun h => by rw [h]; rfl⟩
  | cons x xs ih =>
    rw [List.mapM_cons, List.forall₂_cons_left_iff]
    constructor
    · intro h
      cases hx : f x with
      | error fault =>
        rw [hx] at h
        cases h
      | ok y =>
        cases hrest : xs.mapM f with
        | error fault =>
          rw [hx, hrest] at h
          cases h
        | ok rest =>
          rw [hx, hrest] at h
          cases h
          exact ⟨y, rest, rfl, ih.1 hrest, rfl⟩
    · rintro ⟨y, rest, hy, hrest, rfl⟩
      rw [hy, ih.2 hrest]
      rfl

/-- What becomes of all members of a list becomes of each of them. -/
theorem exists_of_forall₂ {P : α → β → Prop} {xs : List α} {ys : List β} {x : α}
    (h : List.Forall₂ P xs ys) (hx : x ∈ xs) : ∃ y ∈ ys, P x y := by
  induction h with
  | nil => cases hx
  | cons hp rest ih =>
    rcases List.mem_cons.1 hx with rfl | hx
    · exact ⟨_, List.mem_cons_self .., hp⟩
    · obtain ⟨y, hy, hp⟩ := ih hx
      exact ⟨y, List.mem_cons_of_mem _ hy, hp⟩

/-- A sequence over a list has an answer exactly if there is one for each member. -/
theorem exists_mapM_iff {f : α → Except ε β} {xs : List α} :
    (∃ ys, xs.mapM f = .ok ys) ↔ ∀ x ∈ xs, ∃ y, f x = .ok y := by
  constructor
  · rintro ⟨ys, h⟩ x hx
    obtain ⟨y, -, hy⟩ := exists_of_forall₂ (mapM_eq_ok_iff.1 h) hx
    exact ⟨y, hy⟩
  · intro h
    induction xs with
    | nil => exact ⟨[], rfl⟩
    | cons x xs ih =>
      obtain ⟨y, hy⟩ := h x (List.mem_cons_self ..)
      obtain ⟨ys, hys⟩ := ih fun x hx => h x (List.mem_cons_of_mem _ hx)
      exact ⟨y :: ys, mapM_eq_ok_iff.2 (.cons hy (mapM_eq_ok_iff.1 hys))⟩

end

/-! ## Relations between states -/

/-- Whatever comes of the computation, the states before and after it are related. -/
def Moves (R : σ → σ → Prop) (e : ExceptT Fault (StateM σ) α) : Prop := ∀ s, R s (e s).2

namespace Moves

variable [IsPreorder σ R]

theorem pure (a : α) : Moves R (Pure.pure a : ExceptT Fault (StateM σ) α) :=
  fun s => refl_of R s

theorem throw (fault : Fault) : Moves R (MonadExcept.throw fault : ExceptT Fault (StateM σ) α) :=
  fun s => refl_of R s

theorem bind (he : Moves R e) (hk : ∀ a, Moves R (k a)) : Moves R (e >>= k) := by
  intro s
  -- The first part leads to some state, and only its outcome decides whether that is the last.
  rcases heq : e s with ⟨outcome, t⟩
  have hst : R s t := by
    have h := he s
    rwa [heq] at h
  cases outcome with
  | ok a =>
    rw [bind_of_ok heq]
    exact trans_of R hst (hk a t)
  | error fault =>
    rw [bind_of_error heq]
    exact hst

theorem forM {xs : List α} {f : α → ExceptT Fault (StateM σ) PUnit}
    (h : ∀ x ∈ xs, Moves R (f x)) : Moves R (xs.forM f) := by
  induction xs with
  | nil => exact pure _
  | cons x xs ih =>
    rw [List.forM_eq_forM, List.forM_cons]
    exact bind (h x (List.mem_cons_self ..)) fun _ => ih fun y hy => h y (List.mem_cons_of_mem _ hy)

end Moves

end ShortCircuit.Failing

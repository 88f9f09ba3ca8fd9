/-
  ShortCircuit.Proofs.Sorting

  The sort by insertion is that of the library, step by step.  Hence it permutes,
  and what comes out is in order.
-/

import Mathlib.Data.List.Sort
import ShortCircuit.Sorting

namespace ShortCircuit

variable {α β : Type} {le : α → α → Bool} {xs : List α} {x : α}

theorem insertBy_eq_orderedInsert (le : α → α → Bool) (x : α) (xs : List α) :
    insertBy le x xs = xs.orderedInsert (fun a b => le a b = true) x := by
  induction xs with
  | nil => rfl
  | cons y ys ih => rw [insertBy, ih, List.orderedInsert_cons]

theorem sortBy_eq_insertionSort (le : α → α → Bool) (xs : List α) :
    sortBy le xs = xs.insertionSort fun a b => le a b = true := by
  induction xs with
  | nil => rfl
  | cons x xs ih =>
    rw [List.insertionSort_cons, ← ih]
    exact insertBy_eq_orderedInsert le x _

theorem sortBy_perm (le : α → α → Bool) (xs : List α) : (sortBy le xs).Perm xs := by
  rw [sortBy_eq_insertionSort]
  exact List.perm_insertionSort ..

@[simp] theorem mem_sortBy : x ∈ sortBy le xs ↔ x ∈ xs := (sortBy_perm le xs).mem_iff

/-- What is sorted by a key has its keys sorted. -/
theorem sortBy_map (le : α → α → Bool) (key : β → α) (xs : List β) :
    sortBy le (xs.map key) = (sortBy (fun a b => le (key a) (key b)) xs).map key := by
  rw [sortBy_eq_insertionSort, sortBy_eq_insertionSort]
  exact (List.map_insertionSort _ _ key xs fun _ _ _ _ => Iff.rfl).symm

/-- What is sorted by a number is in the order of the numbers. -/
theorem pairwise_sortBy (key : α → Int) (xs : List α) :
    (sortBy (fun a b => decide (key a ≤ key b)) xs).Pairwise fun a b => key a ≤ key b := by
  have total : Std.Total fun a b => decide (key a ≤ key b) = true :=
    ⟨fun a b => by simpa using Int.le_total (key a) (key b)⟩
  have trans : IsTrans α fun a b => decide (key a ≤ key b) = true :=
    ⟨fun a b c => by simpa using Int.le_trans⟩
  rw [sortBy_eq_insertionSort]
  exact (List.pairwise_insertionSort _ xs).imp of_decide_eq_true

end ShortCircuit

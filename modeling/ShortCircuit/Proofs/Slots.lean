/-
  ShortCircuit.Proofs.Slots

  Lists of things at slots, no slot standing twice: the branches of a node, or
  the answers for them.  What stands at a slot, and the list in the order of
  slots, do not depend on how the list is ordered.
-/

import Mathlib.Data.List.Nodup
import ShortCircuit.Proofs.Sorting

namespace ShortCircuit

variable {α β : Type} {xs ys : List (Int × α)} {s : Int} {a : α}

/-! ## What stands at a slot -/

theorem lookup_eq_some_iff_mem (nodup : (xs.map (·.1)).Nodup) :
    xs.lookup s = some a ↔ (s, a) ∈ xs := by
  refine ⟨?_, ?_⟩
  · intro h
    obtain ⟨l, r, rfl, -⟩ := List.lookup_eq_some_iff.1 h
    exact List.mem_append_right _ (List.mem_cons_self ..)
  · intro h
    -- Something stands at the slot, and nothing else can.
    obtain ⟨b, hb⟩ : ∃ b, xs.lookup s = some b := by
      rw [← Option.isSome_iff_exists, List.lookup_isSome_iff]
      exact ⟨_, h, beq_self_eq_true s⟩
    obtain ⟨l, r, rfl, -⟩ := List.lookup_eq_some_iff.1 hb
    have hmem : (s, b) ∈ l ++ (s, b) :: r := List.mem_append_right _ (List.mem_cons_self ..)
    have heq : (s, b) = (s, a) := List.inj_on_of_nodup_map nodup hmem h rfl
    rw [hb, (Prod.mk.inj heq).2]

theorem lookup_perm (nodup : (xs.map (·.1)).Nodup) (h : xs.Perm ys) (s : Int) :
    xs.lookup s = ys.lookup s := by
  have nodup' : (ys.map (·.1)).Nodup := (h.map _).nodup_iff.1 nodup
  refine Option.ext fun a => ?_
  rw [lookup_eq_some_iff_mem nodup, lookup_eq_some_iff_mem nodup']
  exact h.mem_iff

theorem lookup_map (f : α → β) (xs : List (Int × α)) (s : Int) :
    (xs.map fun x => (x.1, f x.2)).lookup s = (xs.lookup s).map f := by
  induction xs with
  | nil => rfl
  | cons x xs ih =>
    obtain ⟨slot, a⟩ := x
    rw [List.map_cons, List.lookup_cons, List.lookup_cons, ih]
    cases s == slot <;> rfl

/-! ## The order of slots -/

/-- A list in the order of slots. -/
def inSlotOrder (xs : List (Int × α)) : List (Int × α) :=
  sortBy (fun a b => decide (a.1 ≤ b.1)) xs

theorem inSlotOrder_perm (xs : List (Int × α)) : (inSlotOrder xs).Perm xs :=
  sortBy_perm ..

@[simp] theorem mem_inSlotOrder {x : Int × α} : x ∈ inSlotOrder xs ↔ x ∈ xs :=
  mem_sortBy

theorem nodup_inSlotOrder (nodup : (xs.map (·.1)).Nodup) :
    ((inSlotOrder xs).map (·.1)).Nodup :=
  ((inSlotOrder_perm xs).map _).nodup_iff.2 nodup

theorem lookup_inSlotOrder (nodup : (xs.map (·.1)).Nodup) (s : Int) :
    (inSlotOrder xs).lookup s = xs.lookup s :=
  (lookup_perm nodup (inSlotOrder_perm xs).symm s).symm

/-- Slots increase strictly along the ordered list. -/
theorem pairwise_inSlotOrder (nodup : (xs.map (·.1)).Nodup) :
    (inSlotOrder xs).Pairwise fun a b => a.1 < b.1 := by
  -- Sorting gives the weak order; as no slot stands twice, it is strict.
  have hle : (inSlotOrder xs).Pairwise fun a b => a.1 ≤ b.1 := pairwise_sortBy (·.1) xs
  have hne : (inSlotOrder xs).Pairwise fun a b => a.1 ≠ b.1 :=
    List.pairwise_map.1 (nodup_inSlotOrder nodup)
  exact (hle.and hne).imp fun h => by omega

/-- Two lists of the same things at the same slots are in the same order of slots. -/
theorem inSlotOrder_eq_of_perm (nodup : (xs.map (·.1)).Nodup) (h : xs.Perm ys) :
    inSlotOrder xs = inSlotOrder ys := by
  have nodup' : (ys.map (·.1)).Nodup := (h.map _).nodup_iff.1 nodup
  have hperm : (inSlotOrder xs).Perm (inSlotOrder ys) :=
    (inSlotOrder_perm xs).trans (h.trans (inSlotOrder_perm ys).symm)
  refine hperm.eq_of_pairwise ?_ (pairwise_inSlotOrder nodup) (pairwise_inSlotOrder nodup')
  intro a b _ _ hab hba
  omega

end ShortCircuit

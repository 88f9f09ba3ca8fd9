/-
  ShortCircuit.Proofs.Tree.Analyses

  What is known of an expression, as its value and as its purity, by what stands
  at its slots.  Both analyses can only gain from operands of which more is
  known; and where nothing else changes they give the same verdict.
-/

import ShortCircuit.Proofs.Slots
import ShortCircuit.Proofs.Tree.Subtrees
import ShortCircuit.Tree.Purity
import ShortCircuit.Tree.Truth

namespace ShortCircuit

/-! ## Two options side by side -/

section

variable {α β : Type} {R : α → β → Prop} {x : Option α} {y : Option β} {a : α} {b : β}

theorem exists_of_rel_left (h : Option.Rel R x y) (hx : x = some a) : ∃ b, y = some b ∧ R a b := by
  cases h with
  | some h =>
    cases hx
    exact ⟨_, rfl, h⟩
  | none => cases hx

theorem exists_of_rel_right (h : Option.Rel R x y) (hy : y = some b) : ∃ a, x = some a ∧ R a b := by
  cases h with
  | some h =>
    cases hy
    exact ⟨_, rfl, h⟩
  | none => cases hy

theorem map_eq_of_rel {γ : Type} {f : α → γ} {g : β → γ} (h : Option.Rel R x y)
    (hR : ∀ a b, R a b → f a = g b) : x.map f = y.map g := by
  cases h with
  | some h => exact congrArg some (hR _ _ h)
  | none => rfl

theorem isSome_eq_of_rel (h : Option.Rel R x y) : x.isSome = y.isSome := by
  cases h <;> rfl

theorem rel_of_map_eq {γ : Type} {f : α → γ} {g : β → γ} (h : x.map f = y.map g)
    (hR : ∀ a b, f a = g b → R a b) : Option.Rel R x y := by
  cases x with
  | some a =>
    obtain ⟨b, rfl, hb⟩ := Option.map_eq_some_iff.1 h.symm
    exact .some (hR a b hb.symm)
  | none =>
    rw [Option.map_eq_none_iff.1 h.symm]
    exact .none

end

/-! ## Verdicts -/

namespace Truth

@[simp] theorem isKnown_unknown : unknown.isKnown = false := rfl

theorem isKnown_eq_false_iff {t : Truth} : t.isKnown = false ↔ t = unknown := by
  cases t with
  | yes => simp [isKnown, toBool?]
  | no => simp [isKnown, toBool?]
  | unknown => simp [isKnown, toBool?]

theorem toBool?_eq_some_iff {t : Truth} {b : Bool} : t.toBool? = some b ↔ t = ofBool b := by
  cases t <;> cases b <;> decide

theorem ofBool_ne_unknown (b : Bool) : ofBool b ≠ unknown := by
  cases b <;> decide

theorem ofBool_inj {a b : Bool} : ofBool a = ofBool b ↔ a = b := by
  cases a <;> cases b <;> decide

/-- Nothing is known, or one of the two values. -/
theorem eq_unknown_or (t : Truth) : t = unknown ∨ ∃ b, t = ofBool b := by
  cases t with
  | yes => exact .inr ⟨true, rfl⟩
  | no => exact .inr ⟨false, rfl⟩
  | unknown => exact .inl rfl

theorem negate_eq_ofBool_iff {t : Truth} {b : Bool} : t.negate = ofBool b ↔ t = ofBool !b := by
  cases t <;> cases b <;> decide

/-- An exclusive or is known where both operands are. -/
theorem exclusiveOr_eq_ofBool {t u : Truth} {c : Bool} (h : t.exclusiveOr u = ofBool c) :
    ∃ a b, t = ofBool a ∧ u = ofBool b ∧ c = (a != b) := by
  unfold exclusiveOr at h
  split at h
  · rename_i a b ha hb
    exact ⟨a, b, toBool?_eq_some_iff.1 ha, toBool?_eq_some_iff.1 hb, (ofBool_inj.1 h).symm⟩
  · exact absurd h.symm (ofBool_ne_unknown c)

theorem exclusiveOr_eq_ofBool_iff {t u : Truth} {c : Bool} :
    t.exclusiveOr u = ofBool c ↔ ∃ a b, t = ofBool a ∧ u = ofBool b ∧ c = (a != b) := by
  refine ⟨exclusiveOr_eq_ofBool, ?_⟩
  rintro ⟨a, b, rfl, rfl, rfl⟩
  exact exclusiveOr_ofBool a b

/-- A conjunction is known where a true left operand hands over to a right one that is known, or
    where the left one is false. -/
theorem andThen_eq_ofBool_iff {t u : Truth} {b : Bool} :
    t.andThen u = ofBool b ↔
      t = ofBool true ∧ u = ofBool b ∨ t = ofBool false ∧ b = false := by
  cases t <;> cases b <;> simp [andThen, ofBool]

theorem orElse_eq_ofBool_iff {t u : Truth} {b : Bool} :
    t.orElse u = ofBool b ↔
      t = ofBool true ∧ b = true ∨ t = ofBool false ∧ u = ofBool b := by
  cases t <;> cases b <;> simp [orElse, ofBool]

/-- Whatever is known on the left is known on the right. -/
def Within (t u : Truth) : Prop := t = unknown ∨ t = u

theorem Within.eq_ofBool {t u : Truth} {b : Bool} (h : t.Within u) (ht : t = ofBool b) :
    u = ofBool b := by
  rcases h with rfl | rfl
  · exact absurd ht.symm (ofBool_ne_unknown b)
  · exact ht

variable {t t' u u' : Truth}

theorem Within.trans (h : t.Within t') (h' : t'.Within u) : t.Within u := by
  rcases h with rfl | rfl
  · exact .inl rfl
  · exact h'

theorem andThen_within (h : t.Within t') (h' : u.Within u') :
    (t.andThen u).Within (t'.andThen u') := by
  rcases h with rfl | rfl
  · exact .inl rfl
  · cases t with
    | yes => exact h'
    | no => exact .inr rfl
    | unknown => exact .inl rfl

theorem orElse_within (h : t.Within t') (h' : u.Within u') :
    (t.orElse u).Within (t'.orElse u') := by
  rcases h with rfl | rfl
  · exact .inl rfl
  · cases t with
    | yes => exact .inr rfl
    | no => exact h'
    | unknown => exact .inl rfl

theorem exclusiveOr_within (h : t.Within t') (h' : u.Within u') :
    (t.exclusiveOr u).Within (t'.exclusiveOr u') := by
  rcases h with rfl | rfl
  · exact .inl rfl
  · rcases h' with rfl | rfl
    · cases t <;> exact .inl rfl
    · exact .inr rfl

theorem negate_within (h : t.Within t') : t.negate.Within t'.negate := by
  rcases h with rfl | rfl
  · exact .inl rfl
  · exact .inr rfl

end Truth

namespace Purity

/-- Whatever verdict has been reached on the left is the one on the right. -/
def Within (p q : Purity) : Prop := p = unknown ∨ p = q

theorem Within.eq_of_ne {p q : Purity} (h : p.Within q) (hp : p ≠ unknown) : p = q :=
  h.resolve_left hp

theorem Within.trans {p q r : Purity} (h : p.Within q) (h' : q.Within r) : p.Within r := by
  rcases h with rfl | rfl
  · exact .inl rfl
  · exact h'

theorem Within.antisymm {p q : Purity} (h : p.Within q) (h' : q.Within p) : p = q := by
  rcases h with rfl | rfl
  · rcases h' with rfl | rfl <;> rfl
  · rfl

/-- The verdict on a whole stays if impure parts stay, and pure parts do where all are. -/
theorem allOf_within {ps qs : List Purity} (himpure : .impure ∈ ps → .impure ∈ qs)
    (hpure : (∀ p ∈ ps, p = .pure) → ∀ q ∈ qs, q = .pure) : (allOf ps).Within (allOf qs) := by
  cases h : allOf ps with
  | pure => exact .inr (allOf_eq_pure_iff.2 (hpure (allOf_eq_pure_iff.1 h))).symm
  | impure => exact .inr (allOf_eq_impure_iff.2 (himpure (allOf_eq_impure_iff.1 h))).symm
  | unknown => exact .inl rfl

end Purity

theorem Kind.exists_literal {kind : Kind} (h : kind.isLiteral = true) :
    ∃ value, kind = .literal value := by
  unfold isLiteral at h
  split at h
  · exact ⟨_, rfl⟩
  · cases h

namespace Tree

variable {t u v l : Tree} {b : Bool} {s : Int}

/-! ## Values of operands -/

/-- What is known of the operand at a slot. -/
def truthAt (t : Tree) (s : Int) : Truth := ((t.child? s).map truth).getD .unknown

theorem truthAt_of_child (h : t.child? s = some l) : t.truthAt s = l.truth := by
  rw [truthAt, h]
  rfl

/-- What is known of an operand is known of a child. -/
theorem exists_child_of_truthAt (h : t.truthAt s = .ofBool b) :
    ∃ c, t.child? s = some c ∧ c.truth = .ofBool b := by
  cases hc : t.child? s with
  | some c => exact ⟨c, rfl, by rw [← truthAt_of_child hc, h]⟩
  | none =>
    rw [truthAt, hc] at h
    exact absurd h.symm (Truth.ofBool_ne_unknown b)

/-- What is known of a node comes from its operands at the first two slots. -/
theorem truth_eq (t : Tree) :
    t.truth =
      match t.kind with
      | .literal (.bool b) => .ofBool b
      | .binary .logicalAnd => (t.truthAt 0).andThen (t.truthAt 1)
      | .binary .logicalOr => (t.truthAt 0).orElse (t.truthAt 1)
      | .binary .bitwiseXor => (t.truthAt 0).exclusiveOr (t.truthAt 1)
      | .unary tokens =>
        if UnaryOperator.ofTokens? tokens = some .logicalNot then (t.truthAt 0).negate
        else .unknown
      | .paren => t.truthAt 0
      | _ => .unknown := by
  obtain ⟨id, kind, branches⟩ := t
  -- Operands are looked up in the list of answers, instead of asking the child at the slot.
  have hlookup : truthAt (node id kind branches) = fun s =>
      ((branches.map fun b => (b.1, b.2.truth)).lookup s).getD .unknown := by
    funext s
    rw [lookup_map]
    rfl
  rw [truth_node, hlookup]
  rfl

/-- The value of a literal does not depend on what hangs below it. -/
theorem truth_of_literal (hkind : v.kind = u.kind) (h : u.kind.isLiteral = true) :
    v.truth = u.truth := by
  obtain ⟨value, hvalue⟩ := Kind.exists_literal h
  rw [truth_eq v, truth_eq u, hkind, hvalue]
  cases value <;> rfl

/-- More is known of a node if more is known of its operands, and never less. -/
theorem truth_within (hkind : v.kind = u.kind)
    (hslots : ∀ s, (u.truthAt s).Within (v.truthAt s)) : u.truth.Within v.truth := by
  rw [truth_eq u, truth_eq v, hkind]
  split
  · exact .inr rfl
  · exact Truth.andThen_within (hslots 0) (hslots 1)
  · exact Truth.orElse_within (hslots 0) (hslots 1)
  · exact Truth.exclusiveOr_within (hslots 0) (hslots 1)
  · split
    · exact Truth.negate_within (hslots 0)
    · exact .inl rfl
  · exact hslots 0
  · exact .inl rfl

theorem truth_congr (hkind : v.kind = u.kind) (hslots : ∀ s, v.truthAt s = u.truthAt s) :
    v.truth = u.truth := by
  rw [truth_eq v, truth_eq u, hkind]
  simp only [hslots]

/-! ## Purity of operands -/

/-- The verdict on the operand at a slot. -/
def purityAt (t : Tree) (s : Int) : Purity := ((t.child? s).map purity).getD .unknown

theorem purityAt_of_child (h : t.child? s = some l) : t.purityAt s = l.purity := by
  rw [purityAt, h]
  rfl

/-- A verdict other than the one on an empty slot is that on a child. -/
theorem purityAt_eq_iff {p : Purity} (hp : p ≠ .unknown) :
    t.purityAt s = p ↔ ∃ c, t.child? s = some c ∧ c.purity = p := by
  rw [purityAt]
  cases t.child? s with
  | none => simp [hp.symm]
  | some c => simp

theorem exists_child_of_purityAt (h : t.purityAt s = .pure) :
    ∃ c, t.child? s = some c ∧ c.purity = .pure :=
  (purityAt_eq_iff (by decide)).1 h

/-- The verdict on a node comes from those on its operands, at certain slots or at all. -/
theorem purity_eq (t : Tree) :
    t.purity =
      match t.kind with
      | .literal _ | .path _ | .qualifiedPath _ | .unit => .pure
      | .breakLoop | .continueLoop | .returnEarly | .propagate => .impure
      | .paren | .fieldAccess _ | .array true => t.purityAt 0
      | .array false | .tuple => .allOf (t.branches.map (·.2.purity))
      | .record _ fields false =>
        .allOf ((List.range fields.length).map fun (i : Nat) => t.purityAt i)
      | _ => .unknown := by
  obtain ⟨id, kind, branches⟩ := t
  have hlookup : purityAt (node id kind branches) = fun s =>
      ((branches.map fun b => (b.1, b.2.purity)).lookup s).getD .unknown := by
    funext s
    rw [lookup_map]
    rfl
  have hall : (node id kind branches).branches.map (·.2.purity) =
      (branches.map fun b => (b.1, b.2.purity)).map (·.2) := by
    rw [List.map_map]
    rfl
  rw [purity_node, hlookup, hall]
  rfl

/-- A verdict that has been reached stays if all that have been reached on the children stay. -/
theorem purity_within (hkind : v.kind = u.kind) (hu : (u.branches.map (·.1)).Nodup)
    (hv : (v.branches.map (·.1)).Nodup)
    (hslots : ∀ s, Option.Rel (fun c d => c.purity.Within d.purity) (u.child? s) (v.child? s)) :
    u.purity.Within v.purity := by
  have hat (s : Int) : (u.purityAt s).Within (v.purityAt s) := by
    unfold purityAt
    have hs := hslots s
    generalize u.child? s = x, v.child? s = y at hs
    cases hs with
    | some h => exact h
    | none => exact .inl rfl
  -- Impure children stay impure.  If all children come to be pure, none had another verdict.
  have hall : (Purity.allOf (u.branches.map (·.2.purity))).Within
      (.allOf (v.branches.map (·.2.purity))) := by
    refine Purity.allOf_within (fun himpure => ?_) fun hpure p hp => ?_
    · obtain ⟨⟨s, c⟩, hb, hc⟩ := List.mem_map.1 himpure
      obtain ⟨d, hd, h⟩ := exists_of_rel_left (hslots s) ((lookup_eq_some_iff_mem hu).2 hb)
      refine List.mem_map.2 ⟨(s, d), (lookup_eq_some_iff_mem hv).1 hd, ?_⟩
      exact (h.eq_of_ne (by rw [hc]; decide)).symm.trans hc
    · obtain ⟨⟨s, d⟩, hb, rfl⟩ := List.mem_map.1 hp
      obtain ⟨c, hc, h⟩ := exists_of_rel_right (hslots s) ((lookup_eq_some_iff_mem hv).2 hb)
      have hcp : c.purity = .pure :=
        hpure _ (List.mem_map.2 ⟨(s, c), (lookup_eq_some_iff_mem hu).1 hc, rfl⟩)
      exact (h.eq_of_ne (by rw [hcp]; decide)).symm.trans hcp
  rw [purity_eq u, purity_eq v, hkind]
  split
  any_goals exact .inr rfl
  any_goals exact hat 0
  any_goals exact hall
  · refine Purity.allOf_within (fun himpure => ?_) fun hpure p hp => ?_
    · obtain ⟨i, hi, hc⟩ := List.mem_map.1 himpure
      exact List.mem_map.2 ⟨i, hi, ((hat i).eq_of_ne (by rw [hc]; decide)).symm.trans hc⟩
    · obtain ⟨i, hi, rfl⟩ := List.mem_map.1 hp
      have hc : u.purityAt i = .pure := hpure _ (List.mem_map.2 ⟨i, hi, rfl⟩)
      exact ((hat i).eq_of_ne (by rw [hc]; decide)).symm.trans hc

theorem purity_congr (hkind : v.kind = u.kind) (hu : (u.branches.map (·.1)).Nodup)
    (hv : (v.branches.map (·.1)).Nodup)
    (hslots : ∀ s, (v.child? s).map purity = (u.child? s).map purity) : v.purity = u.purity := by
  have hforth : v.purity.Within u.purity :=
    purity_within hkind.symm hv hu fun s => rel_of_map_eq (hslots s) fun _ _ h => .inr h
  have hback : u.purity.Within v.purity :=
    purity_within hkind hu hv fun s => rel_of_map_eq (hslots s).symm fun _ _ h => .inr h
  exact hforth.antisymm hback

end Tree

end ShortCircuit

/-
  ShortCircuit.Proofs.Tree.Discarding

  Whether an expression may be dropped is decided by the nodes that its
  evaluation comes to, and by nothing else.  It is impure if one of them diverts
  the flow, and pure if all of them only put values together and lack none.
-/

import Mathlib.Logic.Relation
import ShortCircuit.Proofs.Tree.Shape

namespace ShortCircuit

/-! ## Kinds -/

namespace Kind

/-- The slots that a node has to have filled, and evaluates.  The size of a repeated array and
    what follows the fields of a record are not among them. -/
def needed : Kind → List Int
  | paren | fieldAccess _ | array true => [0]
  | record _ fields false => (List.range fields.length).map fun (i : Nat) => i
  | _ => []

/-- Evaluating the node is evaluating all its children, wherever they stand. -/
def isList : Kind → Bool
  | array false | tuple => true
  | _ => false

/-- The node only names a value, or puts values together. -/
def isInert : Kind → Bool
  | literal _ | path _ | qualifiedPath _ | unit => true
  | paren | fieldAccess _ | array _ | tuple | record _ _ false => true
  | _ => false

/-- The node changes the flow of execution. -/
def diverts : Kind → Bool
  | breakLoop | continueLoop | returnEarly | propagate => true
  | _ => false

/-- The node runs code that may do anything: a call, an operator, an index, a cast, a block, a
    loop or a macro. -/
def runsCode : Kind → Bool
  | call | methodCall _ | binary _ | unary _ | index | cast _ | block _ => true
  | forLoop _ | loop | whileLoop | macroCall _ => true
  | _ => false

variable {kind : Kind}

theorem needed_of_isList (h : kind.isList = true) : kind.needed = [] := by
  unfold isList at h
  split at h
  · rfl
  · rfl
  · cases h

theorem isInert_of_isList (h : kind.isList = true) : kind.isInert = true := by
  unfold isList at h
  split at h
  · rfl
  · rfl
  · cases h

theorem needed_of_not_isInert (h : kind.isInert = false) : kind.needed = [] := by
  unfold needed
  split
  all_goals first | rfl | cases h

theorem not_isInert_of_diverts (h : kind.diverts = true) : kind.isInert = false := by
  unfold diverts at h
  split at h
  all_goals first | rfl | cases h

theorem not_isInert_of_runsCode (h : kind.runsCode = true) : kind.isInert = false := by
  unfold runsCode at h
  split at h
  all_goals first | rfl | cases h

end Kind

/-! ## Verdicts -/

theorem Purity.allOf_singleton (p : Purity) : allOf [p] = p := by
  cases p <;> rfl

theorem Purity.eq_unknown_iff {p : Purity} : p = .unknown ↔ ¬p = .impure ∧ ¬p = .pure := by
  cases p <;> decide

namespace Tree

variable {t u c : Tree} {s : Int} {p : Purity}

/-! ## Nodes that evaluation comes to -/

/-- Evaluating a node evaluates the child. -/
def Evaluates (t c : Tree) : Prop :=
  ∃ s, (s ∈ t.kind.needed ∨ t.kind.isList = true) ∧ t.child? s = some c

/-- Evaluation comes to a node by nothing but steps from a node to a child that it evaluates. -/
def Reaches : Tree → Tree → Prop := Relation.ReflTransGen Evaluates

/-- Nothing that evaluating the node takes is missing. -/
def IsFilled (t : Tree) : Prop := ∀ s ∈ t.kind.needed, (t.child? s).isSome = true

theorem reaches_iff : t.Reaches u ↔ t = u ∨ ∃ c, t.Evaluates c ∧ c.Reaches u :=
  Relation.ReflTransGen.cases_head_iff

/-- Where nothing is put together, no child is evaluated. -/
theorem not_evaluates (h : t.kind.isInert = false) : ¬t.Evaluates c := by
  rintro ⟨s, hs | hlist, -⟩
  · rw [Kind.needed_of_not_isInert h] at hs
    cases hs
  · rw [Kind.isInert_of_isList hlist] at h
    cases h

/-- A list evaluates its branches. -/
theorem evaluates_iff_of_isList (nodup : (t.branches.map (·.1)).Nodup)
    (hlist : t.kind.isList = true) : t.Evaluates c ↔ ∃ s, (s, c) ∈ t.branches := by
  refine exists_congr fun s => ?_
  rw [and_iff_right (.inr hlist), child?, lookup_eq_some_iff_mem nodup]

/-- Anything else evaluates what stands at the slots that it needs. -/
theorem evaluates_iff_of_not_isList (hlist : ¬t.kind.isList = true) :
    t.Evaluates c ↔ ∃ s ∈ t.kind.needed, t.child? s = some c :=
  exists_congr fun _ => and_congr_left fun _ => or_iff_left hlist

/-! ## Verdicts on what is evaluated -/

/-- The verdicts on what evaluating a node evaluates, with those on empty slots. -/
def verdicts (t : Tree) : List Purity :=
  if t.kind.isList then t.branches.map (·.2.purity) else t.kind.needed.map t.purityAt

/-- The verdict on a node is that on its kind, or comes from what it evaluates. -/
theorem purity_eq_verdicts (t : Tree) :
    t.purity =
      if t.kind.diverts then .impure
      else if t.kind.isInert then .allOf t.verdicts
      else .unknown := by
  rw [purity_eq, verdicts]
  cases t.kind
  case paren => exact (Purity.allOf_singleton _).symm
  case fieldAccess field => exact (Purity.allOf_singleton _).symm
  case array repeated =>
    cases repeated with
    | true => exact (Purity.allOf_singleton _).symm
    | false => rfl
  case record name fields spread =>
    cases spread with
    | true => rfl
    | false =>
      show _ = Purity.allOf (((List.range fields.length).map _).map t.purityAt)
      rw [List.map_map]
      rfl
  all_goals rfl

/-- A verdict that has been reached is that on a child. -/
theorem mem_verdicts_iff (nodup : (t.branches.map (·.1)).Nodup) (hp : p ≠ .unknown) :
    p ∈ t.verdicts ↔ ∃ c, t.Evaluates c ∧ c.purity = p := by
  unfold verdicts
  split
  · rename_i hlist
    rw [List.mem_map]
    refine ⟨?_, ?_⟩
    · rintro ⟨⟨s, c⟩, hb, hc⟩
      exact ⟨c, (evaluates_iff_of_isList nodup hlist).2 ⟨s, hb⟩, hc⟩
    · rintro ⟨c, heval, hc⟩
      obtain ⟨s, hb⟩ := (evaluates_iff_of_isList nodup hlist).1 heval
      exact ⟨(s, c), hb, hc⟩
  · rename_i hlist
    rw [List.mem_map]
    refine ⟨?_, ?_⟩
    · rintro ⟨s, hs, hat⟩
      obtain ⟨c, hc, hcp⟩ := (purityAt_eq_iff hp).1 hat
      exact ⟨c, (evaluates_iff_of_not_isList hlist).2 ⟨s, hs, hc⟩, hcp⟩
    · rintro ⟨c, heval, hcp⟩
      obtain ⟨s, hs, hc⟩ := (evaluates_iff_of_not_isList hlist).1 heval
      exact ⟨s, hs, (purityAt_eq_iff hp).2 ⟨c, hc, hcp⟩⟩

/-- All verdicts are pure if those on the children are, and no needed slot is empty. -/
theorem forall_verdicts_iff (nodup : (t.branches.map (·.1)).Nodup) :
    (∀ p ∈ t.verdicts, p = .pure) ↔ t.IsFilled ∧ ∀ c, t.Evaluates c → c.purity = .pure := by
  unfold verdicts IsFilled
  split
  · rename_i hlist
    rw [Kind.needed_of_isList hlist, List.forall_mem_map]
    simp only [evaluates_iff_of_isList nodup hlist]
    refine ⟨?_, ?_⟩
    · intro hall
      refine ⟨fun s hs => absurd hs List.not_mem_nil, ?_⟩
      rintro c ⟨s, hb⟩
      exact hall (s, c) hb
    · rintro ⟨-, hall⟩ ⟨s, c⟩ hb
      exact hall c ⟨s, hb⟩
  · rename_i hlist
    rw [List.forall_mem_map]
    simp only [evaluates_iff_of_not_isList hlist, purityAt_eq_iff (p := .pure) (by decide)]
    refine ⟨?_, ?_⟩
    · intro hall
      refine ⟨fun s hs => ?_, ?_⟩
      · obtain ⟨c, hc, -⟩ := hall s hs
        exact Option.isSome_iff_exists.2 ⟨c, hc⟩
      · rintro c ⟨s, hs, hc⟩
        obtain ⟨d, hd, hpure⟩ := hall s hs
        rw [hc] at hd
        cases hd
        exact hpure
    · rintro ⟨hfilled, hall⟩ s hs
      obtain ⟨c, hc⟩ := Option.isSome_iff_exists.1 (hfilled s hs)
      exact ⟨c, hc, hall c ⟨s, hs, hc⟩⟩

/-- A node is impure if it diverts the flow, or if a child is impure that it evaluates. -/
theorem purity_eq_impure_iff (nodup : (t.branches.map (·.1)).Nodup) :
    t.purity = .impure ↔ t.kind.diverts = true ∨ ∃ c, t.Evaluates c ∧ c.purity = .impure := by
  rw [purity_eq_verdicts]
  split
  · rename_i hdiverts
    exact iff_of_true rfl (.inl hdiverts)
  · rename_i hdiverts
    rw [or_iff_right hdiverts]
    split
    · rw [Purity.allOf_eq_impure_iff, mem_verdicts_iff nodup (by decide)]
    · rename_i hinert
      refine iff_of_false (by decide) ?_
      rintro ⟨c, hc, -⟩
      exact not_evaluates (Bool.eq_false_iff.2 hinert) hc

/-- A node is pure if it is inert, lacks nothing, and all that it evaluates is pure. -/
theorem purity_eq_pure_iff (nodup : (t.branches.map (·.1)).Nodup) :
    t.purity = .pure ↔
      (t.kind.isInert = true ∧ t.IsFilled) ∧ ∀ c, t.Evaluates c → c.purity = .pure := by
  rw [purity_eq_verdicts]
  split
  · rename_i hdiverts
    refine iff_of_false (by decide) ?_
    rintro ⟨⟨hinert, -⟩, -⟩
    rw [Kind.not_isInert_of_diverts hdiverts] at hinert
    cases hinert
  · split
    · rename_i hinert
      rw [Purity.allOf_eq_pure_iff, forall_verdicts_iff nodup, and_iff_right hinert]
    · rename_i hinert
      refine iff_of_false (by decide) ?_
      rintro ⟨⟨h, -⟩, -⟩
      exact hinert h

/-! ## Exactness -/

/-- An expression is impure exactly if evaluation comes to a node that diverts the flow. -/
theorem impure_iff_reaches (slotted : t.Slotted) :
    t.purity = .impure ↔ ∃ u, t.Reaches u ∧ u.kind.diverts = true := by
  induction t using Tree.induction with
  | node id kind branches ih =>
    have hchild {c : Tree} (h : (node id kind branches).Evaluates c) :
        c.purity = .impure ↔ ∃ u, c.Reaches u ∧ u.kind.diverts = true := by
      obtain ⟨s, -, hc⟩ := h
      exact ih (s, c) (branch_of_child? hc) (slotted.child hc)
    rw [purity_eq_impure_iff slotted.nodup]
    refine ⟨?_, ?_⟩
    · rintro (hdiverts | ⟨c, hc, himpure⟩)
      · exact ⟨_, .refl, hdiverts⟩
      · obtain ⟨u, hu, hdiverts⟩ := (hchild hc).1 himpure
        exact ⟨u, .head hc hu, hdiverts⟩
    · rintro ⟨u, hu, hdiverts⟩
      rcases reaches_iff.1 hu with rfl | ⟨c, hc, hu⟩
      · exact .inl hdiverts
      · exact .inr ⟨c, hc, (hchild hc).2 ⟨u, hu, hdiverts⟩⟩

/-- An expression is pure exactly if all nodes that evaluation comes to are inert and lack
    nothing. -/
theorem pure_iff_reaches (slotted : t.Slotted) :
    t.purity = .pure ↔ ∀ u, t.Reaches u → u.kind.isInert = true ∧ u.IsFilled := by
  induction t using Tree.induction with
  | node id kind branches ih =>
    have hchild {c : Tree} (h : (node id kind branches).Evaluates c) :
        c.purity = .pure ↔ ∀ u, c.Reaches u → u.kind.isInert = true ∧ u.IsFilled := by
      obtain ⟨s, -, hc⟩ := h
      exact ih (s, c) (branch_of_child? hc) (slotted.child hc)
    rw [purity_eq_pure_iff slotted.nodup]
    refine ⟨?_, ?_⟩
    · rintro ⟨hself, hall⟩ u hu
      rcases reaches_iff.1 hu with rfl | ⟨c, hc, hu⟩
      · exact hself
      · exact (hchild hc).1 (hall c hc) u hu
    · intro hall
      refine ⟨hall _ .refl, fun c hc => ?_⟩
      exact (hchild hc).2 fun u hu => hall u (.head hc hu)

/-- What runs code cannot be dropped, wherever evaluation comes to it. -/
theorem not_mayDiscard_of_reaches (slotted : t.Slotted) (hu : t.Reaches u)
    (hruns : u.kind.runsCode = true) : t.purity.mayDiscard = false := by
  have hnot : t.purity ≠ .pure := by
    intro hpure
    have hinert := ((pure_iff_reaches slotted).1 hpure u hu).1
    rw [Kind.not_isInert_of_runsCode hruns] at hinert
    cases hinert
  exact beq_false_of_ne hnot

end Tree

end ShortCircuit

/-
  ShortCircuit.Proofs.Tree.Evaluation

  The value of an expression is known where short-circuit evaluation finds it
  without running the program.  An expression is read as a term whose atoms are
  all that nothing is known about.  Evaluating the term from left to right notes
  which atoms are consulted, and a value is known exactly if there are none.
-/

import ShortCircuit.Proofs.Tree.Analyses

namespace ShortCircuit

/-! ## Terms -/

/-- What evaluation cannot look into: a node, or an empty slot of one. -/
inductive Atom where
  | node (n : NodeId)
  | gap (n : NodeId) (slot : Int)
  deriving DecidableEq

/-- Boolean terms. -/
inductive Term where
  | atom (a : Atom)
  | constant (b : Bool)
  | group (inner : Term)
  | not (operand : Term)
  | and (left right : Term)
  | or (left right : Term)
  | xor (left right : Term)

namespace Term

variable {x y : Term} {env : Atom → Bool} {v : Bool}

/-- The boolean that a term stands for, given those that the atoms stand for. -/
def value (env : Atom → Bool) : Term → Bool
  | atom a => env a
  | constant b => b
  | group x => x.value env
  | not x => !x.value env
  | and x y => x.value env && y.value env
  | or x y => x.value env || y.value env
  | xor x y => x.value env != y.value env

/-- Go on after an evaluation, with its value, and note the atoms that either one consults. -/
def follow (first : Bool × List Atom) (next : Bool → Bool × List Atom) : Bool × List Atom :=
  ((next first.1).1, first.2 ++ (next first.1).2)

/-- Evaluate a term from left to right, and no further than it takes to settle the result.  The
    atoms that are consulted come with the result, in their order. -/
def evaluate (env : Atom → Bool) : Term → Bool × List Atom
  | atom a => (env a, [a])
  | constant b => (b, [])
  | group x => x.evaluate env
  | not x => follow (x.evaluate env) fun a => (!a, [])
  | and x y => follow (x.evaluate env) fun a => if a then y.evaluate env else (false, [])
  | or x y => follow (x.evaluate env) fun a => if a then (true, []) else y.evaluate env
  | xor x y => follow (x.evaluate env) fun a => follow (y.evaluate env) fun b => (a != b, [])

/-- Evaluation returns a boolean, and consults no atom for it. -/
def Returns (x : Term) (b : Bool) : Prop := ∀ env, x.evaluate env = (b, [])

/-- Stopping early changes nothing about the result. -/
theorem evaluate_fst (env : Atom → Bool) (x : Term) : (x.evaluate env).1 = x.value env := by
  induction x with
  | atom a => rfl
  | constant b => rfl
  | group x ih => exact ih
  | not x ih => exact congrArg Bool.not ih
  | and x y ihx ihy =>
    rw [value, evaluate, follow, ihx]
    cases x.value env with
    | true => exact ihy
    | false => rfl
  | or x y ihx ihy =>
    rw [value, evaluate, follow, ihx]
    cases x.value env with
    | true => rfl
    | false => exact ihy
  | xor x y ihx ihy =>
    rw [value, ← ihx, ← ihy]
    rfl

/-- No atom is consulted exactly if none is in either of the two parts. -/
theorem follow_eq_iff {first : Bool × List Atom} {next : Bool → Bool × List Atom} :
    follow first next = (v, []) ↔ ∃ a, first = (a, []) ∧ next a = (v, []) := by
  obtain ⟨a, consulted⟩ := first
  refine ⟨?_, ?_⟩
  · intro h
    obtain ⟨hvalue, hconsulted⟩ := Prod.mk.inj h
    obtain ⟨hfirst, hnext⟩ := List.append_eq_nil_iff.1 hconsulted
    exact ⟨a, Prod.ext rfl hfirst, Prod.ext hvalue hnext⟩
  · rintro ⟨b, hfirst, hnext⟩
    cases hfirst
    rw [follow, hnext]
    rfl

theorem evaluate_atom_ne (a : Atom) : (atom a).evaluate env ≠ (v, []) := by
  intro h
  cases (Prod.mk.inj h).2

theorem evaluate_not_iff :
    (not x).evaluate env = (v, []) ↔ x.evaluate env = (!v, []) := by
  rw [evaluate, follow_eq_iff]
  refine ⟨?_, ?_⟩
  · rintro ⟨a, hx, ha⟩
    cases ha
    rw [Bool.not_not]
    exact hx
  · intro hx
    exact ⟨!v, hx, by rw [Bool.not_not]⟩

theorem evaluate_and_iff :
    (and x y).evaluate env = (v, []) ↔
      x.evaluate env = (true, []) ∧ y.evaluate env = (v, []) ∨
        x.evaluate env = (false, []) ∧ v = false := by
  rw [evaluate, follow_eq_iff, Bool.exists_bool, or_comm]
  simp [eq_comm]

theorem evaluate_or_iff :
    (or x y).evaluate env = (v, []) ↔
      x.evaluate env = (true, []) ∧ v = true ∨
        x.evaluate env = (false, []) ∧ y.evaluate env = (v, []) := by
  rw [evaluate, follow_eq_iff, Bool.exists_bool, or_comm]
  simp [eq_comm]

theorem evaluate_xor_iff :
    (xor x y).evaluate env = (v, []) ↔
      ∃ a b, x.evaluate env = (a, []) ∧ y.evaluate env = (b, []) ∧ v = (a != b) := by
  rw [evaluate, follow_eq_iff]
  refine exists_congr fun a => ?_
  rw [follow_eq_iff, exists_and_left]
  simp [eq_comm]

end Term

/-! ## Constructs -/

/-- What an expression is as a term: a constant, a connective, or something else. -/
inductive Construct where
  | constant (b : Bool)
  | group
  | not
  | and
  | or
  | xor
  | other

/-- Only the token `!` alone spells a negation. -/
def Kind.construct : Kind → Construct
  | .literal (.bool b) => .constant b
  | .paren => .group
  | .unary tokens => if tokens = .ofList [.exclamation] then .not else .other
  | .binary .logicalAnd => .and
  | .binary .logicalOr => .or
  | .binary .bitwiseXor => .xor
  | _ => .other

/-- The term for a node, given those at its slots. -/
def Term.ofOperands (n : NodeId) (operand : Int → Term) : Construct → Term
  | .constant b => .constant b
  | .group => .group (operand 0)
  | .not => .not (operand 0)
  | .and => .and (operand 0) (operand 1)
  | .or => .or (operand 0) (operand 1)
  | .xor => .xor (operand 0) (operand 1)
  | .other => .atom (.node n)

theorem UnaryOperator.ofTokens?_eq_logicalNot_iff {tokens : UnaryTokens} :
    ofTokens? tokens = some .logicalNot ↔ tokens = .ofList [.exclamation] := by
  refine ⟨?_, ?_⟩
  · intro h
    rw [ofTokens?, List.find?_eq_some_iff_append] at h
    exact (eq_of_beq h.1).symm
  · rintro rfl
    exact ofTokens?_tokens .logicalNot

namespace Tree

variable {t u c : Tree} {s : Int} {v : Bool}

/-- An expression read as a term. -/
def term : Tree → Term :=
  fold fun n kind operands =>
    .ofOperands n (fun s => (operands.lookup s).getD (.atom (.gap n s))) kind.construct

/-- The term at a slot. -/
def termAt (t : Tree) (s : Int) : Term := ((t.child? s).map term).getD (.atom (.gap t.id s))

theorem termAt_of_child (h : t.child? s = some c) : t.termAt s = c.term := by
  rw [termAt, h]
  rfl

theorem term_eq (t : Tree) : t.term = .ofOperands t.id t.termAt t.kind.construct := by
  obtain ⟨id, kind, branches⟩ := t
  have hlookup : termAt (node id kind branches) = fun s =>
      ((branches.map fun b => (b.1, b.2.term)).lookup s).getD (.atom (.gap id s)) := by
    funext s
    rw [lookup_map]
    rfl
  rw [term, fold_node, hlookup]
  rfl

/-- The value of a node, by what it is as a term. -/
theorem truth_eq_construct (t : Tree) :
    t.truth =
      match t.kind.construct with
      | .constant b => .ofBool b
      | .group => t.truthAt 0
      | .not => (t.truthAt 0).negate
      | .and => (t.truthAt 0).andThen (t.truthAt 1)
      | .or => (t.truthAt 0).orElse (t.truthAt 1)
      | .xor => (t.truthAt 0).exclusiveOr (t.truthAt 1)
      | .other => .unknown := by
  rw [truth_eq]
  cases t.kind
  case literal value => cases value <;> rfl
  case binary op => cases op <;> rfl
  case unary tokens =>
    rw [Kind.construct]
    simp only [UnaryOperator.ofTokens?_eq_logicalNot_iff]
    split <;> rfl
  all_goals rfl

/-- The value of an expression is known exactly if evaluation returns it and consults no atom. -/
theorem truth_eq_ofBool_iff (env : Atom → Bool) :
    t.truth = .ofBool v ↔ t.term.evaluate env = (v, []) := by
  induction t using Tree.induction generalizing v with
  | node id kind branches ih =>
    -- An empty slot has no value, and is an atom; children have what they have by induction.
    have hslot (s : Int) (v : Bool) : (node id kind branches).truthAt s = .ofBool v ↔
        ((node id kind branches).termAt s).evaluate env = (v, []) := by
      cases hc : (node id kind branches).child? s with
      | none =>
        rw [truthAt, termAt, hc]
        exact iff_of_false (Truth.ofBool_ne_unknown v).symm (Term.evaluate_atom_ne _)
      | some c =>
        rw [truthAt_of_child hc, termAt_of_child hc]
        exact ih (s, c) (branch_of_child? hc)
    rw [truth_eq_construct, term_eq]
    cases (node id kind branches).kind.construct with
    | constant b =>
      show Truth.ofBool b = .ofBool v ↔ (b, []) = (v, [])
      rw [Truth.ofBool_inj, Prod.mk.injEq, and_iff_left rfl]
    | group => exact hslot 0 v
    | not => exact Truth.negate_eq_ofBool_iff.trans ((hslot 0 _).trans Term.evaluate_not_iff.symm)
    | and =>
      refine Truth.andThen_eq_ofBool_iff.trans ?_
      rw [hslot, hslot, hslot]
      exact Term.evaluate_and_iff.symm
    | or =>
      refine Truth.orElse_eq_ofBool_iff.trans ?_
      rw [hslot, hslot, hslot]
      exact Term.evaluate_or_iff.symm
    | xor =>
      refine Truth.exclusiveOr_eq_ofBool_iff.trans ?_
      simp only [hslot]
      exact Term.evaluate_xor_iff.symm
    | other => exact iff_of_false (Truth.ofBool_ne_unknown v).symm (Term.evaluate_atom_ne _)

/-- What is known of an expression is its value, whatever booleans the atoms stand for. -/
theorem value_of_truth (h : t.truth = .ofBool v) (env : Atom → Bool) : t.term.value env = v := by
  rw [← Term.evaluate_fst, (truth_eq_ofBool_iff env).1 h]

theorem returns_iff : t.term.Returns v ↔ t.truth = .ofBool v :=
  ⟨fun h => (truth_eq_ofBool_iff fun _ => true).2 (h _), fun h env => (truth_eq_ofBool_iff env).1 h⟩

/-! ## Operands that are consulted -/

/-- The slots that evaluation comes to, if it stops at the first atom: that of the only or left
    operand, and that of the right one if the left one returns a boolean that does not settle the
    result. -/
inductive Consults (t : Tree) : Int → Prop
  | group (construct : t.kind.construct = .group) : t.Consults 0
  | not (construct : t.kind.construct = .not) : t.Consults 0
  | left (construct : t.kind.construct = .and ∨ t.kind.construct = .or ∨ t.kind.construct = .xor) :
    t.Consults 0
  | and (construct : t.kind.construct = .and) (left : (t.termAt 0).Returns true) : t.Consults 1
  | or (construct : t.kind.construct = .or) (left : (t.termAt 0).Returns false) : t.Consults 1
  | xor {b : Bool} (construct : t.kind.construct = .xor) (left : (t.termAt 0).Returns b) :
    t.Consults 1

/-- Two trees that differ in nothing but names and what evaluation of the first one does not come
    to: they are of one kind, and so are their operands wherever evaluation consults them. -/
inductive Agrees : Tree → Tree → Prop
  | node {t u : Tree} (kind : u.kind = t.kind)
    (filled : ∀ s, t.Consults s → (u.child? s).isSome = (t.child? s).isSome)
    (operands : ∀ s c d, t.Consults s → t.child? s = some c → u.child? s = some d → c.Agrees d) :
    t.Agrees u

/-- What is known of an expression does not depend on what evaluation does not come to. -/
theorem truth_of_agrees (h : t.Agrees u) : u.truth = t.truth := by
  induction h with
  | @node t u kind filled operands ih =>
    have hslot {s : Int} (hs : t.Consults s) : u.truthAt s = t.truthAt s := by
      have hfilled := filled s hs
      cases hc : t.child? s with
      | none =>
        rw [hc] at hfilled
        have hd : u.child? s = none := Option.not_isSome_iff_eq_none.1 (by rw [hfilled]; decide)
        rw [truthAt, truthAt, hc, hd]
      | some c =>
        rw [hc] at hfilled
        obtain ⟨d, hd⟩ := Option.isSome_iff_exists.1 hfilled
        rw [truthAt_of_child hc, truthAt_of_child hd, ih s c d hs hc hd]
    have hreturns {b : Bool} (hleft : t.truthAt 0 = .ofBool b) : (t.termAt 0).Returns b := by
      obtain ⟨c, hc, hb⟩ := exists_child_of_truthAt hleft
      rw [termAt_of_child hc]
      exact returns_iff.2 hb
    rw [truth_eq_construct u, truth_eq_construct t, kind]
    -- The right operand counts only where the left one does not settle the result.
    cases construct : t.kind.construct with
    | constant b => rfl
    | group => exact hslot (.group construct)
    | not => exact congrArg Truth.negate (hslot (.not construct))
    | and =>
      show (u.truthAt 0).andThen (u.truthAt 1) = (t.truthAt 0).andThen (t.truthAt 1)
      rw [hslot (.left (.inl construct))]
      cases hleft : t.truthAt 0 with
      | yes => exact hslot (.and construct (hreturns hleft))
      | no => rfl
      | unknown => rfl
    | or =>
      show (u.truthAt 0).orElse (u.truthAt 1) = (t.truthAt 0).orElse (t.truthAt 1)
      rw [hslot (.left (.inr (.inl construct)))]
      cases hleft : t.truthAt 0 with
      | yes => rfl
      | no => exact hslot (.or construct (hreturns hleft))
      | unknown => rfl
    | xor =>
      show (u.truthAt 0).exclusiveOr (u.truthAt 1) = (t.truthAt 0).exclusiveOr (t.truthAt 1)
      rw [hslot (.left (.inr (.inr construct)))]
      rcases (t.truthAt 0).eq_unknown_or with hleft | ⟨b, hleft⟩
      · rw [hleft]
        rfl
      · rw [hslot (.xor construct (hreturns hleft))]
    | other => rfl

end Tree

end ShortCircuit

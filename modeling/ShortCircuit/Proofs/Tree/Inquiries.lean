/-
  ShortCircuit.Proofs.Tree.Inquiries

  The analyses and the printing as what they do at one node.  An inquiry sees a
  node without what hangs below it, and asks for the answers on its children one
  after another; whether it asks for the next one may depend on those before.
  Short-circuit operators end it early, and so does a literal that cannot be
  written.  No inquiry asks twice for the same child.
-/

import ShortCircuit.Proofs.Tree.Analyses
import ShortCircuit.Proofs.Tree.Spans

namespace ShortCircuit

variable {α : Type} {t : Tree}

/-- What is seen of a node: its name, its kind, and its occupied slots in increasing order. -/
structure Site where
  node : NodeId
  kind : Kind
  slots : List Int

def Tree.site (t : Tree) : Site := ⟨t.id, t.kind, t.slots⟩

/-- What is done at a node: an answer is given, or the one on the child at a slot is asked for. -/
inductive Inquiry (α : Type) where
  | answer (a : α)
  /-- Nothing is found at an empty slot. -/
  | ask (slot : Int) (next : Option α → Inquiry α)

namespace Inquiry

variable {found : Int → Option α}

/-- The answer that is given in the end, when this is found at the slots. -/
def settle (found : Int → Option α) : Inquiry α → α
  | answer a => a
  | ask slot next => (next (found slot)).settle found

/-- The slots that are asked about, in their order. -/
def asked (found : Int → Option α) : Inquiry α → List Int
  | answer _ => []
  | ask slot next => slot :: (next (found slot)).asked found

/-- Ask about some slots, whatever is found there, and go on with all of it. -/
def gather : List Int → (List (Option α) → Inquiry α) → Inquiry α
  | [], next => next []
  | slot :: rest, next => ask slot fun a => gather rest fun as => next (a :: as)

theorem settle_gather (slots : List Int) (next : List (Option α) → Inquiry α) :
    (gather slots next).settle found = (next (slots.map found)).settle found := by
  induction slots generalizing next with
  | nil => rfl
  | cons slot rest ih => exact ih _

theorem asked_gather (slots : List Int) (next : List (Option α) → Inquiry α) :
    (gather slots next).asked found = slots ++ (next (slots.map found)).asked found := by
  induction slots generalizing next with
  | nil => rfl
  | cons slot rest ih => exact congrArg (slot :: ·) (ih _)

end Inquiry

/-- At every node, the inquiry gives the answer from those on the children, and asks about slots in
    increasing order. -/
structure Computes (inquiry : Site → Inquiry α) (D : Tree → α) : Prop where
  settle {t : Tree} (nodup : (t.branches.map (·.1)).Nodup) :
    (inquiry t.site).settle (fun s => (t.child? s).map D) = D t
  increasing {t : Tree} (nodup : (t.branches.map (·.1)).Nodup) :
    ((inquiry t.site).asked fun s => (t.child? s).map D).Pairwise (· < ·)

/-! ## Values -/

/-- Ask for a value; nothing is known of an empty slot. -/
def Truth.consult (slot : Int) (next : Truth → Inquiry Truth) : Inquiry Truth :=
  .ask slot fun found => next (found.getD .unknown)

/-- How a node is evaluated: operands from left to right, and the right one only where the left one
    does not settle the result. -/
def Truth.inquiry (site : Site) : Inquiry Truth :=
  match site.kind with
  | .literal (.bool b) => .answer (.ofBool b)
  | .binary .logicalAnd =>
    consult 0 fun left => if left = .yes then consult 1 .answer else .answer left
  | .binary .logicalOr =>
    consult 0 fun left => if left = .no then consult 1 .answer else .answer left
  | .binary .bitwiseXor =>
    consult 0 fun left =>
      if left = .unknown then .answer left
      else consult 1 fun right => .answer (left.exclusiveOr right)
  | .unary tokens =>
    if UnaryOperator.ofTokens? tokens = some .logicalNot then consult 0 (.answer ·.negate)
    else .answer .unknown
  | .paren => consult 0 .answer
  | _ => .answer .unknown

theorem Truth.settle_consult (slot : Int) (next : Truth → Inquiry Truth) :
    (consult slot next).settle (fun s => (t.child? s).map Tree.truth) =
      (next (t.truthAt slot)).settle fun s => (t.child? s).map Tree.truth :=
  rfl

theorem Truth.asked_consult (slot : Int) (next : Truth → Inquiry Truth) :
    (consult slot next).asked (fun s => (t.child? s).map Tree.truth) =
      slot :: (next (t.truthAt slot)).asked fun s => (t.child? s).map Tree.truth :=
  rfl

theorem computes_truth : Computes Truth.inquiry Tree.truth where
  settle {t} _ := by
    rw [Tree.truth_eq, Truth.inquiry, Tree.site]
    generalize t.kind = kind
    cases kind with
    | literal value => cases value <;> rfl
    | binary op =>
      -- What the left operand comes to decides whether the right one is asked for.
      cases op with
      | logicalAnd =>
        rw [Truth.settle_consult]
        cases t.truthAt 0 <;> rfl
      | logicalOr =>
        rw [Truth.settle_consult]
        cases t.truthAt 0 <;> rfl
      | bitwiseXor =>
        rw [Truth.settle_consult]
        cases t.truthAt 0 <;> rfl
      | _ => rfl
    | unary tokens =>
      dsimp only
      split <;> rfl
    | _ => rfl
  increasing {t} _ := by
    rw [Truth.inquiry, Tree.site]
    dsimp only
    split
    · exact .nil
    -- The operators ask about slot 0, and then slot 1 or nothing more.
    any_goals
      rw [Truth.asked_consult]
      split <;> simp [Truth.consult, Inquiry.asked]
    · split <;> simp [Truth.consult, Inquiry.asked]
    · simp [Truth.consult, Inquiry.asked]
    · exact .nil

/-! ## Purity -/

/-- How the purity of a node is found: from all its children, from those at certain slots, or
    without asking. -/
def Purity.inquiry (site : Site) : Inquiry Purity :=
  let verdicts (slots : List Int) : Inquiry Purity :=
    .gather slots fun found => .answer (allOf (found.map (·.getD .unknown)))
  match site.kind with
  | .literal _ | .path _ | .qualifiedPath _ | .unit => .answer .pure
  | .breakLoop | .continueLoop | .returnEarly | .propagate => .answer .impure
  | .paren | .fieldAccess _ | .array true => .ask 0 fun found => .answer (found.getD .unknown)
  | .array false | .tuple => verdicts site.slots
  | .record _ fields false => verdicts ((List.range fields.length).map fun (i : Nat) => i)
  | _ => .answer .unknown

theorem Purity.allOf_perm {ps qs : List Purity} (h : ps.Perm qs) : allOf ps = allOf qs := by
  rw [allOf, allOf, h.any_eq, h.all_eq]

/-- The verdicts on the operands at the occupied slots are those on the children. -/
theorem Tree.map_purityAt_perm (nodup : (t.branches.map (·.1)).Nodup) :
    (t.slots.map t.purityAt).Perm (t.branches.map (·.2.purity)) := by
  have heq : (t.branches.map (·.1)).map t.purityAt = t.branches.map (·.2.purity) := by
    rw [List.map_map]
    exact List.map_congr_left fun b hb =>
      purityAt_of_child ((lookup_eq_some_iff_mem nodup).2 hb)
  exact heq ▸ t.slots_perm.map t.purityAt

/-- From the verdicts at some slots the one on the whole is found. -/
theorem Purity.settle_gather (slots : List Int) :
    (Inquiry.gather slots fun found => .answer (.allOf (found.map (·.getD .unknown)))).settle
      (fun s => (t.child? s).map Tree.purity) = .allOf (slots.map t.purityAt) := by
  rw [Inquiry.settle_gather, Inquiry.settle, List.map_map]
  rfl

theorem computes_purity : Computes Purity.inquiry Tree.purity where
  settle {t} nodup := by
    have hall : Purity.allOf (t.slots.map t.purityAt) = .allOf (t.branches.map (·.2.purity)) :=
      Purity.allOf_perm (Tree.map_purityAt_perm nodup)
    rw [Tree.purity_eq, Purity.inquiry, Tree.site]
    generalize t.kind = kind
    cases kind with
    | array repeats =>
      cases repeats with
      | true => rfl
      | false => exact (Purity.settle_gather _).trans hall
    | tuple => exact (Purity.settle_gather _).trans hall
    | record name fields spread =>
      cases spread with
      | true => rfl
      | false => exact (Purity.settle_gather _).trans (congrArg Purity.allOf (List.map_map ..))
    | _ => rfl
  increasing {t} nodup := by
    have hslots : t.slots.Pairwise (· < ·) := Tree.pairwise_slots nodup
    have hrange (n : Nat) : ((List.range n).map fun (i : Nat) => (i : Int)).Pairwise (· < ·) :=
      List.pairwise_map.2 (List.pairwise_lt_range.imp Int.ofNat_lt.2)
    rw [Purity.inquiry, Tree.site]
    dsimp only
    split <;> simp [Inquiry.asked, Inquiry.asked_gather, hslots, hrange]

/-! ## Text -/

/-- Print the rest of a node behind what has been printed of it.  Once that was stopped nothing is
    asked for any more, and nothing is written behind it. -/
def Printed.resume (n : NodeId) (done : Printed) : List Piece → Inquiry Printed
  | [] => .answer (done.finish n)
  | .operand slot :: rest =>
    if done.fault.isSome then .answer done
    else .ask slot fun found => resume n (done.append (found.getD .empty)) rest
  | .words text :: rest => resume n (done.append (Piece.print [] (.words text))) rest
  | .literal value :: rest => resume n (done.append (Piece.print [] (.literal value))) rest

/-- How a node is printed: piece after piece. -/
def Printed.inquiry (site : Site) : Inquiry Printed :=
  resume site.node .empty (site.kind.layout site.slots)

namespace Printed

theorem settle_resume (n : NodeId) (done : Printed) (pieces : List Piece) :
    (resume n done pieces).settle (fun s => (t.child? s).map Tree.print) =
      (done.append (concat (pieces.map (Piece.print t.operands)))).finish n := by
  induction pieces generalizing done with
  | nil => exact congrArg (finish n) (append_empty done).symm
  | cons piece rest ih =>
    rw [List.map_cons, concat, List.foldr_cons, ← concat, ← append_assoc]
    cases piece with
    | operand slot =>
      rw [resume, Tree.print_operand]
      split
      · rename_i hfault
        have habsorb (q : Printed) : done.append q = done := if_pos hfault
        rw [habsorb, habsorb]
        exact (if_pos hfault).symm
      · exact ih _
    | words text => exact ih _
    | literal value => exact ih _

/-- Slots are asked about in the order in which they are written. -/
theorem asked_resume (n : NodeId) (done : Printed) (pieces : List Piece) :
    ((resume n done pieces).asked fun s => (t.child? s).map Tree.print).Sublist
      (pieces.filterMap Piece.slot?) := by
  induction pieces generalizing done with
  | nil => exact .slnil
  | cons piece rest ih =>
    cases piece with
    | operand slot =>
      rw [resume]
      split
      · exact List.nil_sublist _
      · exact (ih _).cons_cons slot
    | words text => exact ih _
    | literal value => exact ih _

end Printed

theorem computes_print : Computes Printed.inquiry Tree.print where
  settle {t} _ := by
    rw [Printed.inquiry, Printed.settle_resume, Printed.empty_append]
    exact t.print_eq.symm
  increasing {t} nodup :=
    (Kind.pairwise_written (Tree.pairwise_slots nodup) t.kind).sublist (Printed.asked_resume ..)

end ShortCircuit

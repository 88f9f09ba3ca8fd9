/-
  ShortCircuit.Proofs.Tree.Printing

  Printing leaves spans of the nodes of the tree only, and nothing but an integer
  that is too long can stop it.
-/

import ShortCircuit.Proofs.Tree.Subtrees
import ShortCircuit.Tree.Print

namespace ShortCircuit

variable {t u : Tree} {p q : Printed} {s : Span} {slots : List Int} {value : Literal}

/-! ## Literals that can be written -/

/-- Whether a literal is short enough to be written; only an integer can be too long. -/
def Literal.isShort : Literal → Bool
  | .int n => decide ((Decimal.natText n.natAbs).length ≤ Fault.digitLimit)
  | _ => true

theorem Literal.source_of_isShort (h : value.isShort = true) : ∃ text, value.source = .ok text := by
  cases value with
  | bool b => cases b <;> exact ⟨_, rfl⟩
  | int n => exact ⟨_, if_pos (of_decide_eq_true h)⟩
  | float x => exact ⟨_, rfl⟩
  | text s => exact ⟨_, rfl⟩

/-- Whether a node is no literal, or one short enough to be written. -/
def Kind.isShort : Kind → Bool
  | .literal value => value.isShort
  | _ => true

namespace Kind

open Piece

theorem literal_notMem_listed : Piece.literal value ∉ listed slots := by
  induction slots with
  | nil => exact List.not_mem_nil
  | cons slot rest ih =>
    cases rest with
    | nil => simp [listed]
    | cons next rest =>
      have hlisted : listed (slot :: next :: rest) =
          operand slot :: words ", " :: listed (next :: rest) := by
        simp [listed]
      rw [hlisted]
      simpa using ih

theorem literal_notMem_optional (slot : Int) (before : String) :
    Piece.literal value ∉ Piece.optional slots slot before := by
  unfold Piece.optional
  split <;> simp

/-- The only literal that a node writes is its own. -/
theorem eq_literal_of_mem_layout {kind : Kind} (h : Piece.literal value ∈ kind.layout slots) :
    kind = .literal value := by
  cases kind with
  | literal v =>
    have heq : value = v := by simpa [layout] using h
    rw [heq]
  | array repeated => cases repeated <;> simp [layout, literal_notMem_listed] at h
  | record name fields spread =>
    cases spread <;> simp [layout, fieldPieces, literal_notMem_optional] at h
  | matchOn patterns => simp [layout, armPieces] at h
  | block isUnsafe =>
    by_cases hnil : slots.isEmpty <;> simp [layout, hnil] at h
  | _ => simp [layout, argumentPieces, literal_notMem_listed, literal_notMem_optional] at h

end Kind

/-! ## Texts behind one another -/

namespace Printed

theorem mem_spans_append (h : s ∈ (append p q).spans) :
    ∃ s', s'.node = s.node ∧ (s' ∈ p.spans ∨ s' ∈ q.spans) := by
  unfold append at h
  split at h
  · exact ⟨s, rfl, .inl h⟩
  · rcases List.mem_append.1 h with h | h
    · exact ⟨s, rfl, .inl h⟩
    · obtain ⟨s', hs', rfl⟩ := List.mem_map.1 h
      exact ⟨s', rfl, .inr hs'⟩

theorem mem_spans_concat {parts : List Printed} (h : s ∈ (concat parts).spans) :
    ∃ s', s'.node = s.node ∧ ∃ part ∈ parts, s' ∈ part.spans := by
  induction parts generalizing s with
  | nil => cases h
  | cons part rest ih =>
    obtain ⟨s', hid, hs' | hs'⟩ := mem_spans_append h
    · exact ⟨s', hid, part, List.mem_cons_self .., hs'⟩
    · obtain ⟨s'', hid', part', hmem, hs''⟩ := ih hs'
      exact ⟨s'', hid'.trans hid, part', List.mem_cons_of_mem _ hmem, hs''⟩

theorem fault_append_eq_none_iff :
    (append p q).fault = none ↔ p.fault = none ∧ q.fault = none := by
  obtain ⟨_, _, _ | fault⟩ := p <;> simp [append]

theorem fault_concat_eq_none_iff {parts : List Printed} :
    (concat parts).fault = none ↔ ∀ part ∈ parts, part.fault = none := by
  induction parts with
  | nil => simp [concat, empty]
  | cons part rest ih =>
    show (append part (concat rest)).fault = none ↔ _
    rw [fault_append_eq_none_iff, ih, List.forall_mem_cons]

theorem mem_spans_finish {id : NodeId} (h : s ∈ (finish id p).spans) :
    s.node = id ∨ s ∈ p.spans := by
  unfold finish at h
  split at h
  · exact .inr h
  · rcases List.mem_append.1 h with h | h
    · exact .inr h
    · rw [List.mem_singleton.1 h]
      exact .inl rfl

theorem fault_finish (id : NodeId) (p : Printed) : (finish id p).fault = p.fault := by
  unfold finish
  split <;> rfl

theorem text_finish (id : NodeId) (p : Printed) : (finish id p).text = p.text := by
  unfold finish
  split <;> rfl

end Printed

/-! ## Pieces -/

variable {operands : List (Int × Printed)} {piece : Piece}

theorem Piece.spans_literal (operands : List (Int × Printed)) (value : Literal) :
    ((literal value).print operands).spans = [] := by
  rw [Piece.print]
  cases value.source <;> rfl

theorem Piece.mem_spans_print (h : s ∈ (piece.print operands).spans) :
    ∃ b ∈ operands, s ∈ b.2.spans := by
  cases piece with
  | words text => cases h
  | literal value =>
    rw [spans_literal] at h
    cases h
  | operand slot =>
    cases hp : operands.lookup slot with
    | none =>
      rw [Piece.print, hp] at h
      cases h
    | some p =>
      rw [Piece.print, hp] at h
      obtain ⟨l, r, rfl, -⟩ := List.lookup_eq_some_iff.1 hp
      exact ⟨(slot, p), by simp, h⟩

theorem Piece.fault_print (hlit : ∀ value, piece = .literal value → value.isShort = true)
    (h : ∀ b ∈ operands, b.2.fault = none) : (piece.print operands).fault = none := by
  cases piece with
  | words text => rfl
  | literal value =>
    obtain ⟨text, htext⟩ := Literal.source_of_isShort (hlit value rfl)
    rw [Piece.print, htext]
    rfl
  | operand slot =>
    cases hp : operands.lookup slot with
    | none =>
      rw [Piece.print, hp]
      rfl
    | some p =>
      rw [Piece.print, hp]
      obtain ⟨l, r, rfl, -⟩ := List.lookup_eq_some_iff.1 hp
      exact h (slot, p) (by simp)

/-! ## Trees -/

namespace Tree

/-- Before the node at the top is finished, every span is that of a node in a branch. -/
theorem exists_branch_of_span {pieces : List Piece} {branches : List (Int × Tree)}
    (h : s ∈ (Printed.concat (pieces.map
      (Piece.print (branches.map fun b => (b.1, b.2.print))))).spans) :
    ∃ b ∈ branches, ∃ s' ∈ b.2.print.spans, s'.node = s.node := by
  obtain ⟨s', hid, part, hpart, hs'⟩ := Printed.mem_spans_concat h
  obtain ⟨piece, -, rfl⟩ := List.mem_map.1 hpart
  obtain ⟨p, hp, hsp⟩ := Piece.mem_spans_print hs'
  obtain ⟨b, hb, rfl⟩ := List.mem_map.1 hp
  exact ⟨b, hb, s', hsp, hid⟩

/-- Every span is that of a node of the tree. -/
theorem node_mem_ids_of_span (h : s ∈ t.print.spans) : s.node ∈ t.ids := by
  induction t using Tree.induction generalizing s with
  | node id kind branches ih =>
    rw [print_node] at h
    -- A span is the node's own, or that of a node in a branch.
    rcases Printed.mem_spans_finish h with hid | hs
    · exact mem_ids_iff.2 (.inl hid)
    · obtain ⟨b, hb, s', hs', hid⟩ := exists_branch_of_span hs
      exact mem_ids_iff.2 (.inr ⟨b, hb, hid ▸ ih b hb hs'⟩)

/-- Where something has stopped the printing, the node at the top has not been finished. -/
theorem node_ne_id_of_fault (nodup : t.ids.Nodup) (hfault : t.print.fault.isSome = true)
    (h : s ∈ t.print.spans) : s.node ≠ t.id := by
  obtain ⟨id, kind, branches⟩ := t
  rw [print_node, Printed.ofOperands, Printed.fault_finish] at hfault
  rw [print_node, Printed.ofOperands, Printed.finish, if_pos hfault] at h
  obtain ⟨b, hb, s', hs', hid⟩ := exists_branch_of_span h
  exact hid ▸ ne_of_mem_of_not_mem (node_mem_ids_of_span hs') (id_notMem_branch nodup hb)

/-- Where all literals are short enough, nothing stops the printing. -/
theorem fault_print (h : ∀ u ∈ t.subtrees, u.kind.isShort = true) : t.print.fault = none := by
  induction t using Tree.induction with
  | node id kind branches ih =>
    rw [print_node, Printed.ofOperands, Printed.fault_finish]
    -- A literal that is written is the node's own, and the operands are written by induction.
    refine Printed.fault_concat_eq_none_iff.2 fun part hpart => ?_
    obtain ⟨piece, hpiece, rfl⟩ := List.mem_map.1 hpart
    refine Piece.fault_print (fun value hvalue => ?_) fun p hp => ?_
    · have hkind : kind = .literal value := Kind.eq_literal_of_mem_layout (hvalue ▸ hpiece)
      have hshort : kind.isShort = true := h _ (self_mem_subtrees _)
      rwa [hkind] at hshort
    · obtain ⟨b, hb, rfl⟩ := List.mem_map.1 hp
      exact ih b hb fun u hu => h u (mem_subtrees_trans hu (branch_mem_subtrees hb))

theorem render_of_short (h : ∀ u ∈ t.subtrees, u.kind.isShort = true) :
    ∃ text, t.render = .ok text := by
  rw [render, Printed.result, fault_print h]
  exact ⟨_, rfl⟩

end Tree

end ShortCircuit

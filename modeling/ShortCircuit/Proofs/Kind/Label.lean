/-
  ShortCircuit.Proofs.Kind.Label

  Labels of nodes.  Nothing but an integer that is too long can keep a node from
  having one, and all of it can be shown on one line, whatever names and texts
  the node carries.
-/

import ShortCircuit.Kind.Label
import ShortCircuit.Proofs.Failing
import ShortCircuit.Proofs.Text.Printable
import ShortCircuit.Proofs.Tree.Printing

namespace ShortCircuit

open Failing Text

variable {k : Kind} {value : Literal} {s : List Char}

/-! ## Which nodes have labels -/

theorem Literal.exists_label_iff : (∃ s, value.label = .ok s) ↔ value.isShort = true := by
  cases value with
  | int n =>
    rw [Literal.label, Literal.isShort, decide_eq_true_iff, Decimal.writeInt]
    split
    · rename_i h
      exact iff_of_true ⟨_, rfl⟩ h
    · rename_i h
      exact iff_of_false (by simp) h
  | _ => exact iff_of_true ⟨_, rfl⟩ rfl

theorem Kind.exists_label_iff : (∃ s, k.label = .ok s) ↔ k.isShort = true := by
  cases k with
  | literal value =>
    rw [Kind.isShort, ← Literal.exists_label_iff]
    constructor
    · rintro ⟨s, h⟩
      obtain ⟨parts, hparts, -⟩ := exists_of_bind_eq_ok h
      obtain ⟨part, hpart⟩ := exists_mapM_iff.1 ⟨_, hparts⟩ _ (List.mem_singleton_self _)
      obtain ⟨s, hs, -⟩ := exists_of_bind_eq_ok hpart
      exact ⟨s, hs⟩
    · rintro ⟨s, h⟩
      exact ⟨_, by simp [Kind.label, attributes, Attribute.label, h]; rfl⟩
  | _ => exact iff_of_true ⟨_, rfl⟩ rfl

/-! ## What labels are made of -/

theorem BinaryOperator.shown_label (op : BinaryOperator) : Shown op.label.toList := by
  cases op <;> decide +kernel

theorem UnaryToken.shown_label (token : UnaryToken) : Shown token.label.toList := by
  cases token <;> decide +kernel

theorem UnaryTokens.shown_label (tokens : UnaryTokens) : Shown tokens.label.toList := by
  unfold UnaryTokens.label
  split
  · decide +kernel
  · rw [String.toList_append, String.toList_append, String.toList_intercalate, List.map_map,
      shown_append, shown_append]
    refine ⟨⟨by decide +kernel, shown_intercalate (by decide) fun part hpart => ?_⟩, by decide⟩
    obtain ⟨token, -, rfl⟩ := List.mem_map.1 hpart
    exact token.shown_label

theorem shown_flagLabel (b : Bool) : Shown (flagLabel b) := by
  cases b <;> decide

theorem shown_tupleLabel {parts : List (List Char)} (h : ∀ part ∈ parts, Shown part) :
    Shown (tupleLabel parts) := by
  unfold tupleLabel
  split
  · decide
  · rename_i part
    rw [List.forall_mem_singleton] at h
    exact shown_append.2 ⟨shown_cons.2 ⟨by decide, h⟩, by decide⟩
  · exact shown_append.2 ⟨shown_cons.2 ⟨by decide, shown_intercalate (by decide) h⟩, by decide⟩

theorem Literal.shown_label (h : value.label = .ok s) : Shown s := by
  cases value with
  | bool b =>
    cases h
    exact shown_flagLabel b
  | int n =>
    rw [Literal.label, Decimal.writeInt] at h
    split at h
    · cases h
      exact Decimal.shown_intText n
    · cases h
  | float x =>
    cases h
    exact x.shown_text
  | text t =>
    cases h
    exact shown_quoted t

theorem Attribute.shown_label {a : Attribute} (h : a.label = .ok s) : Shown s := by
  cases a with
  | literal value => exact Literal.shown_label h
  | operator op =>
    cases h
    exact op.shown_label
  | tokens tokens =>
    cases h
    exact tokens.shown_label
  | flag b =>
    cases h
    exact shown_flagLabel b
  | text t =>
    cases h
    exact shown_quoted t
  | texts ts =>
    cases h
    refine shown_tupleLabel fun part hpart => ?_
    obtain ⟨t, -, rfl⟩ := List.mem_map.1 hpart
    exact shown_quoted t

namespace Kind

theorem shown_kindName (k : Kind) : Shown k.kindName.toList := by
  cases k <;> (simp only [kindName]; decide +kernel)

theorem shown_attributes (k : Kind) : ∀ entry ∈ k.attributes, Shown entry.1.toList := by
  cases k <;> (simp only [attributes, List.forall_mem_cons]; decide +kernel)

/-- A label is one line that can be shown, whatever the node carries. -/
theorem shown_label (h : k.label = .ok s) : Shown s := by
  obtain ⟨parts, hparts, h⟩ := exists_of_bind_eq_ok h
  cases h
  refine shown_append.2 ⟨shown_append.2 ⟨k.shown_kindName, shown_cons.2 ⟨by decide, ?_⟩⟩, by decide⟩
  refine shown_intercalate (by decide) fun part hpart => ?_
  obtain ⟨entry, hentry, hpart⟩ := exists_of_forall₂ (mapM_eq_ok_iff.1 hparts).flip hpart
  obtain ⟨shown, hshown, hpart⟩ := exists_of_bind_eq_ok hpart
  cases hpart
  exact shown_append.2 ⟨k.shown_attributes entry hentry,
    shown_cons.2 ⟨by decide, Attribute.shown_label hshown⟩⟩

end Kind

end ShortCircuit

/-
  ShortCircuit.Proofs.Tree.Carets

  The nodes around a character of the text of a tree: the tree itself, then the
  child in whose text the character stands, and so on, down to the node that the
  character is written for.  The spans that cover the character are those of
  exactly these nodes, and are recorded from the innermost to the outermost.
  Every node with a text writes a character that none of its children does.
-/

import ShortCircuit.Proofs.Tree.Spans

namespace ShortCircuit

variable {t u : Tree} {s : Span} {spans : List Span} {a x : Int} {i p : Nat} {chain : List Tree}

/-! ## Spans that cover a position -/

namespace Span

/-- The nodes whose spans cover a position, in the order of the spans. -/
def nodesAt (spans : List Span) (x : Int) : List NodeId :=
  (spans.filter (·.covers x)).map (·.node)

theorem covers_iff : s.covers x = true ↔ (s.start : Int) ≤ x ∧ x < s.stop := by
  simp [covers]

theorem covers_shift (s : Span) (i : Nat) (x : Int) :
    (s.shift i).covers (x + i) = s.covers x := by
  rw [Bool.eq_iff_iff, covers_iff, covers_iff]
  simp only [shift]
  omega

theorem mem_nodesAt {n : NodeId} :
    n ∈ nodesAt spans x ↔ ∃ c ∈ spans, c.node = n ∧ c.covers x = true := by
  rw [nodesAt, List.mem_map]
  refine exists_congr fun c => ?_
  rw [List.mem_filter, and_assoc, and_comm (b := c.node = n)]

theorem nodesAt_append (l r : List Span) : nodesAt (l ++ r) x = nodesAt l x ++ nodesAt r x := by
  rw [nodesAt, List.filter_append, List.map_append]
  rfl

theorem nodesAt_shift (spans : List Span) (i : Nat) (x : Int) :
    nodesAt (spans.map (.shift i)) (x + i) = nodesAt spans x := by
  rw [nodesAt, List.filter_map, List.map_map]
  have hcovers : (fun s : Span => s.covers (x + i)) ∘ Span.shift i = fun s => s.covers x :=
    funext fun s => covers_shift s i x
  rw [hcovers]
  rfl

theorem nodesAt_eq_nil_iff : nodesAt spans x = [] ↔ ∀ c ∈ spans, c.covers x = false := by
  simp [nodesAt]

end Span

namespace Printed

variable {q r : Printed} {parts : List Printed}

theorem concat_append (before after : List Printed) :
    concat (before ++ after) = append (concat before) (concat after) := by
  induction before with
  | nil => exact (empty_append _).symm
  | cons part rest ih =>
    show append part (concat (rest ++ after)) = append (append part (concat rest)) (concat after)
    rw [ih, append_assoc]

/-- Spans that end within the first of two texts do not reach into the second one. -/
theorem nodesAt_append_right (hfault : q.fault = none)
    (hstop : ∀ c ∈ q.spans, c.stop ≤ q.text.length) :
    Span.nodesAt (append q r).spans (p + q.text.length : Nat) = Span.nodesAt r.spans p := by
  have hnil : Span.nodesAt q.spans (p + q.text.length : Nat) = [] := by
    refine Span.nodesAt_eq_nil_iff.2 fun c hc => Bool.eq_false_iff.2 fun hcovers => ?_
    have hlt := (Span.covers_iff.1 hcovers).2
    have hle := hstop c hc
    omega
  rw [append_of_ok hfault, Span.nodesAt_append, hnil, List.nil_append, Int.natCast_add,
    Span.nodesAt_shift]

/-- The spans of the second of two texts do not reach back into the first one. -/
theorem nodesAt_append_left (hfault : q.fault = none) (hp : p < q.text.length) :
    Span.nodesAt (append q r).spans p = Span.nodesAt q.spans p := by
  have hnil : Span.nodesAt (r.spans.map (.shift q.text.length)) p = [] := by
    refine Span.nodesAt_eq_nil_iff.2 fun c hc => Bool.eq_false_iff.2 fun hcovers => ?_
    obtain ⟨c, -, rfl⟩ := List.mem_map.1 hc
    have hle : ((c.start + q.text.length : Nat) : Int) ≤ p := (Span.covers_iff.1 hcovers).1
    omega
  rw [append_of_ok hfault, Span.nodesAt_append, hnil, List.append_nil]

theorem stop_le_concat (hfault : ∀ part ∈ parts, part.fault = none)
    (hstop : ∀ part ∈ parts, ∀ c ∈ part.spans, c.stop ≤ part.text.length)
    (hs : s ∈ (concat parts).spans) : s.stop ≤ (concat parts).text.length := by
  obtain ⟨l, part, r, rfl, c, hc, rfl⟩ := (mem_spans_concat_iff hfault).1 hs
  have hle := hstop part (by simp) c hc
  rw [text_concat hfault, List.flatMap_append, List.flatMap_cons, List.length_append,
    List.length_append]
  show c.stop + _ ≤ _
  omega

end Printed

namespace Tree

/-! ## Nodes around a character -/

/-- The character at a position of the text of a tree stands in the texts of the subtrees on the
    list: each is a child of the one before it, and the last one writes the character itself. -/
inductive Around : Tree → Nat → List Tree → Prop where
  | own {t : Tree} {p : Nat} (inside : p < t.print.text.length)
    (apart : ∀ a u i, t.WrittenAt a u i → i ≤ p → u.print.text.length + i ≤ p) : Around t p [t]
  | child {t u : Tree} {a : Int} {i p : Nat} {chain : List Tree} (written : t.WrittenAt a u i)
    (around : Around u p chain) : Around t (p + i) (t :: chain)

namespace Legible

variable (h : t.Legible)
include h

theorem stop_le_length (hs : s ∈ t.print.spans) : s.stop ≤ t.print.text.length := by
  obtain ⟨u, -, i, shown, rfl⟩ := h.exists_of_span hs
  exact shown.length_le

theorem stop_le_piece {piece : Piece} (hpiece : piece ∈ t.pieces)
    (hs : s ∈ (piece.print t.operands).spans) :
    s.stop ≤ (piece.print t.operands).text.length := by
  cases piece with
  | words text => cases hs
  | literal value =>
    rw [Piece.spans_literal] at hs
    cases hs
  | operand a =>
    rw [print_operand] at hs ⊢
    cases hu : t.child? a with
    | none =>
      rw [hu] at hs
      cases hs
    | some u =>
      rw [hu] at hs
      obtain ⟨l, r, heq⟩ := List.append_of_mem hpiece
      exact (h.writtenAt ⟨l, r, heq, hu, rfl⟩).stop_le_length hs

/-- Whatever is inside the text is inside the span of the whole, which is recorded last. -/
theorem nodesAt_print (hp : p < t.print.text.length) :
    Span.nodesAt t.print.spans p = Span.nodesAt t.body.spans p ++ [t.id] := by
  have htop : (⟨t.id, 0, t.print.text.length⟩ : Span).covers p = true :=
    Span.covers_iff.2 ⟨Int.natCast_nonneg p, Int.ofNat_lt.2 hp⟩
  rw [h.spans_eq, Span.nodesAt_append]
  simp [Span.nodesAt, htop]

/-- Nothing is recorded of what is outside the text. -/
theorem nodesAt_outside (hx : x < 0 ∨ t.print.text.length ≤ x) :
    Span.nodesAt t.print.spans x = [] := by
  refine Span.nodesAt_eq_nil_iff.2 fun c hc => Bool.eq_false_iff.2 fun hcovers => ?_
  have hstop := h.stop_le_length hc
  have hin := Span.covers_iff.1 hcovers
  omega

/-- Within the text of a child only spans from there cover a position. -/
theorem nodesAt_writtenAt (w : t.WrittenAt a u i) (hp : p < u.print.text.length) :
    Span.nodesAt t.body.spans (p + i : Nat) = Span.nodesAt u.print.spans p := by
  have hlegible := h.writtenAt w
  obtain ⟨l, r, heq, hu, rfl⟩ := w
  have hpart : (Piece.operand a).print t.operands = u.print := by
    rw [print_operand, hu]
    rfl
  have hfault : ∀ part ∈ l.map (Piece.print t.operands), part.fault = none := by
    intro part hpart
    refine h.fault_pieces part ?_
    rw [heq, List.map_append]
    exact List.mem_append_left _ hpart
  have hstop : ∀ part ∈ l.map (Piece.print t.operands), ∀ c ∈ part.spans,
      c.stop ≤ part.text.length := by
    intro part hpart c hc
    obtain ⟨piece, hpiece, rfl⟩ := List.mem_map.1 hpart
    exact h.stop_le_piece (by simp [heq, hpiece]) hc
  have htext : (Printed.concat (l.map (Piece.print t.operands))).text = l.flatMap t.writes := by
    rw [Printed.text_concat hfault, List.flatMap_map]
    rfl
  -- What is printed before the child ends where it starts, and the rest starts where it ends.
  rw [body, heq, List.map_append, List.map_cons, Printed.concat_append, hpart, ← htext,
    Printed.nodesAt_append_right (Printed.fault_concat_eq_none_iff.2 hfault)
      fun c hc => Printed.stop_le_concat hfault hstop hc]
  exact Printed.nodesAt_append_left hlegible.fault hp

/-- Every character of the text stands in the text of some node below all those around it. -/
theorem exists_around (hp : p < t.print.text.length) : ∃ chain, t.Around p chain := by
  induction t using Tree.induction generalizing p with
  | node id kind branches ih =>
    by_cases hchild : ∃ a u i, (node id kind branches).WrittenAt a u i ∧ i ≤ p ∧
        p < u.print.text.length + i
    · -- The position is counted from the start of the child.
      obtain ⟨a, u, i, w, hle, hlt⟩ := hchild
      obtain ⟨q, rfl⟩ := Nat.exists_eq_add_of_le' hle
      obtain ⟨chain, around⟩ := ih _ w.branch (h.writtenAt w) (Nat.lt_of_add_lt_add_right hlt)
      exact ⟨_, .child w around⟩
    · refine ⟨_, .own hp fun a u i w hle => ?_⟩
      exact Nat.not_lt.1 fun hlt => hchild ⟨a, u, i, w, hle, hlt⟩

end Legible

namespace Around

variable (around : t.Around p chain)
include around

theorem head_eq : chain.head? = some t := by
  cases around with
  | own => rfl
  | child => rfl

theorem lt_length (h : t.Legible) : p < t.print.text.length := by
  induction around with
  | own inside => exact inside
  | child written _ ih =>
    have hlt := ih (h.writtenAt written)
    have hle := (h.shownAt_of_writtenAt written).length_le
    omega

/-- The spans that cover the character are those of the nodes around it, the innermost first. -/
theorem nodesAt_eq (h : t.Legible) :
    Span.nodesAt t.print.spans p = (chain.map (·.id)).reverse := by
  induction around with
  | @own t p inside apart =>
    -- No span of a child reaches the character.
    have hnil : Span.nodesAt t.body.spans p = [] := by
      refine Span.nodesAt_eq_nil_iff.2 fun c hc => Bool.eq_false_iff.2 fun hcovers => ?_
      obtain ⟨a, u, i, w, c, hcu, rfl⟩ := h.mem_spans_body_iff.1 hc
      have hstop := (h.writtenAt w).stop_le_length hcu
      have hin : ((c.start + i : Nat) : Int) ≤ p ∧ (p : Int) < (c.stop + i : Nat) :=
        Span.covers_iff.1 hcovers
      have hle := apart a u i w (by omega)
      omega
    rw [h.nodesAt_print inside, hnil]
    rfl
  | @child t u a i p chain w around ih =>
    -- The spans are those of the child, and then that of the node.
    have hlegible := h.writtenAt w
    have hp := around.lt_length hlegible
    have hle := (h.shownAt_of_writtenAt w).length_le
    rw [h.nodesAt_print (by omega), h.nodesAt_writtenAt w hp, ih hlegible, List.map_cons,
      List.reverse_cons]

end Around

/-! ## Characters of one's own -/

/-- A node with a text writes a character of it itself. -/
theorem exists_own (hlen : 0 < t.print.text.length) (h : t.Legible) :
    ∃ p, t.Around p [t] := by
  by_cases hchild : ∃ s, Piece.operand s ∈ t.pieces
  · obtain ⟨s, hs⟩ := hchild
    obtain ⟨text, hmem, hne⟩ := Kind.exists_words_of_operand hs
    -- The first character of a word stands behind what is written before, and before the rest.
    obtain ⟨l, r, heq⟩ : ∃ l r, t.pieces = l ++ .words text :: r := List.append_of_mem hmem
    have hword : 0 < (t.writes (.words text)).length := by
      rw [List.length_pos_iff]
      exact fun hnil => hne (String.toList_eq_nil_iff.1 hnil)
    refine ⟨(l.flatMap t.writes).length, .own ?_ ?_⟩
    · rw [h.text_eq, heq, List.flatMap_append, List.flatMap_cons, List.length_append,
        List.length_append]
      omega
    · intro a u i w hle
      obtain ⟨l', r', heq', hu, rfl⟩ := w
      rcases append_cons_cases heq heq' with ⟨m, rfl⟩ | ⟨-, hpiece⟩ | ⟨m, rfl⟩
      · -- A child behind the word does not start before it ends.
        rw [List.flatMap_append, List.flatMap_cons, List.length_append, List.length_append] at hle
        omega
      · cases hpiece
      · -- A child before the word ends before it starts.
        rw [List.flatMap_append, List.flatMap_cons, writes_operand hu, List.length_append,
          List.length_append]
        omega
  · -- Where no child is written, any character will do.
    refine ⟨0, .own hlen fun a u i w _ => ?_⟩
    obtain ⟨l, r, heq, -, -⟩ := w
    exact absurd ⟨a, by simp [heq]⟩ hchild

/-- Of every node with a text that is recorded, some character of the whole is its own. -/
theorem Legible.exists_around_span (h : t.Legible) (hs : s ∈ t.print.spans)
    (hlt : s.start < s.stop) :
    ∃ p chain u, t.Around p chain ∧ chain.getLast? = some u ∧ u.id = s.node := by
  induction t using Tree.induction generalizing s with
  | node id kind branches ih =>
    rcases h.mem_spans_iff.1 hs with rfl | ⟨a, u, i, w, c, hc, rfl⟩
    · -- The node at the top has a character of its own, and any other is found in a child.
      obtain ⟨p, around⟩ := exists_own hlt h
      exact ⟨p, _, _, around, rfl, rfl⟩
    · have hltc : c.start < c.stop := Nat.lt_of_add_lt_add_right hlt
      obtain ⟨p, chain, v, around, hlast, hid⟩ := ih _ w.branch (h.writtenAt w) hc hltc
      refine ⟨p + i, _, v, .child w around, ?_, hid⟩
      rw [List.getLast?_cons, hlast]
      rfl

end Tree

end ShortCircuit

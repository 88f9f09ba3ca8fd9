/-
  ShortCircuit.Proofs.Tree.Spans

  Where the text of a node stands in that of the whole.  A node's text is that of
  its pieces, one behind the other, and the text of a child that is written
  stands in it at some offset; the spans of a node are its own, from end to end,
  and those of the children that are written, moved by their offsets.  All else
  follows by induction over the tree.
-/

import ShortCircuit.Proofs.Kind.Slots
import ShortCircuit.Proofs.Tree.Printing
import ShortCircuit.Proofs.Tree.Shape

namespace ShortCircuit

variable {t u v : Tree} {p q : Printed} {s c d : Span} {a b : Int} {n : NodeId} {i j : Nat}

/-! ## Places in a list -/

/-- Of two places in a list one comes first, unless they are the same. -/
theorem append_cons_cases {α : Type} {xs l r l' r' : List α} {x y : α} (h : xs = l ++ x :: r)
    (h' : xs = l' ++ y :: r') :
    (∃ m, l' = l ++ x :: m) ∨ (l = l' ∧ x = y) ∨ ∃ m, l = l' ++ y :: m := by
  rcases List.append_eq_append_iff.1 (h.symm.trans h') with ⟨m, rfl, hr⟩ | ⟨m, rfl, hr⟩
  · cases m with
    | nil =>
      cases hr
      exact .inr (.inl ⟨(List.append_nil l).symm, rfl⟩)
    | cons z m =>
      cases hr
      exact .inl ⟨m, rfl⟩
  · cases m with
    | nil =>
      cases hr
      exact .inr (.inl ⟨List.append_nil l', rfl⟩)
    | cons z m =>
      cases hr
      exact .inr (.inr ⟨m, rfl⟩)

/-! ## Texts behind one another -/

namespace Printed

variable {parts l r : List Printed}

theorem append_of_ok (h : p.fault = none) :
    append p q = ⟨p.text ++ q.text, p.spans ++ q.spans.map (.shift p.text.length), q.fault⟩ := by
  rw [append, h]
  rfl

theorem text_concat (h : ∀ part ∈ parts, part.fault = none) :
    (concat parts).text = parts.flatMap (·.text) := by
  induction parts with
  | nil => rfl
  | cons part rest ih =>
    have hpart : part.fault = none := h part (List.mem_cons_self ..)
    show (append part (concat rest)).text = _
    rw [append_of_ok hpart, List.flatMap_cons, ih fun q hq => h q (List.mem_cons_of_mem _ hq)]

/-- A span of several texts is one of them, moved by the length of those before it. -/
theorem mem_spans_concat_iff (h : ∀ part ∈ parts, part.fault = none) :
    s ∈ (concat parts).spans ↔ ∃ l part r, parts = l ++ part :: r ∧
      ∃ s' ∈ part.spans, s = s'.shift (l.flatMap (·.text)).length := by
  induction parts generalizing s with
  | nil => simp [concat, empty]
  | cons part rest ih =>
    have hpart : part.fault = none := h part (List.mem_cons_self ..)
    have hrest : ∀ q ∈ rest, q.fault = none := fun q hq => h q (List.mem_cons_of_mem _ hq)
    show s ∈ (append part (concat rest)).spans ↔ _
    rw [append_of_ok hpart, List.mem_append, List.mem_map]
    refine ⟨?_, ?_⟩
    · rintro (hs | ⟨s', hs', rfl⟩)
      · exact ⟨[], part, rest, rfl, s, hs, rfl⟩
      · obtain ⟨l, q, r, rfl, s'', hs'', rfl⟩ := (ih hrest).1 hs'
        refine ⟨part :: l, q, r, rfl, s'', hs'', ?_⟩
        rw [List.flatMap_cons, List.length_append]
        simp [Span.shift, Nat.add_comm, Nat.add_left_comm]
    · rintro ⟨l, q, r, heq, s', hs', rfl⟩
      cases l with
      | nil =>
        cases heq
        exact .inl hs'
      | cons _ l =>
        cases heq
        have hmem := (ih hrest).2 ⟨l, q, r, rfl, s', hs', rfl⟩
        refine .inr ⟨s'.shift (l.flatMap (·.text)).length, hmem, ?_⟩
        rw [List.flatMap_cons, List.length_append]
        simp [Span.shift, Nat.add_comm, Nat.add_left_comm]

end Printed

namespace Tree

/-! ## Trees that can be written -/

/-- A tree in which names are distinct, no two children of a node share a slot, and nothing stops
    the printing. -/
structure Legible (t : Tree) : Prop where
  nodup : t.ids.Nodup
  slotted : t.Slotted
  fault : t.print.fault = none

/-! ## Pieces -/

/-- What has been printed for the children. -/
def operands (t : Tree) : List (Int × Printed) := t.branches.map fun b => (b.1, b.2.print)

/-- The pieces that the tree is written in. -/
def pieces (t : Tree) : List Piece := t.kind.layout t.slots

/-- What is written for a piece. -/
def writes (t : Tree) (piece : Piece) : List Char := (piece.print t.operands).text

/-- What is printed until the node is finished. -/
def body (t : Tree) : Printed := Printed.concat (t.pieces.map (Piece.print t.operands))

theorem print_eq (t : Tree) : t.print = t.body.finish t.id := by
  obtain ⟨id, kind, branches⟩ := t
  rw [print_node, Printed.ofOperands, List.map_map]
  rfl

theorem print_operand (t : Tree) (a : Int) :
    (Piece.operand a).print t.operands = ((t.child? a).map print).getD .empty := by
  rw [Piece.print, operands, lookup_map]
  rfl

theorem slots_perm (t : Tree) : t.slots.Perm (t.branches.map (·.1)) := sortBy_perm ..

theorem slots_inSlotOrder (t : Tree) : t.slots = (inSlotOrder t.branches).map (·.1) := sortBy_map ..

theorem pairwise_slots (nodup : (t.branches.map (·.1)).Nodup) : t.slots.Pairwise (· < ·) := by
  rw [slots_inSlotOrder, List.pairwise_map]
  exact pairwise_inSlotOrder nodup

/-- The slots that are written increase from left to right. -/
theorem pairwise_pieces (h : t.Legible) : (t.pieces.filterMap Piece.slot?).Pairwise (· < ·) :=
  Kind.pairwise_written (pairwise_slots h.slotted.nodup) t.kind

namespace Legible

variable (h : t.Legible)
include h

theorem fault_pieces : ∀ part ∈ t.pieces.map (Piece.print t.operands), part.fault = none := by
  rw [← Printed.fault_concat_eq_none_iff, ← body, ← Printed.fault_finish t.id, ← print_eq]
  exact h.fault

theorem text_body : t.body.text = t.pieces.flatMap t.writes := by
  rw [body, Printed.text_concat h.fault_pieces, List.flatMap_map]
  rfl

theorem text_eq : t.print.text = t.pieces.flatMap t.writes := by
  rw [print_eq, Printed.text_finish, h.text_body]

end Legible

/-! ## Where children are written -/

/-- The text of the child `u` at slot `a` starts at offset `i` of that of `t`. -/
def WrittenAt (t : Tree) (a : Int) (u : Tree) (i : Nat) : Prop :=
  ∃ l r, t.pieces = l ++ .operand a :: r ∧ t.child? a = some u ∧ (l.flatMap t.writes).length = i

theorem WrittenAt.child (w : t.WrittenAt a u i) : t.child? a = some u := by
  obtain ⟨l, r, -, hu, -⟩ := w
  exact hu

theorem WrittenAt.branch (w : t.WrittenAt a u i) : (a, u) ∈ t.branches :=
  branch_of_child? w.child

/-- A child that is written is legible as the whole is. -/
theorem Legible.writtenAt (h : t.Legible) (w : t.WrittenAt a u i) : u.Legible where
  nodup := nodup_branch h.nodup w.branch
  slotted := h.slotted.child w.child
  fault := by
    obtain ⟨l, r, heq, hu, -⟩ := w
    have hmem : (Piece.operand a).print t.operands ∈ t.pieces.map (Piece.print t.operands) :=
      List.mem_map_of_mem (by simp [heq])
    have hfault := h.fault_pieces _ hmem
    rwa [print_operand, hu] at hfault

theorem exists_writtenAt (hu : t.child? a = some u) (hslot : a ∈ t.kind.written t.slots) :
    ∃ i, t.WrittenAt a u i := by
  obtain ⟨piece, hp, ha⟩ := List.mem_filterMap.1 hslot
  cases piece with
  | operand a' =>
    cases ha
    obtain ⟨l, r, heq⟩ := List.append_of_mem hp
    exact ⟨_, l, r, heq, hu, rfl⟩
  | words => cases ha
  | literal => cases ha

theorem writes_operand (hu : t.child? a = some u) : t.writes (.operand a) = u.print.text := by
  rw [writes, print_operand, hu]
  rfl

section

variable {pieces l r l' r' : List Piece}
  (increasing : (pieces.filterMap Piece.slot?).Pairwise (· < ·))
include increasing

/-- Where slots increase from left to right, what comes later is at a higher slot. -/
theorem lt_of_split (h : pieces = l ++ .operand a :: (r ++ .operand b :: r')) : a < b := by
  rw [h, List.filterMap_append, List.pairwise_append] at increasing
  have hcons := increasing.2.1
  rw [Piece.slots_operand, List.pairwise_cons] at hcons
  exact hcons.1 b (by simp)

/-- No slot is written twice. -/
theorem operand_notMem_of_split (h : pieces = l ++ .operand a :: r) : .operand a ∉ l ++ r := by
  intro hmem
  rcases List.mem_append.1 hmem with hl | hr
  · obtain ⟨x, y, rfl⟩ := List.append_of_mem hl
    have heq : pieces = x ++ .operand a :: (y ++ .operand a :: r) := by
      rw [h, List.append_assoc]
      rfl
    exact Int.lt_irrefl a (lt_of_split increasing heq)
  · obtain ⟨x, y, rfl⟩ := List.append_of_mem hr
    exact Int.lt_irrefl a (lt_of_split increasing h)

/-- Two slots that are written stand in their order. -/
theorem split_cases (h : pieces = l ++ .operand a :: r) (h' : pieces = l' ++ .operand b :: r') :
    (∃ m, l' = l ++ .operand a :: m ∧ a < b) ∨ (l = l' ∧ a = b) ∨
      ∃ m, l = l' ++ .operand b :: m ∧ b < a := by
  rcases append_cons_cases h h' with ⟨m, rfl⟩ | ⟨hl, hab⟩ | ⟨m, rfl⟩
  · rw [List.append_assoc] at h'
    exact .inl ⟨m, rfl, lt_of_split increasing h'⟩
  · cases hab
    exact .inr (.inl ⟨hl, rfl⟩)
  · rw [List.append_assoc] at h
    exact .inr (.inr ⟨m, rfl, lt_of_split increasing h⟩)

end

namespace Legible

variable (h : t.Legible)
include h

/-- The text of a child stands in that of the node, at its offset. -/
theorem text_of_writtenAt (w : t.WrittenAt a u i) :
    ∃ before after, t.print.text = before ++ u.print.text ++ after ∧ before.length = i := by
  obtain ⟨l, r, heq, hu, rfl⟩ := w
  refine ⟨l.flatMap t.writes, r.flatMap t.writes, ?_, rfl⟩
  rw [h.text_eq, heq, List.flatMap_append, List.flatMap_cons, writes_operand hu,
    List.append_assoc]

theorem writtenAt_unique (w : t.WrittenAt a u i) (w' : t.WrittenAt a v j) : u = v ∧ i = j := by
  refine ⟨Option.some.inj (w.child.symm.trans w'.child), ?_⟩
  obtain ⟨l, r, heq, -, rfl⟩ := w
  obtain ⟨l', r', heq', -, rfl⟩ := w'
  rcases split_cases (pairwise_pieces h) heq heq' with ⟨-, -, hlt⟩ | ⟨rfl, -⟩ | ⟨-, -, hlt⟩
  · exact absurd hlt (Int.lt_irrefl a)
  · rfl
  · exact absurd hlt (Int.lt_irrefl a)

/-- A child at a lower slot is written before one at a higher slot, and ends before it starts. -/
theorem writtenAt_le (w : t.WrittenAt a u i) (w' : t.WrittenAt b v j) (hlt : a < b) :
    u.print.text.length + i ≤ j := by
  obtain ⟨l, r, heq, hu, rfl⟩ := w
  obtain ⟨l', r', heq', -, rfl⟩ := w'
  rcases split_cases (pairwise_pieces h) heq heq' with ⟨m, rfl, -⟩ | ⟨-, hab⟩ | ⟨-, -, hba⟩
  · rw [List.flatMap_append, List.flatMap_cons, writes_operand hu, List.length_append,
      List.length_append]
    omega
  · omega
  · omega

/-! ## Spans -/

/-- The span of the whole is recorded last. -/
theorem spans_eq : t.print.spans = t.body.spans ++ [⟨t.id, 0, t.print.text.length⟩] := by
  have hfault : t.body.fault = none := Printed.fault_concat_eq_none_iff.2 h.fault_pieces
  rw [h.text_eq, ← h.text_body, print_eq, Printed.finish, hfault]
  rfl

/-- Before the node is finished, the spans are those of the children that are written, moved to
    where these stand. -/
theorem mem_spans_body_iff :
    s ∈ t.body.spans ↔ ∃ a u i, t.WrittenAt a u i ∧ ∃ s' ∈ u.print.spans, s = s'.shift i := by
  rw [body, Printed.mem_spans_concat_iff h.fault_pieces]
  refine ⟨?_, ?_⟩
  · rintro ⟨l', part, r', heq, s', hs', rfl⟩
    obtain ⟨l, rest, hpieces, rfl, hrest⟩ := List.map_eq_append_iff.1 heq
    obtain ⟨piece, r, rfl, rfl, rfl⟩ := List.map_eq_cons_iff.1 hrest
    cases piece with
    | operand a =>
      rw [print_operand] at hs'
      cases hu : t.child? a with
      | none =>
        rw [hu] at hs'
        cases hs'
      | some u =>
        rw [hu] at hs'
        refine ⟨a, u, _, ⟨l, r, hpieces, hu, rfl⟩, s', hs', ?_⟩
        rw [List.flatMap_map]
        rfl
    | words text => cases hs'
    | literal value =>
      rw [Piece.spans_literal] at hs'
      cases hs'
  · rintro ⟨a, u, i, ⟨l, r, heq, hu, rfl⟩, s', hs', rfl⟩
    refine ⟨l.map (Piece.print t.operands), (Piece.operand a).print t.operands,
      r.map (Piece.print t.operands), ?_, s', ?_, ?_⟩
    · rw [heq, List.map_append, List.map_cons]
    · rw [print_operand, hu]
      exact hs'
    · rw [List.flatMap_map]
      rfl

/-- The span of a node is that of its whole text; the other ones are those of the children that are
    written, moved to where these stand. -/
theorem mem_spans_iff :
    s ∈ t.print.spans ↔ s = ⟨t.id, 0, t.print.text.length⟩ ∨
      ∃ a u i, t.WrittenAt a u i ∧ ∃ s' ∈ u.print.spans, s = s'.shift i := by
  rw [h.spans_eq, List.mem_append, List.mem_singleton, or_comm, h.mem_spans_body_iff]

end Legible

/-! ## Texts inside texts -/

/-- The text of the node at the top of `v` stands at offset `i` in that of `t`, and what is recorded
    of the nodes of `v` in the one is what is recorded of them in the other. -/
structure ShownAt (t v : Tree) (i : Nat) : Prop where
  legible : v.Legible
  text : ∃ before after, t.print.text = before ++ v.print.text ++ after ∧ before.length = i
  spans : ∀ c, c.node ∈ v.ids → (c ∈ t.print.spans ↔ ∃ c' ∈ v.print.spans, c = c'.shift i)

theorem Legible.shownAt_self (h : t.Legible) : t.ShownAt t 0 where
  legible := h
  text := ⟨[], [], by simp, rfl⟩
  spans c _ := by
    refine ⟨fun hc => ⟨c, hc, rfl⟩, ?_⟩
    rintro ⟨c', hc', rfl⟩
    exact hc'

namespace ShownAt

variable (shown : t.ShownAt v i)
include shown

theorem mem_spans (hd : d ∈ v.print.spans) : d.shift i ∈ t.print.spans := by
  have hmem : d.node ∈ v.ids := node_mem_ids_of_span hd
  exact (shown.spans (d.shift i) hmem).2 ⟨d, hd, rfl⟩

theorem length_le : v.print.text.length + i ≤ t.print.text.length := by
  obtain ⟨before, after, heq, rfl⟩ := shown.text
  rw [heq, List.length_append, List.length_append]
  omega

theorem slice_eq : (t.print.text.drop i).take v.print.text.length = v.print.text := by
  obtain ⟨before, after, heq, rfl⟩ := shown.text
  rw [heq, List.append_assoc, List.drop_left, List.take_left]

end ShownAt

namespace Legible

variable (h : t.Legible)
include h

/-- A child that is written is shown where it is written. -/
theorem shownAt_of_writtenAt (w : t.WrittenAt a u i) : t.ShownAt u i where
  legible := h.writtenAt w
  text := h.text_of_writtenAt w
  spans c hc := by
    rw [h.mem_spans_iff]
    refine ⟨?_, fun hspan => .inr ⟨a, u, i, w, hspan⟩⟩
    rintro (rfl | ⟨a', u', i', w', c', hc', rfl⟩)
    · -- The node itself is not below it.
      exact absurd hc (id_notMem_branch h.nodup w.branch)
    · -- No other child shares a node with this one.
      have hmem : c'.node ∈ u'.ids := node_mem_ids_of_span hc'
      have heq := eq_of_mem_branches h.nodup w.branch w'.branch
        hc hmem
      cases heq
      obtain ⟨-, rfl⟩ := h.writtenAt_unique w w'
      exact ⟨c', hc', rfl⟩

theorem span_top (hs : s ∈ t.print.spans) (hid : s.node = t.id) :
    s = ⟨t.id, 0, t.print.text.length⟩ := by
  rcases h.mem_spans_iff.1 hs with heq | ⟨a, u, i, w, s', hs', rfl⟩
  · exact heq
  · have hmem : s'.node ∈ u.ids := node_mem_ids_of_span hs'
    have hid' : s'.node = t.id := hid
    rw [hid'] at hmem
    exact absurd hmem (id_notMem_branch h.nodup w.branch)

end Legible

theorem ShownAt.trans (shown : t.ShownAt u i) (shown' : u.ShownAt v j) (hv : v ∈ u.subtrees) :
    t.ShownAt v (j + i) where
  legible := shown'.legible
  text := by
    obtain ⟨before, after, heq, rfl⟩ := shown.text
    obtain ⟨before', after', heq', rfl⟩ := shown'.text
    refine ⟨before ++ before', after' ++ after, ?_, ?_⟩
    · rw [heq, heq']
      simp only [List.append_assoc]
    · rw [List.length_append, Nat.add_comm]
  spans c hc := by
    rw [shown.spans c (ids_subset hv hc)]
    refine ⟨?_, ?_⟩
    · rintro ⟨c', hc', rfl⟩
      obtain ⟨c'', hc'', rfl⟩ := (shown'.spans c' hc).1 hc'
      exact ⟨c'', hc'', by simp [Span.shift, Nat.add_assoc]⟩
    · rintro ⟨c'', hc'', rfl⟩
      exact ⟨c''.shift j, shown'.mem_spans hc'', by simp [Span.shift, Nat.add_assoc]⟩

/-- A subtree of which any node is recorded is shown. -/
theorem Legible.exists_shownAt (h : t.Legible) (hv : v ∈ t.subtrees) (hs : s ∈ t.print.spans)
    (hmem : s.node ∈ v.ids) : ∃ i, t.ShownAt v i := by
  induction t using Tree.induction generalizing s with
  | node id kind branches ih =>
    rcases mem_subtrees_iff.1 hv with rfl | ⟨b, hb, hvb⟩
    · exact ⟨0, h.shownAt_self⟩
    · -- The subtree lies in a branch, and the span is that of a child that is written: this branch.
      rcases h.mem_spans_iff.1 hs with rfl | ⟨a, u, i, w, s', hs', rfl⟩
      · exact absurd (ids_subset hvb hmem) (id_notMem_branch h.nodup hb)
      · have hmem' : s'.node ∈ u.ids := node_mem_ids_of_span hs'
        have heq := eq_of_mem_branches h.nodup hb w.branch (ids_subset hvb hmem)
          hmem'
        cases heq
        obtain ⟨j, shown⟩ := ih _ hb (h.writtenAt w) hvb hs' hmem
        exact ⟨j + i, (h.shownAt_of_writtenAt w).trans shown hvb⟩

/-! ## What spans say -/

namespace Legible

variable (h : t.Legible)
include h

/-- Of every node recorded the whole text stands between the ends of its span. -/
theorem exists_of_span (hs : s ∈ t.print.spans) :
    ∃ u ∈ t.subtrees, ∃ i, t.ShownAt u i ∧ s = ⟨u.id, i, u.print.text.length + i⟩ := by
  obtain ⟨u, hu, hid⟩ := mem_ids_iff_subtrees.1 (node_mem_ids_of_span hs)
  obtain ⟨i, shown⟩ := h.exists_shownAt hu hs (hid ▸ id_mem_ids u)
  obtain ⟨s', hs', rfl⟩ := (shown.spans s (hid ▸ id_mem_ids u)).1 hs
  have htop := shown.legible.span_top hs' hid.symm
  refine ⟨u, hu, i, shown, ?_⟩
  rw [htop]
  simp [Span.shift]

theorem top_mem_spans : ⟨t.id, 0, t.print.text.length⟩ ∈ t.print.spans :=
  h.mem_spans_iff.2 (.inl rfl)

/-- A node has one span at most. -/
theorem span_unique (hc : c ∈ t.print.spans) (hd : d ∈ t.print.spans) (hid : c.node = d.node) :
    c = d := by
  obtain ⟨u, hu, hcu⟩ := mem_ids_iff_subtrees.1 (node_mem_ids_of_span hc)
  have hcmem : c.node ∈ u.ids := hcu ▸ id_mem_ids u
  obtain ⟨i, shown⟩ := h.exists_shownAt hu hc hcmem
  obtain ⟨c', hc', rfl⟩ := (shown.spans c hcmem).1 hc
  obtain ⟨d', hd', rfl⟩ := (shown.spans d (hid ▸ hcmem)).1 hd
  rw [shown.legible.span_top hc' hcu.symm, shown.legible.span_top hd' (hid ▸ hcu.symm)]

/-- Around a node that is recorded the nodes above it are recorded. -/
theorem exists_span_around (hv : v ∈ t.subtrees) (hc : c ∈ t.print.spans) (hmem : c.node ∈ v.ids) :
    ∃ d ∈ t.print.spans, d.node = v.id ∧ d.start ≤ c.start ∧ c.stop ≤ d.stop := by
  obtain ⟨i, shown⟩ := h.exists_shownAt hv hc hmem
  obtain ⟨c', hc', rfl⟩ := (shown.spans c hmem).1 hc
  obtain ⟨u, -, j, shown', rfl⟩ := shown.legible.exists_of_span hc'
  refine ⟨_, shown.mem_spans shown.legible.top_mem_spans, rfl, ?_, ?_⟩
  · exact Nat.add_le_add_right (Nat.zero_le j) i
  · exact Nat.add_le_add_right shown'.length_le i

/-- A child that is recorded is written, and its span says where. -/
theorem exists_writtenAt_of_span (hu : (a, u) ∈ t.branches) (hc : c ∈ t.print.spans)
    (hcu : c.node = u.id) : ∃ i, t.WrittenAt a u i ∧ c = ⟨u.id, i, u.print.text.length + i⟩ := by
  rcases h.mem_spans_iff.1 hc with rfl | ⟨a', u', i, w, c', hc', rfl⟩
  · -- The span of the node itself is not that of a child.
    have hid : t.id = u.id := hcu
    exact absurd (hid ▸ id_mem_ids u) (id_notMem_branch h.nodup hu)
  · have hid : c'.node = u.id := hcu
    have hmem : c'.node ∈ u'.ids := node_mem_ids_of_span hc'
    have heq := eq_of_mem_branches h.nodup hu w.branch (hid ▸ id_mem_ids u) hmem
    cases heq
    rw [(h.writtenAt w).span_top hc' hid]
    exact ⟨i, w, by simp [Span.shift]⟩

/-- Of two children that are recorded the one at the lower slot comes first. -/
theorem stop_le_start (hv : v ∈ t.subtrees) {x y : Tree} (hx : (a, x) ∈ v.branches)
    (hy : (b, y) ∈ v.branches) (hlt : a < b) (hc : c ∈ t.print.spans) (hd : d ∈ t.print.spans)
    (hcx : c.node = x.id) (hdy : d.node = y.id) : c.stop ≤ d.start := by
  -- Both spans are moved by the offset of the parent, and there the children are written in order.
  have hcv : c.node ∈ v.ids := hcx ▸ ids_subset (branch_mem_subtrees hx) (id_mem_ids x)
  have hdv : d.node ∈ v.ids := hdy ▸ ids_subset (branch_mem_subtrees hy) (id_mem_ids y)
  obtain ⟨k, shown⟩ := h.exists_shownAt hv hc hcv
  obtain ⟨c', hc', rfl⟩ := (shown.spans c hcv).1 hc
  obtain ⟨d', hd', rfl⟩ := (shown.spans d hdv).1 hd
  obtain ⟨i, w, rfl⟩ := shown.legible.exists_writtenAt_of_span hx hc' hcx
  obtain ⟨j, w', rfl⟩ := shown.legible.exists_writtenAt_of_span hy hd' hdy
  exact Nat.add_le_add_right (shown.legible.writtenAt_le w w' hlt) k

/-- Where all children stand at slots of their parents, all nodes are recorded. -/
theorem exists_span (hslots : ∀ u ∈ t.subtrees, ∀ b ∈ u.branches, u.kind.hasSlot b.1 = true)
    (hv : v ∈ t.subtrees) : ∃ s ∈ t.print.spans, s.node = v.id := by
  induction t using Tree.induction with
  | node id kind branches ih =>
    rcases mem_subtrees_iff.1 hv with rfl | ⟨b, hb, hvb⟩
    · exact ⟨_, h.top_mem_spans, rfl⟩
    · have hslots' : ∀ u ∈ b.2.subtrees, ∀ c ∈ u.branches, u.kind.hasSlot c.1 = true :=
        fun u hu => hslots u (mem_subtrees_trans hu (branch_mem_subtrees hb))
      -- The child is written, and what is recorded in its text is recorded in the whole.
      have hchild : (node id kind branches).child? b.1 = some b.2 :=
        (lookup_eq_some_iff_mem h.slotted.nodup).2 hb
      have hmem : b.1 ∈ (node id kind branches).slots :=
        ((node id kind branches).slots_perm.mem_iff).2 (List.mem_map_of_mem hb)
      obtain ⟨i, w⟩ := exists_writtenAt hchild
        (Kind.mem_written_of_hasSlot (hslots _ (self_mem_subtrees _) b hb) hmem)
      obtain ⟨s, hs, hsv⟩ := ih b hb (h.writtenAt w) hslots' hvb
      exact ⟨s.shift i, (h.shownAt_of_writtenAt w).mem_spans hs, hsv⟩

end Legible

end Tree

end ShortCircuit

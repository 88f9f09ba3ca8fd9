/-
  ShortCircuit.Proofs.Tree.Splicing

  What becomes of the text of a tree when another tree is put in somewhere.  Only
  the stretch of the text changes that belongs to what is put out; where nothing
  is recorded of that, the text stays as it is.  A node passes this on from its
  children, since it writes nothing but their texts and what its kind says.
-/

import ShortCircuit.Proofs.Tree.Spans

namespace ShortCircuit

variable {t u v : Tree} {c : Span} {a : Int} {n : NodeId} {i : Nat} {kept : List Char}

/-! ## Putting a text in the place of a stretch -/

/-- A text with another in the place of the stretch that a span covers. -/
def Span.splice (c : Span) (new text : List Char) : List Char :=
  text.take c.start ++ new ++ text.drop c.stop

/-- Splicing leaves what surrounds the text alone. -/
theorem Span.splice_shift {text before after : List Char} (hstart : c.start ≤ text.length)
    (hstop : c.stop ≤ text.length) :
    (c.shift before.length).splice kept (before ++ text ++ after) =
      before ++ c.splice kept text ++ after := by
  have htake : (before ++ text ++ after).take (c.start + before.length) =
      before ++ text.take c.start := by
    rw [List.append_assoc, Nat.add_comm, List.take_length_add_append,
      List.take_append_of_le_length hstart]
  have hdrop : (before ++ text ++ after).drop (c.stop + before.length) =
      text.drop c.stop ++ after := by
    rw [List.append_assoc, Nat.add_comm, List.drop_length_add_append,
      List.drop_append_of_le_length hstop]
  show (before ++ text ++ after).take (c.start + before.length) ++ kept ++
    (before ++ text ++ after).drop (c.stop + before.length) = _
  rw [htake, hdrop, Span.splice]
  simp only [List.append_assoc]

namespace Tree

/-! ## Trees with children at the same slots -/

theorem mem_slots_iff : a ∈ t.slots ↔ (t.child? a).isSome := by
  rw [t.slots_perm.mem_iff, child?, List.lookup_isSome_iff, List.mem_map]
  refine exists_congr fun b => and_congr_right fun _ => ?_
  rw [beq_iff_eq, eq_comm]

theorem slots_eq (hu : (u.branches.map (·.1)).Nodup) (hv : (v.branches.map (·.1)).Nodup)
    (h : ∀ a, (u.child? a).isSome = (v.child? a).isSome) : u.slots = v.slots := by
  have hu' := pairwise_slots hu
  have hv' := pairwise_slots hv
  have hmem (a : Int) : a ∈ u.slots ↔ a ∈ v.slots := by
    rw [mem_slots_iff, mem_slots_iff, h]
  have hperm : u.slots.Perm v.slots := by
    refine (List.perm_ext_iff_of_nodup ?_ ?_).2 hmem
    · exact hu'.imp fun h => by omega
    · exact hv'.imp fun h => by omega
  refine hperm.eq_of_pairwise ?_ hu' hv'
  intro a b _ _ hab hba
  omega

/-! ## Splicing a tree -/

/-- The text of `u` is that of `v`, but for `kept` in the place of what is recorded of a node; where
    nothing is recorded of it, there is no difference. -/
structure Spliced (n : NodeId) (kept : List Char) (u v : Tree) : Prop where
  recorded : ∀ c ∈ v.print.spans, c.node = n → u.print.text = c.splice kept v.print.text
  unrecorded : (∀ c ∈ v.print.spans, c.node ≠ n) → u.print.text = v.print.text

/-- A node writes for a child what it wrote before, if nothing is recorded in it of the node that
    has been put out. -/
theorem writes_eq {piece : Piece}
    (h : ∀ a, piece = .operand a → Option.Rel (Spliced n kept) (u.child? a) (v.child? a))
    (hn : ∀ a d, piece = .operand a → v.child? a = some d → ∀ c ∈ d.print.spans, c.node ≠ n) :
    u.writes piece = v.writes piece := by
  cases piece with
  | words text => rfl
  | literal value => rfl
  | operand a =>
    have hrel := h a rfl
    cases hd : v.child? a with
    | none =>
      rw [hd] at hrel
      have hu : u.child? a = none := by simpa using isSome_eq_of_rel hrel
      rw [writes, writes, print_operand, print_operand, hu, hd]
    | some d =>
      obtain ⟨e, he, spliced⟩ := exists_of_rel_right hrel hd
      rw [writes_operand he, writes_operand hd]
      exact spliced.unrecorded (hn a d rfl hd)

/-- A node passes on the changes of its children. -/
theorem spliced_of_children (hu : u.Legible) (hv : v.Legible) (hkind : u.kind = v.kind)
    (hne : v.id ≠ n) (h : ∀ a, Option.Rel (Spliced n kept) (u.child? a) (v.child? a)) :
    Spliced n kept u v := by
  have hpieces : u.pieces = v.pieces := by
    rw [pieces, pieces, hkind,
      slots_eq hu.slotted.nodup hv.slotted.nodup fun a => isSome_eq_of_rel (h a)]
  refine ⟨fun c hc hcn => ?_, fun hnot => ?_⟩
  · rcases hv.mem_spans_iff.1 hc with rfl | ⟨a, d, i, w, c', hc', rfl⟩
    · exact absurd hcn hne
    · -- One child is changed, and nothing is recorded of the node in the others.
      obtain ⟨l, r, heq, hd, rfl⟩ := w
      obtain ⟨e, he, spliced⟩ := exists_of_rel_right (h a) hd
      have hother (piece : Piece) (hpiece : piece ∈ l ++ r) : u.writes piece = v.writes piece := by
        refine writes_eq (fun b _ => h b) fun b d' hb hd' c'' hc'' hc''n => ?_
        subst hb
        have hmem : c'.node ∈ d.ids := node_mem_ids_of_span hc'
        have hmem' : c''.node ∈ d'.ids := node_mem_ids_of_span hc''
        have hnode : c'.node = c''.node := Eq.trans hcn hc''n.symm
        have hbranch := eq_of_mem_branches hv.nodup (branch_of_child? hd) (branch_of_child? hd')
          hmem (hnode ▸ hmem')
        cases hbranch
        exact operand_notMem_of_split (pairwise_pieces hv) heq hpiece
      have htext : u.print.text = l.flatMap v.writes ++ e.print.text ++ r.flatMap v.writes := by
        rw [hu.text_eq, hpieces, heq, List.flatMap_append, List.flatMap_cons, writes_operand he,
          List.flatMap_congr fun piece hp => hother piece (List.mem_append_left r hp),
          List.flatMap_congr fun piece hp => hother piece (List.mem_append_right l hp),
          List.append_assoc]
      have hlegible : d.Legible := hv.writtenAt ⟨l, r, heq, hd, rfl⟩
      obtain ⟨x, -, j, shown, rfl⟩ := hlegible.exists_of_span hc'
      have hstop : x.print.text.length + j ≤ d.print.text.length := shown.length_le
      have hstart : j ≤ d.print.text.length := by omega
      rw [htext, hv.text_eq, heq, List.flatMap_append, List.flatMap_cons, writes_operand hd,
        ← List.append_assoc, Span.splice_shift hstart hstop, spliced.recorded _ hc' hcn]
  · rw [hu.text_eq, hv.text_eq, hpieces]
    refine List.flatMap_congr fun piece hpiece => writes_eq (fun a _ => h a) ?_
    rintro a d rfl hd c hc
    obtain ⟨l, r, heq⟩ := List.append_of_mem hpiece
    have shown := hv.shownAt_of_writtenAt ⟨l, r, heq, hd, rfl⟩
    exact hnot (c.shift _) (shown.mem_spans hc)

end Tree

end ShortCircuit

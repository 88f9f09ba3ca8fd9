/-
  ShortCircuit.Proofs.Spans

  Spans describe the text that they are recorded with: between the ends of the
  span of a node stands what would be generated for that node alone, spans are
  nested as nodes are, and children come in the order of their slots.
-/

import ShortCircuit.Proofs.Forest.Texts
import ShortCircuit.Proofs.History

namespace ShortCircuit

variable {f : Forest} {s : Session} {t : Tree} {n : NodeId}

/-- The stretch of a text that a span covers. -/
def Span.slice (text : List Char) (s : Span) : List Char :=
  (text.drop s.start).take (s.stop - s.start)

namespace Forest

/-- What spans say of a text that was generated for the node at the top of `t`. -/
structure Described (f : Forest) (t : Tree) (text : List Char) (spans : List Span) : Prop where
  /-- The span of the node itself is that of the whole text. -/
  whole : ⟨t.id, 0, text.length⟩ ∈ spans
  unique : ∀ a ∈ spans, ∀ b ∈ spans, a.node = b.node → a = b
  within : ∀ a ∈ spans, a.node ∈ t.ids ∧ a.start ≤ a.stop ∧ a.stop ≤ text.length
  /-- What stands in a span is what is generated for its node. -/
  rendered : ∀ a ∈ spans, f.renderOf (some a.node) = .ok (String.ofList (a.slice text))
  /-- Around a node its parent is recorded. -/
  nested : ∀ a ∈ spans, a.node ≠ t.id → ∃ p slot, f.place? a.node = some (p, slot) ∧
    ∃ b ∈ spans, b.node = p ∧ b.start ≤ a.start ∧ a.stop ≤ b.stop
  /-- Children that are recorded come in the order of their slots. -/
  ordered : ∀ a ∈ spans, ∀ b ∈ spans, ∀ p i j, f.place? a.node = some (p, i) →
    f.place? b.node = some (p, j) → i < j → a.stop ≤ b.start
  /-- All nodes are recorded if all children stand at slots of their parents. -/
  complete : (∀ u ∈ t.subtrees, ∀ b ∈ u.branches, u.kind.hasSlot b.1 = true) →
    ∀ n, n ∈ t.ids ↔ ∃ a ∈ spans, a.node = n

theorem WellFormed.described (wf : f.WellFormed) (short : f.ShortIntegers) (ht : t ∈ f.subtrees) :
    f.Described t t.print.text t.print.spans := by
  have h := wf.legible short ht
  refine ⟨h.top_mem_spans, fun a ha b hb => h.span_unique ha hb, fun a ha => ?_, fun a ha => ?_,
    fun a ha hne => ?_, fun a ha b hb p i j hi hj hlt => ?_, fun hslots n => ?_⟩
  · obtain ⟨u, hu, i, shown, rfl⟩ := h.exists_of_span ha
    exact ⟨Tree.mem_ids_iff_subtrees.2 ⟨u, hu, rfl⟩, Nat.le_add_left .., shown.length_le⟩
  · obtain ⟨u, hu, i, shown, rfl⟩ := h.exists_of_span ha
    have hu' := subtree_mem_subtrees hu ht
    rw [wf.renderOf_of_toPrint short hu' (wf.toPrint_self hu'), Span.slice, Nat.add_sub_cancel,
      shown.slice_eq]
  · -- The parent is a subtree that the node is below.
    obtain ⟨u, hu, hid⟩ := Tree.mem_ids_iff_subtrees.1 (Tree.node_mem_ids_of_span ha)
    obtain ⟨v, hv, b, hb, rfl⟩ := Tree.exists_parent_of_ne hu fun heq => hne (by rw [← hid, heq])
    have hmem : a.node ∈ v.ids :=
      hid ▸ Tree.ids_subset (Tree.branch_mem_subtrees hb) (Tree.id_mem_ids b.2)
    rw [← hid]
    exact ⟨v.id, b.1, wf.place?_branch (subtree_mem_subtrees hv ht) hb,
      h.exists_span_around hv ha hmem⟩
  · -- The two are not both at the top, so their parent is a node of the tree.
    have ha' := Tree.node_mem_ids_of_span ha
    have hb' := Tree.node_mem_ids_of_span hb
    have hp : p ∈ t.ids := by
      by_cases hat : a.node = t.id
      · refine wf.parent_mem_ids ht hb' (fun hbt => ?_) hj
        rw [hat, ← hbt, hj] at hi
        cases hi
        exact Int.lt_irrefl _ hlt
      · exact wf.parent_mem_ids ht ha' hat hi
    obtain ⟨v, hv, rfl⟩ := Tree.mem_ids_iff_subtrees.1 hp
    obtain ⟨x, hx, hax⟩ := Tree.mem_ids_iff_subtrees.1 ha'
    obtain ⟨y, hy, hby⟩ := Tree.mem_ids_iff_subtrees.1 hb'
    have hbranch {u : Tree} {k : Int} (hu : u ∈ t.subtrees) (hk : f.place? u.id = some (v.id, k)) :
        (k, u) ∈ v.branches :=
      (wf.mem_branches_iff (subtree_mem_subtrees hv ht)).2 ⟨subtree_mem_subtrees hu ht, hk⟩
    exact h.stop_le_start hv (hbranch hx (hax ▸ hi)) (hbranch hy (hby ▸ hj)) hlt ha hb hax.symm
      hby.symm
  · refine ⟨fun hn => ?_, ?_⟩
    · obtain ⟨u, hu, rfl⟩ := Tree.mem_ids_iff_subtrees.1 hn
      exact h.exists_span hslots hu
    · rintro ⟨a, ha, rfl⟩
      exact Tree.node_mem_ids_of_span ha

end Forest

/-! ## Generated texts -/

namespace Session

theorem generate_of_toPrint {n : Option NodeId} (h : s.forest.toPrint n = .ok t) :
    generate n s = (t.render.map String.ofList, { s with spans := t.print.spans }) := by
  unfold generate
  split
  · rename_i heq
    rw [h] at heq
    cases heq
  · rename_i heq
    rw [h] at heq
    cases heq
  · rename_i heq
    rw [h] at heq
    cases heq
    rfl

/-- Where there is no text of the root, the text before is kept. -/
theorem generate_rootless (h : s.forest.root? = none) :
    generate none s = (.error .noUniqueRoot, s) := by
  have hprint : s.forest.toPrint none = .error .noUniqueRoot := by
    unfold Forest.toPrint
    rw [h]
  unfold generate
  rw [hprint]

/-- Asked for the text of a node that is not there, the session gives up the text before. -/
theorem generate_missing (hn : n ∉ s.forest.ids) :
    generate (some n) s = (.error (.unknownNode n), { s with spans := [] }) := by
  have hprint : s.forest.toPrint (some n) = .error (.unknownNode n) :=
    Forest.get_eq_error_iff.2 ⟨hn, rfl⟩
  unfold generate
  rw [hprint]

/-- A text that has been generated is that of a legible tree, whose spans are kept. -/
theorem exists_of_generate (wf : s.forest.WellFormed) {n : Option NodeId} {text : String}
    {s' : Session} (h : generate n s = (.ok text, s')) :
    ∃ t ∈ s.forest.subtrees, s.forest.toPrint n = .ok t ∧ t.Legible ∧
      text = String.ofList t.print.text ∧ s' = { s with spans := t.print.spans } := by
  cases hprint : s.forest.toPrint n with
  | error fault =>
    unfold generate at h
    rw [hprint] at h
    cases n <;> cases h
  | ok t =>
    have ht := wf.mem_subtrees_of_toPrint hprint
    rw [generate_of_toPrint hprint] at h
    cases hrender : t.render with
    | error fault =>
      rw [hrender] at h
      cases h
    | ok chars =>
      obtain ⟨legible, rfl⟩ := wf.legible_of_render ht hrender
      rw [hrender] at h
      cases h
      exact ⟨t, ht, rfl, legible, rfl, rfl⟩

/-- In a reachable forest without long integers the text of any node is generated, and the spans
    that are kept of it describe it. -/
theorem generate_described (reachable : s.forest.Reachable) (short : s.forest.ShortIntegers)
    (hn : n ∈ s.forest.ids) :
    ∃ t text spans, s.forest.get n = .ok t ∧
      generate (some n) s = (.ok (String.ofList text), { s with spans }) ∧
      s.forest.Described t text spans := by
  have wf := reachable.wellFormed
  obtain ⟨t, ht, rfl⟩ := Forest.mem_ids.1 hn
  refine ⟨t, t.print.text, t.print.spans, wf.get_self ht, ?_, wf.described short ht⟩
  rw [generate_of_toPrint (wf.toPrint_self ht), (wf.legible short ht).render_eq]
  rfl

/-- `(a && b)`, the conjunction at node 2. -/
def grouped : Session :=
  (start .debug).after [.build [.fresh .paren [.fresh (.binary .logicalAnd)
    [.fresh (.path "a") [], .fresh (.path "b") []]]]]

theorem generate_described_grouped :
    grouped.forest.ShortIntegers ∧ 2 ∈ grouped.forest.ids ∧
      ∃ t, grouped.forest.get 2 = .ok t ∧
        generate (some 2) grouped =
          (.ok "a && b", { grouped with spans := [⟨0, 0, 1⟩, ⟨1, 5, 6⟩, ⟨2, 0, 6⟩] }) ∧
        grouped.forest.Described t "a && b".toList [⟨0, 0, 1⟩, ⟨1, 5, 6⟩, ⟨2, 0, 6⟩] := by
  have short : grouped.forest.ShortIntegers := by decide
  have hn : 2 ∈ grouped.forest.ids := by decide
  obtain ⟨t, text, spans, hget, hgenerate, hdescribed⟩ :=
    generate_described (s := grouped) ⟨.debug, _, rfl⟩ short hn
  have htext : (generate (some 2) grouped).1.toOption = some "a && b" := by decide +kernel
  have hspans : (generate (some 2) grouped).2.spans = [⟨0, 0, 1⟩, ⟨1, 5, 6⟩, ⟨2, 0, 6⟩] := by
    decide +kernel
  rw [hgenerate] at htext hspans
  obtain rfl : spans = [⟨0, 0, 1⟩, ⟨1, 5, 6⟩, ⟨2, 0, 6⟩] := hspans
  have heq : String.ofList text = "a && b" := Option.some.inj htext
  obtain rfl : text = "a && b".toList := by rw [← heq, String.toList_ofList]
  exact ⟨short, hn, t, hget, heq ▸ hgenerate, hdescribed⟩

end Session

end ShortCircuit

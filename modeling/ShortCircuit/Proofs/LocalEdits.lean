/-
  ShortCircuit.Proofs.LocalEdits

  Putting in the place of an expression what it reduces to is an edit of one
  stretch of the text: the root that was the only one has an heir that is the
  only one, and in its text what is left of the expression stands where the
  expression stood.  What is simplified at a caret stands around the caret.
-/

import ShortCircuit.Proofs.Applicability
import ShortCircuit.Proofs.Forest.Query
import ShortCircuit.Proofs.Spans
import ShortCircuit.Proofs.Tree.Splicing

namespace ShortCircuit

variable {f g : Forest} {s s' : Session} {t r u v T : Tree} {n m : NodeId}

/-- A span covers what spans inside it cover. -/
theorem Span.covers_of_around {c d : Span} {position : Int} (hstart : d.start ≤ c.start)
    (hstop : c.stop ≤ d.stop) (h : c.covers position = true) : d.covers position = true := by
  simp only [covers, Bool.and_eq_true, decide_eq_true_eq] at h ⊢
  omega

namespace Forest

/-! ## Reductions -/

/-- What has come of a text of the root, with its spans, when `r` has taken the place of `t`. -/
structure LocallyEdited (f : Forest) (text : List Char) (spans : List Span) (t r : NodeId)
    (g : Forest) : Prop where
  /-- There still is a unique root. -/
  root : g.root?.isSome
  /-- A constant is left, or an operand with the text that it had. -/
  edited : ∃ kept, g.renderOf (some r) = .ok (String.ofList kept) ∧
    (kept = "true".toList ∨ kept = "false".toList ∨
      f.parentOf (some r) = .ok (some t) ∧ f.renderOf (some r) = .ok (String.ofList kept)) ∧
    ((∃ c ∈ spans, c.node = t ∧
        g.renderOf none = .ok (String.ofList (text.take c.start ++ kept ++ text.drop c.stop))) ∨
      (∀ c ∈ spans, c.node ≠ t) ∧ g.renderOf none = .ok (String.ofList text))

namespace Reduced

variable (step : f.Reduced t r g) (wf : f.WellFormed) (wf' : g.WellFormed)
  (ht : t ∈ f.subtrees)
include step wf wf' ht

/-- In the text of every node what is left of the expression has taken its place. -/
theorem spliced (short : f.ShortIntegers) (hu : u ∈ g.subtrees) (hv : v ∈ f.subtrees)
    (hid : v.id = if u.id = r.id then t.id else u.id) :
    Tree.Spliced t.id r.print.text u v := by
  have short' := step.shortIntegers wf ht wf' short
  refine related_of_image (fun n => if n = r.id then t.id else n) ?_ hu hv hid
  intro u hu v hv hid
  by_cases hur : u.id = r.id
  · -- Of the expression itself nothing but what is left remains.
    rw [if_pos hur] at hid
    rw [wf'.eq_of_id_eq hu step.mem hur, wf.eq_of_id_eq hv ht hid]
    have h := wf.legible short ht
    refine .inl ⟨fun c hc hct => ?_, fun hnot => absurd rfl (hnot _ h.top_mem_spans)⟩
    rw [h.span_top hc hct, Span.splice]
    simp
  · rw [if_neg hur] at hid
    obtain ⟨o, ho, hoid, hkind, hchildren⟩ := step.exists_origin wf ht wf' hu hur
    rw [wf.eq_of_id_eq ho hv (hoid.trans hid.symm)] at hkind hchildren
    refine .inr ⟨hchildren, fun hrel => ?_⟩
    refine Tree.spliced_of_children (wf'.legible short' hu) (wf.legible short hv) hkind.symm ?_ hrel
    intro hvt
    have hmem : u.id ∈ g.ids := id_mem_of_mem_subtrees hu
    rw [← hid, hvt] at hmem
    exact step.id_notMem wf ht hmem

/-- The heir of the unique root is the unique root. -/
theorem root?_eq (hroot : f.root? = some n) : g.root? = some (moved t.id r.id n) := by
  have hbij := step.bijOn_roots wf ht wf'
  have hroots := root?_eq_some_iff.1 hroot
  have hmem (m : NodeId) : m ∈ g.roots ↔ m ∈ [moved t.id r.id n] := by
    rw [List.mem_singleton]
    refine ⟨fun hm => ?_, ?_⟩
    · obtain ⟨k, hk, rfl⟩ := hbij.surjOn hm
      have hkn : k ∈ f.roots := hk
      rw [hroots, List.mem_singleton] at hkn
      rw [hkn]
    · rintro rfl
      refine hbij.mapsTo ?_
      show n ∈ f.roots
      rw [hroots]
      exact List.mem_singleton_self n
  rw [root?_eq_some_iff, ← List.perm_singleton]
  exact (List.perm_ext_iff_of_nodup wf'.nodup_roots (List.nodup_singleton _)).2 hmem

/-- The text of the root is edited where the expression was. -/
theorem locallyEdited (short : f.ShortIntegers) (hT : T ∈ f.trees)
    (hroot : f.root? = some T.id) :
    f.LocallyEdited T.print.text T.print.spans t.id r.id g := by
  have short' := step.shortIntegers wf ht wf' short
  have hroot' := step.root?_eq wf wf' ht hroot
  obtain ⟨T', hT', hid⟩ := exists_of_root? hroot'
  have hTf := mem_subtrees_of_mem_trees hT
  -- The root was the expression, or it has kept its name.
  have hspliced : Tree.Spliced t.id r.print.text T' T := by
    refine step.spliced wf wf' ht short (mem_subtrees_of_mem_trees hT') hTf ?_
    rw [hid]
    by_cases hTt : T.id = t.id
    · rw [hTt, moved_self, if_pos rfl]
    · rw [moved_of_ne _ hTt, if_neg]
      intro hTr
      refine step.heir_notMem_roots wf ht ?_
      rw [← hTr, root?_eq_some_iff.1 hroot]
      exact List.mem_singleton_self _
  have hafter : g.renderOf none = .ok (String.ofList T'.print.text) :=
    wf'.renderOf_of_toPrint short' (mem_subtrees_of_mem_trees hT')
      (wf'.toPrint_root hT' (by rw [hid, hroot']))
  refine ⟨by rw [hroot']; rfl, r.print.text,
    wf'.renderOf_of_toPrint short' step.mem (wf'.toPrint_self step.mem), ?_, ?_⟩
  · obtain ⟨reduction, heir, replaced⟩ := step
    cases heir with
    | constant b =>
      cases b with
      | true => exact .inl rfl
      | false => exact .inr (.inl rfl)
    | operand child =>
      have hb := Tree.branch_of_child? child
      have hr := child_mem_subtrees ht hb
      refine .inr (.inr ⟨?_, wf.renderOf_of_toPrint short hr (wf.toPrint_self hr)⟩)
      rw [wf.parentOf_eq (id_mem_of_mem_subtrees hr), wf.place?_branch ht hb]
      rfl
  · by_cases hrecorded : ∃ c ∈ T.print.spans, c.node = t.id
    · obtain ⟨c, hc, hct⟩ := hrecorded
      refine .inl ⟨c, hc, hct, ?_⟩
      rw [hafter, hspliced.recorded c hc hct]
      rfl
    · have hnot : ∀ c ∈ T.print.spans, c.node ≠ t.id := fun c hc hct => hrecorded ⟨c, hc, hct⟩
      refine .inr ⟨hnot, ?_⟩
      rw [hafter, hspliced.unrecorded hnot]

end Reduced

end Forest

/-! ## Requests -/

namespace Session

theorem exists_of_reduce (wf : s.forest.WellFormed) (h : reduce (some n) s = (.ok m, s')) :
    ∃ t ∈ s.forest.subtrees, t.id = n ∧ ∃ r, r.id = m ∧ s'.forest.WellFormed ∧
      s.forest.Reduced t r s'.forest :=
  Simplify.exists_of_reduce wf (task_of_reduce wf h)

theorem exists_of_simplifyAtCaret (wf : s.forest.WellFormed) (short : s.forest.ShortIntegers)
    {offset : Int} (h : simplifyAtCaret offset s = (.ok m, s')) :
    ∃ n, s.forest.elementInRoot offset = .ok (some n) ∧
      ∃ t ∈ s.forest.subtrees, s.forest.target? n = some t.id ∧ n ∈ t.ids ∧ ∃ r, r.id = m ∧
        s'.forest.WellFormed ∧ s.forest.Reduced t r s'.forest := by
  obtain ⟨found, hfound, hids⟩ := wf.elementInRoot_ok short offset
  rw [simplifyAtCaret, Failing.bind_of_ok (ask_of_eq hfound)] at h
  cases found with
  | none => cases h
  | some n =>
    obtain ⟨t, ht, htarget, hn, r, hr, wf', contraction⟩ :=
      Simplify.exists_of_simplifyAround (w := s.toWorkspace) wf (hids n rfl) (eq_of_perform h)
    exact ⟨n, hfound, t, ht, htarget, hn, r, hr, wf', contraction.reduced⟩

/-- In a reachable forest with a unique root and without long integers, to reduce a node and to
    simplify at a caret is to edit the text of the root at one stretch; and what is simplified at
    a caret has a span, which covers the character behind the caret or the one before it. -/
theorem edits_locally (reachable : s.forest.Reachable) (short : s.forest.ShortIntegers)
    (hroot : s.forest.root?.isSome) :
    ∃ text spans, generate none s = (.ok (String.ofList text), { s with spans }) ∧
      (∀ t r s', reduce (some t) s = (.ok r, s') →
        s.forest.LocallyEdited text spans t r s'.forest) ∧
      ∀ offset r s', simplifyAtCaret offset s = (.ok r, s') →
        ∃ n t, s.forest.elementInRoot offset = .ok (some n) ∧ s.forest.target? n = some t ∧
          s.forest.LocallyEdited text spans t r s'.forest ∧
          ∃ c ∈ spans, c.node = t ∧ (c.covers offset = true ∨ c.covers (offset - 1) = true) := by
  have wf := reachable.wellFormed
  obtain ⟨root, hroot⟩ := Option.isSome_iff_exists.1 hroot
  obtain ⟨T, hT, rfl⟩ := Forest.exists_of_root? hroot
  have hTf := Forest.mem_subtrees_of_mem_trees hT
  refine ⟨T.print.text, T.print.spans, ?_, fun n m s' h => ?_, fun offset m s' h => ?_⟩
  · rw [generate_of_toPrint (wf.toPrint_root hT hroot), (wf.legible short hTf).render_eq]
    rfl
  · obtain ⟨t, ht, rfl, r, rfl, wf', step⟩ := exists_of_reduce wf h
    exact step.locallyEdited wf wf' ht short hT hroot
  · obtain ⟨n, helement, t, ht, htarget, hn, r, rfl, wf', step⟩ :=
      exists_of_simplifyAtCaret wf short h
    refine ⟨n, t.id, helement, htarget, step.locallyEdited wf wf' ht short hT hroot, ?_⟩
    obtain ⟨found, hfound, hspan⟩ := wf.elementInRoot_of_root short hT hroot offset
    rw [helement] at hfound
    cases hfound
    obtain ⟨c, hc, rfl, hcovers⟩ := hspan _ rfl
    -- The target is around the element, so it lies in the tree of the root and has a wider span.
    have htT : t ∈ T.subtrees := by
      obtain ⟨U, hU, htU⟩ := List.mem_flatMap.1 ht
      rwa [← wf.tree_eq hU hT (Tree.ids_subset htU hn) (Tree.node_mem_ids_of_span hc)]
    obtain ⟨d, hd, hdt, hstart, hstop⟩ :=
      (wf.legible short hTf).exists_span_around htT hc hn
    exact ⟨d, hd, hdt, hcovers.imp (Span.covers_of_around hstart hstop)
      (Span.covers_of_around hstart hstop)⟩

/-- `(true && x)`, the conjunction at node 2. -/
def neutralized : Session :=
  (start .debug).after [.build [.fresh .paren [.fresh (.binary .logicalAnd)
    [.fresh (.literal (.bool true)) [], .fresh (.path "x") []]]]]

theorem edits_locally_neutralized :
    neutralized.forest.ShortIntegers ∧ neutralized.forest.root?.isSome ∧
      ∃ spans, generate none neutralized =
          (.ok "(true && x)", { neutralized with spans }) ∧
        neutralized.forest.LocallyEdited "(true && x)".toList spans 2 1
          (reduce (some 2) neutralized).2.forest ∧
        neutralized.forest.elementInRoot 6 = .ok (some 2) ∧
        neutralized.forest.LocallyEdited "(true && x)".toList spans 2 1
          (simplifyAtCaret 6 neutralized).2.forest ∧
        ∃ c ∈ spans, c.node = 2 ∧ (c.covers 6 = true ∨ c.covers 5 = true) := by
  have short : neutralized.forest.ShortIntegers := by decide +kernel
  have hroot : neutralized.forest.root?.isSome := by decide +kernel
  have helement : neutralized.forest.elementInRoot 6 = .ok (some 2) := by decide +kernel
  have htarget : neutralized.forest.target? 2 = some 2 := by decide +kernel
  have hrendered : (generate none neutralized).1.toOption = some "(true && x)" := by
    decide +kernel
  obtain ⟨text, spans, htext, hreduce, hcaret⟩ :=
    edits_locally (s := neutralized) ⟨.debug, _, rfl⟩ short hroot
  rw [htext] at hrendered
  have heq : String.ofList text = "(true && x)" := Option.some.inj hrendered
  obtain rfl : text = "(true && x)".toList := by rw [← heq, String.toList_ofList]
  obtain ⟨n, t, hn, ht, hedited, hcovers⟩ :=
    hcaret 6 1 _ (Failing.eq_of_toOption (by decide +kernel))
  cases hn.symm.trans helement
  cases ht.symm.trans htarget
  exact ⟨short, hroot, spans, heq ▸ htext,
    hreduce 2 1 _ (Failing.eq_of_toOption (by decide +kernel)), helement, hedited, hcovers⟩

end Session

end ShortCircuit

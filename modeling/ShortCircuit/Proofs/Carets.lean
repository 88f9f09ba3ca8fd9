/-
  ShortCircuit.Proofs.Carets

  Carets in a text that has just been generated.  A caret inside the text or at
  its end points at the innermost of the nodes around one character, and a caret
  elsewhere at nothing.  In turn, every node that has been written to some
  character of its own is pointed at by some caret, so a client with carets can
  do whatever one with nodes can.
-/

import ShortCircuit.Proofs.Applicability
import ShortCircuit.Proofs.Spans

namespace ShortCircuit

namespace Session

variable {s s' : Session} {n : NodeId} {text : String} {a : Span}

theorem locate_eq (s : Session) (offset : Int) :
    locate offset s = (s.forest.deepestOf (Forest.pointedAt s.spans offset), s) := by
  rw [locate, Forest.elementAt_eq]

/-! ## From carets to nodes -/

/-- In a text just generated the nodes around a character are nested from the node asked for down
    to the innermost, which is what a caret in front of the character points at, and one behind it
    if it is the last.  A caret points at a node as long as it is in the text or at its end. -/
theorem locate_generated (reachable : s.forest.Reachable)
    (h : generate (some n) s = (.ok text, s')) :
    (∀ p : Nat, p < text.length → ∃ chain, s'.forest.Nested s'.spans n p chain ∧
      locate p s' = (.ok chain.getLast?, s') ∧
      (p + 1 = text.length → locate (p + 1) s' = (.ok chain.getLast?, s'))) ∧
    ∀ offset : Int, ∃ found, locate offset s' = (.ok found, s') ∧
      (found.isSome ↔ text ≠ "" ∧ 0 ≤ offset ∧ offset ≤ text.length) := by
  have wf := reachable.wellFormed
  obtain ⟨t, ht, hprint, legible, rfl, rfl⟩ := exists_of_generate wf h
  obtain ⟨-, rfl⟩ := wf.get_eq_ok_iff.1 hprint
  rw [String.length_ofList]
  refine ⟨fun p hp => ?_, fun offset => ?_⟩
  · obtain ⟨chain, nested, -, hdeepest⟩ := wf.exists_nested ht legible hp
    refine ⟨chain, nested, ?_, fun hend => ?_⟩
    · rw [locate_eq, Forest.pointedAt_inside legible hp, hdeepest]
    · rw [locate_eq, Forest.pointedAt_end legible hend, hdeepest]
  · rw [locate_eq]
    rcases Forest.pointedAt_cases legible offset with ⟨p, hp, hoffset, hnodes⟩ | ⟨hout, hnodes⟩
    · -- Around a character there is at least the node asked for.
      obtain ⟨chain, nested, -, hdeepest⟩ := wf.exists_nested ht legible hp
      refine ⟨chain.getLast?, by rw [hnodes, hdeepest], ?_⟩
      obtain ⟨rest, rfl⟩ := List.head?_eq_some_iff.1 nested.top
      have hne : t.print.text ≠ [] := List.length_pos_iff.1 (Nat.zero_lt_of_lt hp)
      refine ⟨fun _ => ⟨?_, by omega, by omega⟩, fun _ => by simp⟩
      simpa using hne
    · refine ⟨none, by rw [hnodes]; rfl, fun hsome => absurd hsome Bool.false_ne_true, ?_⟩
      rintro ⟨hne, hfrom, hto⟩
      rcases hout with hnil | hout
      · rw [hnil] at hne
        exact absurd rfl hne
      · omega

theorem locate_generated_grouped :
    ∃ s', generate (some 2) grouped = (.ok "a && b", s') ∧ locate 0 s' = (.ok (some 0), s') ∧
      ∃ chain, s'.forest.Nested s'.spans 2 0 chain ∧ chain.getLast? = some 0 := by
  have h : generate (some 2) grouped = (.ok "a && b", (generate (some 2) grouped).2) :=
    Failing.eq_of_toOption (by decide +kernel)
  have hfirst : locate 0 (generate (some 2) grouped).2 =
      (.ok (some 0), (locate 0 (generate (some 2) grouped).2).2) :=
    Failing.eq_of_toOption (by decide +kernel)
  obtain ⟨chain, nested, hlocate, -⟩ :=
    (locate_generated ⟨.debug, _, rfl⟩ h).1 0 (by decide)
  have hlast : chain.getLast? = some 0 := by
    injection hlocate.symm.trans hfirst with hfound
    exact Except.ok.inj hfound
  exact ⟨_, h, hlast ▸ hlocate, chain, nested, hlast⟩

/-! ## From nodes to carets -/

/-- Every node that is recorded with some text is pointed at by a caret in the text.  If that is the
    text of the root, there is the same to simplify at the caret as at the node. -/
theorem exists_caret (reachable : s.forest.Reachable) {n : Option NodeId}
    (h : generate n s = (.ok text, s')) (ha : a ∈ s'.spans) (hlt : a.start < a.stop) :
    ∃ offset : Int, 0 ≤ offset ∧ offset < text.length ∧
      locate offset s' = (.ok (some a.node), s') ∧
      (n = none ∨ n = s.forest.root? →
        s'.forest.elementInRoot offset = .ok (some a.node) ∧
        ∃ target, s'.forest.targetOf (some a.node) = .ok target ∧
          s'.forest.isApplicableAt (some a.node) = .ok target.isSome ∧
          s'.forest.isApplicable offset = .ok target.isSome ∧
          simplifyAtCaret offset s' = simplifyAround (some a.node) s') := by
  have wf := reachable.wellFormed
  obtain ⟨t, ht, hprint, legible, rfl, rfl⟩ := exists_of_generate wf h
  obtain ⟨p, trees, u, around, hlast, hid⟩ := legible.exists_around_span ha hlt
  have hp := around.lt_length legible
  -- The nodes around the character are those of the chain, of which the node is the last.
  obtain ⟨chain, -, hnodes, hdeepest⟩ := wf.exists_nested ht legible hp
  have hchain : chain = trees.map (·.id) :=
    List.reverse_injective (hnodes.symm.trans (around.nodesAt_eq legible))
  have hpointed : s.forest.deepestOf (Forest.pointedAt t.print.spans p) = .ok (some a.node) := by
    rw [Forest.pointedAt_inside legible hp, hdeepest, hchain, List.getLast?_map, hlast, ← hid]
    rfl
  have hids : a.node ∈ s.forest.ids :=
    Forest.ids_subset_ids ht (Tree.node_mem_ids_of_span ha)
  refine ⟨p, Int.natCast_nonneg p, ?_, ?_, fun hroot => ?_⟩
  · rw [String.length_ofList]
    exact Int.ofNat_lt.2 hp
  · rw [locate_eq, hpointed]
  · have helement : s.forest.elementInRoot p = .ok (some a.node) := by
      rw [wf.elementInRoot_eq ht legible (wf.root?_of_toPrint hprint hroot), hpointed]
    refine ⟨helement, _, wf.targetOf_eq hids, Forest.isApplicableAt_eq hids wf, ?_, ?_⟩
    · rw [Forest.isApplicable, helement]
      exact Forest.isApplicableAt_eq hids wf
    · rw [simplifyAtCaret, Failing.bind_of_ok (ask_of_eq helement)]

/-- There is a caret at the conjunction in `(a && b)`. -/
theorem exists_caret_grouped :
    ∃ s', generate none grouped = (.ok "(a && b)", s') ∧ ∃ offset : Int,
      locate offset s' = (.ok (some 2), s') ∧
      simplifyAtCaret offset s' = simplifyAround (some 2) s' := by
  have h : generate none grouped = (.ok "(a && b)", (generate none grouped).2) :=
    Failing.eq_of_toOption (by decide +kernel)
  have ha : ⟨2, 1, 7⟩ ∈ (generate none grouped).2.spans := by decide +kernel
  obtain ⟨offset, -, -, hlocate, hroot⟩ := exists_caret ⟨.debug, _, rfl⟩ h ha (by decide)
  obtain ⟨-, target, -, -, -, hsame⟩ := hroot (.inl rfl)
  exact ⟨_, h, offset, hlocate, hsame⟩

end Session

end ShortCircuit

/-
  ShortCircuit.Proofs.OldTexts

  Carets in a text that the forest has changed behind.  The spans stay as they
  were when the text was generated, until another text is started; but how deep
  the nodes are is read off the forest as it is now.  So a caret points at what
  it pointed at as long as the nodes around it are all there and the innermost
  of them is still the deepest, and not beyond.
-/

import ShortCircuit.Proofs.Carets

namespace ShortCircuit

variable {s s' : Session} {text : String} {requests : List Request}

/-! ## Requests that leave the text alone -/

/-- Whether a new text is started: it is as soon as a node is named, be it there or not, or the root
    is known. -/
def Request.startsText (f : Forest) : Request → Bool
  | generate n => n.isSome || f.root?.isSome
  | _ => false

namespace Session

/-- None of the requests, one after another, starts a new text. -/
def Undisturbed : Session → List Request → Prop
  | _, [] => True
  | s, request :: rest => request.startsText s.forest = false ∧ (s.serve request).Undisturbed rest

theorem serve_spans {request : Request} (h : request.startsText s.forest = false) :
    (s.serve request).spans = s.spans := by
  by_cases hgenerate : ∃ n, request = .generate n
  · obtain ⟨n, rfl⟩ := hgenerate
    obtain ⟨hn, hroot⟩ : n.isSome = false ∧ s.forest.root?.isSome = false :=
      Bool.or_eq_false_iff.1 h
    rw [Option.isSome_eq_false_iff, Option.isNone_iff_eq_none] at hn hroot
    subst hn
    rw [serve_generate, generate_rootless hroot]
  · have hkeeps : Keeps Forest.Evolves s (s.serve request) :=
      moves_action request (fun n heq => hgenerate ⟨n, heq⟩) s
    exact hkeeps.2

theorem Undisturbed.spans_after (h : s.Undisturbed requests) :
    (s.after requests).spans = s.spans := by
  induction requests generalizing s with
  | nil => rfl
  | cons request rest ih => exact (ih h.2).trans (serve_spans h.1)

/-! ## Texts that cannot be generated -/

/-- What becomes of a session that is asked in vain for a text. -/
inductive InVain (s : Session) : Option NodeId → Session → Prop where
  /-- There is no unique root, and all stays as it was. -/
  | rootless (root : s.forest.root? = none) : InVain s none s
  /-- There is no such node, and from then on carets point at nothing. -/
  | missing {k : NodeId} {r : Session} (gone : k ∉ s.forest.ids)
    (nowhere : ∀ offset, locate offset r = (.ok none, r)) : InVain s (some k) r
  /-- The printing was stopped, and no caret points at the node to print. -/
  | stopped {n : Option NodeId} {k : NodeId} {r : Session}
    (asked : n = some k ∨ n = none ∧ s.forest.root? = some k)
    (elsewhere : ∀ offset, ∃ found, locate offset r = (.ok found, r) ∧ found ≠ some k) :
    InVain s n r

/-- A text cannot be generated for no other reason. -/
theorem generate_error (wf : s.forest.WellFormed) {n : Option NodeId} {fault : Fault}
    (h : generate n s = (.error fault, s')) : s.InVain n s' := by
  cases hprint : s.forest.toPrint n with
  | error reason =>
    cases n with
    | some k =>
      have hk : k ∉ s.forest.ids := (Forest.get_eq_error_iff.1 hprint).1
      rw [generate_missing hk] at h
      cases h
      exact .missing hk fun offset => locate_eq ..
    | none =>
      have hroot : s.forest.root? = none := wf.root?_of_toPrint_error hprint
      rw [generate_rootless hroot] at h
      cases h
      exact .rootless hroot
  | ok t =>
    have ht := wf.mem_subtrees_of_toPrint hprint
    rw [generate_of_toPrint hprint] at h
    have hfault : t.print.fault.isSome = true := by
      by_contra hnone
      rw [Bool.not_eq_true, Option.isSome_eq_false_iff, Option.isNone_iff_eq_none] at hnone
      rw [Tree.render, Printed.result, hnone] at h
      cases h
    obtain ⟨-, rfl⟩ := Prod.mk.inj h
    have asked : n = some t.id ∨ n = none ∧ s.forest.root? = some t.id := by
      cases n with
      | some k => exact .inl (congrArg some (wf.get_eq_ok_iff.1 hprint).2.symm)
      | none => exact .inr ⟨rfl, wf.root?_of_toPrint hprint (.inl rfl)⟩
    refine .stopped asked fun offset => ?_
    -- Whatever a caret points at is recorded, and the node at the top is not.
    have hids : ∀ m ∈ Forest.pointedAt t.print.spans offset, m ∈ s.forest.ids :=
      fun m hm => Forest.mem_ids_of_pointedAt ht hm
    obtain ⟨found, hfound, hmem⟩ := Forest.exists_deepestOf hids
    refine ⟨found, by rw [locate_eq, hfound], ?_⟩
    rintro rfl
    obtain ⟨c, hc, hid, -⟩ := Forest.mem_pointedAt (hmem t.id rfl)
    exact Tree.node_ne_id_of_fault (wf.nodup_tree ht) hfault hc hid

/-! ## Carets -/

/-- A caret in the text generated last, after other requests, points at what it pointed at if and
    only if all nodes around it are still there and none of them is deeper now than the one pointed
    at; where one of them is gone it cannot be asked.  Asking in vain for another text spoils
    the answers unless it is for want of a root. -/
theorem locate_after (reachable : s.forest.Reachable) {n : Option NodeId}
    (h : generate n s = (.ok text, s')) (undisturbed : s'.Undisturbed requests) :
    (∀ offset, ∃ found, locate offset s' = (.ok found, s') ∧
      (locate offset (s'.after requests) = (.ok found, s'.after requests) ↔
        (∀ m ∈ Forest.pointedAt s'.spans offset, m ∈ (s'.after requests).forest.ids) ∧
        ∀ k ∈ found, ∀ m ∈ Forest.pointedAt s'.spans offset,
          (s'.after requests).forest.depth m ≤ (s'.after requests).forest.depth k) ∧
      ((∃ m ∈ Forest.pointedAt s'.spans offset, m ∉ (s'.after requests).forest.ids) →
        ∃ m ∈ Forest.pointedAt s'.spans offset, m ∉ (s'.after requests).forest.ids ∧
          locate offset (s'.after requests) = (.error (.unknownNode m), s'.after requests))) ∧
    ∀ k fault r, generate k (s'.after requests) = (.error fault, r) →
      (s'.after requests).InVain k r := by
  have wf := reachable.wellFormed
  obtain ⟨t, ht, -, legible, -, rfl⟩ := exists_of_generate wf h
  -- The spans are the same as before; only the forest has changed.
  have hspans := undisturbed.spans_after
  have hwf : ({ s with spans := t.print.spans }.after requests).forest.WellFormed :=
    (across_after (R := Forest.Evolves) { s with spans := t.print.spans } requests wf).1
  generalize { s with spans := t.print.spans }.after requests = later at hspans hwf ⊢
  have hlocate (offset : Int) : locate offset later =
      (later.forest.deepestOf (Forest.pointedAt t.print.spans offset), later) := by
    rw [locate_eq, hspans]
  refine ⟨fun offset => ?_, fun k fault r hfails => generate_error hwf hfails⟩
  obtain ⟨chain, nodup, hnodes, hdeepest⟩ := wf.exists_pointedAt ht legible offset
  refine ⟨chain.getLast?, ?_, ?_, ?_⟩
  · rw [locate_eq, hdeepest]
  · rw [hlocate, hnodes, Prod.mk.injEq, and_iff_left rfl, Forest.deepestOf_reverse_eq_iff nodup]
    simp only [List.mem_reverse]
  · intro hmissing
    obtain ⟨m, hm, hgone, heq⟩ := Forest.deepestOf_of_missing hmissing
    exact ⟨m, hm, hgone, by rw [hlocate, heq]⟩

/-- `(x)`, the parentheses being node 1, and beside it empty parentheses, node 2. -/
def beside : Session :=
  (start .debug).after [.build [.fresh .paren [.fresh (.path "x") []], .fresh .paren []]]

/-- Take `x` out of the parentheses, and put these into the other ones. -/
def emptied : List Request := [.detach (some 0), .attach (some 2) (some 1) 0]

/-- The parentheses are now below others, and so deeper than what they held. -/
theorem locate_after_emptied :
    ∃ s', generate (some 1) beside = (.ok "(x)", s') ∧ s'.Undisturbed emptied ∧
      locate 1 s' = (.ok (some 0), s') ∧
      locate 1 (s'.after emptied) ≠ (.ok (some 0), s'.after emptied) := by
  have h : generate (some 1) beside = (.ok "(x)", (generate (some 1) beside).2) :=
    Failing.eq_of_toOption (by decide +kernel)
  have undisturbed : (generate (some 1) beside).2.Undisturbed emptied := ⟨rfl, rfl, trivial⟩
  have hbefore : locate 1 (generate (some 1) beside).2 =
      (.ok (some 0), (generate (some 1) beside).2) :=
    Failing.eq_of_toOption (by decide +kernel)
  refine ⟨_, h, undisturbed, hbefore, fun hafter => ?_⟩
  obtain ⟨found, hfound, hsame, -⟩ := (locate_after ⟨.debug, _, rfl⟩ h undisturbed).1 1
  rw [hbefore] at hfound
  cases hfound
  have hdepth := (hsame.1 hafter).2 0 rfl 1 (by decide +kernel)
  exact absurd hdepth (by decide +kernel)

/-- Carets in the text generated last do not always point at what they pointed at. -/
theorem not_locate_kept :
    ¬∀ (s : Session) (n : Option NodeId) (text : String) (s' : Session) (requests : List Request),
      s.forest.Reachable → generate n s = (.ok text, s') → s'.Undisturbed requests →
      ∀ offset, (locate offset (s'.after requests)).1.toOption = (locate offset s').1.toOption := by
  intro hkept
  have h : generate (some 1) beside = (.ok "(x)", (generate (some 1) beside).2) :=
    Failing.eq_of_toOption (by decide +kernel)
  have hsame := hkept beside (some 1) _ _ emptied ⟨.debug, _, rfl⟩ h ⟨rfl, rfl, trivial⟩ 1
  exact absurd hsame (by decide +kernel)

end Session

end ShortCircuit

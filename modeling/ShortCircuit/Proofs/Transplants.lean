/-
  ShortCircuit.Proofs.Transplants

  What a replacement that succeeds comes to.  One subtree is moved, and nothing
  else: the rest of what it replaces is gone, and all other nodes are what they
  were and hang where they hung.
-/

import ShortCircuit.Proofs.Atomicity

namespace ShortCircuit

variable {f g : Forest} {s s' : Session} {t r : Tree} {a b : Option NodeId}

namespace Forest

/-- What a forest has come to when the tree `r` has been moved to the place of the tree `t`. -/
structure Transplanted (f : Forest) (t r : Tree) (g : Forest) : Prop where
  /-- Of the nodes below `t` those are left that lie below `r`. -/
  nodes : ∀ n, n ∈ g.ids ↔ n ∈ f.ids ∧ n ∉ t.ids ∨ n ∈ r.ids
  /-- All that was below `r` is below it still. -/
  moved : g.find? r.id = some r
  /-- It hangs where `t` hung, or is a root if `t` was one. -/
  place : g.place? r.id = f.place? t.id
  /-- Every other node hangs where it hung. -/
  others : ∀ n ∈ g.ids, n ≠ r.id → g.place? n = f.place? n
  kinds : ∀ n ∈ g.ids, (g.find? n).map (·.kind) = (f.find? n).map (·.kind)
  /-- No name is handed out. -/
  next : g.next = f.next
  /-- A root that is moved is one root less, be it to the place of a root or below another node.
      Whatever is moved else leaves as many roots as there were. -/
  roots : g.roots.length + (if f.place? r.id = none then 1 else 0) = f.roots.length

theorem Replaced.transplanted (hg : f.Replaced t r g) (h : f.Replaceable t r)
    (wf : f.WellFormed) (wf' : g.WellFormed) : f.Transplanted t r g where
  nodes n := by
    rw [hg.mem_ids_iff h wf]
    have hr : n ∈ r.ids → n ∈ f.ids := fun hn => ids_subset_ids h.replacement hn
    tauto
  moved := wf'.find?_eq_some_iff.2 ⟨hg.mem, rfl⟩
  place := hg.place?_replacement wf wf'
  others n hn hne := by
    rw [hg.place?_eq wf wf' hn, if_neg hne]
  kinds n hn := by
    obtain ⟨u, hu, rfl⟩ := mem_ids.1 hn
    obtain ⟨v, hv, hid, hkind, -⟩ := hg.exists_row_hang wf wf' hu
    rw [wf'.find?_eq_some_iff.2 ⟨hu, rfl⟩, wf.find?_eq_some_iff.2 ⟨hv, hid⟩]
    exact congrArg some hkind.symm
  next := hg.next
  roots := hg.length_roots h wf wf'

/-- An edit that puts one node in the place of another has moved a tree. -/
theorem WellFormed.transplanted_of_replace (wf : f.WellFormed) (ht : t ∈ f.subtrees)
    (hr : r ∈ f.subtrees) (h : Edit.replace t.id r.id f = (.ok (), g)) :
    f.Transplanted t r g := by
  -- Success leaves no other case than that the replacement was allowed.
  have hmay : f.MayReplace t.id r.id := by
    rcases wf.replace_cases (id_mem_of_mem_subtrees ht) (id_mem_of_mem_subtrees hr) with
      ⟨hmay, -⟩ | ⟨-, -, fault, heq⟩ | ⟨-, p, slot, f', -, -, heq⟩
    · exact hmay
    · rw [heq] at h
      cases h
    · rw [heq] at h
      cases h
  have hreplaceable := wf.replaceable_of_mayReplace ht hr hmay
  obtain ⟨g', heq, wf', replaced⟩ := wf.replace hreplaceable
  rw [heq] at h
  cases h
  exact replaced.transplanted hreplaceable wf wf'

end Forest

namespace Session

/-- Asking for a node that a caller names changes nothing, and it succeeds for those only that
    are there. -/
theorem ask_named_cases (wf : s.forest.WellFormed) (n : Option NodeId) :
    (∃ t ∈ s.forest.subtrees, s.forest.named n = .ok t ∧ n = some t.id) ∨
      ∃ fault, ask (·.named n) s = (.error fault, s) := by
  cases n with
  | none => exact .inr ⟨.noNode, rfl⟩
  | some n =>
    by_cases hn : n ∈ s.forest.ids
    · obtain ⟨t, ht, rfl⟩ := Forest.mem_ids.1 hn
      exact .inl ⟨t, ht, wf.get_self ht, rfl⟩
    · exact .inr ⟨_, ask_unknown hn⟩

/-- Putting a node in the place of another moves one subtree and does nothing else to the forest,
    and all but the forest stays as it is. -/
theorem replace_transplants (reachable : s.forest.Reachable)
    (h : replace a b s = (.ok (), s')) :
    ∃ t r g, s.forest.named a = .ok t ∧ s.forest.named b = .ok r ∧
      s.forest.Transplanted t r g ∧ s' = { s with forest := g } := by
  have wf := reachable.wellFormed
  rcases ask_named_cases wf a with ⟨t, ht, hnamed, rfl⟩ | ⟨fault, hfault⟩
  · rcases ask_named_cases wf b with ⟨r, hr, hnamed', rfl⟩ | ⟨fault, hfault⟩
    · rcases hedit : Edit.replace t.id r.id s.forest with ⟨outcome, g⟩
      rw [replace_of_eq wf (Forest.id_mem_of_mem_subtrees ht)
        (Forest.id_mem_of_mem_subtrees hr) hedit] at h
      cases h
      exact ⟨t, r, g, hnamed, hnamed', wf.transplanted_of_replace ht hr hedit, rfl⟩
    · rw [replace, Failing.bind_of_ok (ask_named wf ht), Failing.bind_of_error hfault] at h
      cases h
  · rw [replace, Failing.bind_of_error hfault] at h
    cases h

/-- The tuple `(!(x), y)`, in which `x` is node 0 and the negation node 2. -/
def negated : Session :=
  (start .info).after [.build [.fresh .tuple
    [.fresh (.unary UnaryOperator.logicalNot.tokens) [.fresh .paren [.fresh (.path "x") []]],
     .fresh (.path "y") []]]]

theorem replace_transplants_negated :
    ∃ s', replace (some 2) (some 0) negated = (.ok (), s') ∧ s'.forest.ids = [0, 3, 4] ∧
      ∃ t r, negated.forest.named (some 2) = .ok t ∧ negated.forest.named (some 0) = .ok r ∧
        negated.forest.Transplanted t r s'.forest := by
  have hok : replace (some 2) (some 0) negated =
      (.ok (), (replace (some 2) (some 0) negated).2) := Failing.eq_of_toOption (by decide +kernel)
  obtain ⟨t, r, g, ht, hr, transplanted, hs'⟩ := replace_transplants ⟨.info, _, rfl⟩ hok
  refine ⟨_, hok, by decide +kernel, t, r, ht, hr, ?_⟩
  rw [hs']
  exact transplanted

end Session

end ShortCircuit

/-
  ShortCircuit.Proofs.Forest.Carets

  What a caret points at.  The spans single out some nodes: those around the
  character behind the caret or, where there are none, around the one in front of
  it.  The forest says how deep they are, and the first among the deepest is the
  answer.  In the text that the spans were recorded with, that is the innermost.
-/

import ShortCircuit.Forest.Caret
import ShortCircuit.Proofs.Forest.Ancestry
import ShortCircuit.Proofs.Forest.Texts
import ShortCircuit.Proofs.Tree.Carets

namespace ShortCircuit

variable {f : Forest} {t : Tree} {n m : NodeId} {nodes rest chain : List NodeId}
  {spans : List Span} {x offset : Int} {p depth : Nat}

/-! ## The deepest of some nodes -/

theorem deepest?_cons_cons (a b : NodeId × Nat) (rest : List (NodeId × Nat)) :
    deepest? (a :: b :: rest) =
      if a.2 < b.2 then deepest? (b :: rest) else deepest? (a :: rest) := by
  simp only [deepest?, List.foldl_cons]
  split <;> rfl

/-- Of any nodes one is the deepest. -/
theorem exists_deepest? (a : NodeId × Nat) (rest : List (NodeId × Nat)) :
    ∃ b ∈ a :: rest, deepest? (a :: rest) = some b.1 := by
  induction rest generalizing a with
  | nil => exact ⟨a, List.mem_singleton_self a, rfl⟩
  | cons b rest ih =>
    rw [deepest?_cons_cons]
    split
    · obtain ⟨c, hc, heq⟩ := ih b
      exact ⟨c, List.mem_cons_of_mem a hc, heq⟩
    · obtain ⟨c, hc, heq⟩ := ih a
      refine ⟨c, ?_, heq⟩
      rcases List.mem_cons.1 hc with rfl | hc
      · exact List.mem_cons_self ..
      · exact List.mem_cons_of_mem _ (List.mem_cons_of_mem _ hc)

/-- The first of some nodes is the deepest unless a later one is deeper. -/
theorem deepest?_cons_eq_iff {rest : List (NodeId × Nat)} (hn : ∀ a ∈ rest, a.1 ≠ n) :
    deepest? ((n, depth) :: rest) = some n ↔ ∀ a ∈ rest, a.2 ≤ depth := by
  induction rest with
  | nil => exact ⟨fun _ a ha => absurd ha List.not_mem_nil, fun _ => rfl⟩
  | cons b rest ih =>
    rw [deepest?_cons_cons, List.forall_mem_cons]
    by_cases hdeeper : depth < b.2
    · -- From here on the first node is out of the race.
      rw [if_pos hdeeper]
      refine ⟨fun h => ?_, fun h => absurd h.1 (Nat.not_le.2 hdeeper)⟩
      obtain ⟨c, hc, heq⟩ := exists_deepest? b rest
      rw [h] at heq
      exact absurd (Option.some.inj heq).symm (hn c hc)
    · rw [if_neg hdeeper, ih fun a ha => hn a (List.mem_cons_of_mem b ha)]
      exact (and_iff_right (Nat.not_lt.1 hdeeper)).symm

namespace Forest

theorem exists_get (hn : n ∈ f.ids) : ∃ t, f.get n = .ok t := by
  cases hget : f.get n with
  | ok t => exact ⟨t, rfl⟩
  | error fault => exact absurd hn (get_eq_error_iff.1 hget).1

/-- How deep some nodes are, all of which must be there. -/
def depths (f : Forest) (nodes : List NodeId) : Except Fault (List (NodeId × Nat)) :=
  nodes.mapM fun n => do
    let _ ← f.get n
    return (n, f.depth n)

/-- The first among the deepest of some nodes. -/
def deepestOf (f : Forest) (nodes : List NodeId) : Except Fault (Option NodeId) := do
  return deepest? (← f.depths nodes)

/-- The answer depends on which nodes are there, and on how deep they are. -/
theorem deepestOf_congr {g : Forest} (hids : ∀ n, n ∈ g.ids ↔ n ∈ f.ids)
    (hdepth : ∀ n ∈ f.ids, g.depth n = f.depth n) (nodes : List NodeId) :
    g.deepestOf nodes = f.deepestOf nodes := by
  have hask (n : NodeId) :
      (do let _ ← g.get n; return (n, g.depth n) : Except Fault (NodeId × Nat)) =
        (do let _ ← f.get n; return (n, f.depth n)) := by
    by_cases hn : n ∈ f.ids
    · obtain ⟨t, ht⟩ := exists_get hn
      obtain ⟨u, hu⟩ := exists_get ((hids n).2 hn)
      rw [ht, hu, hdepth n hn]
      rfl
    · rw [get_eq_error_iff.2 ⟨hn, rfl⟩, get_eq_error_iff.2 ⟨fun h => hn ((hids n).1 h), rfl⟩]
      rfl
  rw [deepestOf, deepestOf, depths, depths, funext hask]

/-- The depths are known unless a node is gone. -/
theorem depths_cases (f : Forest) (nodes : List NodeId) :
    ((∀ n ∈ nodes, n ∈ f.ids) ∧ f.depths nodes = .ok (nodes.map fun n => (n, f.depth n))) ∨
      ∃ n ∈ nodes, n ∉ f.ids ∧ f.depths nodes = .error (.unknownNode n) := by
  induction nodes with
  | nil => exact .inl ⟨fun n hn => absurd hn List.not_mem_nil, rfl⟩
  | cons n rest ih =>
    rw [depths, List.mapM_cons]
    cases hget : f.get n with
    | error fault =>
      obtain ⟨hn, rfl⟩ := get_eq_error_iff.1 hget
      exact .inr ⟨n, List.mem_cons_self .., hn, rfl⟩
    | ok t =>
      have hn : n ∈ f.ids := by
        by_contra hn
        rw [get_eq_error_iff.2 ⟨hn, rfl⟩] at hget
        cases hget
      rw [depths] at ih
      rcases ih with ⟨hrest, heq⟩ | ⟨m, hm, hmissing, heq⟩
      · rw [heq]
        exact .inl ⟨List.forall_mem_cons.2 ⟨hn, hrest⟩, rfl⟩
      · rw [heq]
        exact .inr ⟨m, List.mem_cons_of_mem n hm, hmissing, rfl⟩

theorem deepestOf_eq (h : ∀ n ∈ nodes, n ∈ f.ids) :
    f.deepestOf nodes = .ok (deepest? (nodes.map fun n => (n, f.depth n))) := by
  rcases f.depths_cases nodes with ⟨-, heq⟩ | ⟨n, hn, hmissing, -⟩
  · rw [deepestOf, heq]
    rfl
  · exact absurd (h n hn) hmissing

/-- Where all nodes are there, one of them is the answer, if there are any. -/
theorem exists_deepestOf (h : ∀ n ∈ nodes, n ∈ f.ids) :
    ∃ found, f.deepestOf nodes = .ok found ∧ ∀ n ∈ found, n ∈ nodes := by
  refine ⟨_, deepestOf_eq h, fun n hn => ?_⟩
  cases nodes with
  | nil => cases hn
  | cons m rest =>
    obtain ⟨a, ha, heq⟩ := exists_deepest? (m, f.depth m) (rest.map fun n => (n, f.depth n))
    have hmap : a ∈ (m :: rest).map fun n => (n, f.depth n) := ha
    obtain ⟨k, hk, rfl⟩ := List.mem_map.1 hmap
    rw [List.map_cons, heq] at hn
    cases hn
    exact hk

/-- Where one of the nodes is gone there is no answer. -/
theorem deepestOf_of_missing (h : ∃ n ∈ nodes, n ∉ f.ids) :
    ∃ n ∈ nodes, n ∉ f.ids ∧ f.deepestOf nodes = .error (.unknownNode n) := by
  rcases f.depths_cases nodes with ⟨hall, -⟩ | ⟨n, hn, hmissing, heq⟩
  · obtain ⟨n, hn, hmissing⟩ := h
    exact absurd (hall n hn) hmissing
  · refine ⟨n, hn, hmissing, ?_⟩
    rw [deepestOf, heq]
    rfl

/-- The first of some nodes is the answer where all of them are there and none is deeper. -/
theorem deepestOf_cons_eq_iff (hn : n ∉ rest) :
    f.deepestOf (n :: rest) = .ok (some n) ↔
      (∀ m ∈ n :: rest, m ∈ f.ids) ∧ ∀ m ∈ rest, f.depth m ≤ f.depth n := by
  by_cases hall : ∀ m ∈ n :: rest, m ∈ f.ids
  · have hne : ∀ a ∈ rest.map fun m => (m, f.depth m), a.1 ≠ n := by
      intro a ha
      obtain ⟨m, hm, rfl⟩ := List.mem_map.1 ha
      exact ne_of_mem_of_not_mem hm hn
    rw [deepestOf_eq hall, List.map_cons, Except.ok.injEq, deepest?_cons_eq_iff hne,
      List.forall_mem_map]
    exact (and_iff_right hall).symm
  · have hmissing : ∃ m ∈ n :: rest, m ∉ f.ids := by
      simpa only [not_forall, exists_prop] using hall
    obtain ⟨m, -, -, heq⟩ := deepestOf_of_missing hmissing
    rw [heq]
    exact ⟨fun h => (nomatch h), fun h => absurd h.1 hall⟩

/-! ## Carets -/

/-- The nodes that a caret may point at: those around the character behind it, or else around the
    one in front of it. -/
def pointedAt (spans : List Span) (offset : Int) : List NodeId :=
  match Span.nodesAt spans offset with
  | [] => Span.nodesAt spans (offset - 1)
  | nodes => nodes

theorem innermost?_eq : f.innermost? spans x = f.deepestOf (Span.nodesAt spans x) := by
  rw [innermost?, deepestOf, depths, Span.nodesAt, List.mapM_map]
  rfl

theorem elementAt_eq : f.elementAt spans offset = f.deepestOf (pointedAt spans offset) := by
  rw [elementAt, innermost?_eq, innermost?_eq, pointedAt]
  cases hnodes : Span.nodesAt spans offset with
  | nil => rfl
  | cons n rest =>
    -- With nodes around the character behind it, the caret does not look back.
    rcases f.depths_cases (n :: rest) with ⟨hall, -⟩ | ⟨m, hm, hmissing, -⟩
    · obtain ⟨a, -, heq⟩ := exists_deepest? (n, f.depth n) (rest.map fun n => (n, f.depth n))
      rw [deepestOf_eq hall, List.map_cons, heq]
      rfl
    · obtain ⟨m, -, -, heq⟩ := deepestOf_of_missing ⟨m, hm, hmissing⟩
      rw [heq]
      rfl

theorem mem_pointedAt (h : n ∈ pointedAt spans offset) :
    ∃ c ∈ spans, c.node = n ∧ (c.covers offset = true ∨ c.covers (offset - 1) = true) := by
  rw [pointedAt] at h
  split at h
  · obtain ⟨c, hc, hid, hcovers⟩ := Span.mem_nodesAt.1 h
    exact ⟨c, hc, hid, .inr hcovers⟩
  · obtain ⟨c, hc, hid, hcovers⟩ := Span.mem_nodesAt.1 h
    exact ⟨c, hc, hid, .inl hcovers⟩

theorem mem_ids_of_pointedAt (ht : t ∈ f.subtrees) (h : n ∈ pointedAt t.print.spans offset) :
    n ∈ f.ids := by
  obtain ⟨c, hc, rfl, -⟩ := mem_pointedAt h
  exact ids_subset_ids ht (Tree.node_mem_ids_of_span hc)

theorem pointedAt_inside (h : t.Legible) (hp : p < t.print.text.length) :
    pointedAt t.print.spans p = Span.nodesAt t.print.spans p := by
  have hne : Span.nodesAt t.print.spans p ≠ [] := by
    rw [h.nodesAt_print hp]
    exact List.append_ne_nil_of_right_ne_nil _ (List.cons_ne_nil _ _)
  rw [pointedAt]
  split
  · rename_i hnil
    exact absurd hnil hne
  · rfl

theorem pointedAt_end (h : t.Legible) (hend : p + 1 = t.print.text.length) :
    pointedAt t.print.spans (p + 1) = Span.nodesAt t.print.spans p := by
  have hnil : Span.nodesAt t.print.spans (p + 1) = [] := h.nodesAt_outside (by omega)
  rw [pointedAt, hnil, Int.add_sub_cancel]

theorem pointedAt_outside (h : t.Legible)
    (hout : t.print.text = [] ∨ offset < 0 ∨ t.print.text.length < offset) :
    pointedAt t.print.spans offset = [] := by
  have hlength : offset < 0 ∨ t.print.text.length ≤ offset - 1 ∨
      t.print.text.length = 0 ∧ 0 ≤ offset := by
    rw [← List.length_eq_zero_iff] at hout
    omega
  rw [pointedAt, h.nodesAt_outside (x := offset) (by omega)]
  exact h.nodesAt_outside (by omega)

/-- A caret in a text points at what is around some character of it: the one behind the caret, or
    the last one where the caret is at the end.  Elsewhere there is nothing to point at. -/
theorem pointedAt_cases (h : t.Legible) (offset : Int) :
    (∃ p < t.print.text.length, (offset = p ∨ offset = p + 1 ∧ p + 1 = t.print.text.length) ∧
      pointedAt t.print.spans offset = Span.nodesAt t.print.spans p) ∨
    ((t.print.text = [] ∨ offset < 0 ∨ t.print.text.length < offset) ∧
      pointedAt t.print.spans offset = []) := by
  by_cases hout : t.print.text = [] ∨ offset < 0 ∨ t.print.text.length < offset
  · exact .inr ⟨hout, pointedAt_outside h hout⟩
  · have hin : 0 < t.print.text.length ∧ 0 ≤ offset ∧ offset ≤ t.print.text.length := by
      rw [← List.length_eq_zero_iff] at hout
      omega
    obtain ⟨q, rfl⟩ := Int.eq_ofNat_of_zero_le hin.2.1
    by_cases hend : q = t.print.text.length
    · obtain ⟨p, rfl⟩ : ∃ p, q = p + 1 := ⟨q - 1, by omega⟩
      exact .inl ⟨p, by omega, .inr ⟨rfl, hend⟩, pointedAt_end h hend⟩
    · have hlt : q < t.print.text.length := by omega
      exact .inl ⟨q, hlt, .inl rfl, pointedAt_inside h hlt⟩

/-! ## The nodes around a character -/

/-- The nodes on the list are those whose spans cover a position, from the node whose text it is
    down to the innermost, each of them a child of the one before. -/
structure Nested (f : Forest) (spans : List Span) (n : NodeId) (x : Int) (chain : List NodeId) :
    Prop where
  top : chain.head? = some n
  linked : chain.IsChain fun above below => ∃ slot, f.place? below = some (above, slot)
  covering : ∀ m, m ∈ chain ↔ ∃ c ∈ spans, c.node = m ∧ c.covers x = true
  /-- No two of them are at the same depth. -/
  deeper : chain.Pairwise fun above below => f.depth above < f.depth below

namespace Nested

variable (nested : f.Nested spans n x chain)
include nested

theorem nodup : chain.Nodup := by
  refine nested.deeper.imp ?_
  rintro above below hlt rfl
  exact Nat.lt_irrefl _ hlt

/-- The innermost is the deepest. -/
theorem depth_le (hm : m ∈ chain) {last : NodeId} (hlast : last ∈ chain.getLast?) :
    f.depth m ≤ f.depth last := by
  obtain ⟨above, rfl⟩ := List.getLast?_eq_some_iff.1 hlast
  rcases List.mem_append.1 hm with hm | hm
  · have hlt := (List.pairwise_append.1 nested.deeper).2.2 m hm last (List.mem_singleton_self last)
    exact Nat.le_of_lt hlt
  · rw [List.mem_singleton.1 hm]

end Nested

/-- Of distinct nodes, seen from the last one, that one is the answer where all of them are there
    and none is deeper. -/
theorem deepestOf_reverse_eq_iff (nodup : chain.Nodup) :
    f.deepestOf chain.reverse = .ok chain.getLast? ↔
      (∀ m ∈ chain, m ∈ f.ids) ∧ ∀ n ∈ chain.getLast?, ∀ m ∈ chain, f.depth m ≤ f.depth n := by
  rcases List.eq_nil_or_concat' chain with rfl | ⟨above, last, rfl⟩
  · exact ⟨fun _ => ⟨by simp, by simp⟩, fun _ => rfl⟩
  · have hlast : last ∉ above.reverse := by
      intro hmem
      exact (List.nodup_append.1 nodup).2.2 last (List.mem_reverse.1 hmem) last
        (List.mem_singleton_self last) rfl
    rw [List.reverse_concat, List.getLast?_concat, deepestOf_cons_eq_iff hlast]
    simp [or_imp, forall_and, and_comm]

namespace WellFormed

variable (wf : f.WellFormed)
include wf

theorem linked (ht : t ∈ f.subtrees) {chain : List Tree} (around : t.Around p chain) :
    (chain.map (·.id)).IsChain fun above below => ∃ slot, f.place? below = some (above, slot) := by
  induction around with
  | own => exact .singleton _
  | @child t u a i p chain written around ih =>
    have hchain := ih (child_mem_subtrees ht written.branch)
    obtain ⟨rest, rfl⟩ := List.head?_eq_some_iff.1 around.head_eq
    exact .cons_cons ⟨a, wf.place?_branch ht written.branch⟩ hchain

theorem deeper_of_linked
    (linked : chain.IsChain fun above below => ∃ slot, f.place? below = some (above, slot)) :
    chain.Pairwise fun above below => f.depth above < f.depth below := by
  refine List.IsChain.pairwise (linked.imp ?_)
  rintro above below ⟨slot, hplace⟩
  rw [wf.depth_child hplace]
  exact Nat.lt_succ_self _

/-- Around every character of a text the nodes are nested, and the innermost is the deepest. -/
theorem exists_nested (ht : t ∈ f.subtrees) (h : t.Legible) (hp : p < t.print.text.length) :
    ∃ chain, f.Nested t.print.spans t.id p chain ∧
      Span.nodesAt t.print.spans p = chain.reverse ∧
      f.deepestOf (Span.nodesAt t.print.spans p) = .ok chain.getLast? := by
  -- The subtrees around the character are known from the tree; the forest adds places and depths.
  obtain ⟨trees, around⟩ := h.exists_around hp
  have hnodes := around.nodesAt_eq h
  have hlinked := wf.linked ht around
  have hdeeper := wf.deeper_of_linked hlinked
  have hcovering (m : NodeId) : m ∈ trees.map (·.id) ↔
      ∃ c ∈ t.print.spans, c.node = m ∧ c.covers p = true := by
    rw [← Span.mem_nodesAt, hnodes, List.mem_reverse]
  have htop : (trees.map (·.id)).head? = some t.id := by
    rw [List.head?_map, around.head_eq]
    rfl
  have nested : f.Nested t.print.spans t.id p (trees.map (·.id)) :=
    ⟨htop, hlinked, hcovering, hdeeper⟩
  refine ⟨_, nested, hnodes, ?_⟩
  rw [hnodes]
  refine (deepestOf_reverse_eq_iff nested.nodup).2 ⟨fun m hm => ?_, fun n hn m hm => ?_⟩
  · obtain ⟨c, hc, rfl, -⟩ := (hcovering m).1 hm
    exact ids_subset_ids ht (Tree.node_mem_ids_of_span hc)
  · exact nested.depth_le hm hn

/-- What a caret in a text may point at are distinct nodes, of which the innermost is the answer,
    and it comes first. -/
theorem exists_pointedAt (ht : t ∈ f.subtrees) (h : t.Legible) (offset : Int) :
    ∃ chain : List NodeId, chain.Nodup ∧ pointedAt t.print.spans offset = chain.reverse ∧
      f.deepestOf (pointedAt t.print.spans offset) = .ok chain.getLast? := by
  rcases pointedAt_cases h offset with ⟨p, hp, -, hnodes⟩ | ⟨-, hnodes⟩
  · obtain ⟨chain, nested, hchain, hdeepest⟩ := wf.exists_nested ht h hp
    exact ⟨chain, nested.nodup, hnodes.trans hchain, hnodes ▸ hdeepest⟩
  · refine ⟨[], List.nodup_nil, hnodes, ?_⟩
    rw [hnodes]
    rfl

/-! ## Carets in the text of the root -/

theorem elementInRoot_eq (ht : t ∈ f.subtrees) (h : t.Legible) (hroot : f.root? = some t.id)
    (offset : Int) : f.elementInRoot offset = f.deepestOf (pointedAt t.print.spans offset) := by
  rw [elementInRoot, hroot]
  simp only [wf.get_self ht, h.render_eq, bind, Except.bind]
  exact elementAt_eq

/-- A caret in the text of the root points at a node whose span covers the character behind the
    caret or the one before it, or at none. -/
theorem elementInRoot_of_root (short : f.ShortIntegers) (ht : t ∈ f.trees)
    (hroot : f.root? = some t.id) (offset : Int) :
    ∃ found, f.elementInRoot offset = .ok found ∧ ∀ n, found = some n →
      ∃ span ∈ t.print.spans, span.node = n ∧
        (span.covers offset = true ∨ span.covers (offset - 1) = true) := by
  have ht' := mem_subtrees_of_mem_trees ht
  have hids : ∀ n ∈ pointedAt t.print.spans offset, n ∈ f.ids :=
    fun n hn => mem_ids_of_pointedAt ht' hn
  obtain ⟨found, hfound, hmem⟩ := exists_deepestOf hids
  refine ⟨found, ?_, fun n hn => mem_pointedAt (hmem n hn)⟩
  rw [wf.elementInRoot_eq ht' (wf.legible short ht') hroot, hfound]

/-- A caret in the text of the root points at a node, or at none; without a unique root it
    points at none. -/
theorem elementInRoot_ok (short : f.ShortIntegers) (offset : Int) :
    ∃ found, f.elementInRoot offset = .ok found ∧ ∀ n, found = some n → n ∈ f.ids := by
  cases hroot : f.root? with
  | none =>
    rw [elementInRoot, hroot]
    exact ⟨none, rfl, fun n hn => nomatch hn⟩
  | some root =>
    obtain ⟨t, ht, rfl⟩ := exists_of_root? hroot
    obtain ⟨found, hfound, hspan⟩ := wf.elementInRoot_of_root short ht hroot offset
    refine ⟨found, hfound, fun n hn => ?_⟩
    obtain ⟨span, hmem, rfl, -⟩ := hspan n hn
    exact ids_subset_ids (mem_subtrees_of_mem_trees ht) (Tree.node_mem_ids_of_span hmem)

end WellFormed

end Forest

end ShortCircuit

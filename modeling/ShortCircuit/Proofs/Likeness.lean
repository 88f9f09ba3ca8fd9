/-
  ShortCircuit.Proofs.Likeness

  Clients that have built the same in different ways are answered alike.  The age
  of a node and the order in which children have been attached show in names and
  lists, but neither in what is known of a node or is to be simplified around it,
  nor in its text and what a caret there points at.  So a client may take nodes
  from their places, and as soon as all are back nothing of this has changed.
-/

import ShortCircuit.Proofs.Carets
import ShortCircuit.Proofs.Forest.Likeness
import ShortCircuit.Proofs.Forest.Loosened
import ShortCircuit.Proofs.Knowledge

namespace ShortCircuit.Session

open Failing

variable {s s' s'' : Session} {t : Tree} {n : NodeId} {name : NodeId → NodeId}
  {held : List (NodeId × NodeId × Int)}

/-! ## Like answers -/

/-- Asked for a text, both sessions give the same.  If they keep its spans, these correspond, and
    carets in the text point at corresponding nodes. -/
def SameText (s s' : Session) (name : NodeId → NodeId) (n : Option NodeId) : Prop :=
  ∃ text r r', s.forest.renderOf n = .ok text ∧ s'.forest.renderOf (n.map name) = .ok text ∧
    generate n s = (.ok text, r) ∧ generate (n.map name) s' = (.ok text, r') ∧
    r'.spans = r.spans.map (.rename name) ∧
    ∀ offset, ∃ found, locate offset r = (.ok found, r) ∧
      locate offset r' = (.ok (found.map name), r')

/-- The answers that clients get for the nodes of one session and for the nodes of another that
    correspond to them. -/
structure Alike (s s' : Session) (name : NodeId → NodeId) : Prop where
  truth : ∀ n ∈ s.forest.ids, ∃ truth, s.forest.truthOf (some n) = .ok truth ∧
    s'.forest.truthOf (some (name n)) = .ok truth
  purity : ∀ n ∈ s.forest.ids, ∃ purity, s.forest.purityOf (some n) = .ok purity ∧
    s'.forest.purityOf (some (name n)) = .ok purity
  simplifiable : ∀ n ∈ s.forest.ids, ∃ t u, s.forest.get n = .ok t ∧
    s'.forest.get (name n) = .ok u ∧ t.isSimplifiable = u.isSimplifiable
  target : ∀ n ∈ s.forest.ids, ∃ target, s.forest.targetOf (some n) = .ok target ∧
    s'.forest.targetOf (some (name n)) = .ok (target.map name)
  text : ∀ n ∈ s.forest.ids, s.SameText s' name (some n)
  /-- There is a text of the root in both sessions or in none. -/
  rootText : s.SameText s' name none ∨
    generate none s = (.error .noUniqueRoot, s) ∧ generate none s' = (.error .noUniqueRoot, s')
  caret : ∀ offset, ∃ found, s.forest.elementInRoot offset = .ok found ∧
    s'.forest.elementInRoot offset = .ok (found.map name)

section

variable (h : s.forest.Renaming s'.forest name) (wf : s.forest.WellFormed)
  (wf' : s'.forest.WellFormed) (short : s.forest.ShortIntegers)
include h wf wf' short

theorem sameText {u : Tree} {n : Option NodeId} (ht : s.forest.toPrint n = .ok t)
    (hu : s'.forest.toPrint (n.map name) = .ok u) (hid : u.id = name t.id) :
    s.SameText s' name n := by
  have ht' := wf.mem_subtrees_of_toPrint ht
  have hu' := wf'.mem_subtrees_of_toPrint hu
  have hprint := h.print_eq wf wf' ht' hu' hid
  have htext : u.print.text = t.print.text := by
    rw [hprint]
    rfl
  have short' := h.shortIntegers wf wf' short
  refine ⟨String.ofList t.print.text, { s with spans := t.print.spans },
    { s' with spans := u.print.spans }, wf.renderOf_of_toPrint short ht' ht, ?_, ?_, ?_,
    congrArg Printed.spans hprint, fun offset => ?_⟩
  · rw [wf'.renderOf_of_toPrint short' hu' hu, htext]
  · rw [generate_of_toPrint ht, (wf.legible short ht').render_eq]
    rfl
  · rw [generate_of_toPrint hu, (wf'.legible short' hu').render_eq, htext]
    rfl
  · have hspans : ∀ c ∈ t.print.spans, c.node ∈ s.forest.ids :=
      fun c hc => Forest.ids_subset_ids ht' (Tree.node_mem_ids_of_span hc)
    obtain ⟨found, hfound, hfound'⟩ := h.elementAt_eq wf wf' hspans offset
    refine ⟨found, ?_, ?_⟩
    · rw [locate, hfound]
    · rw [locate, congrArg Printed.spans hprint]
      exact congrArg (·, _) hfound'

/-- Sessions whose nodes correspond in kind and place give like answers. -/
theorem alike_of_renaming : s.Alike s' name := by
  have hnode {n : NodeId} (hn : n ∈ s.forest.ids) : ∃ t u, t ∈ s.forest.subtrees ∧ t.id = n ∧
      u ∈ s'.forest.subtrees ∧ u.id = name n := by
    obtain ⟨t, ht, rfl⟩ := Forest.mem_ids.1 hn
    obtain ⟨u, hu, hid⟩ := h.exists_tree ht
    exact ⟨t, u, ht, rfl, hu, hid⟩
  have hroot := h.root?_eq wf wf'
  refine ⟨fun n hn => ?_, fun n hn => ?_, fun n hn => ?_, fun n hn => ?_, fun n hn => ?_, ?_,
    fun offset => ?_⟩
  · obtain ⟨t, u, ht, rfl, hu, hid⟩ := hnode hn
    refine ⟨t.truth, wf.truthOf_eq ht, ?_⟩
    rw [← hid, wf'.truthOf_eq hu, h.answer_eq wf wf' Tree.nameless_truth ht hu hid]
  · obtain ⟨t, u, ht, rfl, hu, hid⟩ := hnode hn
    refine ⟨t.purity, wf.purityOf_eq ht, ?_⟩
    rw [← hid, wf'.purityOf_eq hu, h.answer_eq wf wf' Tree.nameless_purity ht hu hid]
  · obtain ⟨t, u, ht, rfl, hu, hid⟩ := hnode hn
    exact ⟨t, u, wf.get_self ht, hid ▸ wf'.get_self hu, h.isSimplifiable_eq wf wf' ht hu hid⟩
  · refine ⟨_, wf.targetOf_eq hn, ?_⟩
    rw [wf'.targetOf_eq (h.mem_ids hn), h.target?_eq wf wf' hn]
  · obtain ⟨t, u, ht, rfl, hu, hid⟩ := hnode hn
    have hprint : s'.forest.toPrint (some (name t.id)) = .ok u := hid ▸ wf'.toPrint_self hu
    exact sameText h wf wf' short (wf.toPrint_self ht) hprint hid
  · cases hunique : s.forest.root? with
    | none =>
      rw [hunique] at hroot
      exact .inr ⟨generate_rootless hunique, generate_rootless hroot⟩
    | some root =>
      obtain ⟨t, ht, rfl⟩ := Forest.exists_of_root? hunique
      rw [hunique] at hroot
      obtain ⟨u, hu, hid⟩ := Forest.exists_of_root? hroot
      exact .inl (sameText h wf wf' short (wf.toPrint_root ht hunique)
        (wf'.toPrint_root hu (hid ▸ hroot)) hid)
  · cases hunique : s.forest.root? with
    | none =>
      rw [hunique] at hroot
      exact ⟨none, by rw [Forest.elementInRoot, hunique], by rw [Forest.elementInRoot, hroot]; rfl⟩
    | some root =>
      obtain ⟨t, ht, rfl⟩ := Forest.exists_of_root? hunique
      rw [hunique] at hroot
      obtain ⟨u, hu, hid⟩ := Forest.exists_of_root? hroot
      have ht' := Forest.mem_subtrees_of_mem_trees ht
      have hu' := Forest.mem_subtrees_of_mem_trees hu
      have hspans : ∀ c ∈ t.print.spans, c.node ∈ s.forest.ids :=
        fun c hc => Forest.ids_subset_ids ht' (Tree.node_mem_ids_of_span hc)
      obtain ⟨found, hfound, hfound'⟩ := h.elementAt_eq wf wf' hspans offset
      refine ⟨found, ?_, ?_⟩
      · rw [wf.elementInRoot_eq ht' (wf.legible short ht') hunique, ← Forest.elementAt_eq, hfound]
      · rw [wf'.elementInRoot_eq hu' (wf'.legible (h.shortIntegers wf wf' short) hu')
          (hid ▸ hroot), ← Forest.elementAt_eq, h.print_eq wf wf' ht' hu' hid]
        exact hfound'

end

/-! ## Taking nodes and putting them back -/

theorem detach_of_forest (wf : s.forest.WellFormed) {place : Option (NodeId × Int)} {g : Forest}
    (h : s.forest.detach n = .ok (place, g)) :
    detach (some n) s = (.ok place, { s with forest := g }) := by
  obtain ⟨t, ht, rfl⟩ := wf.exists_of_detach h
  rw [detach, bind_of_ok (ask_named wf ht)]
  refine perform_of_eq (Simplify.edit_of_eq ?_)
  rw [Edit.detach, Edit.step, h]

/-- Where a node has been taken from its place, so has it in the forest. -/
theorem exists_of_detach (wf : s.forest.WellFormed) {place : Option (NodeId × Int)}
    (h : detach (some n) s = (.ok place, s')) :
    ∃ g, s.forest.detach n = .ok (place, g) ∧ s' = { s with forest := g } := by
  by_cases hn : n ∈ s.forest.ids
  · obtain ⟨t, ht, rfl⟩ := Forest.mem_ids.1 hn
    obtain ⟨g, heq, -⟩ := wf.detach ht
    rw [detach_of_forest wf heq] at h
    cases h
    exact ⟨g, heq, rfl⟩
  · rw [detach, bind_of_error (ask_unknown hn)] at h
    cases h

theorem attach_of_forest (wf : s.forest.WellFormed) {p : NodeId} {i : Int} {g : Forest}
    (h : s.forest.attach p n i = .ok g) :
    attach (some p) (some n) i s = (.ok (), { s with forest := g }) := by
  obtain ⟨t, ht, u, hu, rfl, rfl, -⟩ := wf.exists_of_attach h
  rw [attach, bind_of_ok (ask_named wf ht),
    bind_of_ok (ask_named wf (Forest.mem_subtrees_of_mem_trees hu))]
  refine perform_of_eq (Simplify.edit_of_eq ?_)
  rw [Edit.attach, Edit.step, h]
  rfl

/-- The session `s'` has come from `s` by taking nodes from their places and putting them back
    where they were.  The nodes on the list are still to be put back, each of them where it is
    said to have been when it was taken. -/
inductive Juggled (s : Session) : List (NodeId × NodeId × Int) → Session → Prop where
  | start : Juggled s [] s
  | take {held : List (NodeId × NodeId × Int)} {s' s'' : Session} {n : NodeId}
    {place : NodeId × Int} (juggled : Juggled s held s')
    (step : detach (some n) s' = (.ok (some place), s'')) : Juggled s ((n, place) :: held) s''
  /-- A root is in no place that it could be taken from. -/
  | top {held : List (NodeId × NodeId × Int)} {s' s'' : Session} {n : NodeId}
    (juggled : Juggled s held s') (step : detach (some n) s' = (.ok none, s'')) :
    Juggled s held s''
  | put {held : List (NodeId × NodeId × Int)} {s' s'' : Session} {n : NodeId}
    {place : NodeId × Int} (juggled : Juggled s held s') (mem : (n, place) ∈ held)
    (step : attach (some place.1) (some n) place.2 s' = (.ok (), s'')) :
    Juggled s (held.filter (·.1 ≠ n)) s''

namespace Juggled

variable (juggled : s.Juggled held s') (wf : s.forest.WellFormed)
include juggled wf

/-- Nodes are held with the places that they have had from the beginning, everything else is where
    it was, and the text generated last is still the same. -/
theorem loosened : s.forest.Loosened (held.map (·.1)) s'.forest ∧
    (∀ a ∈ held, s.forest.place? a.1 = some a.2) ∧ s'.spans = s.spans := by
  induction juggled with
  | start => exact ⟨.start wf, fun a ha => absurd ha List.not_mem_nil, rfl⟩
  | @take held s' s'' n place _ step ih =>
    obtain ⟨loosened, hplaces, hspans⟩ := ih
    obtain ⟨outcome, hdetach, rfl⟩ := exists_of_detach loosened.wellFormed step
    obtain ⟨hplace, loosened', -⟩ := loosened.detach hdetach
    refine ⟨loosened', List.forall_mem_cons.2 ⟨?_, hplaces⟩, hspans⟩
    exact (loosened.place?_of_some wf hplace.symm).1
  | top _ step ih =>
    obtain ⟨loosened, hplaces, hspans⟩ := ih
    obtain ⟨g, hdetach, rfl⟩ := exists_of_detach loosened.wellFormed step
    obtain ⟨-, -, hsame⟩ := loosened.detach hdetach
    rw [hsame rfl]
    exact ⟨loosened, hplaces, hspans⟩
  | @put held s' s'' n place _ mem step ih =>
    obtain ⟨loosened, hplaces, hspans⟩ := ih
    obtain ⟨g, hattach, loosened'⟩ :=
      loosened.attach wf (List.mem_map_of_mem mem) (hplaces _ mem)
    rw [attach_of_forest loosened.wellFormed hattach] at step
    cases step
    refine ⟨?_, fun a ha => hplaces a (List.mem_filter.1 ha).1, hspans⟩
    rwa [List.filter_map] at loosened'

/-- Any node can be taken from its place, and any node that is held can be put back. -/
theorem goes_on : (∀ n ∈ s.forest.ids, ∃ place s'', detach (some n) s' = (.ok place, s'')) ∧
    ∀ a ∈ held, ∃ s'', attach (some a.2.1) (some a.1) a.2.2 s' = (.ok (), s'') := by
  obtain ⟨loosened, hplaces, -⟩ := juggled.loosened wf
  have wf' := loosened.wellFormed
  refine ⟨fun n hn => ?_, fun a ha => ?_⟩
  · obtain ⟨t, ht, rfl⟩ := Forest.mem_ids.1 (loosened.mem_ids_iff.2 hn)
    obtain ⟨g, heq, -⟩ := wf'.detach ht
    exact ⟨_, _, detach_of_forest wf' heq⟩
  · obtain ⟨g, heq, -⟩ := loosened.attach wf (List.mem_map_of_mem ha) (hplaces a ha)
    exact ⟨_, attach_of_forest wf' heq⟩

end Juggled

/-- When nothing is held any more, carets in the text generated last point at what they pointed at
    before. -/
theorem Juggled.locate_eq (juggled : s.Juggled [] s') (wf : s.forest.WellFormed) (offset : Int) :
    (locate offset s').1 = (locate offset s).1 := by
  obtain ⟨loosened, -, hspans⟩ := juggled.loosened wf
  have hdepth (n : NodeId) (hn : n ∈ s.forest.ids) : s'.forest.depth n = s.forest.depth n :=
    (loosened.renaming wf).depth_eq wf loosened.wellFormed hn
  rw [Session.locate_eq, Session.locate_eq, hspans]
  exact Forest.deepestOf_congr (fun n => loosened.mem_ids_iff) hdepth _

/-! ## Places decide -/

/-- If the nodes of two reachable forests correspond in kind and place, both give like answers,
    whatever the names of nodes and the order in which they are listed.  So nothing has changed for
    a client who takes nodes from their places, which can be done with all of them, and puts each
    back where it was, which can be done with all that have been taken. -/
theorem alike_of_places :
    (∀ (s s' : Session) (name : NodeId → NodeId), s.forest.Reachable → s'.forest.Reachable →
      s.forest.ShortIntegers → s.forest.Renaming s'.forest name → s.Alike s' name) ∧
    ∀ (s : Session) (held : List (NodeId × NodeId × Int)) (s' : Session), s.forest.Reachable →
      s.forest.ShortIntegers → s.Juggled held s' →
      (∀ n ∈ s.forest.ids, ∃ place s'', detach (some n) s' = (.ok place, s'')) ∧
      (∀ a ∈ held, ∃ s'', attach (some a.2.1) (some a.1) a.2.2 s' = (.ok (), s'')) ∧
      (held = [] → s.Alike s' id ∧ ∀ offset, (locate offset s').1 = (locate offset s).1) := by
  refine ⟨fun s s' name reachable reachable' short h => ?_,
    fun s held s' reachable short juggled => ?_⟩
  · exact alike_of_renaming h reachable.wellFormed reachable'.wellFormed short
  · have wf := reachable.wellFormed
    obtain ⟨htake, hput⟩ := juggled.goes_on wf
    refine ⟨htake, hput, ?_⟩
    rintro rfl
    obtain ⟨loosened, -⟩ := juggled.loosened wf
    exact ⟨alike_of_renaming (loosened.renaming wf) wf loosened.wellFormed short,
      juggled.locate_eq wf⟩

/-- `(a && b)`, built from the outside, the right operand before the left one. -/
def regrown : Session :=
  (start .debug).after [.plant .paren, .plant (.binary .logicalAnd), .plant (.path "b"),
    .plant (.path "a"), .attach (some 0) (some 1) 0, .attach (some 1) (some 2) 1,
    .attach (some 1) (some 3) 0]

theorem renaming_regrown : grouped.forest.Renaming regrown.forest (3 - ·) where
  nodes := by
    have hforth : ∀ n ∈ grouped.forest.ids, 3 - n ∈ regrown.forest.ids := by decide +kernel
    have hback : ∀ n ∈ regrown.forest.ids, 3 - n ∈ grouped.forest.ids := by decide +kernel
    refine ⟨hforth, fun n _ m _ h => ?_, fun n hn => ⟨3 - n, hback n hn, ?_⟩⟩
    · exact (Int.sub_right_inj 3).1 h
    · exact Int.sub_sub_self 3 n
  kind := by decide +kernel
  place := by decide +kernel

theorem alike_of_places_grouped :
    grouped.Alike regrown (3 - ·) ∧
      ∃ s', grouped.Juggled [] s' ∧ grouped.Alike s' id ∧
        s'.forest.subtrees.map (·.id) ≠ grouped.forest.subtrees.map (·.id) := by
  have htake : detach (some 0) grouped = (.ok (some (2, 0)), (detach (some 0) grouped).2) :=
    eq_of_toOption (by decide +kernel)
  have hput : attach (some 2) (some 0) 0 (detach (some 0) grouped).2 =
      (.ok (), (attach (some 2) (some 0) 0 (detach (some 0) grouped).2).2) :=
    eq_of_toOption (by decide +kernel)
  have juggled : grouped.Juggled [] _ := .put (.take .start htake) (List.mem_singleton_self _) hput
  refine ⟨?_, _, juggled, ?_, by decide +kernel⟩
  · exact alike_of_places.1 _ _ _ ⟨.debug, _, rfl⟩ ⟨.debug, _, rfl⟩ (by decide) renaming_regrown
  · exact ((alike_of_places.2 _ _ _ ⟨.debug, _, rfl⟩ (by decide) juggled).2.2 rfl).1

end ShortCircuit.Session

/-
  ShortCircuit.Proofs.MeaningPreserved

  Simplification does not change what a program means.  Whatever nodes stay, and
  whatever stands in the place of an expression or of a root, mean what was meant
  there before; under every interpretation, for single simplifications and for
  passes, and also where these are stopped by an integer that is too long.
-/

import ShortCircuit.Proofs.History
import ShortCircuit.Proofs.Run
import ShortCircuit.Proofs.Tree.Meaning

namespace ShortCircuit

variable {f g : Forest} {t u r : Tree} {n : NodeId} {reduction : Reduction}

/-! ## Room for a constant -/

namespace Forest

theorem WellFormed.find?_prepare (wf : f.WellFormed) (hn : n ∈ f.ids) :
    (f.prepare reduction).find? n = f.find? n := by
  obtain ⟨t, ht, rfl⟩ := mem_ids.1 hn
  rw [wf.find?_eq_some_iff.2 ⟨ht, rfl⟩]
  exact (wf.prepare reduction).find?_eq_some_iff.2 ⟨mem_subtrees_prepare ht reduction, rfl⟩

theorem mem_ids_prepare (hn : n ∈ f.ids) : n ∈ (f.prepare reduction).ids := by
  obtain ⟨t, ht, rfl⟩ := mem_ids.1 hn
  exact id_mem_of_mem_subtrees (mem_subtrees_prepare ht reduction)

/-- All that room for a constant adds is new. -/
theorem mem_ids_of_prepare (hn : n ∈ (f.prepare reduction).ids) (hlt : n < f.next) :
    n ∈ f.ids := by
  cases reduction with
  | constant b =>
    obtain ⟨t, ht, rfl⟩ := mem_ids.1 hn
    rcases mem_subtrees_plant.1 ht with ht | rfl
    · exact id_mem_of_mem_subtrees ht
    · exact absurd hlt (Int.lt_irrefl _)
  | operand m => exact hn

end Forest

namespace Interpretation

variable {Effect Value Exit : Type} (I : Interpretation Effect Value Exit)
  {heir : NodeId → NodeId}

/-- What a node means, if it is there. -/
def meaningOf (f : Forest) (n : NodeId) : Option (Meaning Effect Value Exit) :=
  (f.find? n).map I.meaning

/-- Wherever a short-circuit operator stands, its operands yield booleans, or exit. -/
def Typed (f : Forest) : Prop := ∀ t ∈ f.subtrees, I.TypedAt t

/-- Two forests that mean the same: the nodes that are in both do, and every root of the one
    has an heir in the other, which takes its place. -/
structure SameMeaning (f g : Forest) (heir : NodeId → NodeId) : Prop where
  /-- Nodes that stay mean what they did. -/
  kept : ∀ n ∈ f.ids, n ∈ g.ids → I.meaningOf g n = I.meaningOf f n
  /-- What stands in the place of a root means what the root did. -/
  roots : ∀ n ∈ f.roots, I.meaningOf g (heir n) = I.meaningOf f n
  heirs : Set.MapsTo heir {n | n ∈ f.roots} {n | n ∈ g.roots}
  /-- No two roots have the same heir. -/
  distinct : Set.InjOn heir {n | n ∈ f.roots}
  /-- Interpretation may go on from there. -/
  typed : I.Typed g

/-! ## Contractions -/

theorem meaningOf_of_mem (wf : f.WellFormed) (ht : t ∈ f.subtrees) :
    I.meaningOf f t.id = some (I.meaning t) := by
  rw [meaningOf, wf.find?_eq_some_iff.2 ⟨ht, rfl⟩]
  rfl

theorem meaning_of_contraction (wf : f.WellFormed) (ht : t ∈ f.subtrees) (typed : I.TypedAt t)
    (step : f.Contraction t r g) : I.meaning r = I.meaning t := by
  obtain ⟨reduction, rule, heir, -⟩ := step
  exact I.meaning_heir rule heir (wf.nodup_tree ht) typed

/-- Operands stay what their operators ask for. -/
theorem typed_of_contraction (wf : f.WellFormed) (wf' : g.WellFormed) (typed : I.Typed f)
    (ht : t ∈ f.subtrees) (step : f.Contraction t r g) : I.Typed g := by
  have hmeaning := I.meaning_of_contraction wf ht (typed t ht) step
  intro u hu e neutral s hs c hc
  by_cases hur : u.id = r.id
  · have hut : u = r := wf'.eq_of_id_eq hu step.reduced.mem hur
    -- What has taken the place of the expression is a constant, or was there before.
    subst hut
    obtain ⟨reduction, rule, heir, replaced⟩ := step
    cases heir with
    | constant b => cases neutral
    | operand child =>
      have hu' : u ∈ f.subtrees := Forest.child_mem_subtrees ht (Tree.branch_of_child? child)
      exact typed u hu' e neutral s hs c hc
  · -- Any other node has the operands that it had, but for one that means the same.
    obtain ⟨v, hv, -, hkind, hchildren⟩ := step.reduced.exists_origin wf ht wf' hu hur
    have hneutral : v.neutral? = some e := by
      rw [Tree.neutral?, hkind]
      exact neutral
    have hslot := hchildren s
    rw [hc] at hslot
    obtain ⟨d, hd, hid⟩ := Option.map_eq_some_iff.1 hslot.symm
    -- The operand may be what has taken the place of the expression.
    have hc' : c ∈ g.subtrees := Forest.child_mem_subtrees hu (Tree.branch_of_child? hc)
    have hd' : d ∈ f.subtrees := Forest.child_mem_subtrees hv (Tree.branch_of_child? hd)
    rw [step.reduced.answer_eq wf wf' ht I.local_meaning hmeaning hc' hd' hid]
    exact typed v hv e hneutral s hs d hd

/-- However many contractions there are, the forest means the same. -/
theorem sameMeaning_of_contractions (wf : f.WellFormed) (typed : I.Typed f)
    (steps : f.Contractions g heir) : I.SameMeaning f g heir := by
  have wf' := steps.wellFormed wf
  obtain ⟨typed', hkept, hroots⟩ := steps.answer_eq wf I.local_meaning (P := I.Typed) typed
    fun wfg wfh hg ht step =>
      ⟨I.typed_of_contraction wfg wfh hg ht step, I.meaning_of_contraction wfg ht (hg _ ht) step⟩
  have hbij := steps.bijOn_roots wf
  refine ⟨fun n hn hn' => ?_, fun n hn => ?_, hbij.mapsTo, hbij.injOn, typed'⟩
  · obtain ⟨v, hv, rfl⟩ := Forest.mem_ids.1 hn
    obtain ⟨u, hu, hid⟩ := Forest.mem_ids.1 hn'
    rw [I.meaningOf_of_mem wf hv, ← hid, I.meaningOf_of_mem wf' hu, hkept u hu v hv hid]
  · obtain ⟨v, hv, rfl⟩ := Forest.mem_roots.1 hn
    obtain ⟨u, hu, hid⟩ := Forest.mem_roots.1 (hbij.mapsTo hn)
    have hu' := Forest.mem_subtrees_of_mem_trees hu
    rw [I.meaningOf_of_mem wf (Forest.mem_subtrees_of_mem_trees hv), ← hid,
      I.meaningOf_of_mem wf' hu', hroots u hu' v hv hid]

/-- A constant that has been put down, and nothing more, changes no meaning. -/
theorem SameMeaning.prepare {I : Interpretation Effect Value Exit} (same : I.SameMeaning f g heir)
    (wf : f.WellFormed) (wf' : g.WellFormed) (hnext : f.next ≤ g.next) :
    I.SameMeaning f (g.prepare reduction) heir := by
  -- Nodes that are there stay there, with all that is below them.
  have hmeaning {n : NodeId} (hn : n ∈ g.ids) :
      I.meaningOf (g.prepare reduction) n = I.meaningOf g n := by
    rw [meaningOf, wf'.find?_prepare hn]
    rfl
  refine ⟨fun n hn hn' => ?_, fun n hn => ?_, fun n hn => ?_, same.distinct, fun u hu => ?_⟩
  · have hlt : n < g.next := Int.lt_of_lt_of_le (wf.lt_next hn) hnext
    have hmem : n ∈ g.ids := Forest.mem_ids_of_prepare hn' hlt
    rw [hmeaning hmem, same.kept n hn hmem]
  · have hmem : heir n ∈ g.ids := (wf'.mem_roots_iff.1 (same.heirs hn)).1
    rw [hmeaning hmem, same.roots n hn]
  · obtain ⟨hmem, hplace⟩ := wf'.mem_roots_iff.1 (same.heirs hn)
    refine (wf'.prepare reduction).mem_roots_iff.2 ⟨Forest.mem_ids_prepare hmem, ?_⟩
    rw [Forest.place?_prepare, hplace]
  · cases reduction with
    | constant b =>
      rcases Forest.mem_subtrees_plant.1 hu with hu | rfl
      · exact same.typed u hu
      · intro e neutral
        cases neutral
    | operand m => exact same.typed u hu

/-! ## Simplifications -/

/-- What the simplification of a node `t` comes to.  If it succeeds, what it returns stands in
    the place of `t` and means the same, and all nodes that are not below `t` stay.  If it is
    stopped, by an integer that is too long, all nodes are where they were. -/
def Preserves (w : Workspace) (t : Tree) (result : Except Fault NodeId × Workspace) : Prop :=
  (∃ r w', result = (.ok r, w') ∧ w'.forest.place? r = w.forest.place? t.id ∧
      I.meaningOf w'.forest r = some (I.meaning t) ∧
      (∀ n ∈ w.forest.ids, n ∉ t.ids → n ∈ w'.forest.ids) ∧
      I.SameMeaning w.forest w'.forest (Forest.moved t.id r)) ∨
    ∃ fault w', result = (.error fault, w') ∧ ¬w.forest.ShortIntegers ∧
      (∀ n ∈ w.forest.ids, n ∈ w'.forest.ids ∧ w'.forest.place? n = w.forest.place? n) ∧
      I.SameMeaning w.forest w'.forest id

variable {w w' : Workspace} {journal : Journal} {fault : Fault}

theorem preserves_of_contraction (wf : w.forest.WellFormed) (typed : I.Typed w.forest)
    (ht : t ∈ w.forest.subtrees) (wf' : g.WellFormed) (step : w.forest.Contraction t r g) :
    I.Preserves w t (.ok r.id, ⟨g, journal⟩) := by
  refine .inl ⟨r.id, _, rfl, step.reduced.place?_heir wf wf', ?_, fun n hn hout => ?_, ?_⟩
  · rw [I.meaningOf_of_mem wf' step.reduced.mem, I.meaning_of_contraction wf ht (typed t ht) step]
  · exact (step.reduced.mem_ids_iff wf ht).2 (.inl ⟨hn, hout⟩)
  · exact I.sameMeaning_of_contractions wf typed (.tail .refl ht step wf')

theorem preserves_of_stopped (wf : w.forest.WellFormed) (typed : I.Typed w.forest)
    (ht : t ∈ w.forest.subtrees) (hforest : ∃ reduction, w'.forest = w.forest.prepare reduction)
    (hlong : ¬∀ u ∈ t.subtrees, u.kind.isShort = true) :
    I.Preserves w t (.error fault, w') := by
  obtain ⟨reduction, hforest⟩ := hforest
  have hsame := I.sameMeaning_of_contractions wf typed .refl
  refine .inr ⟨fault, w', rfl, fun short => hlong fun u hu => ?_, fun n hn => ?_, ?_⟩
  · exact short u (Forest.subtree_mem_subtrees hu ht)
  · rw [hforest]
    exact ⟨Forest.mem_ids_prepare hn, Forest.place?_prepare ..⟩
  · rw [hforest]
    exact hsame.prepare wf wf (Int.le_refl _)

/-- In a reachable forest every simplification preserves meanings, be it asked for at the
    expression itself or around a node; and so does every pass, which moreover succeeds if no
    integer is too long. -/
theorem simplify_preserves_meaning (w : Workspace) (reachable : w.forest.Reachable)
    (typed : I.Typed w.forest) :
    (∀ n m, w.forest.target? n = some m → ∃ t, w.forest.find? m = some t ∧
      I.Preserves w t (Simplify.reduce m w) ∧ I.Preserves w t (Simplify.simplifyAround n w)) ∧
    ∀ limit, ∃ result heir w', Simplify.pass limit w = (result, w') ∧
      I.SameMeaning w.forest w'.forest heir ∧
      (w.forest.ShortIntegers → ∃ count, result = .ok count) := by
  have wf := reachable.wellFormed
  refine ⟨fun n m target => ?_, fun limit => ?_⟩
  · obtain ⟨t, ht, rfl, hn, reduction, rule⟩ := wf.exists_of_target? target
    refine ⟨t, wf.find?_eq_some_iff.2 ⟨ht, rfl⟩, ?_, ?_⟩
    · -- The expression that is found, reduced at once.
      rcases Simplify.reduce_cases wf ht rule with ⟨r, g, journal, heq, wf', step⟩ |
        ⟨fault, heq, -, hlong⟩
      · rw [heq]
        exact I.preserves_of_contraction wf typed ht wf' step
      · rw [heq]
        exact I.preserves_of_stopped wf typed ht ⟨reduction, rfl⟩ hlong
    · -- The same expression, by way of a node around which it is found.
      obtain ⟨t', ht', hid, -, hcases⟩ :=
        Simplify.simplifyAround_cases wf (Forest.ids_subset_ids ht hn) target
      rw [wf.eq_of_id_eq ht' ht hid] at hcases
      rcases hcases with ⟨r, g, journal, heq, wf', step⟩ | ⟨fault, w', heq, hforest, hlong⟩
      · rw [heq]
        exact I.preserves_of_contraction wf typed ht wf' step
      · rw [heq]
        exact I.preserves_of_stopped wf typed ht hforest hlong
  · -- A pass contracts the forest, and may put a constant down before it is stopped.
    obtain ⟨w₁, heir, run, hcases⟩ := Simplify.exhaust_cases wf limit.toNat 0
    have steps := run.contractions wf
    have hsame := I.sameMeaning_of_contractions wf typed steps
    rcases hcases with ⟨count, w', heq, hforest, -⟩ | ⟨fault, w', heq, ⟨reduction, hforest⟩, hlong⟩
    · exact ⟨_, heir, w', heq, hforest ▸ hsame, fun _ => ⟨count, rfl⟩⟩
    · refine ⟨_, heir, w', heq, ?_, fun short => absurd (steps.shortIntegers wf short) hlong⟩
      rw [hforest]
      exact hsame.prepare wf (steps.wellFormed wf) steps.next_le

/-! ### A call and a constant -/

/-- Two operands of a short-circuit operator, one after the other. -/
def join (neutral : Truth) (left : Meaning Effect Value Exit)
    (right : Option (Meaning Effect Value Exit)) : Meaning Effect Value Exit :=
  match left.outcome, right with
  | .bool b, some r =>
    if Truth.ofBool b = neutral then ⟨left.effects ++ r.effects, r.outcome⟩ else left
  | _, _ => left

/-- Calls leave their names behind and yield true; what is not an operator means nothing. -/
def tracing : Interpretation NodeId Unit Unit where
  apply n kind slots :=
    match kind, slots 0, slots 1 with
    | .literal (.bool b), _, _ => .constant b
    | .call, _, _ => ⟨[n], .bool true⟩
    | .returnEarly, _, _ => ⟨[], .exit ()⟩
    | .paren, some inner, _ => inner
    | .unary tokens, some ⟨effects, .bool b⟩, _ =>
      if UnaryOperator.ofTokens? tokens = some .logicalNot then ⟨effects, .bool !b⟩
      else ⟨effects, .value ()⟩
    | .binary .logicalAnd, some left, right => join .yes left right
    | .binary .logicalOr, some left, right => join .no left right
    | .binary .bitwiseXor, some ⟨x, .bool a⟩, some ⟨y, .bool b⟩ => ⟨x ++ y, .bool (a != b)⟩
    | _, _, _ => ⟨[], .value ()⟩
  literal n value slots := by cases value <;> exact ⟨rfl, trivial⟩
  boolean n b slots := rfl
  path n name slots := ⟨rfl, trivial⟩
  qualifiedPath n name slots := ⟨rfl, trivial⟩
  unit n slots := ⟨rfl, trivial⟩
  paren n slots m h := by
    simp only [h]
  negation n tokens slots b hnot h := by
    simp only [h, Meaning.constant, if_pos hnot]
  exclusiveOr n slots a b h h' := by
    simp only [h, h', Meaning.constant, List.append_nil]
  decides n op e slots m b hop h hm hb := by
    have hjoin : join e m (slots 1) = m := by
      unfold join
      rw [hm]
      cases slots 1 with
      | none => rfl
      | some r => exact if_neg hb
    cases op <;> cases hop <;> simp only [h, hjoin]
  exits n op e slots m x hop h hm := by
    have hjoin : join e m (slots 1) = m := by
      unfold join
      rw [hm]
    cases op <;> cases hop <;> simp only [h, hjoin]
  passes n op e slots m m' b hop h h' hm hb _ := by
    have hjoin : join e m (some m') = ⟨m.effects ++ m'.effects, m'.outcome⟩ := by
      unfold join
      rw [hm]
      exact if_pos hb
    cases op <;> cases hop <;> simp only [h, h', hjoin]
  fieldAccess n field slots m _ _ := ⟨rfl, trivial⟩
  tuple n slots _ := ⟨rfl, trivial⟩
  array n slots _ := ⟨rfl, trivial⟩
  repeated n slots m _ _ := ⟨rfl, trivial⟩
  record n name fields slots _ := ⟨rfl, trivial⟩

/-- `f() && true` in a session that notes everything. -/
def calling : Session :=
  (Session.start .debug).after [.build [.fresh (.binary .logicalAnd)
    [.fresh .call [.fresh (.path "f") []], .fresh (.literal (.bool true)) []]]]

theorem typed_calling : tracing.Typed calling.forest := by
  intro t ht e neutral s hs c hc
  have hsubtrees : calling.forest.subtrees =
      [.node 3 (.binary .logicalAnd)
        [(0, .node 1 .call [(0, .node 0 (.path "f") [])]), (1, .node 2 (.literal (.bool true)) [])],
       .node 1 .call [(0, .node 0 (.path "f") [])], .node 0 (.path "f") [],
       .node 2 (.literal (.bool true)) []] := rfl
  rw [hsubtrees] at ht
  simp only [List.mem_cons, List.not_mem_nil, or_false] at ht
  rcases ht with rfl | rfl | rfl | rfl
  · rcases hs with rfl | rfl
    · cases hc
      trivial
    · cases hc
      trivial
  · cases neutral
  · cases neutral
  · cases neutral

theorem simplify_preserves_meaning_calling :
    tracing.Typed calling.forest ∧ calling.forest.target? 1 = some 3 ∧
      ∃ t, calling.forest.find? 3 = some t ∧
        tracing.Preserves calling.toWorkspace t (Simplify.reduce 3 calling.toWorkspace) ∧
        tracing.Preserves calling.toWorkspace t (Simplify.simplifyAround 1 calling.toWorkspace) :=
  have reachable : calling.forest.Reachable := ⟨.debug, _, rfl⟩
  have preserved := simplify_preserves_meaning tracing calling.toWorkspace reachable typed_calling
  ⟨typed_calling, rfl, preserved.1 1 3 rfl⟩

end Interpretation

end ShortCircuit

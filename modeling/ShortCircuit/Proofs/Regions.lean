/-
  ShortCircuit.Proofs.Regions

  The expressions around a node.  Climbing from an expression to its parent, and
  on for as long as there are expressions, gives the region that a search for
  something to simplify looks at; from a statement the climb begins at the first
  expression above it.  What the search finds is the outermost expression of the
  region that should be simplified, and it finds the same for all that see it.
-/

import ShortCircuit.Proofs.Forest.Target
import ShortCircuit.Proofs.History

namespace ShortCircuit

/-- The last element of a list with some property: it has it, and none after it has. -/
theorem getLast?_filter_eq_some_iff {α : Type} {p : α → Bool} {xs : List α} {x : α} :
    (xs.filter p).getLast? = some x ↔
      ∃ l r, xs = l ++ x :: r ∧ p x = true ∧ ∀ y ∈ r, p y = false := by
  rw [List.getLast?_eq_some_iff]
  refine ⟨?_, ?_⟩
  · rintro ⟨before, heq⟩
    obtain ⟨l, rest, rfl, -, hrest⟩ := List.filter_eq_append_iff.1 heq
    obtain ⟨l', r, rfl, -, hx, hr⟩ := List.filter_eq_cons_iff.1 hrest
    refine ⟨l ++ l', r, by simp, hx, fun y hy => ?_⟩
    exact Bool.eq_false_iff.2 (List.filter_eq_nil_iff.1 hr y hy)
  · rintro ⟨l, r, rfl, hx, hr⟩
    have hnil : r.filter p = [] :=
      List.filter_eq_nil_iff.2 fun y hy => Bool.eq_false_iff.1 (hr y hy)
    refine ⟨l.filter p, ?_⟩
    rw [List.filter_append, List.filter_cons_of_pos hx, hnil]

namespace Forest

variable {f : Forest} {t u : Tree} {n m k p : NodeId} {s : Int}
  {chain other inner outer : List NodeId}

/-! ## Climbing -/

/-- Whether there is a node of this name, and its tree is as described. -/
def holdsAt (f : Forest) (describes : Tree → Bool) (n : NodeId) : Bool :=
  (f.find? n).elim false describes

/-- Going up from a node, parent after parent and for as long as there are expressions, one
    passes the nodes of the list. -/
inductive Climbs (f : Forest) : NodeId → List NodeId → Prop where
  | stop {n : NodeId} (other : f.holdsAt (·.isExpression) n = false) : f.Climbs n []
  | root {n : NodeId} (expression : f.holdsAt (·.isExpression) n = true)
    (place : f.place? n = none) : f.Climbs n [n]
  | up {n p : NodeId} {s : Int} {above : List NodeId}
    (expression : f.holdsAt (·.isExpression) n = true) (place : f.place? n = some (p, s))
    (climbs : f.Climbs p above) : f.Climbs n (n :: above)

/-- The nodes of the list are the nearest expression among a node and those above it, and then
    those that one passes from there upwards. -/
inductive Surrounds (f : Forest) : List NodeId → NodeId → Prop where
  | here {n : NodeId} {chain : List NodeId} (expression : f.holdsAt (·.isExpression) n = true)
    (climbs : f.Climbs n chain) : f.Surrounds chain n
  | nowhere {n : NodeId} (other : f.holdsAt (·.isExpression) n = false)
    (place : f.place? n = none) : f.Surrounds [] n
  | above {n p : NodeId} {s : Int} {chain : List NodeId}
    (other : f.holdsAt (·.isExpression) n = false) (place : f.place? n = some (p, s))
    (surrounds : f.Surrounds chain p) : f.Surrounds chain n

theorem WellFormed.holdsAt_id (wf : f.WellFormed) (ht : t ∈ f.subtrees)
    (describes : Tree → Bool) : f.holdsAt describes t.id = describes t := by
  rw [holdsAt, wf.find?_eq_some_iff.2 ⟨ht, rfl⟩, Option.elim_some]

namespace Climbs

theorem eq (h : f.Climbs n chain) (h' : f.Climbs n other) : chain = other := by
  induction h generalizing other with
  | stop statement =>
    cases h' with
    | stop => rfl
    | root expression => exact absurd (statement.symm.trans expression) Bool.false_ne_true
    | up expression => exact absurd (statement.symm.trans expression) Bool.false_ne_true
  | root expression place =>
    cases h' with
    | stop statement => exact absurd (statement.symm.trans expression) Bool.false_ne_true
    | root => rfl
    | up _ place' => exact absurd (place.symm.trans place') (Option.some_ne_none _).symm
  | up expression place climbs ih =>
    cases h' with
    | stop statement => exact absurd (statement.symm.trans expression) Bool.false_ne_true
    | root _ place' => exact absurd (place'.symm.trans place) (Option.some_ne_none _).symm
    | up _ place' climbs' =>
      cases place.symm.trans place'
      rw [ih climbs']

theorem isExpression (h : f.Climbs n chain) (hk : k ∈ chain) :
    f.holdsAt (·.isExpression) k = true := by
  induction h with
  | stop => cases hk
  | root expression =>
    rw [List.mem_singleton.1 hk]
    exact expression
  | up expression _ _ ih =>
    rcases List.mem_cons.1 hk with rfl | hk
    · exact expression
    · exact ih hk

/-- The first node that one passes is the one where one starts. -/
theorem head_eq (h : f.Climbs n (k :: outer)) : k = n := by
  cases h with
  | root => rfl
  | up => rfl

/-- From a node that one passes, one climbs on as before. -/
theorem of_split (h : f.Climbs n (inner ++ k :: outer)) : f.Climbs k (k :: outer) := by
  induction inner generalizing n with
  | nil =>
    have hkn : k = n := head_eq h
    rw [hkn] at h ⊢
    exact h
  | cons a inner ih =>
    rw [List.cons_append] at h
    generalize hrest : inner ++ k :: outer = rest at h
    cases h with
    | root => simp at hrest
    | up _ _ climbs => exact ih (hrest ▸ climbs)

variable (wf : f.WellFormed)
include wf

theorem mem_ancestors (hn : n ∈ f.ids) (h : f.Climbs n chain) (hk : k ∈ chain) :
    k ∈ f.ancestors n := by
  induction h with
  | stop => cases hk
  | root =>
    rw [List.mem_singleton.1 hk]
    exact wf.self_mem_ancestors hn
  | up _ place _ ih =>
    rw [wf.ancestors_child place]
    rcases List.mem_cons.1 hk with rfl | hk
    · exact List.mem_cons_self ..
    · exact List.mem_cons_of_mem _ (ih (wf.parent_mem_ids_of_place? place) hk)

/-- Whatever lies between the start and a node that one passes is passed too. -/
theorem mem_of_between (hn : n ∈ f.ids) (h : f.Climbs n chain) (hm : m ∈ chain)
    (hk : k ∈ f.ancestors n) (hmk : m ∈ f.ancestors k) : k ∈ chain := by
  induction h with
  | stop => cases hm
  | root _ place =>
    rw [wf.ancestors_root hn place] at hk
    exact hk
  | @up n p s above _ place climbs ih =>
    rw [wf.ancestors_child place] at hk
    rcases List.mem_cons.1 hk with rfl | hkp
    · exact List.mem_cons_self ..
    · refine List.mem_cons_of_mem _ (ih (wf.parent_mem_ids_of_place? place) ?_ hkp)
      rcases List.mem_cons.1 hm with rfl | hm
      · -- The start does not lie above its parent, and so not above what lies above that.
        exact absurd (wf.ancestors_trans hkp hmk) (wf.child_notMem_ancestors place)
      · exact hm

end Climbs

namespace Surrounds

theorem eq (h : f.Surrounds chain n) (h' : f.Surrounds other n) : chain = other := by
  induction h generalizing other with
  | here expression climbs =>
    cases h' with
    | here _ climbs' => exact climbs.eq climbs'
    | nowhere statement => exact absurd (statement.symm.trans expression) Bool.false_ne_true
    | above statement => exact absurd (statement.symm.trans expression) Bool.false_ne_true
  | nowhere statement place =>
    cases h' with
    | here expression => exact absurd (statement.symm.trans expression) Bool.false_ne_true
    | nowhere => rfl
    | above _ place' => exact absurd (place.symm.trans place') (Option.some_ne_none _).symm
  | above statement place _ ih =>
    cases h' with
    | here expression => exact absurd (statement.symm.trans expression) Bool.false_ne_true
    | nowhere _ place' => exact absurd (place'.symm.trans place) (Option.some_ne_none _).symm
    | above _ place' surrounds' =>
      cases place.symm.trans place'
      exact ih surrounds'

/-- The nodes around a node are passed in a climb from some node above it. -/
theorem exists_climbs (wf : f.WellFormed) (hn : n ∈ f.ids) (h : f.Surrounds chain n) :
    ∃ m ∈ f.ancestors n, f.Climbs m chain := by
  induction h with
  | here _ climbs => exact ⟨_, wf.self_mem_ancestors hn, climbs⟩
  | nowhere statement => exact ⟨_, wf.self_mem_ancestors hn, .stop statement⟩
  | above _ place _ ih =>
    obtain ⟨m, hm, climbs⟩ := ih (wf.parent_mem_ids_of_place? place)
    refine ⟨m, ?_, climbs⟩
    rw [wf.ancestors_child place]
    exact List.mem_cons_of_mem _ hm

end Surrounds

/-! ## Regions -/

namespace WellFormed

variable (wf : f.WellFormed)
include wf

/-- A climb passes the expressions at the beginning of the trail. -/
theorem climbs_trail (ht : t ∈ f.subtrees) :
    f.Climbs t.id (((f.trail t.id).takeWhile (·.isExpression)).map (·.id)) := by
  refine subtrees_induction (P := fun t =>
    f.Climbs t.id (((f.trail t.id).takeWhile (·.isExpression)).map (·.id))) ?_ ?_ t ht
  · intro t ht
    have holds := wf.holdsAt_id (mem_subtrees_of_mem_trees ht) (·.isExpression)
    rw [wf.trail_root ht]
    cases hexpr : t.isExpression with
    | true =>
      rw [List.takeWhile_cons_of_pos hexpr]
      exact .root (holds.trans hexpr) (wf.place?_root ht)
    | false =>
      rw [List.takeWhile_cons_of_neg (by simp [hexpr])]
      exact .stop (holds.trans hexpr)
  · intro t ht ih b hb
    have holds := wf.holdsAt_id (child_mem_subtrees ht hb) (·.isExpression)
    rw [wf.trail_branch ht hb]
    cases hexpr : b.2.isExpression with
    | true =>
      rw [List.takeWhile_cons_of_pos hexpr]
      exact .up (holds.trans hexpr) (wf.place?_branch ht hb) ih
    | false =>
      rw [List.takeWhile_cons_of_neg (by simp [hexpr])]
      exact .stop (holds.trans hexpr)

/-- The region around a node holds the nodes that surround it. -/
theorem surrounds_region (ht : t ∈ f.subtrees) :
    f.Surrounds ((f.region t.id).map (·.id)) t.id := by
  refine subtrees_induction (P := fun t => f.Surrounds ((f.region t.id).map (·.id)) t.id)
    ?_ ?_ t ht
  · intro t ht
    have ht' := mem_subtrees_of_mem_trees ht
    have holds := wf.holdsAt_id ht' (·.isExpression)
    cases hexpr : t.isExpression with
    | true =>
      rw [wf.region_of_isExpression ht' hexpr]
      exact .here (holds.trans hexpr) (wf.climbs_trail ht')
    | false =>
      rw [region, wf.trail_root ht, List.dropWhile_cons_of_pos (by simp [hexpr])]
      exact .nowhere (holds.trans hexpr) (wf.place?_root ht)
  · intro t ht ih b hb
    have hb' := child_mem_subtrees ht hb
    have holds := wf.holdsAt_id hb' (·.isExpression)
    cases hexpr : b.2.isExpression with
    | true =>
      rw [wf.region_of_isExpression hb' hexpr]
      exact .here (holds.trans hexpr) (wf.climbs_trail hb')
    | false =>
      rw [region, wf.trail_branch ht hb, List.dropWhile_cons_of_pos (by simp [hexpr])]
      exact .above (holds.trans hexpr) (wf.place?_branch ht hb) ih

theorem holdsAt_of_mem_region (hu : u ∈ f.region n) (describes : Tree → Bool) :
    f.holdsAt describes u.id = describes u :=
  wf.holdsAt_id (wf.mem_trail_iff.1 (mem_trail_of_mem_region hu)).1 describes

/-- The target is the last of the nodes around a node that should be simplified. -/
theorem target?_eq_some_iff (hn : n ∈ f.ids) (h : f.Surrounds chain n) :
    f.target? n = some m ↔ ∃ inner outer, chain = inner ++ m :: outer ∧
      f.holdsAt (·.isSimplifiable) m = true ∧
      ∀ k ∈ outer, f.holdsAt (·.isSimplifiable) k = false := by
  obtain ⟨t, ht, rfl⟩ := mem_ids.1 hn
  have holds {u : Tree} (hu : u ∈ f.region t.id) := wf.holdsAt_of_mem_region hu (·.isSimplifiable)
  rw [h.eq (wf.surrounds_region ht), target?, Option.map_eq_some_iff]
  refine ⟨?_, ?_⟩
  · rintro ⟨u, hu, rfl⟩
    obtain ⟨l, r, heq, hsimp, hrest⟩ := getLast?_filter_eq_some_iff.1 hu
    refine ⟨l.map (·.id), r.map (·.id), by rw [heq, List.map_append, List.map_cons], ?_, ?_⟩
    · rw [holds (by simp [heq]), hsimp]
    · intro k hk
      obtain ⟨v, hv, rfl⟩ := List.mem_map.1 hk
      rw [holds (by simp [heq, hv]), hrest v hv]
  · rintro ⟨inner, outer, heq, hsimp, hrest⟩
    obtain ⟨l, rest, hregion, rfl, hcons⟩ := List.map_eq_append_iff.1 heq
    obtain ⟨u, r, rfl, rfl, rfl⟩ := List.map_eq_cons_iff.1 hcons
    refine ⟨u, getLast?_filter_eq_some_iff.2 ⟨l, r, hregion, ?_, fun v hv => ?_⟩, rfl⟩
    · rw [← holds (by simp [hregion]), hsimp]
    · rw [← holds (by simp [hregion, hv]), hrest v.id (List.mem_map_of_mem hv)]

theorem target?_eq_none_iff (hn : n ∈ f.ids) (h : f.Surrounds chain n) :
    f.target? n = none ↔ ∀ k ∈ chain, f.holdsAt (·.isSimplifiable) k = false := by
  obtain ⟨t, ht, rfl⟩ := mem_ids.1 hn
  rw [h.eq (wf.surrounds_region ht), target?, Option.map_eq_none_iff, List.getLast?_eq_none_iff,
    List.filter_eq_nil_iff, List.forall_mem_map]
  refine forall₂_congr fun u hu => ?_
  rw [wf.holdsAt_of_mem_region hu, Bool.not_eq_true]

end WellFormed

/-! ## Targets -/

/-- What the target `m` is to the node `n`, given the nodes around the latter. -/
structure Heads (f : Forest) (m n : NodeId) (chain : List NodeId) : Prop where
  /-- It is the node or lies above it. -/
  above : m ∈ f.ancestors n
  /-- Between it and the innermost expression around the node there are expressions only. -/
  unbroken : ∀ start ∈ chain.head?, ∀ k ∈ f.ancestors start, m ∈ f.ancestors k →
    f.holdsAt (·.isExpression) k = true
  /-- It is the target of itself. -/
  own : f.targetOf (some m) = .ok (some m)
  /-- It is the target of all that it surrounds. -/
  shared : ∀ k ∈ f.ids, ∀ other, f.Surrounds other k → m ∈ other →
    f.targetOf (some k) = .ok (some m)

theorem WellFormed.heads_of_target? (wf : f.WellFormed) (hn : n ∈ f.ids)
    (h : f.Surrounds chain n) (htarget : f.target? n = some m) : f.Heads m n chain := by
  obtain ⟨inner, outer, rfl, hsimp, houter⟩ := (wf.target?_eq_some_iff hn h).1 htarget
  have hm : m ∈ inner ++ m :: outer := by simp
  obtain ⟨first, hfirst, climbs⟩ := h.exists_climbs wf hn
  have hids : first ∈ f.ids := (wf.mem_ids_of_mem_ancestors hfirst).2
  have habove : m ∈ f.ancestors first := climbs.mem_ancestors wf hids hm
  have hclimbs : f.Climbs m (m :: outer) := climbs.of_split
  have hexpr : f.holdsAt (·.isExpression) m = true := climbs.isExpression hm
  have hmids : m ∈ f.ids := (wf.mem_ids_of_mem_ancestors habove).2
  refine ⟨wf.ancestors_trans hfirst habove, ?_, ?_, ?_⟩
  · intro start hstart k hk hmk
    obtain ⟨rest, heq⟩ := List.head?_eq_some_iff.1 hstart
    have hsf : start = first := Climbs.head_eq (heq ▸ climbs)
    exact climbs.isExpression (climbs.mem_of_between wf hids hm (hsf ▸ hk) hmk)
  · rw [wf.targetOf_eq hmids, (wf.target?_eq_some_iff hmids (.here hexpr hclimbs)).2
      ⟨[], outer, rfl, hsimp, houter⟩]
  · intro k hk other hother hmem
    -- From the target upwards both climbs pass the same nodes.
    obtain ⟨inner', outer', rfl⟩ := List.append_of_mem hmem
    obtain ⟨first', -, climbs'⟩ := hother.exists_climbs wf hk
    have houter' : m :: outer' = m :: outer := climbs'.of_split.eq hclimbs
    rw [wf.targetOf_eq hk, (wf.target?_eq_some_iff hk hother).2
      ⟨inner', outer', rfl, hsimp, (List.cons.inj houter').2 ▸ houter⟩]

/-- In a reachable forest the target of a node is the last of the expressions around it that should
    be simplified, and there is none if none of them should be. -/
theorem targetOf_outermost (reachable : f.Reachable) (hn : n ∈ f.ids) :
    ∃ chain found, f.Surrounds chain n ∧ (∀ other, f.Surrounds other n → other = chain) ∧
      f.targetOf (some n) = .ok found ∧
      (found = none ↔ ∀ k ∈ chain, f.holdsAt (·.isSimplifiable) k = false) ∧
      (∀ m, found = some m ↔ ∃ inner outer, chain = inner ++ m :: outer ∧
        f.holdsAt (·.isSimplifiable) m = true ∧
        ∀ k ∈ outer, f.holdsAt (·.isSimplifiable) k = false) ∧
      ∀ m, found = some m → f.Heads m n chain := by
  have wf := reachable.wellFormed
  obtain ⟨t, ht, rfl⟩ := mem_ids.1 hn
  have surrounds := wf.surrounds_region ht
  exact ⟨_, _, surrounds, fun other h => h.eq surrounds, wf.targetOf_eq hn,
    wf.target?_eq_none_iff hn surrounds, fun m => wf.target?_eq_some_iff hn surrounds,
    fun m h => wf.heads_of_target? hn surrounds h⟩

/-- The statement `f(true && (false || x));`, in which `x` is node 3 and the conjunction node 6. -/
def argued : Session :=
  (Session.start .debug).after [.build [.fresh .statement [.fresh .call [.fresh (.path "f") [],
    .fresh (.binary .logicalAnd) [.fresh (.literal (.bool true)) [],
      .fresh .paren [.fresh (.binary .logicalOr)
        [.fresh (.literal (.bool false)) [], .fresh (.path "x") []]]]]]]]

/-- Around `x` both operations should be simplified; the outer one is the target. -/
theorem targetOf_outermost_argued :
    3 ∈ argued.forest.ids ∧ argued.forest.targetOf (some 3) = .ok (some 6) ∧
      ∃ chain, argued.forest.Surrounds chain 3 ∧ argued.forest.Heads 6 3 chain ∧
        ∃ inner outer, chain = inner ++ 6 :: outer ∧
          ∀ k ∈ outer, argued.forest.holdsAt (·.isSimplifiable) k = false := by
  have reachable : argued.forest.Reachable := by
    unfold argued
    exact ⟨.debug, _, rfl⟩
  have hn : 3 ∈ argued.forest.ids := by decide +kernel
  have htarget : argued.forest.targetOf (some 3) = .ok (some 6) := by decide +kernel
  obtain ⟨chain, found, surrounds, -, hfound, -, hsome, hheads⟩ :=
    targetOf_outermost reachable hn
  rw [htarget] at hfound
  cases hfound
  obtain ⟨inner, outer, heq, -, houter⟩ := (hsome 6).1 rfl
  exact ⟨hn, htarget, chain, surrounds, hheads 6 rfl, inner, outer, heq, houter⟩

end Forest

end ShortCircuit

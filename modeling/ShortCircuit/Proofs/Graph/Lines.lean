/-
  ShortCircuit.Proofs.Graph.Lines

  The DOT format line by line: a line for each node and for each edge, between
  two lines that are always the same, and in each of them the attributes that the
  format knows, as a list.  There is no list if the names of attributes are of
  types that have no order.
-/

import ShortCircuit.Graph.Dot
import ShortCircuit.Proofs.Failing
import ShortCircuit.Proofs.Sorting

namespace ShortCircuit

open Failing

/-! ## The order of names -/

namespace Table

variable {α : Type} {table sorted : Table α} {keys : List Scalar} {a b c : Scalar} {fault : Fault}

theorem comparable_trans (hab : a.comparable b = true) (hbc : b.comparable c = true) :
    a.comparable c = true := by
  cases a <;> cases b <;> cases hab <;> cases c <;> cases hbc <;> rfl

/-- Keys have an order as soon as all neighbours have one. -/
theorem clash?_eq_none_iff :
    clash? keys = none ↔ keys.Pairwise fun a b => a.comparable b = true := by
  have trans : IsTrans Scalar fun a b => a.comparable b = true := ⟨fun _ _ _ => comparable_trans⟩
  rw [← List.isChain_iff_pairwise]
  induction keys with
  | nil => simp [clash?]
  | cons a keys ih =>
    cases keys with
    | nil => simp [clash?]
    | cons b keys =>
      rw [clash?, List.isChain_cons_cons]
      split
      · rename_i hab
        exact ih.trans (and_iff_right hab).symm
      · rename_i hab
        exact iff_of_false (by simp) fun h => hab h.1

/-- A table is put in order exactly if any two keys have an order, and nothing is lost. -/
theorem inOrder_eq_ok_iff :
    table.inOrder = .ok sorted ↔
      (table.map (·.1)).Pairwise (fun a b => a.comparable b = true) ∧
        sorted = sortBy (fun a b => a.1.mayPrecede b.1) table := by
  rw [← clash?_eq_none_iff, inOrder]
  split
  · rename_i hclash
    simp [hclash]
  · rename_i hclash
    simp [hclash, eq_comm]

theorem perm_of_inOrder (h : table.inOrder = .ok sorted) : sorted.Perm table := by
  rw [(inOrder_eq_ok_iff.1 h).2]
  exact sortBy_perm ..

end Table

namespace Graph

variable {g : Graph} {text line : Text} {attributes : Table Value}

/-- Each of the parts that are joined stands somewhere in the whole. -/
theorem infix_intercalate {separator part : Text} {parts : List Text}
    (h : part ∈ parts) : part <:+: separator.intercalate parts := by
  induction parts with
  | nil => cases h
  | cons first rest ih =>
    by_cases hrest : rest = []
    · subst hrest
      obtain rfl := List.mem_singleton.1 h
      exact ⟨[], [], by simp⟩
    · rw [List.intercalate_cons_of_ne_nil hrest]
      rcases List.mem_cons.1 h with rfl | h
      · exact ⟨[], separator ++ separator.intercalate rest, by simp⟩
      · exact (ih h).trans (List.suffix_append ..).isInfix

/-! ## Lines -/

/-- The lines that are written for the nodes and for the edges of a graph. -/
structure Written (g : Graph) (nodes edges : List Text) : Prop where
  nodes : List.Forall₂ (fun node line => dotNode node.1 node.2 = .ok line) g.nodes nodes
  edges : List.Forall₂ (fun edge line => dotEdge edge.1 edge.2.1 edge.2.2 = .ok line)
    g.edgesInOrder edges

theorem dot_eq_ok_iff :
    g.dot = .ok text ↔ ∃ nodes edges, g.Written nodes edges ∧
      text = [.char '\n'].intercalate (firstLine :: (nodes ++ edges) ++ [lastLine]) := by
  constructor
  · intro h
    obtain ⟨nodes, hnodes, h⟩ := exists_of_bind_eq_ok h
    obtain ⟨edges, hedges, h⟩ := exists_of_bind_eq_ok h
    cases h
    exact ⟨nodes, edges, ⟨mapM_eq_ok_iff.1 hnodes, mapM_eq_ok_iff.1 hedges⟩, rfl⟩
  · rintro ⟨nodes, edges, written, rfl⟩
    unfold dot
    rw [mapM_eq_ok_iff.2 written.nodes, mapM_eq_ok_iff.2 written.edges]
    rfl

/-! ## Attributes -/

/-- The attributes that the format knows, among those in the order of their names. -/
def knownAttributes (sorted : Table Value) : List (String × Value) :=
  sorted.filterMap fun (key, value) => (dotName? key).map (·, value)

theorem exists_of_dotList (h : dotList attributes = .ok line) :
    ∃ sorted parts, attributes.inOrder = .ok sorted ∧
      line = .char '[' :: (", " : Text).intercalate parts ++ [.char ']'] ∧
      List.Forall₂ (fun known part => ∃ value, known.2.plain = .ok value ∧
        part = dotPart known.1 value) (knownAttributes sorted) parts := by
  obtain ⟨sorted, hsorted, h⟩ := exists_of_bind_eq_ok h
  obtain ⟨parts, hparts, h⟩ := exists_of_bind_eq_ok h
  cases h
  refine ⟨sorted, parts, hsorted, rfl, (mapM_eq_ok_iff.1 hparts).imp fun known part hpart => ?_⟩
  obtain ⟨value, hvalue, hpart⟩ := exists_of_bind_eq_ok hpart
  cases hpart
  exact ⟨value, hvalue, rfl⟩

/-- Texts are written as they are. -/
theorem dotList_of_texts {sorted : Table Value} {entries : List (String × Text)}
    (hsorted : attributes.inOrder = .ok sorted)
    (h : knownAttributes sorted = entries.map fun entry => (entry.1, .scalar (.text entry.2))) :
    dotList attributes =
      .ok (.char '[' ::
        (", " : Text).intercalate (entries.map fun entry => dotPart entry.1 entry.2) ++
        [.char ']']) := by
  have hparts : (entries.map fun entry => (entry.1, Value.scalar (.text entry.2))).mapM
      (fun known => do return dotPart known.1 (← known.2.plain)) =
        (.ok (entries.map fun entry => dotPart entry.1 entry.2) : Except Fault _) := by
    rw [mapM_eq_ok_iff, List.forall₂_map_left_iff, List.forall₂_map_right_iff, List.forall₂_same]
    exact fun entry _ => rfl
  rw [dotList, hsorted]
  show (knownAttributes sorted).mapM (fun known => do
    return dotPart known.1 (← known.2.plain)) >>= _ = _
  rw [h, hparts]
  rfl

end Graph

end ShortCircuit

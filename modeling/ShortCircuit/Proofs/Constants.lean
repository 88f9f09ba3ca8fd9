/-
  ShortCircuit.Proofs.Constants

  Constants that a client has made of source texts.  A text is accepted exactly
  if it spells a constant, and then that constant is planted; every other text
  is refused, and nothing has happened.  What is written for a text literal, of
  whatever characters, spells it.
-/

import ShortCircuit.Proofs.Applicability
import ShortCircuit.Proofs.Forest.Texts
import ShortCircuit.Proofs.Literal.Spelling

namespace ShortCircuit

open Failing

variable {f : Forest} {s : Session} {t : Tree} {kind : Kind} {fault : Fault} {source : String}

/-! ## Text literals as they are written -/

namespace Literal

/-- Every character is written as a unit that stands for it. -/
theorem textUnit_sourceChar (c : Char) : TextUnit (sourceChar c) c := by
  unfold sourceChar
  split
  · rename_i letter hletter
    obtain ⟨l, r, heq, -⟩ := List.lookup_eq_some_iff.1 hletter
    have hmem : (c, letter) ∈ escapes := by simp [heq]
    exact .letter (mem_letters_of_mem_escapes hmem)
  · rename_i hnone
    apply TextUnit.plain
    · rintro rfl
      cases hnone
    · rintro rfl
      cases hnone

theorem content_flatMap_sourceChar (chars : List Char) :
    Content (chars.flatMap sourceChar) chars := by
  induction chars with
  | nil => exact .nil
  | cons c chars ih =>
    rw [List.flatMap_cons]
    exact .cons (textUnit_sourceChar c) ih

/-- What a text literal is written as. -/
def quotedText (v : String) : List Char := '"' :: v.toList.flatMap sourceChar ++ ['"']

theorem spells_quotedText (v : String) : Spells (quotedText v) (.text v) := by
  have spells := Spells.text (content_flatMap_sourceChar v.toList)
  rwa [String.ofList_toList] at spells

/-- The quotes protect the blanks between them. -/
theorem strip_quotedText (v : String) : Text.strip (quotedText v) = quotedText v := by
  have hquote : Text.isBlank '"' = false := by decide
  apply Text.strip_eq_iff.2
  refine ⟨[], [], by simp, by simp, by simp, ?_, ?_⟩
  · intro c hc
    cases hc
    exact hquote
  · intro c hc
    rw [quotedText, List.getLast?_concat] at hc
    cases hc
    exact hquote

end Literal

theorem Tree.render_of_literal {value : Literal} (h : t.kind = .literal value) :
    t.render = value.source := by
  cases t with
  | node n kind branches =>
    cases h
    rw [Tree.render, Tree.print_node, Printed.ofOperands]
    simp only [Kind.layout, List.map_cons, List.map_nil, Printed.concat, List.foldr_cons,
      List.foldr_nil, Printed.append_empty, Piece.print]
    cases value.source <;> rfl

theorem Forest.WellFormed.renderOf_literal (wf : f.WellFormed) (ht : t ∈ f.subtrees)
    {value : Literal} {text : List Char} (h : t.kind = .literal value)
    (htext : value.source = .ok text) : f.renderOf (some t.id) = .ok (String.ofList text) := by
  rw [Forest.renderOf, wf.toPrint_self ht]
  show (do return String.ofList (← t.render)) = _
  rw [Tree.render_of_literal h, htext]
  rfl

theorem Forest.WellFormed.renderOf_text (wf : f.WellFormed) (ht : t ∈ f.subtrees) {v : String}
    (h : t.kind = .literal (.text v)) :
    f.renderOf (some t.id) = .ok (String.ofList (Literal.quotedText v)) :=
  wf.renderOf_literal ht h rfl

/-! ## Requests -/

namespace Session

theorem create_of_ok (h : Kind.ofSource source.toList = .ok kind) :
    create source s = (.ok s.forest.next, { s with forest := (s.forest.plant kind).2 }) := by
  rw [create, bind_of_ok (ask_of_eq h)]
  rfl

theorem create_of_error (h : Kind.ofSource source.toList = .error fault) :
    create source s = (.error fault, s) :=
  bind_of_error (ask_of_eq h)

/-- A source text is accepted if and only if it spells a constant, blanks around it apart.  A
    constant that is spelled is planted as the next node.  A text that spells none is refused, for
    one of the causes for which texts are unreadable, and the session is as it was. -/
theorem create_iff_spelled (s : Session) (source : String) :
    ((∃ n s', create source s = (.ok n, s')) ↔
      ∃ kind, Kind.Spelled (Text.strip source.toList) kind) ∧
    (∀ kind, Kind.Spelled (Text.strip source.toList) kind →
      create source s = (.ok s.forest.next, { s with forest := (s.forest.plant kind).2 })) ∧
    ((¬∃ kind, Kind.Spelled (Text.strip source.toList) kind) →
      ∃ fault, create source s = (.error fault, s) ∧ Literal.Unreadable fault) := by
  cases hsource : Kind.ofSource source.toList with
  | ok kind =>
    have hspelled := Kind.ofSource_eq_ok_iff.1 hsource
    refine ⟨⟨fun _ => ⟨kind, hspelled⟩, fun _ => ⟨_, _, create_of_ok hsource⟩⟩, ?_, ?_⟩
    · intro kind' hspelled'
      exact create_of_ok (Kind.ofSource_eq_ok_iff.2 hspelled')
    · intro hnone
      exact absurd ⟨kind, hspelled⟩ hnone
  | error fault =>
    have hrefused := create_of_error (s := s) hsource
    have hnone : ¬∃ kind, Kind.Spelled (Text.strip source.toList) kind := by
      rintro ⟨kind, hspelled⟩
      rw [Kind.ofSource_eq_ok_iff.2 hspelled] at hsource
      cases hsource
    refine ⟨⟨?_, fun h => absurd h hnone⟩, fun kind h => absurd ⟨kind, h⟩ hnone, fun _ => ?_⟩
    · rintro ⟨n, s', h⟩
      rw [hrefused] at h
      cases h
    · exact ⟨fault, hrefused, Kind.unreadable_of_ofSource hsource⟩

/-- `"\u{5c}n"` spells a text of two characters: what an escape stands for is not read
    again. -/
theorem create_iff_spelled_escaped :
    Kind.Spelled (Text.strip "\"\\u\x7b5c\x7dn\"".toList) (.literal (.text "\\n")) ∧
      create "\"\\u\x7b5c\x7dn\"" (start .debug) =
        (.ok 0, { start .debug with
          forest := (Forest.empty.plant (.literal (.text "\\n"))).2 }) := by
  have hvalue : Text.readHex? ['5', 'c'] = some 0x5c := by decide
  have hcode : Literal.TextUnit ['\\', 'u', '\x7b', '5', 'c', '\x7d'] '\\' :=
    .code (by decide) (by decide) hvalue (by decide)
  have hcontent : Literal.Content ['\\', 'u', '\x7b', '5', 'c', '\x7d', 'n'] ['\\', 'n'] :=
    .cons hcode (.cons (.plain (by decide) (by decide)) .nil)
  have hspelled : Kind.Spelled (Text.strip "\"\\u\x7b5c\x7dn\"".toList) (.literal (.text "\\n")) :=
    .literal (.text hcontent)
  exact ⟨hspelled, (create_iff_spelled (start .debug) "\"\\u\x7b5c\x7dn\"").2.1 _ hspelled⟩

/-- The text that a text literal of a reachable forest is rendered as makes, in any reachable
    session, a new root that is a literal of the same text. -/
theorem create_rendered_text {v : String} (hf : f.Reachable) (ht : t ∈ f.subtrees)
    (htext : t.kind = .literal (.text v)) (hs : s.forest.Reachable) :
    ∃ source s', f.renderOf (some t.id) = .ok source ∧
      create source s = (.ok s.forest.next, s') ∧
      s'.forest = (s.forest.plant (.literal (.text v))).2 ∧
      s'.forest.find? s.forest.next = some (.node s.forest.next (.literal (.text v)) []) ∧
      s'.forest.place? s.forest.next = none := by
  have wf := hs.wellFormed
  have hsource : Kind.ofSource (String.ofList (Literal.quotedText v)).toList =
      .ok (.literal (.text v)) := by
    rw [String.toList_ofList]
    apply Kind.ofSource_eq_ok_iff.2
    rw [Literal.strip_quotedText]
    exact .literal (Literal.spells_quotedText v)
  refine ⟨_, _, hf.wellFormed.renderOf_text ht htext, create_of_ok hsource, rfl, ?_, ?_⟩
  · exact (wf.plant _).find?_eq_some_iff.2 ⟨Forest.mem_subtrees_plant.2 (.inr rfl), rfl⟩
  · -- The node that is planted is the last root.
    have hroot : Tree.node s.forest.next (.literal (.text v)) [] ∈
        (s.forest.plant (.literal (.text v))).2.trees :=
      List.mem_append_right _ (List.mem_singleton_self _)
    exact (wf.plant _).place?_root hroot

/-- A text with a quote, a backslash, a line break and what looks like an escape. -/
def awkward : String := "\"\\u\x7be9\x7d\n"

def quoting : Session := (start .debug).after [.plant (.literal (.text awkward))]

theorem create_rendered_text_awkward :
    .node 0 (.literal (.text awkward)) [] ∈ quoting.forest.subtrees ∧
      quoting.forest.renderOf (some 0) = .ok "\"\\\"\\\\u\x7be9\x7d\\n\"" ∧
      ∃ s', create "\"\\\"\\\\u\x7be9\x7d\\n\"" quoting = (.ok 1, s') ∧
        s'.forest = (quoting.forest.plant (.literal (.text awkward))).2 ∧
        s'.forest.find? 1 = some (.node 1 (.literal (.text awkward)) []) ∧
        s'.forest.place? 1 = none := by
  have reachable : quoting.forest.Reachable := by
    unfold quoting
    exact ⟨.debug, _, rfl⟩
  have hmem : .node 0 (.literal (.text awkward)) [] ∈ quoting.forest.subtrees :=
    Forest.mem_subtrees_of_mem_trees (.head _)
  have hrendered : quoting.forest.renderOf (some 0) = .ok "\"\\\"\\\\u\x7be9\x7d\\n\"" := by
    decide +kernel
  obtain ⟨source, s', hsource, hcreate⟩ := create_rendered_text reachable hmem rfl reachable
  cases hsource.symm.trans hrendered
  exact ⟨hmem, hrendered, s', hcreate⟩

end Session

end ShortCircuit

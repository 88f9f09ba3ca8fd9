/-
  ShortCircuit.Proofs.Numbers

  Numbers that are rendered and made again.  What an integer is rendered as makes
  a literal of that integer.  What a finite number of the binary format is
  rendered as makes a literal of that number, to the bit, if it is zero or if its
  magnitude lies between ten to the minus fourth and ten to the sixteenth.  The
  others are rendered with an exponent, and the text is refused.
-/

import ShortCircuit.Proofs.Constants
import ShortCircuit.Proofs.Literal.Numbers

namespace ShortCircuit

variable {f : Forest} {s : Session} {t : Tree} {value : Literal} {source : String}

/-! ## Numbers as they are written -/

namespace Literal

/-- Whether a literal is an integer that is short enough to be written, or a finite number of the
    binary format. -/
def isNumber : Literal → Bool
  | .int n => decide ((Decimal.natText n.natAbs).length ≤ Fault.digitLimit)
  | .float x => x.isFinite
  | _ => false

/-- Only numbers of the binary format can be so small or so great that an exponent is needed. -/
def Moderate : Literal → Prop
  | .float x => x.Moderate
  | _ => True

/-- A number is written as a text that is read as that number, or is refused if the number is not
    moderate. -/
theorem exists_source_of_isNumber (number : value.isNumber = true) :
    ∃ text, value.source = .ok text ∧
      (value.Moderate → Kind.ofSource text = .ok (.literal value)) ∧
      (¬value.Moderate → Kind.ofSource text = .error (.notALiteral (String.ofList text))) := by
  cases value with
  | bool b => cases number
  | text v => cases number
  | int n =>
    have short := of_decide_eq_true number
    obtain ⟨spells, hstrip⟩ := Decimal.spells_intText short
    exact ⟨Decimal.intText n, if_pos short, fun _ => Kind.ofSource_of_spells spells hstrip,
      fun h => absurd trivial h⟩
  | float x =>
    refine ⟨x.text, rfl, fun h => ?_, x.ofSource_text number⟩
    obtain ⟨spells, hstrip⟩ := x.spells_text number h
    exact Kind.ofSource_of_spells spells hstrip

end Literal

/-! ## Requests -/

namespace Session

/-- A source text makes a new root, a literal of this value, and nothing else happens to the
    forest. -/
def Makes (s : Session) (source : String) (value : Literal) : Prop :=
  ∃ s', create source s = (.ok s.forest.next, s') ∧
    s'.forest = (s.forest.plant (.literal value)).2 ∧
    s'.forest.find? s.forest.next = some (.node s.forest.next (.literal value) []) ∧
    s'.forest.place? s.forest.next = none

theorem makes_of_ofSource (wf : s.forest.WellFormed)
    (h : Kind.ofSource source.toList = .ok (.literal value)) : s.Makes source value := by
  have hroot : .node s.forest.next (.literal value) [] ∈
      (s.forest.plant (.literal value)).2.trees :=
    List.mem_append_right _ (List.mem_singleton_self _)
  refine ⟨_, create_of_ok h, rfl, ?_, (wf.plant _).place?_root hroot⟩
  exact (wf.plant _).find?_eq_some_iff.2 ⟨Forest.mem_subtrees_of_mem_trees hroot, rfl⟩

/-- The text that a moderate number of a reachable forest is rendered as makes, in any reachable
    session, a literal of the same number.  A number that is not moderate is rendered with an
    exponent; the text is refused, and nothing has happened. -/
theorem create_rendered_number (hf : f.Reachable) (ht : t ∈ f.subtrees)
    (hvalue : t.kind = .literal value) (number : value.isNumber = true) (hs : s.forest.Reachable) :
    ∃ source, f.renderOf (some t.id) = .ok source ∧
      (value.Moderate → s.Makes source value) ∧
      (¬value.Moderate → create source s = (.error (.notALiteral source), s)) := by
  obtain ⟨text, hsource, hread, hrefused⟩ := Literal.exists_source_of_isNumber number
  refine ⟨_, hf.wellFormed.renderOf_literal ht hvalue hsource, fun h => ?_, fun h => ?_⟩
  · apply makes_of_ofSource hs.wellFormed
    rw [String.toList_ofList]
    exact hread h
  · apply create_of_error
    rw [String.toList_ofList]
    exact hrefused h

/-- The number that is nearest to a tenth, with a minus sign. -/
def tenth : Binary64 := ⟨0xBFB999999999999A⟩

def counting : Session := (start .debug).after [.plant (.literal (.float tenth))]

theorem create_rendered_number_tenth :
    (Literal.float tenth).isNumber = true ∧ (Literal.float tenth).Moderate ∧
      counting.forest.renderOf (some 0) = .ok "-0.1" ∧ counting.Makes "-0.1" (.float tenth) := by
  have reachable : counting.forest.Reachable := by
    unfold counting
    exact ⟨.debug, _, rfl⟩
  have hmem : .node 0 (.literal (.float tenth)) [] ∈ counting.forest.subtrees :=
    Forest.mem_subtrees_of_mem_trees (.head _)
  have hrendered : counting.forest.renderOf (some 0) = .ok "-0.1" := by decide +kernel
  have number : (Literal.float tenth).isNumber = true := by decide
  have moderate : (Literal.float tenth).Moderate := by
    have hsignificand : tenth.significand = 7205759403792794 := by decide
    have hscale : tenth.scale = -56 := by decide
    refine .inr ?_
    rw [Binary64.magnitude, hsignificand, hscale]
    norm_num
  obtain ⟨source, hsource, hmakes, -⟩ :=
    create_rendered_number reachable hmem rfl number reachable
  cases hsource.symm.trans hrendered
  exact ⟨number, moderate, hrendered, hmakes moderate⟩

def great : Session := (start .debug).after [.plant (.literal (.float .greatest))]

/-- Ten to the sixteenth is finite, and what it is rendered as is refused. -/
theorem not_create_rendered_great :
    great.forest.Reachable ∧ (Literal.float .greatest).isNumber = true ∧
      great.forest.renderOf (some 0) = .ok "1e+16" ∧
      create "1e+16" great = (.error (.notALiteral "1e+16"), great) ∧
      ¬∃ source, great.forest.renderOf (some 0) = .ok source ∧
        great.Makes source (.float .greatest) := by
  have reachable : great.forest.Reachable := by
    unfold great
    exact ⟨.debug, _, rfl⟩
  have hrender : great.forest.renderOf (some 0) = .ok "1e+16" := by decide +kernel
  have hcreate : create "1e+16" great = (.error (.notALiteral "1e+16"), great) := by
    apply create_of_error
    decide +kernel
  refine ⟨reachable, by decide, hrender, hcreate, ?_⟩
  rintro ⟨source, hsource, s', hmade, -⟩
  rw [hrender] at hsource
  cases hsource
  rw [hcreate] at hmade
  cases hmade

end Session

end ShortCircuit

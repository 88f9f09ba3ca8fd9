/-
  ShortCircuit.Proofs.Graph.Quoting

  Attribute values between the quotes of the DOT format.  A quote in a value is
  escaped and a backslash is not, so a value stays between its quotes if and only
  if the backslashes in front of each quote, and those at its end, come in pairs.
  Nothing is lost but the difference between a line break and the two characters
  that it is written as.
-/

import Mathlib.Algebra.Group.Nat.Even
import Mathlib.Data.List.Induction
import ShortCircuit.Proofs.Graph.Lines

namespace ShortCircuit

/-! ## Backslashes at the end -/

namespace Text

variable {s t : Text} {c : CodePoint}

/-- How many backslashes stand in a row at the end of a text. -/
def backslashesAtEnd (s : Text) : Nat := (s.reverse.takeWhile (· == .char '\\')).length

theorem backslashesAtEnd_concat_backslash (s : Text) :
    backslashesAtEnd (s ++ [.char '\\']) = backslashesAtEnd s + 1 := by
  simp [backslashesAtEnd]

theorem backslashesAtEnd_concat (h : c ≠ .char '\\') (s : Text) :
    backslashesAtEnd (s ++ [c]) = 0 := by
  simp [backslashesAtEnd, h]

/-- A character in front that is no backslash itself changes nothing. -/
theorem backslashesAtEnd_cons (h : c ≠ .char '\\') (s : Text) :
    backslashesAtEnd (c :: s) = backslashesAtEnd s := by
  induction s using List.reverseRecOn with
  | nil => exact backslashesAtEnd_concat h []
  | append_singleton s d ih =>
    rw [← List.cons_append]
    by_cases hd : d = .char '\\'
    · rw [hd, backslashesAtEnd_concat_backslash, backslashesAtEnd_concat_backslash, ih]
    · rw [backslashesAtEnd_concat hd, backslashesAtEnd_concat hd]

end Text

namespace Graph

open Failing
open Text (backslashesAtEnd backslashesAtEnd_concat backslashesAtEnd_concat_backslash
  backslashesAtEnd_cons)

variable {g : Graph} {value other before after token : Text} {c : CodePoint}

/-! ## Closed strings -/

/-- A text that is one string between double quotes: none of the quotes in it is preceded by an
    even number of backslashes, the two at its ends excepted. -/
structure Closed (token : Text) : Prop where
  quoted : ∃ body, token = .char '"' :: body ++ [.char '"']
  only : ∀ before after, token = before ++ .char '"' :: after →
    (Even (backslashesAtEnd before) ↔ before = [] ∨ after = [])

/-- A text in which the backslashes in front of each quote, and those at the end, come in
    pairs. -/
structure Paired (value : Text) : Prop where
  quote : ∀ before after, value = before ++ .char '"' :: after → Even (backslashesAtEnd before)
  last : Even (backslashesAtEnd value)

/-- It is enough to look at each quote in turn. -/
theorem paired_iff :
    Paired value ↔
      (∀ i < value.length, value[i]? = some (.char '"') → Even (backslashesAtEnd (value.take i))) ∧
        Even (backslashesAtEnd value) := by
  constructor
  · intro paired
    refine ⟨fun i hi h => paired.quote _ (value.drop (i + 1)) ?_, paired.last⟩
    obtain ⟨hi, hquote⟩ := List.getElem?_eq_some_iff.1 h
    rw [← hquote, List.getElem_cons_drop, List.take_append_drop]
  · rintro ⟨hquote, hlast⟩
    refine ⟨fun before after h => ?_, hlast⟩
    have heven := hquote before.length (by simp [h]) (by simp [h])
    rwa [h, List.take_left] at heven

instance decidablePaired (value : Text) : Decidable (Paired value) :=
  decidable_of_iff' _ paired_iff

/-- The quote is escaped, a line break becomes a letter, and all else stands for itself. -/
theorem dotPoint_cases (c : CodePoint) :
    c = .char '"' ∧ dotPoint c = [.char '\\', .char '"'] ∨
      c = .char '\n' ∧ dotPoint c = [.char '\\', .char 'n'] ∨
      c ≠ .char '"' ∧ c ≠ .char '\n' ∧ dotPoint c = [c] := by
  unfold dotPoint
  split
  · exact .inl ⟨rfl, rfl⟩
  · exact .inr (.inl ⟨rfl, rfl⟩)
  · rename_i hquote hbreak
    exact .inr (.inr ⟨hquote, hbreak, rfl⟩)

/-- What a value is written as ends with as many backslashes as the value. -/
theorem backslashesAtEnd_flatMap (value : Text) :
    backslashesAtEnd (value.flatMap dotPoint) = backslashesAtEnd value := by
  induction value using List.reverseRecOn with
  | nil => rfl
  | append_singleton value c ih =>
    rw [List.flatMap_append, List.flatMap_singleton]
    rcases dotPoint_cases c with ⟨rfl, hc⟩ | ⟨rfl, hc⟩ | ⟨-, -, hc⟩
    · have hfront : value.flatMap dotPoint ++ [.char '\\', .char '"'] =
          (value.flatMap dotPoint ++ [.char '\\']) ++ [.char '"'] := by simp
      rw [hc, hfront, backslashesAtEnd_concat (by decide), backslashesAtEnd_concat (by decide)]
    · have hfront : value.flatMap dotPoint ++ [.char '\\', .char 'n'] =
          (value.flatMap dotPoint ++ [.char '\\']) ++ [.char 'n'] := by simp
      rw [hc, hfront, backslashesAtEnd_concat (by decide), backslashesAtEnd_concat (by decide)]
    · rw [hc]
      by_cases hbackslash : c = .char '\\'
      · rw [hbackslash, backslashesAtEnd_concat_backslash, backslashesAtEnd_concat_backslash, ih]
      · rw [backslashesAtEnd_concat hbackslash, backslashesAtEnd_concat hbackslash]

/-- A quote in what is written stands for a quote, and has a backslash of its own. -/
theorem exists_of_quote (h : value.flatMap dotPoint = before ++ .char '"' :: after) :
    ∃ a b, value = a ++ .char '"' :: b ∧ before = a.flatMap dotPoint ++ [.char '\\'] ∧
      after = b.flatMap dotPoint := by
  induction value generalizing before with
  | nil => simp at h
  | cons c value ih =>
    rw [List.flatMap_cons, List.append_eq_append_iff] at h
    rcases h with ⟨later, rfl, hrest⟩ | ⟨inner, hfront, hrest⟩
    · -- The quote comes from a later character.
      obtain ⟨a, b, rfl, rfl, hafter⟩ := ih hrest
      exact ⟨c :: a, b, rfl, by simp, hafter⟩
    · cases inner with
      | nil =>
        -- No character is written with a quote in front.
        have hquote : value.flatMap dotPoint = [] ++ .char '"' :: after := hrest.symm
        obtain ⟨a, b, -, hbefore, -⟩ := ih hquote
        simp at hbefore
      | cons d inner =>
        rw [List.cons_append, List.cons.injEq] at hrest
        obtain ⟨rfl, hafter⟩ := hrest
        rcases dotPoint_cases c with ⟨rfl, hc⟩ | ⟨-, hc⟩ | ⟨hquote, -, hc⟩
        · rw [hc] at hfront
          cases before with
          | nil => simp at hfront
          | cons first before =>
            rw [List.cons_append, List.cons.injEq] at hfront
            obtain ⟨rfl, hback⟩ := hfront
            rcases List.append_eq_singleton_iff.1 hback.symm with ⟨rfl, hinner⟩ | ⟨-, hinner⟩
            · rw [List.cons.injEq] at hinner
              rw [hinner.2] at hafter
              exact ⟨[], value, rfl, rfl, hafter⟩
            · exact absurd hinner (List.cons_ne_nil _ _)
        · have hmem : .char '"' ∈ dotPoint c := by rw [hfront]; simp
          simp [hc] at hmem
        · have hmem : .char '"' ∈ dotPoint c := by rw [hfront]; simp
          rw [hc, List.mem_singleton] at hmem
          exact absurd hmem.symm hquote

/-- A value is written as one closed string exactly if its backslashes come in pairs wherever it
    matters. -/
theorem closed_dotText_iff : Closed (dotText value) ↔ Paired value := by
  constructor
  · intro closed
    refine ⟨fun before after h => ?_, ?_⟩
    · -- The backslash that escapes the quote makes their number odd.
      have hsplit : dotText value =
          (.char '"' :: before.flatMap dotPoint ++ [.char '\\']) ++
            .char '"' :: (after.flatMap dotPoint ++ [.char '"']) := by
        rw [h, dotText, List.flatMap_append, List.flatMap_cons]
        simp [dotPoint]
      have hodd :
          ¬Even (backslashesAtEnd (.char '"' :: before.flatMap dotPoint ++ [.char '\\'])) := by
        rw [closed.only _ _ hsplit]
        simp
      rwa [backslashesAtEnd_concat_backslash, backslashesAtEnd_cons (by decide),
        backslashesAtEnd_flatMap, Nat.even_add_one, not_not] at hodd
    · have heven := (closed.only (.char '"' :: value.flatMap dotPoint) [] rfl).2 (.inr rfl)
      rwa [backslashesAtEnd_cons (by decide), backslashesAtEnd_flatMap] at heven
  · intro paired
    refine ⟨⟨_, rfl⟩, fun before after h => ?_⟩
    rcases List.eq_nil_or_concat' after with rfl | ⟨after, last, rfl⟩
    · -- It is the closing quote.
      have hbefore : .char '"' :: value.flatMap dotPoint = before := List.append_cancel_right h
      rw [← hbefore, backslashesAtEnd_cons (by decide), backslashesAtEnd_flatMap]
      exact iff_of_true paired.last (.inr rfl)
    · cases before with
      | nil => exact iff_of_true .zero (.inl rfl)
      | cons first before =>
        -- It is a quote inside, which has a backslash of its own.
        have hinner :
            .char '"' :: value.flatMap dotPoint = first :: before ++ .char '"' :: after := by
          rw [dotText, ← List.cons_append, ← List.append_assoc] at h
          exact (List.append_inj' h rfl).1
        rw [List.cons_append, List.cons.injEq] at hinner
        obtain ⟨rfl, hinner⟩ := hinner
        obtain ⟨a, b, hvalue, rfl, -⟩ := exists_of_quote hinner
        rw [backslashesAtEnd_cons (by decide), backslashesAtEnd_concat_backslash,
          backslashesAtEnd_flatMap, Nat.even_add_one]
        exact iff_of_false (not_not.2 (paired.quote a b hvalue)) (by simp)

/-! ## What is lost -/

/-- A text with its line breaks written as a backslash and a letter. -/
def onOneLine (s : Text) : Text :=
  s.flatMap fun c => if c = .char '\n' then [.char '\\', .char 'n'] else [c]

/-- A character between quotes, if it is no line break. -/
def escapedQuote (c : CodePoint) : Text := if c = .char '"' then [.char '\\', .char '"'] else [c]

theorem escapedQuote_of_ne (h : c ≠ .char '"') : escapedQuote c = [c] := if_neg h

/-- A quote is escaped whether a line break has been written before or not. -/
theorem flatMap_dotPoint_eq (value : Text) :
    value.flatMap dotPoint = (onOneLine value).flatMap escapedQuote := by
  rw [onOneLine, List.flatMap_assoc]
  refine List.flatMap_congr fun c _ => ?_
  rcases dotPoint_cases c with ⟨rfl, hc⟩ | ⟨rfl, hc⟩ | ⟨hquote, hbreak, hc⟩
  · exact hc
  · exact hc
  · rw [hc, if_neg hbreak, List.flatMap_singleton, escapedQuote_of_ne hquote]

/-- What is written never begins with a bare quote. -/
theorem flatMap_escapedQuote_ne (s rest : Text) : s.flatMap escapedQuote ≠ .char '"' :: rest := by
  cases s with
  | nil => exact (List.cons_ne_nil _ _).symm
  | cons c s =>
    intro h
    rw [List.flatMap_cons] at h
    by_cases hc : c = .char '"'
    · rw [escapedQuote, if_pos hc] at h
      simp at h
    · rw [escapedQuote_of_ne hc] at h
      exact hc (List.cons.inj h).1

theorem escapedQuote_ne_nil (c : CodePoint) : escapedQuote c ≠ [] := by
  unfold escapedQuote
  split <;> exact List.cons_ne_nil _ _

/-- An escaped quote is taken for nothing else. -/
theorem eq_quote_of_flatMap {s t : Text}
    (h : [.char '\\', .char '"'] ++ s = escapedQuote c ++ t.flatMap escapedQuote) :
    c = .char '"' := by
  by_contra hc
  rw [escapedQuote_of_ne hc] at h
  exact flatMap_escapedQuote_ne t s (List.cons.inj h).2.symm

/-- Which of the backslashes escape quotes can be told. -/
theorem flatMap_escapedQuote_injective : Function.Injective (List.flatMap escapedQuote) := by
  intro s t h
  induction s generalizing t with
  | nil =>
    cases t with
    | nil => rfl
    | cons d t => exact absurd (List.append_eq_nil_iff.1 h.symm).1 (escapedQuote_ne_nil d)
  | cons c s ih =>
    cases t with
    | nil => exact absurd (List.append_eq_nil_iff.1 h).1 (escapedQuote_ne_nil c)
    | cons d t =>
      rw [List.flatMap_cons, List.flatMap_cons] at h
      have hcd : c = d := by
        by_cases hc : c = .char '"'
        · subst hc
          exact (eq_quote_of_flatMap h).symm
        · by_cases hd : d = .char '"'
          · subst hd
            exact eq_quote_of_flatMap h.symm
          · rw [escapedQuote_of_ne hc, escapedQuote_of_ne hd] at h
            exact (List.cons.inj h).1
      subst hcd
      rw [ih (List.append_cancel_left h)]

/-- Two values are written alike exactly if they differ in nothing but how their lines are
    broken. -/
theorem dotText_eq_iff : dotText value = dotText other ↔ onOneLine value = onOneLine other := by
  constructor
  · intro h
    have hbody := List.append_cancel_right (List.cons.inj h).2
    rw [flatMap_dotPoint_eq, flatMap_dotPoint_eq] at hbody
    exact flatMap_escapedQuote_injective hbody
  · intro h
    rw [dotText, dotText, flatMap_dotPoint_eq, flatMap_dotPoint_eq, h]

theorem onOneLine_of_notMem (h : .char '\n' ∉ value) : onOneLine value = value := by
  have hkeep : ∀ c ∈ value, (if c = .char '\n' then [.char '\\', .char 'n'] else [c]) = [c] :=
    fun c hc => if_neg (ne_of_mem_of_not_mem hc h)
  rw [onOneLine, List.flatMap_congr hkeep, List.flatMap_singleton']

/-- Values without line breaks are never written alike. -/
theorem dotText_inj (hvalue : .char '\n' ∉ value) (hother : .char '\n' ∉ other) :
    dotText value = dotText other ↔ value = other := by
  rw [dotText_eq_iff, onOneLine_of_notMem hvalue, onOneLine_of_notMem hother]

/-! ## Values in a graph -/

/-- The attributes of the nodes and of the edges that are written. -/
def attributeTables (g : Graph) : List (Table Value) :=
  g.nodes.map (·.2) ++ g.edgesInOrder.map (·.2.2)

/-- A node or an edge has a text as one of the attributes that the format knows. -/
structure Bears (g : Graph) (name : String) (value : Text) : Prop where
  known : name ∈ dotAttributes
  entry : ∃ attributes ∈ g.attributeTables, (.text name, .scalar (.text value)) ∈ attributes

theorem mem_knownAttributes {sorted : Table Value} {name : String} {v : Value}
    (known : name ∈ dotAttributes) (h : (.text name, v) ∈ sorted) :
    (name, v) ∈ knownAttributes sorted := by
  refine List.mem_filterMap.2 ⟨_, h, ?_⟩
  have hnames : ∀ name ∈ dotAttributes, dotName? (.text name) = some name := by decide
  exact congrArg (Option.map (·, v)) (hnames name known)

/-- A text that is known as an attribute is written behind the name of the attribute. -/
theorem infix_dotList {attributes : Table Value} {name : String} {line : Text}
    (known : name ∈ dotAttributes) (h : (.text name, .scalar (.text value)) ∈ attributes)
    (hline : dotList attributes = .ok line) : dotPart name value <:+: line := by
  obtain ⟨sorted, parts, hsorted, rfl, hparts⟩ := exists_of_dotList hline
  have hmem := (Table.perm_of_inOrder hsorted).mem_iff.2 h
  obtain ⟨part, hpart, written, hwritten, rfl⟩ :=
    exists_of_forall₂ hparts (mem_knownAttributes known hmem)
  cases hwritten
  exact (infix_intercalate hpart).trans ⟨[.char '['], [.char ']'], rfl⟩

theorem exists_of_dotNode {node : Scalar} {attributes : Table Value} {line : Text}
    (h : dotNode node attributes = .ok line) :
    ∃ list, dotList attributes = .ok list ∧ list <:+: line := by
  obtain ⟨name, -, h⟩ := exists_of_bind_eq_ok h
  obtain ⟨list, hlist, h⟩ := exists_of_bind_eq_ok h
  cases h
  exact ⟨list, hlist, name ++ [.char ' '], [.char ';'], by simp⟩

theorem exists_of_dotEdge {source sink : Scalar} {attributes : Table Value} {line : Text}
    (h : dotEdge source sink attributes = .ok line) :
    ∃ list, dotList attributes = .ok list ∧ list <:+: line := by
  obtain ⟨source, -, h⟩ := exists_of_bind_eq_ok h
  obtain ⟨sink, -, h⟩ := exists_of_bind_eq_ok h
  obtain ⟨list, hlist, h⟩ := exists_of_bind_eq_ok h
  cases h
  exact ⟨list, hlist, source ++ Text.ofString " -> " ++ sink ++ [.char ' '], [.char ';'], by simp⟩

/-- What a graph is written as contains the list of attributes of each node and edge. -/
theorem exists_of_dot {text : Text} (h : g.dot = .ok text) {attributes : Table Value}
    (hmem : attributes ∈ g.attributeTables) :
    ∃ list, dotList attributes = .ok list ∧ list <:+: text := by
  obtain ⟨nodes, edges, written, rfl⟩ := dot_eq_ok_iff.1 h
  have hline {line list : Text} (hlist : list <:+: line) (hline : line ∈ nodes ++ edges) :
      list <:+: [.char '\n'].intercalate (firstLine :: (nodes ++ edges) ++ [lastLine]) :=
    hlist.trans (infix_intercalate (List.mem_cons_of_mem _ (List.mem_append_left _ hline)))
  rcases List.mem_append.1 hmem with hmem | hmem
  · obtain ⟨node, hnode, rfl⟩ := List.mem_map.1 hmem
    obtain ⟨line, hmem, hwritten⟩ := exists_of_forall₂ written.nodes hnode
    obtain ⟨list, hlist, hinfix⟩ := exists_of_dotNode hwritten
    exact ⟨list, hlist, hline hinfix (List.mem_append_left _ hmem)⟩
  · obtain ⟨edge, hedge, rfl⟩ := List.mem_map.1 hmem
    obtain ⟨line, hmem, hwritten⟩ := exists_of_forall₂ written.edges hedge
    obtain ⟨list, hlist, hinfix⟩ := exists_of_dotEdge hwritten
    exact ⟨list, hlist, hline hinfix (List.mem_append_right _ hmem)⟩

/-- A text that is an attribute of a node or an edge is written behind the name of the attribute.
    What is written for it is one closed string exactly if the backslashes in front of its quotes
    and at its end come in pairs, and is also written for other texts exactly if these differ from
    it in nothing but how their lines are broken. -/
theorem dot_quotes {text value : Text} {name : String} (bears : g.Bears name value)
    (h : g.dot = .ok text) :
    Text.ofString name ++ .char '=' :: dotText value <:+: text ∧
      (Closed (dotText value) ↔ Paired value) ∧
      ∀ other : Text, dotText other = dotText value ↔ onOneLine other = onOneLine value := by
  obtain ⟨attributes, hattributes, hmem⟩ := bears.entry
  obtain ⟨list, hlist, hinfix⟩ := exists_of_dot h hattributes
  exact ⟨(infix_dotList bears.known hmem hlist).trans hinfix, closed_dotText_iff,
    fun other => dotText_eq_iff⟩

/-- A graph of one node with a label. -/
def labelled (label : Text) : Graph :=
  Graph.empty.addNode (.int 0) [(.text "label", .scalar (.text label))]

/-- Two backslashes, a quote, and a line break behind a letter. -/
def awkward : Text := "\\\\\"a\n"

theorem dot_quotes_awkward :
    (labelled awkward).Bears "label" awkward ∧
      (labelled awkward).dot = .ok "digraph  \x7b\n0 [label=\"\\\\\\\"a\\n\"];\n\x7d" ∧
      Closed (dotText awkward) ∧ dotText awkward = dotText "\\\\\"a\\n" := by
  have bears : (labelled awkward).Bears "label" awkward := ⟨by decide, _, .head _, .head _⟩
  have hdot : (labelled awkward).dot =
      .ok "digraph  \x7b\n0 [label=\"\\\\\\\"a\\n\"];\n\x7d" := by decide +kernel
  obtain ⟨-, hclosed, halike⟩ := dot_quotes bears hdot
  exact ⟨bears, hdot, hclosed.2 (by decide), ((halike "\\\\\"a\\n").2 (by decide)).symm⟩

/-- A label that is a single backslash is written as a string that goes on behind its quote, and a
    line break is written as a backslash and a letter are. -/
theorem not_dot_faithful :
    (labelled "\\").Bears "label" "\\" ∧
      (labelled "\\").dot = .ok "digraph  \x7b\n0 [label=\"\\\"];\n\x7d" ∧
      ¬Closed (dotText "\\") ∧ ¬Function.Injective dotText := by
  refine ⟨⟨by decide, _, .head _, .head _⟩, by decide +kernel, ?_, fun injective => ?_⟩
  · rw [closed_dotText_iff]
    decide
  · have halike : onOneLine "\n" = onOneLine "\\n" := by decide
    exact absurd (injective (dotText_eq_iff.2 halike)) (by decide)

end Graph

end ShortCircuit

/-
  ShortCircuit.Proofs.Diagrams

  What the diagram of a forest tells of it.  Its lines can be told apart, and each
  of them can be taken apart again, since no label breaks a line; so from the text
  alone one knows the nodes with their labels and the edges with their slots.
-/

import ShortCircuit.Proofs.Forest.Contractions
import ShortCircuit.Proofs.Forest.Diagram

namespace ShortCircuit

open Decimal (Writable intText)
open Failing ShortCircuit.Graph Text

/-- What stands in front of the first of some characters is found, and what stands behind it. -/
theorem Text.eq_of_append_cons {front front' rest rest' : Text} {c : CodePoint} (h : c ∉ front)
    (h' : c ∉ front') (heq : front ++ c :: rest = front' ++ c :: rest') :
    front = front' ∧ rest = rest' := by
  induction front generalizing front' with
  | nil =>
    cases front' with
    | nil => exact ⟨rfl, (List.cons.inj heq).2⟩
    | cons d front' =>
      obtain ⟨rfl, -⟩ := List.cons.inj heq
      exact absurd (List.mem_cons_self ..) h'
  | cons d front ih =>
    cases front' with
    | nil =>
      obtain ⟨rfl, -⟩ := List.cons.inj heq
      exact absurd (List.mem_cons_self ..) h
    | cons d' front' =>
      obtain ⟨rfl, htail⟩ := List.cons.inj heq
      obtain ⟨rfl, hrest⟩ :=
        ih (List.not_mem_of_not_mem_cons h) (List.not_mem_of_not_mem_cons h') htail
      exact ⟨rfl, hrest⟩

/-! ## Texts that can be shown -/

namespace Text

variable {s t : Text}

/-- The text is made of characters that can be shown as they are. -/
def ShownText (s : Text) : Prop := ∀ p ∈ s, ∃ c, p = .char c ∧ isPrintable c = true

@[simp] theorem shownText_append : ShownText (s ++ t) ↔ ShownText s ∧ ShownText t :=
  List.forall_mem_append

theorem shownText_ofChars {s : List Char} (h : Shown s) : ShownText (ofChars s) :=
  List.forall_mem_map.2 fun c hc => ⟨c, rfl, h c hc⟩

/-- A line break cannot be shown. -/
theorem ShownText.notMem_newline (h : ShownText s) : .char '\n' ∉ s := by
  intro hmem
  obtain ⟨c, heq, hc⟩ := h _ hmem
  cases heq
  exact absurd hc (by decide)

end Text

theorem Graph.shownText_dotText {value : Text} (h : ShownText value) :
    ShownText (dotText value) := by
  have hescape {c : Char} (hc : isPrintable c = true) :
      ShownText [.char '\\', .char c] := shownText_ofChars (s := ['\\', c]) (by simp [hc]; decide)
  have hquote : ShownText [.char '"'] := shownText_ofChars (s := ['"']) (by decide)
  refine shownText_append.2 ⟨shownText_append.2 ⟨hquote, fun p hp => ?_⟩, hquote⟩
  obtain ⟨q, hq, hp⟩ := List.mem_flatMap.1 hp
  rcases dotPoint_cases q with ⟨-, hwritten⟩ | ⟨-, hwritten⟩ | ⟨-, -, hwritten⟩
  · rw [hwritten] at hp
    exact hescape (by decide) p hp
  · rw [hwritten] at hp
    exact hescape (by decide) p hp
  · rw [hwritten, List.mem_singleton] at hp
    exact hp ▸ h q hq

namespace Forest

variable {f g : Forest} {node other : NodeId × String} {nodes others : List (NodeId × String)}
  {edge : NodeId × Int × NodeId} {edges : List (NodeId × Int × NodeId)}

/-! ## Lines taken apart -/

theorem space_notMem_intText (n : Int) : .char ' ' ∉ ofChars (intText n) := by
  rw [char_mem_ofChars]
  intro h
  rcases Decimal.isDigit_of_mem_intText h with h | h
  · exact absurd h (by decide)
  · exact absurd h (by decide)

theorem nodeLine_eq (node : NodeId × String) : nodeLine node =
    ofChars (intText node.1) ++ .char ' ' ::
      (ofString "[label=" ++ dotText node.2 ++ ofString ", shape=\"box\"];") := by
  simp [nodeLine, ofString]

theorem edgeLine_eq (edge : NodeId × Int × NodeId) : edgeLine edge =
    ofChars (intText edge.1) ++ .char ' ' :: (ofString "-> " ++ (ofChars (intText edge.2.2) ++
      .char ' ' :: (ofString "[label=" ++ dotText (ofChars (intText edge.2.1)) ++
        ofString "];"))) := by
  simp [edgeLine, ofString]

/-- A line of a node tells which node it is and, if its label is one line, what its label is. -/
theorem nodeLine_inj (h : '\n' ∉ node.2.toList) (h' : '\n' ∉ other.2.toList)
    (heq : nodeLine node = nodeLine other) : node = other := by
  rw [← char_mem_ofChars] at h h'
  rw [nodeLine_eq, nodeLine_eq] at heq
  obtain ⟨hname, hrest⟩ := eq_of_append_cons (space_notMem_intText _) (space_notMem_intText _) heq
  have hvalue := List.append_cancel_left (List.append_cancel_right hrest)
  have hlabel := ofString_inj.1 ((dotText_inj h h').1 hvalue)
  exact Prod.ext (Decimal.intText_injective (ofChars_inj.1 hname)) hlabel

theorem edgeLine_injective : Function.Injective edgeLine := by
  intro edge other heq
  have hbreak (n : Int) : .char '\n' ∉ ofChars (intText n) :=
    mt char_mem_ofChars.1 (Decimal.shown_intText n).notMem_newline
  rw [edgeLine_eq, edgeLine_eq] at heq
  obtain ⟨hsource, hrest⟩ := eq_of_append_cons (space_notMem_intText _) (space_notMem_intText _) heq
  obtain ⟨hsink, hrest⟩ := eq_of_append_cons (space_notMem_intText _) (space_notMem_intText _)
    (List.append_cancel_left hrest)
  have hvalue := List.append_cancel_left (List.append_cancel_right hrest)
  have hslot := ofChars_inj.1 ((dotText_inj (hbreak _) (hbreak _)).1 hvalue)
  exact Prod.ext (Decimal.intText_injective (ofChars_inj.1 hsource))
    (Prod.ext (Decimal.intText_injective hslot) (Decimal.intText_injective (ofChars_inj.1 hsink)))

/-- Behind the first space, a node has a bracket and an edge an arrow. -/
theorem nodeLine_ne_edgeLine : nodeLine node ≠ edgeLine edge := by
  intro heq
  rw [nodeLine_eq, edgeLine_eq] at heq
  obtain ⟨-, hrest⟩ := eq_of_append_cons (space_notMem_intText _) (space_notMem_intText _) heq
  exact absurd (List.cons.inj hrest).1 (by decide)

theorem lines_inj {edges' : List (NodeId × Int × NodeId)}
    (h : ∀ node ∈ nodes, '\n' ∉ node.2.toList) (h' : ∀ node ∈ others, '\n' ∉ node.2.toList)
    (heq : nodes.map nodeLine ++ edges.map edgeLine = others.map nodeLine ++ edges'.map edgeLine) :
    nodes = others ∧ edges = edges' := by
  induction nodes generalizing others with
  | nil =>
    cases others with
    | nil => exact ⟨rfl, List.map_injective_iff.2 edgeLine_injective heq⟩
    | cons other others =>
      cases edges with
      | nil => exact absurd heq (List.cons_ne_nil _ _).symm
      | cons edge edges => exact absurd (List.cons.inj heq).1.symm nodeLine_ne_edgeLine
  | cons node nodes ih =>
    cases others with
    | nil =>
      cases edges' with
      | nil => exact absurd heq (List.cons_ne_nil _ _)
      | cons edge edges' => exact absurd (List.cons.inj heq).1 nodeLine_ne_edgeLine
    | cons other others =>
      obtain ⟨hnode, hnodes⟩ := List.forall_mem_cons.1 h
      obtain ⟨hother, hothers⟩ := List.forall_mem_cons.1 h'
      obtain ⟨hline, hrest⟩ := List.cons.inj heq
      obtain ⟨rfl, rfl⟩ := ih hnodes hothers hrest
      exact ⟨by rw [nodeLine_inj hnode hother hline], rfl⟩

theorem shownText_nodeLine (h : Shown node.2.toList) : ShownText (nodeLine node) := by
  have hfront : Shown " [label=".toList := by decide
  have hback : Shown ", shape=\"box\"];".toList := by decide
  rw [nodeLine, shownText_append, shownText_append, shownText_append]
  exact ⟨⟨⟨shownText_ofChars (Decimal.shown_intText _), shownText_ofChars hfront⟩,
    shownText_dotText (shownText_ofChars h)⟩, shownText_ofChars hback⟩

theorem shownText_edgeLine (edge : NodeId × Int × NodeId) : ShownText (edgeLine edge) := by
  have hint (n : Int) : ShownText (ofChars (intText n)) :=
    shownText_ofChars (Decimal.shown_intText n)
  have harrow : Shown " -> ".toList := by decide
  have hfront : Shown " [label=".toList := by decide
  have hback : Shown "];".toList := by decide
  simp only [edgeLine, shownText_append]
  exact ⟨⟨⟨⟨⟨hint _, shownText_ofChars harrow⟩, hint _⟩, shownText_ofChars hfront⟩,
    shownText_dotText (hint _)⟩, shownText_ofChars hback⟩

/-- A label is one line, whatever the node carries. -/
theorem shown_labels (h : f.labels = .ok nodes) : ∀ node ∈ nodes, Shown node.2.toList := by
  intro node hnode
  obtain ⟨t, -, -, hlabel⟩ := exists_of_forall₂ (labels_eq_ok_iff.1 h).flip hnode
  obtain ⟨-, shown, hshown, hlabel⟩ := Tree.label_eq_ok_iff.1 hlabel
  rw [hlabel, String.toList_ofList, shown_append, shown_append]
  exact ⟨⟨Decimal.shown_intText _, by decide⟩, Kind.shown_label hshown⟩

/-- All lines of a diagram. -/
def dotLines (f : Forest) (nodes : List (NodeId × String)) : List Text :=
  firstLine :: (nodes.map nodeLine ++ f.edges.map edgeLine) ++ [lastLine]

theorem shownText_dotLines (h : f.labels = .ok nodes) :
    ∀ line ∈ f.dotLines nodes, ShownText line := by
  have hnodes : ∀ line ∈ nodes.map nodeLine, ShownText line :=
    List.forall_mem_map.2 fun node hnode => shownText_nodeLine (shown_labels h node hnode)
  have hedges : ∀ line ∈ f.edges.map edgeLine, ShownText line :=
    List.forall_mem_map.2 fun edge _ => shownText_edgeLine edge
  have hfirst : Shown "digraph  \x7b".toList := by decide
  have hlast : Shown "\x7d".toList := by decide
  rw [dotLines, List.forall_mem_append, List.forall_mem_cons, List.forall_mem_append,
    List.forall_mem_singleton]
  exact ⟨⟨shownText_ofChars hfirst, hnodes, hedges⟩, shownText_ofChars hlast⟩

namespace WellFormed

variable {text : Text} (wf : f.WellFormed)
include wf

/-- The lines of a text are those of the diagram that it shows. -/
theorem exists_of_dot (h : f.dot = .ok text) :
    ∃ nodes, f.labels = .ok nodes ∧ text.splitOn (.char '\n') = f.dotLines nodes := by
  obtain ⟨nodes, hlabels, -, rfl⟩ := wf.dot_eq_ok_iff.1 h
  exact ⟨nodes, hlabels, List.splitOn_intercalate _
    (fun line hline => (shownText_dotLines hlabels line hline).notMem_newline)
    (List.cons_ne_nil _ _)⟩

/-- There is a text unless an integer in it is too long. -/
theorem exists_dot_iff :
    (∃ text, f.dot = .ok text) ↔
      f.ShortIntegers ∧ (∀ n ∈ f.ids, Writable n) ∧ ∀ edge ∈ f.edges, Writable edge.2.1 := by
  have hlabels : (∃ nodes, f.labels = .ok nodes) ↔
      ∀ t ∈ f.subtrees, t.kind.isShort = true ∧ Writable t.id := by
    rw [labels, exists_mapM_iff]
    refine ⟨fun h t ht => ?_, fun h t ht => ?_⟩
    · obtain ⟨node, hnode⟩ := h t (wf.mem_inAge_iff.2 ht)
      obtain ⟨label, hlabel, -⟩ := exists_of_bind_eq_ok hnode
      obtain ⟨hwritable, shown, hshown, -⟩ := Tree.label_eq_ok_iff.1 hlabel
      exact ⟨Kind.exists_label_iff.1 ⟨shown, hshown⟩, hwritable⟩
    · obtain ⟨hshort, hwritable⟩ := h t (wf.mem_inAge_iff.1 ht)
      obtain ⟨shown, hshown⟩ := Kind.exists_label_iff.2 hshort
      rw [Tree.label_eq_ok_iff.2 ⟨hwritable, shown, hshown, rfl⟩]
      exact ⟨_, rfl⟩
  constructor
  · rintro ⟨text, h⟩
    obtain ⟨nodes, hnodes, hslots, -⟩ := wf.dot_eq_ok_iff.1 h
    have hall := hlabels.1 ⟨nodes, hnodes⟩
    refine ⟨fun t ht => (hall t ht).1, fun n hn => ?_, hslots⟩
    obtain ⟨t, ht, rfl⟩ := mem_ids.1 hn
    exact (hall t ht).2
  · rintro ⟨hshort, hnames, hslots⟩
    obtain ⟨nodes, hnodes⟩ := hlabels.2 fun t ht =>
      ⟨hshort t ht, hnames t.id (id_mem_of_mem_subtrees ht)⟩
    exact ⟨_, wf.dot_eq_ok_iff.2 ⟨nodes, hnodes, hslots, rfl⟩⟩

theorem length_dotLines (h : f.labels = .ok nodes) :
    (f.dotLines nodes).length = 2 + f.size + f.edges.length := by
  have hnodes : nodes.length = f.size := by
    rw [← length_ids, ← wf.map_name_labels h, List.length_map]
  rw [dotLines, List.length_append, List.length_cons, List.length_append, List.length_map,
    List.length_map, hnodes, List.length_singleton]
  omega

/-- What a node is can be told from the labels. -/
theorem label_of_labels (h : f.labels = .ok nodes) {t : Tree} (ht : t ∈ f.subtrees) :
    ∃ label, (t.id, label) ∈ nodes ∧ t.label = .ok label := by
  obtain ⟨node, hnode, hid, hlabel⟩ := exists_of_forall₂ (labels_eq_ok_iff.1 h)
    (wf.mem_inAge_iff.2 ht)
  rw [← hid]
  exact ⟨node.2, hnode, hlabel⟩

end WellFormed

/-! ## Reachable forests -/

/-- A parenthesised name that looks like lines of a diagram. -/
def imitating (slot : Int) : Forest :=
  ((Session.start .debug).after [.plant (.path "0\"];\n1 -> 0 [label=\"7\"];"), .plant .paren,
    .attach (some 1) (some 0) slot]).forest

end Forest

end ShortCircuit

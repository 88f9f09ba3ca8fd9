/-
  ShortCircuit.Proofs.UserSettings

  What the file of a user does to the settings.  Settings that have been written
  as text are read back and laid over the defaults.  Of the other texts a file may
  hold, those that are no JSON leave the defaults as they are, and those that are
  JSON but hold no entries are faults.
-/

import ShortCircuit.Proofs.Json.Failing
import ShortCircuit.Proofs.Json.Writing
import ShortCircuit.Settings

namespace ShortCircuit

open Failing

variable {v : Value} {entry : Scalar × Value} {entries : List (Scalar × Value)} {index : Nat}
  {cause : Fault} {text : String} {journal : Journal}

/-! ## Values as entries -/

namespace Value

/-- A value of two members, the first of which is a scalar: a list, a table of which the keys
    count, or a text of two code points. -/
inductive Pair : Value → Scalar × Value → Prop
  | list (key : Scalar) (v : Value) : Pair (.list [.scalar key, v]) (key, v)
  | table (key key' : Scalar) (v v' : Value) :
    Pair (.table [(key, v), (key', v')]) (key, .scalar key')
  | text (p q : CodePoint) : Pair (.scalar (.text [p, q])) (.text [p], .scalar (.text [q]))

theorem members?_eq_some_iff {key : Scalar} {w : Value} :
    v.members? = some [.scalar key, w] ↔ Pair v (key, w) := by
  constructor
  · intro h
    cases v with
    | list items =>
      cases h
      exact .list key w
    | table entries =>
      obtain ⟨⟨k, v⟩, rest, rfl, hkey, hrest⟩ := List.map_eq_cons_iff.1 (Option.some.inj h)
      obtain ⟨⟨k', v'⟩, rest, rfl, hw, hrest⟩ := List.map_eq_cons_iff.1 hrest
      cases List.map_eq_nil_iff.1 hrest
      cases hkey
      cases hw
      exact .table ..
    | scalar x =>
      cases x with
      | text s =>
        obtain ⟨p, rest, rfl, hkey, hrest⟩ := List.map_eq_cons_iff.1 (Option.some.inj h)
        obtain ⟨q, rest, rfl, hw, hrest⟩ := List.map_eq_cons_iff.1 hrest
        cases List.map_eq_nil_iff.1 hrest
        cases hkey
        cases hw
        exact .text p q
      | _ => cases h
  · intro h
    cases h with
    | list => rfl
    | table => rfl
    | text => rfl

/-- The values that are read as an entry are the pairs. -/
theorem toEntry_eq_ok_iff : v.toEntry index = .ok entry ↔ Pair v entry := by
  obtain ⟨key, w⟩ := entry
  rw [← members?_eq_some_iff, toEntry]
  -- No members, a pair behind a scalar, a pair behind another value, and another number of members.
  split
  · rename_i hnone
    rw [hnone]
    exact iff_of_false (by simp) (by simp)
  · rename_i key' w' hmembers
    rw [hmembers]
    simp
  · rename_i key' w' hscalar hmembers
    rw [hmembers]
    refine iff_of_false (by simp) fun heq => ?_
    cases heq
    exact hscalar key rfl
  · rename_i members hpair hmembers
    rw [hmembers]
    refine iff_of_false (by simp) fun heq => ?_
    cases heq
    exact hpair _ _ rfl

/-- The entries that a value holds: those of a table, or the pairs of a list.  A text with nothing
    in it has none. -/
inductive Holds : Value → List (Scalar × Value) → Prop
  | table (entries : List (Scalar × Value)) : Holds (.table entries) entries
  | list {items : List Value} {entries : List (Scalar × Value)}
    (pairs : List.Forall₂ Pair items entries) : Holds (.list items) entries
  | emptyText : Holds (.scalar (.text [])) []

/-- Where a member stands among the others makes no difference. -/
theorem toEntry_members_iff (items : List Value) :
    (items.zipIdx.mapM fun (member, index) => member.toEntry index) = .ok entries ↔
      List.Forall₂ Pair items entries := by
  have hitems : items = items.zipIdx.map Prod.fst := (List.zipIdx_map_fst 0 items).symm
  rw [mapM_eq_ok_iff]
  conv_rhs => rw [hitems, List.forall₂_map_left_iff]
  simp only [toEntry_eq_ok_iff]

/-- The code points of a text are no pairs. -/
theorem forall₂_pair_points {s : Text} :
    List.Forall₂ Pair (s.map fun point => scalar (.text [point])) entries ↔
      s = [] ∧ entries = [] := by
  constructor
  · intro h
    cases s with
    | nil => exact ⟨rfl, List.forall₂_nil_left_iff.1 h⟩
    | cons point s =>
      obtain ⟨entry, rest, hpair, -⟩ := List.forall₂_cons_left_iff.1 h
      cases hpair
  · rintro ⟨rfl, rfl⟩
    exact .nil

theorem toEntries_eq_ok_iff : v.toEntries = .ok entries ↔ v.Holds entries := by
  cases v with
  | table members =>
    constructor
    · intro h
      cases h
      exact .table _
    · intro h
      cases h
      rfl
  | list items =>
    refine Iff.trans (toEntry_members_iff items) ⟨.list, fun h => ?_⟩
    cases h
    assumption
  | scalar x =>
    cases x with
    | text s =>
      refine Iff.trans (toEntry_members_iff (s.map _)) ?_
      rw [forall₂_pair_points]
      constructor
      · rintro ⟨rfl, rfl⟩
        exact .emptyText
      · intro h
        cases h
        exact ⟨rfl, rfl⟩
    | _ => exact iff_of_false (fun h => by cases h) fun h => by cases h

end Value

/-! ## What becomes of the settings -/

namespace Settings

theorem texts_default : ∀ entry ∈ defaultEntries, ∃ s, entry.1 = .text s := by
  simp [defaultEntries]

theorem distinct_default : Table.Distinct defaultEntries := by
  simp [Table.Distinct, defaultEntries, Scalar.sameKey, Scalar.toInt?, logLevelKey, iterationsKey]

/-- The journal once the default settings are set up and the file of the user is found. -/
def found (journal : Journal) : Journal :=
  (journal.note .debug "initialize Options").note .debug s!"user config found at {userFile}"

/-- The journal once that file has turned out to be malformed. -/
def notLoaded (journal : Journal) : Journal :=
  (found journal).note .warning s!"could not load user config at {userFile}"

/-- Settings that say what the entries say, of which the last of a key counts, and for all other
    keys what the defaults say.  No key stands in them twice. -/
structure LaidOver (settings : Settings) (entries : List (Scalar × Value)) : Prop where
  distinct : Table.Distinct settings.entries
  get (key : Scalar) : settings.entries.get? key =
    (Table.get? entries.reverse key).or (Table.get? defaultEntries key)

/-- The defaults, with entries written over them. -/
def overDefaults (entries : List (Scalar × Value)) : Settings :=
  ⟨Table.putAll entries defaultEntries⟩

theorem laidOver_overDefaults (entries : List (Scalar × Value)) :
    (overDefaults entries).LaidOver entries where
  distinct := distinct_default.putAll entries
  get := Table.get?_putAll entries defaultEntries

/-- What reading the file gives decides. -/
theorem ofUserFile_eq (text : String) (journal : Journal) :
    ofUserFile (some text) journal =
      match Json.read text.toList with
      | .ok v => (v.toEntries.map overDefaults, found journal)
      | .error (.fault cause) => (.error cause, found journal)
      | .error .malformed => (.ok ⟨defaultEntries⟩, notLoaded journal) := by
  have hdefaults : Table.ofList defaultEntries = defaultEntries := distinct_default.ofList_eq
  -- Whatever the text is, the defaults are set up first and the journal is told of the file.
  have hstart : ofUserFile (some text) journal =
      (match Json.read text.toList with
        | .ok v => do return update ⟨Table.ofList defaultEntries⟩ (← v.toEntries)
        | .error (.fault cause) => throw cause
        | .error .malformed => do
          modify (·.note .warning s!"could not load user config at {userFile}")
          return ⟨Table.ofList defaultEntries⟩ : ExceptT Fault (StateM Journal) Settings)
        (found journal) := rfl
  rw [hstart, hdefaults]
  cases Json.read text.toList with
  | ok v =>
    dsimp only
    cases v.toEntries <;> rfl
  | error why => cases why <;> rfl

/-! ## Settings that are written and read back -/

/-- Settings that are written as text can be kept in the file of the user: they are all read back,
    and where they say nothing the defaults hold. -/
theorem ofUserFile_text (o : Settings) (portable : Json.Portable (.table o.entries))
    (journal : Journal) :
    ∃ text settings, o.text = .ok text ∧
      ofUserFile (some text) journal = (.ok settings, found journal) ∧
      Table.Distinct settings.entries ∧
      (∀ key, key ∈ settings.entries.keys ↔
        key ∈ Table.keys defaultEntries ∨ key ∈ o.entries.keys) ∧
      ∀ key, settings.entries.get? key =
        (o.entries.get? key).or (Table.get? defaultEntries key) := by
  obtain ⟨chars, hwrite, document⟩ := portable.exists_document
  have distinct : Table.Distinct o.entries := by
    cases portable
    assumption
  have laidOver := laidOver_overDefaults o.entries
  refine ⟨String.ofList chars, overDefaults o.entries, ?_, ?_, laidOver.distinct, fun key => ?_,
    fun key => ?_⟩
  · rw [text, hwrite]
    rfl
  · rw [ofUserFile_eq, String.toList_ofList, Json.read_eq_ok_iff.2 document]
    rfl
  · -- Only keys that the defaults lack come behind theirs, but those they have are there already.
    have hnew : key ∈ Table.keys defaultEntries ↔ (Table.get? defaultEntries key).isNone = false :=
      Table.mem_keys_iff texts_default
    rw [overDefaults, distinct.keys_putAll, List.mem_append, List.mem_filter]
    by_cases hdefault : key ∈ Table.keys defaultEntries
    · exact iff_of_true (.inl hdefault) (.inl hdefault)
    · have hnone := Bool.of_not_eq_false (mt hnew.2 hdefault)
      rw [hnone]
      simp [hdefault]
  · rw [laidOver.get, distinct.get?_reverse]

/-- Settings of three values, one of them nested, that hide one of the defaults. -/
def nested : Settings where
  entries := [(.text "trace", .scalar (.bool true)), (.text iterationsKey, .scalar (.int (-7))),
    (.text "names",
      .list [.scalar (.text "é\n😀"), .table [(.text "", .list []), (.text "0", .null)]])]

theorem portable_nested : Json.Portable (.table nested.entries) := by
  refine .table (by simp [nested]) ?_ ?_
  · simp [nested, Table.Distinct, Scalar.sameKey, Scalar.toInt?, iterationsKey]
  · have htable : Json.Portable (.table [(.text "", .list []), (.text "0", .null)]) := by
      refine .table (by simp) (by simp [Table.Distinct, Scalar.sameKey, Scalar.toInt?]) ?_
      exact List.forall_mem_cons.2 ⟨.list (List.forall_mem_nil _),
        List.forall_mem_singleton.2 .null⟩
    have hlist := List.forall_mem_cons.2
      ⟨Json.Portable.text "é\n😀", List.forall_mem_singleton.2 htable⟩
    exact List.forall_mem_cons.2 ⟨.bool true, List.forall_mem_cons.2 ⟨.int (by decide),
      List.forall_mem_singleton.2 (.list hlist)⟩⟩

/-- The flag comes back as a flag, and what is not said is the default. -/
theorem ofUserFile_text_nested :
    ∃ text settings, nested.text = .ok text ∧
      ofUserFile (some text) (.empty .debug) = (.ok settings, found (.empty .debug)) ∧
      settings.entries.get? (.text "trace") = some (.scalar (.bool true)) ∧
      settings.entries.get? (.text iterationsKey) = some (.scalar (.int (-7))) ∧
      settings.entries.get? (.text logLevelKey) = some (.scalar (.text "WARNING")) := by
  obtain ⟨text, settings, htext, hfile, -, -, hget⟩ :=
    ofUserFile_text nested portable_nested (.empty .debug)
  refine ⟨text, settings, htext, hfile, ?_, ?_, ?_⟩
  · rw [hget]
    rfl
  · rw [hget]
    rfl
  · rw [hget]
    rfl

/-! ## Whatever the file holds -/

/-- Of entries with equal keys, a table that is made of them has kept the last. -/
theorem LaidOver.ofList {settings : Settings} (h : settings.LaidOver (Table.ofList entries)) :
    settings.LaidOver entries where
  distinct := h.distinct
  get key := by
    rw [h.get key, (Table.distinct_ofList entries).get?_reverse, Table.get?_ofList]

/-- A file whose text stands for a value that holds entries lays these over the defaults. -/
theorem exists_laidOver (document : Json.Document text.toList v) (holds : v.Holds entries)
    (journal : Journal) :
    ∃ settings, ofUserFile (some text) journal = (.ok settings, found journal) ∧
      settings.LaidOver entries := by
  refine ⟨overDefaults entries, ?_, laidOver_overDefaults entries⟩
  rw [ofUserFile_eq, Json.read_eq_ok_iff.2 document]
  dsimp only
  rw [Value.toEntries_eq_ok_iff.2 holds]
  rfl

/-- Whatever the file of the user holds decides what becomes of the settings.  The members of a
    table are laid over the defaults, and so are entries that the file holds in another form; what
    is malformed leaves the defaults as they are.  But to read any other value, or to come to an
    integer that is too long, is a fault. -/
theorem ofUserFile_outcome (text : String) (journal : Journal) :
    (∀ members, Json.Object text.toList members →
      ∃ settings, ofUserFile (some text) journal = (.ok settings, found journal) ∧
        settings.LaidOver (members.map Json.Member.entry)) ∧
    (∀ v entries, Json.Document text.toList v → v.Holds entries →
      ∃ settings, ofUserFile (some text) journal = (.ok settings, found journal) ∧
        settings.LaidOver entries) ∧
    (∀ v, Json.Document text.toList v → (∀ entries, ¬v.Holds entries) →
      ∃ cause, ofUserFile (some text) journal = (.error cause, found journal)) ∧
    (∀ cause, Json.Unrepresentable text.toList cause →
      ofUserFile (some text) journal = (.error cause, found journal)) ∧
    ((∀ v, ¬Json.Document text.toList v) → (∀ cause, ¬Json.Unrepresentable text.toList cause) →
      ofUserFile (some text) journal = (.ok ⟨defaultEntries⟩, notLoaded journal)) := by
  refine ⟨fun members object => ?_,
    fun v entries document holds => exists_laidOver document holds journal,
    fun v document none => ?_, fun cause unrepresentable => ?_, fun noDocument representable => ?_⟩
  · have document := Json.document_table_iff.2 ⟨members, object, rfl⟩
    obtain ⟨settings, hfile, laidOver⟩ := exists_laidOver document (.table _) journal
    exact ⟨settings, hfile, laidOver.ofList⟩
  · rw [ofUserFile_eq, Json.read_eq_ok_iff.2 document]
    cases hentries : v.toEntries with
    | ok entries => exact absurd (Value.toEntries_eq_ok_iff.1 hentries) (none entries)
    | error cause =>
      refine ⟨cause, ?_⟩
      dsimp only
      rw [hentries]
      rfl
  · rw [ofUserFile_eq, Json.read_fault_iff.2 unrepresentable]
  · rw [ofUserFile_eq, Json.read_malformed_iff.2 ⟨noDocument, representable⟩]

/-- A value without blanks around it. -/
def bare (s : List Char) (v : Value) : Json.Item := ⟨[], s, [], v⟩

theorem spaced_bare (s : List Char) (v : Value) : (bare s v).Spaced :=
  ⟨Json.blank_nil, Json.blank_nil⟩

/-- A list of a number is JSON. -/
theorem document_numbers : Json.Document "[1]".toList (.list [.scalar (.int 1)]) := by
  have one := Json.spells_intText (n := 1) (by decide)
  have spells := @Json.Spells.list [] (bare _ _)
    (List.forall_mem_singleton.2 (spaced_bare _ _)) (List.forall_mem_singleton.2 one)
  exact spells.document

/-- So is a list of a pair. -/
theorem document_pairs :
    Json.Document "[[\"a\",1]]".toList
      (.list [.list [.scalar (.text "a"), .scalar (.int 1)]]) := by
  have one := Json.spells_intText (n := 1) (by decide)
  have pair := @Json.Spells.list [bare _ _] (bare _ _)
    (List.forall_mem_cons.2 ⟨spaced_bare _ _, List.forall_mem_singleton.2 (spaced_bare _ _)⟩)
    (List.forall_mem_cons.2 ⟨Json.spells_writeText "a", List.forall_mem_singleton.2 one⟩)
  have spells := @Json.Spells.list [] (bare _ _)
    (List.forall_mem_singleton.2 (spaced_bare _ _)) (List.forall_mem_singleton.2 pair)
  exact spells.document

/-- A number as a member of a table, without blanks. -/
def numbered (text : List Char) (name : Text) (n : Int) : Json.Member :=
  ⟨⟨[], text, [], name⟩, bare (Decimal.intText n) (.scalar (.int n))⟩

/-- Two numbers make up a table, whatever their keys are. -/
theorem object_numbered {first second : List Char} {key other : Text}
    (isFirst : Json.Content first key) (isSecond : Json.Content second other) :
    Json.Object ('\x7b' :: ((numbered first key 1).withComma ++
        ((numbered second other 2).padded ++ ['\x7d'])))
      [numbered first key 1, numbered second other 2] := by
  have spaced {text : List Char} {name : Text} (content : Json.Content text name) (n : Int) :
      (numbered text name n).Spaced :=
    ⟨⟨Json.blank_nil, Json.blank_nil, content⟩, spaced_bare ..⟩
  have object := @Json.Object.members [] [] [numbered first key 1] (numbered second other 2)
    Json.blank_nil
    (List.forall_mem_cons.2 ⟨spaced isFirst 1, List.forall_mem_singleton.2 (spaced isSecond 2)⟩)
    (List.forall_mem_cons.2 ⟨Json.spells_intText (n := 1) (by decide),
      List.forall_mem_singleton.2 (Json.spells_intText (n := 2) (by decide))⟩)
    Json.blank_nil
  simpa using object

/-- The first half of a pair. -/
def firstHalf : CodePoint := .half 0xD800 (by decide)

/-- The second half of a pair. -/
def secondHalf : CodePoint := .half 0xDC00 (by decide)

/-- One key may stand twice. -/
theorem object_twice :
    Json.Object "\x7b\"a\":1,\"a\":2\x7d".toList [numbered ['a'] "a" 1, numbered ['a'] "a" 2] :=
  object_numbered (Json.content_written ['a']) (Json.content_written ['a'])

/-- Halves of pairs make up keys of their own. -/
theorem object_halves :
    Json.Object "\x7b\"\\ud800\":1,\"\\udc00\":2\x7d".toList
      [numbered "\\ud800".toList [firstHalf] 1, numbered "\\udc00".toList [secondHalf] 2] := by
  have hfirst : Json.unitEscape 0xD800 = "\\ud800".toList := by decide
  have hsecond : Json.unitEscape 0xDC00 = "\\udc00".toList := by decide
  have object := object_numbered (Json.content_half (n := 0xD800) (by decide))
    (Json.content_half (n := 0xDC00) (by decide))
  rw [hfirst, hsecond] at object
  exact object

/-- One digit too many. -/
def long : String := String.ofList (List.replicate (Fault.digitLimit + 1) '1')

theorem unrepresentable_long :
    Json.Unrepresentable long.toList (.numeralTooLong (Fault.digitLimit + 1)) := by
  have isWhole : Json.Whole (List.replicate (Fault.digitLimit + 1) '1') := by
    refine .digits (by decide) (by decide) fun c hc => ?_
    rw [List.eq_of_mem_replicate hc]
    decide
  have bare : Json.Bare [] := Json.bare_of_spanTail (by simp) rfl
  rw [long, String.toList_ofList]
  refine ⟨[], _, Json.blank_nil, rfl, _, .here, false, _, [], ?_, isWhole, ?_, bare, ?_⟩
  · exact (List.append_nil _).symm
  · rw [List.length_replicate]
    exact Nat.lt_succ_self _
  · rw [List.length_replicate]

theorem malformed_empty : Json.read "".toList = .error .malformed := rfl

/-- What each kind of text comes to, with a text of the kind. -/
theorem ofUserFile_outcome_kinds :
    (∃ settings, ofUserFile (some "\x7b\"a\":1,\"a\":2\x7d") (.empty .debug) =
        (.ok settings, found (.empty .debug)) ∧
      settings.entries.get? (.text "a") = some (.scalar (.int 2))) ∧
    (∃ settings, ofUserFile (some "\x7b\"\\ud800\":1,\"\\udc00\":2\x7d") (.empty .debug) =
        (.ok settings, found (.empty .debug)) ∧
      settings.entries.get? (.text [firstHalf]) = some (.scalar (.int 1)) ∧
      settings.entries.get? (.text [secondHalf]) = some (.scalar (.int 2))) ∧
    (∃ settings, ofUserFile (some "[[\"a\",1]]") (.empty .debug) =
        (.ok settings, found (.empty .debug)) ∧
      settings.LaidOver [(.text "a", .scalar (.int 1))]) ∧
    (∃ cause, ofUserFile (some "[1]") (.empty .debug) = (.error cause, found (.empty .debug))) ∧
    ofUserFile (some long) (.empty .debug) =
      (.error (.numeralTooLong (Fault.digitLimit + 1)), found (.empty .debug)) ∧
    ofUserFile (some "") (.empty .debug) = (.ok ⟨defaultEntries⟩, notLoaded (.empty .debug)) := by
  refine ⟨?_, ?_, ?_, ?_, ?_, ?_⟩
  · obtain ⟨settings, hfile, laidOver⟩ :=
      (ofUserFile_outcome _ (.empty .debug)).1 _ object_twice
    refine ⟨settings, hfile, ?_⟩
    rw [laidOver.get]
    rfl
  · obtain ⟨settings, hfile, laidOver⟩ :=
      (ofUserFile_outcome _ (.empty .debug)).1 _ object_halves
    refine ⟨settings, hfile, ?_, ?_⟩
    · rw [laidOver.get]
      rfl
    · rw [laidOver.get]
      rfl
  · exact (ofUserFile_outcome _ (.empty .debug)).2.1 _ _ document_pairs
      (.list (.cons (.list ..) .nil))
  · refine (ofUserFile_outcome _ (.empty .debug)).2.2.1 _ document_numbers fun entries holds => ?_
    cases holds with
    | list pairs =>
      obtain ⟨entry, rest, pair, -⟩ := List.forall₂_cons_left_iff.1 pairs
      cases pair
  · exact (ofUserFile_outcome _ (.empty .debug)).2.2.2.1 _ unrepresentable_long
  · obtain ⟨noDocument, representable⟩ := Json.read_malformed_iff.1 malformed_empty
    exact (ofUserFile_outcome _ (.empty .debug)).2.2.2.2 noDocument representable

/-- A list of a number is JSON but no table, and the request fails instead of falling back on the
    defaults. -/
theorem not_ofUserFile_defaults :
    (∀ members, ¬Json.Object "[1]".toList members) ∧
      ofUserFile (some "[1]") (.empty .debug) =
        (.error (.entryWithoutMembers 0), found (.empty .debug)) ∧
      ¬∃ settings, (ofUserFile (some "[1]") (.empty .debug)).1 = .ok settings := by
  have hfile : ofUserFile (some "[1]") (.empty .debug) =
      (.error (.entryWithoutMembers 0), found (.empty .debug)) := by
    rw [ofUserFile_eq, Json.read_eq_ok_iff.2 document_numbers]
    rfl
  refine ⟨fun members object => ?_, hfile, ?_⟩
  · have htable := Json.document_table_iff.2 ⟨members, object, rfl⟩
    cases htable.value_eq document_numbers
  · rintro ⟨settings, hsettings⟩
    rw [hfile] at hsettings
    cases hsettings

end Settings

end ShortCircuit

/-
  ShortCircuit.Proofs.Json.Grammar

  What JSON texts look like, and which values they stand for.  Besides what the
  standard allows there are three words for numbers that have no digits.  Of the
  members of a table that have equal keys, the last one counts.
-/

import ShortCircuit.Proofs.Json.Number
import ShortCircuit.Proofs.Json.Text

namespace ShortCircuit.Json

/-- A text of nothing but blanks. -/
def Blank (s : List Char) : Prop := ∀ c ∈ s, isBlank c = true

theorem blank_nil : Blank [] := List.forall_mem_nil _

/-- The text of a value with blanks around it, and the value. -/
structure Item where
  before : List Char
  text : List Char
  after : List Char
  value : Value

namespace Item

def padded (item : Item) : List Char := item.before ++ (item.text ++ item.after)

/-- The item in front of another one. -/
def withComma (item : Item) : List Char := item.padded ++ [',']

/-- There is nothing but blanks around the value. -/
structure Spaced (item : Item) : Prop where
  before : Blank item.before
  after : Blank item.after

end Item

/-- The text of a key between quotes, with blanks around it, and the key. -/
structure Key where
  before : List Char
  text : List Char
  after : List Char
  name : Text

namespace Key

/-- The key in front of its value. -/
def withColon (key : Key) : List Char :=
  key.before ++ '"' :: (key.text ++ '"' :: (key.after ++ [':']))

/-- There is nothing but blanks around the quotes, and between them stands the key. -/
structure Spaced (key : Key) : Prop where
  before : Blank key.before
  after : Blank key.after
  content : Content key.text key.name

end Key

/-- A key and its value, as they stand in a table. -/
structure Member where
  key : Key
  item : Item

namespace Member

def padded (m : Member) : List Char := m.key.withColon ++ m.item.padded

/-- The member in front of another one. -/
def withComma (m : Member) : List Char := m.padded ++ [',']

/-- The entry that the member makes. -/
def entry (m : Member) : Scalar × Value := (.text m.key.name, m.item.value)

structure Spaced (m : Member) : Prop where
  key : m.key.Spaced
  item : m.item.Spaced

end Member

/-- The text of a value, without blanks around it. -/
inductive Spells : List Char → Value → Prop
  | word {word : String} {x : Scalar} (listed : (word, x) ∈ wordScalars) :
    Spells word.toList (.scalar x)
  | number {s : List Char} {x : Scalar} (number : Number s x) : Spells s (.scalar x)
  | text {content : List Char} {text : Text} (isContent : Content content text) :
    Spells ('"' :: (content ++ ['"'])) (.scalar (.text text))
  | emptyList {blanks : List Char} (blank : Blank blanks) :
    Spells ('[' :: (blanks ++ [']'])) (.list [])
  | list {items : List Item} {last : Item} (spaced : ∀ item ∈ items ++ [last], item.Spaced)
    (spelled : ∀ item ∈ items ++ [last], Spells item.text item.value) :
    Spells ('[' :: (items.flatMap Item.withComma ++ (last.padded ++ [']'])))
      (.list ((items ++ [last]).map Item.value))
  | emptyTable {blanks : List Char} (blank : Blank blanks) :
    Spells ('\x7b' :: (blanks ++ ['\x7d'])) (.table [])
  | table {members : List Member} {last : Member} (spaced : ∀ m ∈ members ++ [last], m.Spaced)
    (spelled : ∀ m ∈ members ++ [last], Spells m.item.text m.item.value) :
    Spells ('\x7b' :: (members.flatMap Member.withComma ++ (last.padded ++ ['\x7d'])))
      (.table (Table.ofList ((members ++ [last]).map Member.entry)))

/-- A whole text, in which blanks may stand around the value. -/
def Document (s : List Char) (v : Value) : Prop :=
  ∃ item : Item, item.Spaced ∧ Spells item.text item.value ∧ s = item.padded ∧ v = item.value

/-- A whole text that is a table, and the members between its braces. -/
inductive Object : List Char → List Member → Prop
  | empty {before blanks after : List Char} (front : Blank before) (blank : Blank blanks)
    (back : Blank after) : Object (before ++ ('\x7b' :: (blanks ++ ['\x7d']) ++ after)) []
  | members {before after : List Char} {members : List Member} {last : Member}
    (front : Blank before) (spaced : ∀ m ∈ members ++ [last], m.Spaced)
    (spelled : ∀ m ∈ members ++ [last], Spells m.item.text m.item.value) (back : Blank after) :
    Object (before ++ ('\x7b' :: (members.flatMap Member.withComma ++ (last.padded ++ ['\x7d'])) ++
      after)) (members ++ [last])

variable {s rest blanks text : List Char} {v : Value} {x : Scalar} {c : Char} {fuel : Nat}

/-- The text of a value is a document of it. -/
theorem Spells.document (h : Spells s v) : Document s v :=
  ⟨⟨[], s, [], v⟩, ⟨blank_nil, blank_nil⟩, h, (List.append_nil s).symm, rfl⟩

/-! ## Tables -/

/-- The texts that stand for a table are those that are one, and the last of members with equal
    keys counts. -/
theorem document_table_iff {entries : Table Value} :
    Document s (.table entries) ↔
      ∃ members, Object s members ∧ entries = Table.ofList (members.map Member.entry) := by
  constructor
  · rintro ⟨⟨before, text, after, v⟩, spaced, spells, rfl, rfl⟩
    cases spells with
    | emptyTable blank => exact ⟨[], .empty spaced.before blank spaced.after, rfl⟩
    | table hspaced hspelled =>
      exact ⟨_, .members spaced.before hspaced hspelled spaced.after, rfl⟩
  · rintro ⟨members, object, rfl⟩
    cases object with
    | empty front blank back =>
      exact ⟨⟨_, _, _, _⟩, ⟨front, back⟩, .emptyTable blank, rfl, rfl⟩
    | members front spaced spelled back =>
      exact ⟨⟨_, _, _, _⟩, ⟨front, back⟩, .table spaced spelled, rfl, rfl⟩

/-! ## Blanks -/

theorem exists_of_skipBlanks (s : List Char) :
    ∃ blanks, Blank blanks ∧ s = blanks ++ skipBlanks s :=
  ⟨s.takeWhile isBlank, fun c hc => List.all_eq_true.1 List.all_takeWhile c hc,
    List.takeWhile_append_dropWhile.symm⟩

theorem skipBlanks_append (h : Blank blanks) (hs : ∀ c ∈ s.head?, isBlank c = false) :
    skipBlanks (blanks ++ s) = s := by
  rw [skipBlanks, List.dropWhile_append_of_pos h]
  cases s with
  | nil => rfl
  | cons c s => exact List.dropWhile_cons_of_neg (by simp [hs c rfl])

theorem isBlank_iff : isBlank c = true ↔ c ∈ [' ', '\t', '\n', '\r'] := by
  simp [isBlank, or_assoc]

/-- A value may be followed by blanks and by whatever may follow it. -/
theorem Ends.append_left (h : Blank blanks) (ends : Ends rest) : Ends (blanks ++ rest) := by
  cases blanks with
  | nil => exact ends
  | cons c blanks =>
    rintro d hd
    cases hd
    exact List.mem_append_left [',', ']', '\x7d'] (isBlank_iff.1 (h c (List.mem_cons_self ..)))

/-! ## How values begin -/

/-- No blank stands in front, and nothing that ends a list or a table. -/
def Begins (s : List Char) : Prop :=
  ∃ c back, s = c :: back ∧ isBlank c = false ∧ c ≠ ']' ∧ c ≠ '\x7d'

/-- A digit, maybe behind a minus sign. -/
def BeginsWithDigit (s : List Char) : Prop :=
  ∃ negative d back, s = Literal.minus negative ++ d :: back ∧ Decimal.isAsciiDigit d = true

theorem Whole.beginsWithDigit {whole : List Char} (h : Whole whole) (negative : Bool)
    (rest : List Char) : BeginsWithDigit (Literal.minus negative ++ (whole ++ rest)) := by
  cases h with
  | zero => exact ⟨negative, '0', rest, rfl, by decide⟩
  | digits digit => exact ⟨negative, _, _, rfl, digit⟩

theorem Number.beginsWithDigit (h : Number s x) (rest : List Char) :
    BeginsWithDigit (s ++ rest) := by
  cases h with
  | int negative isWhole =>
    rw [List.append_assoc]
    exact isWhole.beginsWithDigit negative rest
  | float negative isWhole =>
    rw [List.append_assoc, List.append_assoc]
    exact isWhole.beginsWithDigit negative _

theorem ne_of_isAsciiDigit (h : Decimal.isAsciiDigit c = true) {d : Char}
    (hd : Decimal.isAsciiDigit d = false) : c ≠ d := by
  rintro rfl
  rw [h] at hd
  cases hd

theorem BeginsWithDigit.begins (h : BeginsWithDigit s) : Begins s := by
  obtain ⟨negative, d, back, rfl, digit⟩ := h
  cases negative with
  | true => exact ⟨'-', d :: back, rfl, by decide, by decide, by decide⟩
  | false =>
    refine ⟨d, back, rfl, ?_, ne_of_isAsciiDigit digit (by decide),
      ne_of_isAsciiDigit digit (by decide)⟩
    rw [← Bool.not_eq_true, isBlank_iff]
    intro hmem
    have hall : ∀ c ∈ [' ', '\t', '\n', '\r'], Decimal.isAsciiDigit c = false := by decide
    exact ne_of_isAsciiDigit digit (hall d hmem) rfl

theorem Spells.begins (h : Spells s v) (rest : List Char) : Begins (s ++ rest) := by
  cases h with
  | @word word x listed =>
    have hall : ∀ entry ∈ wordScalars, ∀ c ∈ entry.1.toList.head?,
        isBlank c = false ∧ c ≠ ']' ∧ c ≠ '\x7d' := by decide
    have hne : ∀ entry ∈ wordScalars, entry.1.toList ≠ [] := by decide
    obtain ⟨c, back, hword⟩ := List.exists_cons_of_ne_nil (hne _ listed)
    refine ⟨c, back ++ rest, by rw [hword, List.cons_append], hall _ listed c ?_⟩
    rw [hword]
    rfl
  | number number => exact (number.beginsWithDigit rest).begins
  | text isContent => exact ⟨'"', _, rfl, by decide⟩
  | emptyList blank => exact ⟨'[', _, rfl, by decide⟩
  | list spaced => exact ⟨'[', _, rfl, by decide⟩
  | emptyTable blank => exact ⟨'\x7b', _, rfl, by decide⟩
  | table spaced => exact ⟨'\x7b', _, rfl, by decide⟩

theorem Spells.length_pos (h : Spells s v) : 0 < s.length := by
  obtain ⟨c, back, hs, -⟩ := h.begins []
  rw [List.append_nil] at hs
  rw [hs]
  exact Nat.succ_pos _

theorem skipBlanks_of_begins (hblank : Blank blanks) (h : Begins s) :
    skipBlanks (blanks ++ s) = s := by
  obtain ⟨c, back, rfl, hc, -⟩ := h
  refine skipBlanks_append hblank fun d hd => ?_
  cases hd
  exact hc

/-! ## Reading scalars -/

theorem afterWords?_eq_some_iff {words : String} :
    afterWords? words s = some rest ↔ s = words.toList ++ rest := by
  rw [afterWords?]
  constructor
  · intro h
    split at h
    · rename_i hfront
      obtain ⟨back, rfl⟩ := List.isPrefixOf_iff_prefix.1 hfront
      rw [← String.length_toList, List.drop_left, Option.some.injEq] at h
      rw [h]
    · cases h
  · rintro rfl
    rw [if_pos (List.isPrefixOf_iff_prefix.2 (List.prefix_append ..)), ← String.length_toList,
      List.drop_left]

/-- Whatever is read as a scalar is a word or a number. -/
theorem exists_of_readScalar (h : readScalar s = .ok (x, rest)) :
    ∃ front, s = front ++ rest ∧ Spells front (.scalar x) := by
  unfold readScalar at h
  split at h
  · rename_i found hfound
    cases h
    obtain ⟨⟨word, value⟩, listed, hword⟩ := List.exists_of_findSome?_eq_some hfound
    obtain ⟨back, hback, heq⟩ := Option.map_eq_some_iff.1 hword
    cases heq
    exact ⟨word.toList, afterWords?_eq_some_iff.1 hback, .word listed⟩
  · obtain ⟨front, hs, number⟩ := exists_of_readNumber h
    exact ⟨front, hs, .number number⟩

/-- A word is looked for first. -/
theorem readScalar_eq (s : List Char) :
    readScalar s = ((wordScalars.findSome? fun entry =>
      (afterWords? entry.1 s).map (entry.2, ·)).map Except.ok).getD (readNumber s) := by
  unfold readScalar
  split
  · rename_i found hfound
    rw [hfound]
    rfl
  · rename_i hnone
    rw [hnone]
    rfl

theorem readScalar_word {word : String} (listed : (word, x) ∈ wordScalars) (rest : List Char) :
    readScalar (word.toList ++ rest) = .ok (x, rest) := by
  have hsome : (wordScalars.findSome? fun entry =>
      (afterWords? entry.1 (word.toList ++ rest)).map (entry.2, ·)).isSome = true := by
    refine List.findSome?_isSome_iff.2 ⟨_, listed, ?_⟩
    rw [Option.isSome_map, afterWords?_eq_some_iff.2 rfl]
    rfl
  obtain ⟨found, hfound⟩ := Option.isSome_iff_exists.1 hsome
  obtain ⟨⟨word', value⟩, listed', hword⟩ := List.exists_of_findSome?_eq_some hfound
  obtain ⟨back, hback, rfl⟩ := Option.map_eq_some_iff.1 hword
  rw [afterWords?_eq_some_iff] at hback
  -- No two words begin alike.
  have hall : ∀ a ∈ wordScalars, ∀ b ∈ wordScalars,
      a.1.toList.head? = b.1.toList.head? → a = b := by decide
  have hne : ∀ entry ∈ wordScalars, entry.1.toList ≠ [] := by decide
  have hhead := congrArg List.head? hback
  rw [List.head?_append_of_ne_nil _ (hne _ listed),
    List.head?_append_of_ne_nil _ (hne _ listed')] at hhead
  cases hall _ listed _ listed' hhead
  rw [readScalar_eq, hfound, List.append_cancel_left hback]
  rfl

/-- What begins with a digit is no word. -/
theorem readScalar_of_beginsWithDigit (h : BeginsWithDigit s) : readScalar s = readNumber s := by
  -- None of the first two characters of a word is a digit, which one of the text's is.
  have hwords : ∀ entry ∈ wordScalars, 2 ≤ entry.1.toList.length ∧
      ∀ c ∈ entry.1.toList.take 2, Decimal.isAsciiDigit c = false := by decide
  have hdigit : ∃ c ∈ s.take 2, Decimal.isAsciiDigit c = true := by
    obtain ⟨negative, d, back, rfl, digit⟩ := h
    refine ⟨d, ?_, digit⟩
    cases negative <;> simp [Literal.minus]
  have hnone : (wordScalars.findSome? fun entry => (afterWords? entry.1 s).map (entry.2, ·)) =
      none := by
    rw [List.findSome?_eq_none_iff]
    intro entry listed
    rw [Option.map_eq_none_iff, Option.eq_none_iff_forall_ne_some]
    intro rest hword
    rw [afterWords?_eq_some_iff] at hword
    obtain ⟨hlength, hall⟩ := hwords entry listed
    obtain ⟨c, hc, digit⟩ := hdigit
    rw [hword, List.take_append_of_le_length hlength] at hc
    exact ne_of_isAsciiDigit digit (hall c hc) rfl
  rw [readScalar_eq, hnone]
  rfl

theorem Number.readScalar_eq (h : Number s x) (ends : Ends rest) :
    readScalar (s ++ rest) = .ok (x, rest) := by
  rw [readScalar_of_beginsWithDigit (h.beginsWithDigit rest)]
  exact h.readNumber_eq ends

end ShortCircuit.Json

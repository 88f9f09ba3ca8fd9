/-
  ShortCircuit.Proofs.Json.Writing

  What is written of a value is a JSON text that stands for the value again.  This
  holds of values that JSON knows: without numbers of the binary format, and with
  texts for keys.
-/

import ShortCircuit.Json.Printer
import ShortCircuit.Proofs.Decimal.Numeral
import ShortCircuit.Proofs.Json.Grammar
import ShortCircuit.Proofs.Table
import ShortCircuit.Proofs.Text.Hex

namespace ShortCircuit.Json

open Decimal (Writable intText isAsciiDigit natText valuesOf)
open Literal (minus)
open Table (Distinct)

variable {s : List Char} {text : Text} {c : Char} {n level : Nat} {v : Value}

/-- Values of scalars that are no numbers with a fraction, of integers that are not too long, and
    of texts of characters, at any depth.  The keys of tables are such texts, and each stands
    once. -/
inductive Portable : Value → Prop
  | null : Portable .null
  | bool (b : Bool) : Portable (.scalar (.bool b))
  | int {n : Int} (few : Writable n) : Portable (.scalar (.int n))
  | text (s : String) : Portable (.scalar (.text s))
  | list {items : List Value} (all : ∀ v ∈ items, Portable v) : Portable (.list items)
  | table {entries : List (Scalar × Value)}
    (texts : ∀ entry ∈ entries, ∃ s : String, entry.1 = .text s) (distinct : Distinct entries)
    (all : ∀ entry ∈ entries, Portable entry.2) :
    Portable (.table entries)

/-! ## Texts -/

theorem unitEscape_written (h : n < 0x10000) : UnitEscape (unitEscape n) n :=
  .mk (Text.length_hexText (by decide) h) (Text.readHex?_hexText 4 n)

theorem code_range (c : Char) : c.toNat < 0xD800 ∨ 0xDFFF < c.toNat ∧ c.toNat < 0x110000 := by
  have hvalid : c.toNat.isValidChar := c.valid
  rw [Nat.isValidChar] at hvalid
  exact hvalid

/-- A character is none of the halves of a pair. -/
theorem not_half (c : Char) : ¬IsHigh c.toNat ∧ ¬IsLow c.toNat := by
  have hrange := code_range c
  unfold IsHigh IsLow
  omega

theorem pairCode_of_code (hle : 0x10000 ≤ n) :
    pairCode (0xD800 + (n - 0x10000) / 0x400) (0xDC00 + (n - 0x10000) % 0x400) = n := by
  unfold pairCode
  omega

/-- A great code point is split into two units, which make it up again. -/
theorem escape_pair (hle : 0x10000 ≤ n) (hlt : n < 0x110000) (after : List Char) :
    Escape (unitEscape (0xD800 + (n - 0x10000) / 0x400) ++
      unitEscape (0xDC00 + (n - 0x10000) % 0x400)) after (Char.ofNat n) := by
  have hcode := pairCode_of_code hle
  generalize hhigh : 0xD800 + (n - 0x10000) / 0x400 = high at hcode ⊢
  generalize hlow : 0xDC00 + (n - 0x10000) % 0x400 = low at hcode ⊢
  have isHigh : IsHigh high := by
    unfold IsHigh
    omega
  have isLow : IsLow low := by
    unfold IsLow
    omega
  rw [← hcode]
  exact .pair (unitEscape_written (by omega)) isHigh (unitEscape_written (by omega)) isLow

/-- A character is written as itself, or by an escape that stands for it. -/
theorem content_textChar (c : Char) (rest : Content s text) :
    Content (textChar c ++ s) (.char c :: text) := by
  unfold textChar
  -- A letter behind a backslash, the character itself, one unit, or two.
  split
  · rename_i letter hletter
    have hall : ∀ entry ∈ letterEscapes, (entry.2, entry.1) ∈ letters := by decide
    obtain ⟨front, back, heq, -⟩ := List.lookup_eq_some_iff.1 hletter
    refine .escape (.letter (hall (c, letter) ?_)) rest
    rw [heq]
    exact List.mem_append_right _ (List.mem_cons_self ..)
  · rename_i hnone
    rw [List.lookup_eq_none_iff] at hnone
    obtain ⟨notHigh, notLow⟩ := not_half c
    split
    · rename_i hvisible
      rw [Bool.and_eq_true, decide_eq_true_iff] at hvisible
      refine .plain hvisible.1 ?_ ?_ rest
      · rintro rfl
        exact absurd (hnone ('"', '"') (by decide)) (by decide)
      · rintro rfl
        exact absurd (hnone ('\\', '\\') (by decide)) (by decide)
    split
    · rename_i hunit
      have hescape : Escape (unitEscape c.toNat) s (Char.ofNat c.toNat) :=
        .unit (unitEscape_written hunit) notHigh notLow
      rw [Char.ofNat_toNat] at hescape
      exact .escape hescape rest
    · rename_i hunit
      have hrange := code_range c
      have hescape := escape_pair (Nat.not_lt.1 hunit) (by omega) s
      rw [Char.ofNat_toNat] at hescape
      exact .escape hescape rest

theorem content_written (s : List Char) :
    Content ((Text.ofChars s).flatMap textPoint) (.ofChars s) := by
  induction s with
  | nil => exact .nil
  | cons c s ih =>
    rw [Text.ofChars_cons, List.flatMap_cons]
    exact content_textChar c ih

/-- Half of a pair is read back too, as long as the other half does not follow. -/
theorem content_half (isHalf : 0xD800 ≤ n ∧ n ≤ 0xDFFF) :
    Content (unitEscape n) [.half n isHalf] := by
  have unit : UnitEscape (unitEscape n) n := unitEscape_written (by omega)
  have alone : ¬LowFollows [] := by
    rintro ⟨e, low, rest, second, -, heq⟩
    have hlength := second.length_eq
    rw [(List.append_eq_nil_iff.1 heq.symm).1] at hlength
    cases hlength
  rw [← List.append_nil (unitEscape n)]
  exact .escape (.half unit isHalf fun _ => alone) .nil

theorem spells_writeText (s : String) : Spells (writeText s) (.scalar (.text s)) :=
  .text (content_written s.toList)

/-! ## Integers -/

theorem isAsciiDigit_of_mem_natText (h : c ∈ natText n) : isAsciiDigit c = true := by
  have hdigit := Decimal.isDigit_of_mem_natText h
  simpa [isAsciiDigit, Char.isDigit, Char.le_def] using hdigit

/-- No zero stands in front of the digits of a number. -/
theorem head_natText_ne (h : 0 < n) : ∀ c ∈ (natText n).head?, c ≠ '0' := by
  induction n using Nat.strongRecOn with
  | _ n ih =>
    rw [natText]
    rcases Nat.lt_or_ge n 10 with hlt | hle
    · have hall : ∀ n < 10, 0 < n → Nat.digitChar n ≠ '0' := by decide
      rw [Nat.toDigits_of_lt_base hlt]
      rintro c hc
      cases hc
      exact hall n hlt h
    · rw [Nat.toDigits_of_base_le (by decide) hle,
        List.head?_append_of_ne_nil _ Nat.toDigits_ne_nil]
      exact ih (n / 10) (Nat.div_lt_self h (by decide)) (Nat.div_pos hle (by decide))

theorem whole_natText (n : Nat) : Whole (natText n) := by
  rcases Nat.eq_zero_or_pos n with rfl | hpos
  · exact .zero
  · have hhead := head_natText_ne hpos
    have hdigits : ∀ c ∈ natText n, isAsciiDigit c = true := fun c => isAsciiDigit_of_mem_natText
    obtain ⟨first, rest, heq⟩ := List.exists_cons_of_ne_nil (Nat.toDigits_ne_nil (b := 10) (n := n))
    rw [natText, heq] at hhead hdigits ⊢
    obtain ⟨hfirst, hrest⟩ := List.forall_mem_cons.1 hdigits
    exact .digits hfirst (hhead first rfl) hrest

theorem number_intText {n : Int} (few : Writable n) : Number (intText n) (.int n) := by
  have hvalue : Decimal.natOfDigits (valuesOf (natText n.natAbs)) = n.natAbs :=
    Decimal.natOfDigits_natText _
  have hnumber := Number.int (decide (n < 0)) (whole_natText n.natAbs) few
  rw [hvalue] at hnumber
  rw [intText]
  split
  · rename_i hneg
    rw [decide_eq_true hneg, if_pos rfl, show -(n.natAbs : Int) = n by omega] at hnumber
    exact hnumber
  · rename_i hneg
    rw [decide_eq_false hneg, if_neg Bool.false_ne_true,
      show (n.natAbs : Int) = n by omega] at hnumber
    exact hnumber

theorem spells_intText {n : Int} (few : Writable n) : Spells (intText n) (.scalar (.int n)) :=
  .number (number_intText few)

/-! ## Parts on lines of their own -/

theorem blank_newLine (level : Nat) : Blank (newLine level) := by
  rw [Blank, newLine, List.forall_mem_cons]
  refine ⟨by decide, fun c hc => ?_⟩
  rw [List.eq_of_mem_replicate hc]
  decide

theorem intercalate_concat (indent : List Char) (parts : List (List Char)) (last : List Char) :
    indent ++ (',' :: indent).intercalate (parts ++ [last]) =
      parts.flatMap (fun part => indent ++ (part ++ [','])) ++ (indent ++ last) := by
  induction parts with
  | nil => simp
  | cons part parts ih =>
    obtain ⟨next, rest, heq⟩ := List.exists_cons_of_ne_nil (l := parts ++ [last]) (by simp)
    rw [heq] at ih
    rw [List.cons_append, heq, List.intercalate_cons_cons, List.flatMap_cons, List.append_assoc,
      List.append_assoc, List.cons_append, ih]
    simp

theorem bracketed_concat (level : Nat) (opening closing : Char) (parts : List (List Char))
    (last : List Char) :
    bracketed level opening closing (parts ++ [last]) =
      opening :: (parts.flatMap (fun part => newLine (level + 1) ++ (part ++ [','])) ++
        (newLine (level + 1) ++ (last ++ (newLine level ++ [closing])))) := by
  have hjoined := intercalate_concat (newLine (level + 1)) parts last
  rw [bracketed]
  · rw [List.cons_append, hjoined]
    simp
  · simp

/-- An item on a line of its own. -/
structure Item.Indented (level : Nat) (item : Item) : Prop where
  before : item.before = newLine level
  after : item.after = []
  spelled : Spells item.text item.value

/-- The last item, behind which the line breaks for the bracket. -/
def Item.closed (level : Nat) (item : Item) : Item := { item with after := newLine level }

theorem Item.Indented.spaced {item : Item} (h : item.Indented level) : item.Spaced :=
  ⟨h.before ▸ blank_newLine level, h.after ▸ blank_nil⟩

theorem Item.Indented.withComma_eq {item : Item} (h : item.Indented level) :
    item.withComma = newLine level ++ (item.text ++ [',']) := by
  rw [withComma, padded, h.before, h.after, List.append_nil, List.append_assoc]

theorem spells_bracketed {items : List Item} (h : ∀ item ∈ items, item.Indented (level + 1)) :
    Spells (bracketed level '[' ']' (items.map Item.text)) (.list (items.map Item.value)) := by
  rcases List.eq_nil_or_concat' items with rfl | ⟨front, last, rfl⟩
  · exact .emptyList blank_nil
  obtain ⟨hfront, hlast⟩ := List.forall_mem_append.1 h
  have hlast := hlast last (List.mem_singleton_self _)
  -- The line break in front of the bracket counts as the blanks behind the last item.
  have htext : bracketed level '[' ']' ((front ++ [last]).map Item.text) =
      '[' :: (front.flatMap Item.withComma ++ ((last.closed level).padded ++ [']'])) := by
    rw [List.map_append, List.map_singleton, bracketed_concat, List.flatMap_map,
      List.flatMap_congr fun item hitem => ((hfront item hitem).withComma_eq).symm, Item.padded,
      Item.closed, hlast.before, List.append_assoc, List.append_assoc]
  have hvalue :
      (front ++ [last]).map Item.value = (front ++ [last.closed level]).map Item.value := by
    simp [Item.closed]
  rw [htext, hvalue]
  refine .list (List.forall_mem_append.2 ⟨fun item hitem => (hfront item hitem).spaced, ?_⟩)
    (List.forall_mem_append.2 ⟨fun item hitem => (hfront item hitem).spelled, ?_⟩)
  · exact List.forall_mem_singleton.2 ⟨hlast.spaced.before, blank_newLine level⟩
  · exact List.forall_mem_singleton.2 hlast.spelled

/-- A member without what stands around it. -/
def Member.line (m : Member) : List Char :=
  '"' :: (m.key.text ++ '"' :: ':' :: ' ' :: m.item.text)

/-- A member on a line of its own. -/
structure Member.Indented (level : Nat) (m : Member) : Prop where
  before : m.key.before = newLine level
  colon : m.key.after = []
  blank : m.item.before = [' ']
  after : m.item.after = []
  content : Content m.key.text m.key.name
  spelled : Spells m.item.text m.item.value

/-- The last member, behind which the line breaks for the brace. -/
def Member.closed (level : Nat) (m : Member) : Member := { m with item := m.item.closed level }

theorem Member.Indented.spaced {m : Member} (h : m.Indented level) : m.Spaced := by
  refine ⟨⟨h.before ▸ blank_newLine level, h.colon ▸ blank_nil, h.content⟩, ?_,
    h.after ▸ blank_nil⟩
  rw [h.blank]
  exact List.forall_mem_singleton.2 (by decide)

theorem Member.Indented.withComma_eq {m : Member} (h : m.Indented level) :
    m.withComma = newLine level ++ (m.line ++ [',']) := by
  rw [withComma, padded, Key.withColon, Item.padded, line, h.before, h.colon, h.blank, h.after]
  simp

theorem Member.Indented.padded_closed {m : Member} (h : m.Indented (level + 1)) :
    (m.closed level).padded = newLine (level + 1) ++ (m.line ++ newLine level) := by
  rw [closed, padded, Key.withColon, Item.padded, Item.closed, line, h.before, h.colon, h.blank]
  simp

theorem spells_braced {members : List Member} (h : ∀ m ∈ members, m.Indented (level + 1)) :
    Spells (bracketed level '\x7b' '\x7d' (members.map Member.line))
      (.table (Table.ofList (members.map Member.entry))) := by
  rcases List.eq_nil_or_concat' members with rfl | ⟨front, last, rfl⟩
  · exact .emptyTable blank_nil
  obtain ⟨hfront, hlast⟩ := List.forall_mem_append.1 h
  have hlast := hlast last (List.mem_singleton_self _)
  have htext : bracketed level '\x7b' '\x7d' ((front ++ [last]).map Member.line) =
      '\x7b' :: (front.flatMap Member.withComma ++ ((last.closed level).padded ++ ['\x7d'])) := by
    rw [List.map_append, List.map_singleton, bracketed_concat, List.flatMap_map,
      List.flatMap_congr fun m hm => ((hfront m hm).withComma_eq).symm, hlast.padded_closed,
      List.append_assoc, List.append_assoc]
  have hvalue :
      (front ++ [last]).map Member.entry = (front ++ [last.closed level]).map Member.entry := by
    simp [Member.closed, Item.closed, Member.entry]
  rw [htext, hvalue]
  refine .table (List.forall_mem_append.2 ⟨fun m hm => (hfront m hm).spaced, ?_⟩)
    (List.forall_mem_append.2 ⟨fun m hm => (hfront m hm).spelled, ?_⟩)
  · exact List.forall_mem_singleton.2
      ⟨hlast.spaced.key, hlast.spaced.item.before, blank_newLine level⟩
  · exact List.forall_mem_singleton.2 hlast.spelled

/-! ## Nesting -/

/-- Items that can be written are written on lines of their own. -/
theorem exists_items {vs : List Value}
    (h : ∀ v ∈ vs, ∃ text, writeAt level v = .ok text ∧ Spells text v) :
    ∃ items : List Item, writeItems level vs = .ok (items.map Item.text) ∧
      items.map Item.value = vs ∧ ∀ item ∈ items, item.Indented level := by
  induction vs with
  | nil => exact ⟨[], by rw [writeItems]; rfl, rfl, List.forall_mem_nil _⟩
  | cons v vs ih =>
    obtain ⟨hv, hvs⟩ := List.forall_mem_cons.1 h
    obtain ⟨text, hwrite, spells⟩ := hv
    obtain ⟨items, hitems, rfl, hall⟩ := ih hvs
    refine ⟨⟨newLine level, text, [], v⟩ :: items, ?_, rfl,
      List.forall_mem_cons.2 ⟨⟨rfl, rfl, spells⟩, hall⟩⟩
    rw [writeItems, hwrite, hitems]
    rfl

theorem exists_members {entries : List (Scalar × Value)}
    (texts : ∀ entry ∈ entries, ∃ s : String, entry.1 = .text s)
    (h : ∀ entry ∈ entries, ∃ text, writeAt level entry.2 = .ok text ∧ Spells text entry.2) :
    ∃ members : List Member, writeEntries level entries = .ok (members.map Member.line) ∧
      members.map Member.entry = entries ∧ ∀ m ∈ members, m.Indented level := by
  induction entries with
  | nil => exact ⟨[], by rw [writeEntries]; rfl, rfl, List.forall_mem_nil _⟩
  | cons entry entries ih =>
    obtain ⟨hentry, hentries⟩ := List.forall_mem_cons.1 h
    obtain ⟨⟨name, hname⟩, hnames⟩ := List.forall_mem_cons.1 texts
    obtain ⟨key, value⟩ := entry
    obtain ⟨text, hwrite, spells⟩ := hentry
    obtain ⟨members, hmembers, rfl, hall⟩ := ih hnames hentries
    cases hname
    refine ⟨⟨⟨newLine level, (Text.ofString name).flatMap textPoint, [], name⟩,
      ⟨[' '], text, [], value⟩⟩ :: members, ?_, rfl, List.forall_mem_cons.2
      ⟨⟨rfl, rfl, rfl, rfl, content_written _, spells⟩, hall⟩⟩
    have hline : writeText name ++ ": ".toList ++ text =
        '"' :: ((Text.ofString name).flatMap textPoint ++ '"' :: ':' :: ' ' :: text) := by
      simp [writeText]
    rw [writeEntries, writeKey, hwrite, hmembers]
    exact congrArg (fun line => Except.ok (line :: members.map Member.line)) hline

/-- What is written of a value stands for the value, at whatever level of nesting. -/
theorem Portable.exists_text (h : Portable v) (level : Nat) :
    ∃ text, writeAt level v = .ok text ∧ Spells text v := by
  -- The items of a list and the members of a table stand one level deeper.
  induction h generalizing level with
  | null =>
    have listed : ("null", .null) ∈ wordScalars := by decide
    exact ⟨_, by rw [Value.null, writeAt]; rfl, .word listed⟩
  | bool b =>
    have listed : (if b then "true" else "false", .bool b) ∈ wordScalars := by
      cases b <;> decide
    exact ⟨_, by rw [writeAt]; rfl, .word listed⟩
  | int few =>
    refine ⟨_, ?_, spells_intText few⟩
    rw [writeAt]
    exact Decimal.writeInt_eq_ok_iff.2 ⟨few, rfl⟩
  | text s => exact ⟨_, by rw [writeAt]; rfl, spells_writeText s⟩
  | list all ih =>
    obtain ⟨items, hitems, rfl, hall⟩ := exists_items fun v hv => ih v hv (level + 1)
    exact ⟨_, by rw [writeAt, hitems]; rfl, spells_bracketed hall⟩
  | table texts distinct all ih =>
    obtain ⟨members, hmembers, rfl, hall⟩ :=
      exists_members texts fun entry hentry => ih entry hentry (level + 1)
    refine ⟨_, by rw [writeAt, hmembers]; rfl, ?_⟩
    have hspells := spells_braced hall
    rw [distinct.ofList_eq] at hspells
    exact hspells

/-- What is written of a value is a document of the value. -/
theorem Portable.exists_document (h : Portable v) :
    ∃ text, write v = .ok text ∧ Document text v := by
  obtain ⟨text, hwrite, spells⟩ := h.exists_text 0
  exact ⟨text, hwrite, spells.document⟩

end ShortCircuit.Json

/-
  ShortCircuit.Proofs.Kind.Slots

  The slots of a node.  Its kind says which slots it has; its layout says whose
  children are written, and in which order.  Children are written in the order
  of their slots, none of them twice, and none at a slot of the kind is left out.
  Besides its children a node writes words of its own.
-/

import Mathlib.Data.List.Pairwise
import ShortCircuit.Kind.Layout

namespace ShortCircuit

/-- The slot whose child a piece writes. -/
def Piece.slot? : Piece → Option Int
  | operand slot => some slot
  | _ => none

namespace Piece

variable {pieces : List Piece}

@[simp] theorem slots_words (text : String) :
    (words text :: pieces).filterMap slot? = pieces.filterMap slot? := rfl

@[simp] theorem slots_literal (value : Literal) :
    (literal value :: pieces).filterMap slot? = pieces.filterMap slot? := rfl

@[simp] theorem slots_operand (s : Int) :
    (operand s :: pieces).filterMap slot? = s :: pieces.filterMap slot? := rfl

end Piece

namespace Kind

open Piece

variable {kind : Kind} {slots : List Int} {s : Int}

/-- The slots that belong to a kind, as its shape shows them. -/
def hasSlot (kind : Kind) (s : Int) : Bool :=
  match kind with
  | literal _ | path _ | qualifiedPath _ | unit | continueLoop => false
  | array false | tuple | block _ | macroCall _ => true
  -- Arguments stand behind slot zero.
  | call | methodCall _ => decide (0 ≤ s)
  | record _ fields spread =>
    decide (0 ≤ s) && (decide (s < fields.length) || spread && decide (s = fields.length))
  | matchOn patterns => decide (0 ≤ s) && decide (s ≤ patterns.length)
  | conditional => decide (0 ≤ s) && decide (s ≤ 2)
  | binary _ | array true | forLoop _ | index | range _ | whileLoop =>
    decide (s = 0) || decide (s = 1)
  | unary _ | paren | fieldAccess _ | cast _ | lambda _ | loop | breakLoop | returnEarly
  | propagate | letBinding _ | statement => decide (s = 0)

/-- The slots that are written, from left to right, given the occupied ones.  A slot may be among
    them that is empty, and nothing is written for it. -/
def written (kind : Kind) (slots : List Int) : List Int :=
  (kind.layout slots).filterMap Piece.slot?

/-! ## Parts of layouts -/

@[simp] theorem written_listed (slots : List Int) : (listed slots).filterMap slot? = slots := by
  induction slots with
  | nil => rfl
  | cons slot rest ih =>
    cases rest with
    | nil => rfl
    | cons next rest =>
      have hlisted : listed (slot :: next :: rest) =
          operand slot :: words ", " :: listed (next :: rest) := by
        simp [listed]
      rw [hlisted, List.filterMap_cons, List.filterMap_cons, ih]
      rfl

@[simp] theorem written_optional (slots : List Int) (slot : Int) (before : String) :
    (Piece.optional slots slot before).filterMap slot? = if slot ∈ slots then [slot] else [] := by
  unfold Piece.optional
  by_cases h : slot ∈ slots <;> simp [h]

@[simp] theorem written_statements (slots : List Int) :
    (slots.flatMap fun slot => [words " ", operand slot]).filterMap slot? = slots := by
  rw [List.filterMap_flatMap]
  exact List.flatMap_singleton' slots

/-- What numbered texts write depends on their numbers alone. -/
theorem written_zipIdx {slotsAt : Nat → List Int} (pieces : String → Nat → List Piece)
    (h : ∀ text i, (pieces text i).filterMap slot? = slotsAt i) (texts : List String) :
    (texts.zipIdx.flatMap fun (text, i) => pieces text i).filterMap slot? =
      (List.range texts.length).flatMap slotsAt := by
  have hfrom (k : Nat) : ((texts.zipIdx k).flatMap fun (text, i) => pieces text i).filterMap slot? =
      (List.range' k texts.length).flatMap slotsAt := by
    induction texts generalizing k with
    | nil => rfl
    | cons text rest ih =>
      rw [List.zipIdx_cons, List.flatMap_cons, List.filterMap_append, h, ih, List.length_cons,
        List.range'_succ, List.flatMap_cons]
  rw [List.range_eq_range']
  exact hfrom 0

/-- Of the fields of a record those are written that have a value. -/
@[simp] theorem written_fields (slots : List Int) (fields : List String) :
    (fieldPieces slots fields).filterMap slot? =
      (List.range fields.length).flatMap fun (i : Nat) =>
        if (i : Int) ∈ slots then [(i : Int)] else [] :=
  written_zipIdx
    (fun field i => words ((if i = 0 then " " else ", ") ++ field) :: Piece.optional slots i ": ")
    (fun _ _ => written_optional ..) fields

/-- The arms of a match are written at the slots from one on. -/
@[simp] theorem written_arms (patterns : List String) :
    (armPieces patterns).filterMap slot? =
      (List.range patterns.length).flatMap fun (i : Nat) => [((i + 1 : Nat) : Int)] :=
  written_zipIdx (fun pattern i => [words s!" {pattern} => ", operand (i + 1 : Nat), words ","])
    (fun _ _ => rfl) patterns

@[simp] theorem written_arguments (slots : List Int) :
    (argumentPieces slots).filterMap slot? = slots.filter fun slot => decide (1 ≤ slot) :=
  written_listed _

/-! ## The order of writing -/

/-- What is written for numbers stays in order if it is in order for each number, and no number
    writes a slot that is not below those of the next ones. -/
theorem pairwise_flatMap_range {slotsAt : Nat → List Int} (n : Nat)
    (h : ∀ i, (slotsAt i).Pairwise (· < ·))
    (hlt : ∀ i j, i < j → ∀ a ∈ slotsAt i, ∀ b ∈ slotsAt j, a < b) :
    ((List.range n).flatMap slotsAt).Pairwise (· < ·) :=
  List.pairwise_flatMap.2 ⟨fun i _ => h i, List.pairwise_lt_range.imp fun {i j} hij => hlt i j hij⟩

/-- The fields that have a value are written in order, and all of them before the base. -/
theorem pairwise_fields (slots : List Int) (n : Nat) :
    (((List.range n).flatMap fun (i : Nat) => if (i : Int) ∈ slots then [(i : Int)] else []) ++
      [(n : Int)]).Pairwise (· < ·) := by
  refine List.pairwise_append.2 ⟨?_, List.pairwise_singleton .., fun a ha b hb => ?_⟩
  · refine pairwise_flatMap_range n (fun i => ?_) fun i j hij a ha b hb => ?_
    · split <;> simp
    · simp at ha hb
      omega
  · simp at ha hb
    omega

theorem pairwise_arms (n : Nat) :
    (0 :: (List.range n).flatMap fun (i : Nat) => [((i + 1 : Nat) : Int)]).Pairwise (· < ·) := by
  refine List.pairwise_cons.2 ⟨fun a ha => ?_, ?_⟩
  · simp at ha
    omega
  · refine pairwise_flatMap_range n (fun i => List.pairwise_singleton ..) ?_
    intro i j hij a ha b hb
    simp at ha hb
    omega

/-- Arguments stand behind the slot of what is called. -/
theorem pairwise_arguments (h : slots.Pairwise (· < ·)) :
    (0 :: slots.filter fun slot => decide (1 ≤ slot)).Pairwise (· < ·) := by
  refine List.pairwise_cons.2 ⟨fun s hs => ?_, h.filter _⟩
  have hle := of_decide_eq_true (List.mem_filter.1 hs).2
  omega

/-- Children are written in the order of their slots. -/
theorem pairwise_written (h : slots.Pairwise (· < ·)) (kind : Kind) :
    (kind.written slots).Pairwise (· < ·) := by
  have hoptional (s : Int) : (if s ∈ slots then [s] else []).Pairwise (· < ·) := by
    split <;> simp
  cases kind with
  | array repeated =>
    cases repeated with
    | true => simp [written, layout]
    | false => simpa [written, layout] using h
  | record name fields spread =>
    have hfields := pairwise_fields slots fields.length
    cases spread with
    | true => simpa [written, layout] using hfields
    | false => simpa [written, layout] using hfields.sublist (List.sublist_append_left ..)
  | block isUnsafe =>
    by_cases hnil : slots.isEmpty
    · simp [written, layout, hnil]
    · simpa [written, layout, hnil] using h
  | tuple => simpa [written, layout] using h
  | macroCall name => simpa [written, layout] using h
  | call => simpa [written, layout] using pairwise_arguments h
  | methodCall method => simpa [written, layout] using pairwise_arguments h
  | matchOn patterns => simpa [written, layout] using pairwise_arms patterns.length
  | binary op => simpa [written, layout] using hoptional 1
  | conditional => simpa [written, layout] using hoptional 2
  | breakLoop => simpa [written, layout] using hoptional 0
  | returnEarly => simpa [written, layout] using hoptional 0
  | letBinding name => simpa [written, layout] using hoptional 0
  | _ => simp [written, layout]

/-- What stands at a slot of the kind is written. -/
theorem mem_written_of_hasSlot {kind : Kind} (h : kind.hasSlot s = true) (hs : s ∈ slots) :
    s ∈ kind.written slots := by
  cases kind with
  | array repeated => cases repeated <;> simp_all [written, layout, hasSlot]
  | record name fields spread =>
    -- A field, or the base behind the fields.
    simp only [hasSlot, Bool.and_eq_true, Bool.or_eq_true, decide_eq_true_iff] at h
    rcases h with ⟨h0, h | ⟨rfl, rfl⟩⟩
    · have hfield : s ∈ (fieldPieces slots fields).filterMap slot? := by
        rw [written_fields, List.mem_flatMap]
        obtain ⟨i, rfl⟩ := Int.eq_ofNat_of_zero_le h0
        exact ⟨i, by simpa using h, by simp [hs]⟩
      simp only [written, layout, List.filterMap_append, List.mem_append]
      exact .inl (.inl (.inr hfield))
    · simp [written, layout]
  | block isUnsafe =>
    have hnil : slots.isEmpty = false := by
      rw [List.isEmpty_eq_false_iff]
      exact List.ne_nil_of_mem hs
    simpa [written, layout, hnil] using hs
  | matchOn patterns =>
    simp only [hasSlot, Bool.and_eq_true, decide_eq_true_iff] at h
    obtain ⟨i, rfl⟩ := Int.eq_ofNat_of_zero_le h.1
    cases i with
    | zero => simp [written, layout]
    | succ i =>
      have harm : ((i + 1 : Nat) : Int) ∈ (armPieces patterns).filterMap slot? := by
        rw [written_arms, List.mem_flatMap]
        exact ⟨i, List.mem_range.2 (by omega), List.mem_singleton_self _⟩
      simp only [written, layout, List.filterMap_append, List.mem_append]
      exact .inl (.inr harm)
  | call =>
    have h0 : 0 ≤ s := by simpa [hasSlot] using h
    simp [written, layout, hs]
    omega
  | methodCall method =>
    have h0 : 0 ≤ s := by simpa [hasSlot] using h
    simp [written, layout, hs]
    omega
  | conditional =>
    have h02 : s = 0 ∨ s = 1 ∨ s = 2 := by
      simp [hasSlot] at h
      omega
    rcases h02 with rfl | rfl | rfl <;> simp [written, layout, hs]
  | binary op =>
    have h01 : s = 0 ∨ s = 1 := by simpa [hasSlot] using h
    rcases h01 with rfl | rfl <;> simp [written, layout, hs]
  | _ => simp_all [written, layout, hasSlot]

/-! ## Words -/

theorem spelling_ne_empty (tokens : UnaryTokens) : tokens.spelling ≠ "" := by
  unfold UnaryTokens.spelling
  split
  · rename_i op _
    cases op <;> decide
  · simp

/-- A node that writes a child writes a word of its own as well, whatever the names in it are. -/
theorem exists_words_of_operand {kind : Kind} (h : operand s ∈ kind.layout slots) :
    ∃ text, words text ∈ kind.layout slots ∧ text ≠ "" := by
  cases kind with
  | literal value => simp [layout] at h
  | path p => simp [layout] at h
  | qualifiedPath p => simp [layout] at h
  | unary tokens => exact ⟨tokens.spelling, by simp [layout], spelling_ne_empty tokens⟩
  | array repeated => cases repeated <;> simp [layout]
  | block isUnsafe => cases hnil : slots.isEmpty <;> simp [layout, hnil]
  | range inclusive => cases inclusive <;> simp [layout]
  | _ => simp [layout]

end Kind

end ShortCircuit

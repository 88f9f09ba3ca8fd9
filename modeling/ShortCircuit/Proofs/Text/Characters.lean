/-
  ShortCircuit.Proofs.Text.Characters

  What holds of every character of a text is decided one character after another,
  and never by trying all characters that there are.
-/

namespace ShortCircuit.Text

variable {p : Char → Prop} [DecidablePred p]

instance (priority := high) decidableForallMem (s : List Char) : Decidable (∀ c ∈ s, p c) :=
  List.decidableBAll p s

/-- The same for a text of which only the first character counts. -/
instance (priority := high) decidableForallMemOption (first : Option Char) :
    Decidable (∀ c ∈ first, p c) :=
  match first with
  | none => isTrue fun _ h => nomatch h
  | some c => decidable_of_iff (p c) ⟨fun hc _ h => Option.some.inj h ▸ hc, fun h => h c rfl⟩

end ShortCircuit.Text

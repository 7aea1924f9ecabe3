import AnchoredFields.Failure

/-!
# Decoders

A decoder reads one value at the start of some bytes and tells how many bytes
belong to it, or why there is no value.
-/

namespace AnchoredFields

/-- Reads a value at the start of the bytes, with the number of bytes it takes. -/
abbrev Decoder (α : Type) :=
  List UInt8 → Except Error (α × Nat)

/-- Decodes a value and converts it. -/
def Decoder.map {α β : Type} (f : α → β) (decode : Decoder α) : Decoder β :=
  fun bytes =>
    match decode bytes with
    | .ok (a, taken) => .ok (f a, taken)
    | .error e => .error e

theorem Decoder.map_eq_ok_iff {α β : Type} {f : α → β} {decode : Decoder α}
    {bytes : List UInt8} {b : β} {taken : Nat} :
    decode.map f bytes = .ok (b, taken) ↔ ∃ a, decode bytes = .ok (a, taken) ∧ f a = b := by
  unfold Decoder.map
  split
  · rename_i a n h
    simp only [h, Except.ok.injEq, Prod.mk.injEq]
    constructor
    · rintro ⟨rfl, rfl⟩
      exact ⟨a, ⟨rfl, rfl⟩, rfl⟩
    · rintro ⟨a', ⟨rfl, rfl⟩, rfl⟩
      exact ⟨rfl, rfl⟩
  · rename_i e h
    simp [h]

end AnchoredFields

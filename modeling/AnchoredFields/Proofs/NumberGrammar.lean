import AnchoredFields.Bytes.Word
import AnchoredFields.Proofs.NumberRoundTrip

/-!
# What is accepted as a number

A reader is characterised by two relations: which bytes spell which value, and which
flaw keeps bytes from starting with such a spelling.  Bytes have one or the other,
and the reader tells which.

A number is spelled by a first byte, whose low three bits count the bytes that follow,
and by these bytes, which need not be as few as possible.  Its flaws come in a fixed
order: a count beyond four, a missing byte, a value beyond 32 bits.  A machine word is
spelled by all of its bytes, and only a missing byte is a flaw.

* `Decoder.Exact`: a reader takes the spellings and fails for the flaws;
* `Varint.exact_decode`, `Word.exact_decode`: numbers and words are read exactly.
-/

namespace AnchoredFields

/-- A reader that takes what `spells` says and fails for what `flawed` says. -/
structure Decoder.Exact {α : Type} (decode : Decoder α)
    (spells : List UInt8 → α → Prop) (flawed : List UInt8 → Error → Prop) : Prop where
  accepts :
    ∀ {stored : List UInt8} {a : α}, spells stored a →
      ∀ rest, decode (stored ++ rest) = .ok (a, stored.length)
  refuses : ∀ {bytes : List UInt8} {e : Error}, flawed bytes e → decode bytes = .error e
  /-- Bytes start with a spelling, or they have a flaw. -/
  decided :
    ∀ bytes,
      (∃ stored rest a, bytes = stored ++ rest ∧ spells stored a) ∨ ∃ e, flawed bytes e

namespace Decoder.Exact

variable {α : Type} {decode : Decoder α} {spells : List UInt8 → α → Prop}
  {flawed : List UInt8 → Error → Prop}

/-- Values that are converted are spelled as before. -/
theorem map {β : Type} (h : decode.Exact spells flawed) (f : α → β) :
    (decode.map f).Exact (fun stored b => ∃ a, spells stored a ∧ f a = b) flawed where
  accepts := by
    rintro stored b ⟨a, hspells, rfl⟩ rest
    exact Decoder.map_eq_ok_iff.mpr ⟨a, h.accepts hspells rest, rfl⟩
  refuses := by
    intro bytes e hflawed
    rw [Decoder.map, h.refuses hflawed]
  decided := by
    intro bytes
    rcases h.decided bytes with ⟨stored, rest, a, hbytes, hspells⟩ | hflawed
    · exact Or.inl ⟨stored, rest, f a, hbytes, a, hspells, rfl⟩
    · exact Or.inr hflawed

/-- What was read is a spelling in front of the bytes, and all of it was taken. -/
theorem exists_stored (h : decode.Exact spells flawed) {bytes : List UInt8} {a : α} {taken : Nat}
    (hread : decode bytes = .ok (a, taken)) :
    ∃ stored rest, bytes = stored ++ rest ∧ stored.length = taken ∧ spells stored a := by
  rcases h.decided bytes with ⟨stored, rest, b, rfl, hspells⟩ | ⟨e, hflawed⟩
  · rw [h.accepts hspells rest] at hread
    cases hread
    exact ⟨stored, rest, rfl, rfl, hspells⟩
  · rw [h.refuses hflawed] at hread
    cases hread

/-- What is read from bytes that are taken as a whole is what they spell. -/
theorem spells_of_read (h : decode.Exact spells flawed) {stored : List UInt8} {a : α}
    (hread : decode stored = .ok (a, stored.length)) :
    spells stored a := by
  obtain ⟨front, rest, hstored, hlength, hspells⟩ := h.exists_stored hread
  have hrest : rest = [] := by
    have hsum := congrArg List.length hstored
    rw [List.length_append, hlength] at hsum
    exact List.eq_nil_of_length_eq_zero (by omega)
  rwa [hstored, hrest, List.append_nil]

/-- What is read does not depend on the bytes behind those that were taken. -/
theorem read_congr (h : decode.Exact spells flawed) {bytes other : List UInt8} {a : α}
    {taken : Nat} (hread : decode bytes = .ok (a, taken))
    (hsame : other.take taken = bytes.take taken) :
    decode other = .ok (a, taken) := by
  obtain ⟨stored, rest, rfl, rfl, hspells⟩ := h.exists_stored hread
  rw [List.take_left] at hsame
  have hother := List.take_append_drop stored.length other
  rw [hsame] at hother
  rw [← hother]
  exact h.accepts hspells _

/-- Reading fails for the flaws, and for nothing else. -/
theorem eq_error_iff (h : decode.Exact spells flawed) {bytes : List UInt8} {e : Error} :
    decode bytes = .error e ↔ flawed bytes e := by
  refine ⟨?_, h.refuses⟩
  intro hread
  rcases h.decided bytes with ⟨stored, rest, a, rfl, hspells⟩ | ⟨cause, hflawed⟩
  · rw [h.accepts hspells rest] at hread
    cases hread
  · rw [h.refuses hflawed] at hread
    cases hread
    exact hflawed

end Decoder.Exact

namespace Varint

/-- Bytes that spell a number: a first byte, and as many bytes as its low three bits say. -/
inductive Spells : List UInt8 → UInt32 → Prop
  | mk
      {first : UInt8} {high : List UInt8} {value : UInt32}
      (hcode : high.length = first.toNat % 8)
      (hcount : high.length < maxSize)
      (hvalue : value.toNat = first.toNat / 8 + 32 * LittleEndian.decode high) :
      Spells (first :: high) value

/-- Why bytes do not start with a number.  What comes first in this list is reported. -/
inductive Flawed : List UInt8 → Error → Prop
  | missing : Flawed [] .outOfBounds
  | code
      {first : UInt8}
      (hcode : maxSize ≤ first.toNat % 8)
      (rest : List UInt8) :
      Flawed (first :: rest) (.lengthCode (first.toNat % 8))
  | truncated
      {first : UInt8} {rest : List UInt8}
      (hcode : first.toNat % 8 < maxSize)
      (hshort : rest.length < first.toNat % 8) :
      Flawed (first :: rest) .outOfBounds
  | wide
      {first : UInt8} {high : List UInt8}
      (hcode : high.length = first.toNat % 8)
      (hcount : high.length < maxSize)
      (hvalue : UInt32.size ≤ first.toNat / 8 + 32 * LittleEndian.decode high)
      (rest : List UInt8) :
      Flawed (first :: (high ++ rest))
        (.valueTooWide (first.toNat / 8 + 32 * LittleEndian.decode high))

/-- With all its bytes there, a number is refused only for its value. -/
theorem decodeAfter_append
    {first : UInt8} {high : List UInt8}
    (hcode : high.length = first.toNat % 8)
    (hcount : high.length < maxSize)
    (rest : List UInt8) :
    decodeAfter first (high ++ rest) =
      let value := first.toNat / 8 + 32 * LittleEndian.decode high
      if value < UInt32.size then
        .ok (UInt32.ofNat value, (first :: high).length)
      else
        .error (.valueTooWide value) := by
  have hsmall : ¬ maxSize ≤ first.toNat % 8 := by omega
  have htake : (high ++ rest).take (first.toNat % 8) = high := by
    rw [← hcode, List.take_left]
  rw [decodeAfter]
  simp only [if_neg hsmall, htake, hcode, Nat.lt_irrefl, if_false, List.length_cons]

/-- A number that bytes spell is read from them, whatever follows. -/
theorem decode_of_spells {stored : List UInt8} {value : UInt32} (h : Spells stored value)
    (rest : List UInt8) :
    decode (stored ++ rest) = .ok (value, stored.length) := by
  cases h with
  | mk hcode hcount hvalue =>
      rw [List.cons_append, decode_cons, decodeAfter_append hcode hcount]
      simp only [← hvalue, value.toNat_lt_size, if_true, UInt32.ofNat_toNat]

theorem decode_of_flawed {bytes : List UInt8} {e : Error} (h : Flawed bytes e) :
    decode bytes = .error e := by
  cases h with
  | missing =>
      rfl
  | code hcode rest =>
      rw [decode_cons, decodeAfter]
      simp only [if_pos hcode]
  | @truncated first rest hcode hshort =>
      have hsmall : ¬ maxSize ≤ first.toNat % 8 := Nat.not_le.mpr hcode
      have htaken : (rest.take (first.toNat % 8)).length < first.toNat % 8 := by
        rw [List.length_take]
        omega
      rw [decode_cons, decodeAfter]
      simp only [if_neg hsmall, if_pos htaken]
  | wide hcode hcount hvalue rest =>
      rw [decode_cons, decodeAfter_append hcode hcount]
      simp only [if_neg (Nat.not_lt.mpr hvalue)]

/-- Bytes start with a number, or they have a flaw. -/
theorem spells_or_flawed (bytes : List UInt8) :
    (∃ stored rest value, bytes = stored ++ rest ∧ Spells stored value) ∨
      ∃ e, Flawed bytes e := by
  cases bytes with
  | nil =>
      exact Or.inr ⟨_, .missing⟩
  | cons first rest =>
      by_cases hcode : maxSize ≤ first.toNat % 8
      · exact Or.inr ⟨_, .code hcode rest⟩
      by_cases hshort : rest.length < first.toNat % 8
      · exact Or.inr ⟨_, .truncated (Nat.not_le.mp hcode) hshort⟩
      have hlength : (rest.take (first.toNat % 8)).length = first.toNat % 8 := by
        rw [List.length_take]
        omega
      have hcount : (rest.take (first.toNat % 8)).length < maxSize := by omega
      rw [← List.take_append_drop (first.toNat % 8) rest]
      by_cases hvalue :
          first.toNat / 8 + 32 * LittleEndian.decode (rest.take (first.toNat % 8)) <
            UInt32.size
      · exact
          Or.inl
            ⟨_, _, UInt32.ofNat _, (List.cons_append ..).symm,
              .mk hlength hcount (UInt32.toNat_ofNat_of_lt' hvalue)⟩
      · exact Or.inr ⟨_, .wide hlength hcount (Nat.not_lt.mp hvalue) _⟩

/-- Numbers are read exactly as they are spelled. -/
theorem exact_decode : Decoder.Exact decode Spells Flawed where
  accepts := decode_of_spells
  refuses := decode_of_flawed
  decided := spells_or_flawed

end Varint

namespace Word

variable {w : Width}

/-- Bytes that spell a word: as many as it has, the least significant one first. -/
structure Spells (stored : List UInt8) (value : Word w) : Prop where
  length_eq : stored.length = w.bytes
  toNat_eq : value.toNat = LittleEndian.decode stored

theorem decode_of_spells {stored : List UInt8} {value : Word w} (h : Spells stored value)
    (rest : List UInt8) :
    decode w (stored ++ rest) = .ok (value, stored.length) := by
  have htake : (stored ++ rest).take w.bytes = stored := by
    rw [← h.length_eq, List.take_left]
  have hvalue : BitVec.ofNat (8 * w.bytes) (LittleEndian.decode stored) = value := by
    rw [← h.toNat_eq, BitVec.ofNat_toNat, BitVec.setWidth_eq]
  rw [decode]
  simp only [htake, h.length_eq, Nat.lt_irrefl, if_false, hvalue]

/-- Words are read exactly as they are spelled. -/
theorem exact_decode :
    Decoder.Exact (decode w) Spells fun bytes e => bytes.length < w.bytes ∧ e = .outOfBounds where
  accepts := decode_of_spells
  refuses := decode_eq_error_iff.mpr
  decided := by
    intro bytes
    by_cases hshort : bytes.length < w.bytes
    · exact Or.inr ⟨_, hshort, rfl⟩
    · have hlength : (bytes.take w.bytes).length = w.bytes := by
        rw [List.length_take]
        omega
      have hlt := LittleEndian.decode_lt (bytes.take w.bytes)
      rw [hlength, Nat.one_shiftLeft] at hlt
      refine
        Or.inl
          ⟨bytes.take w.bytes, bytes.drop w.bytes,
            BitVec.ofNat (8 * w.bytes) (LittleEndian.decode (bytes.take w.bytes)),
            (List.take_append_drop _ _).symm, hlength, ?_⟩
      rw [BitVec.toNat_ofNat, Nat.mod_eq_of_lt hlt]

end Word
end AnchoredFields

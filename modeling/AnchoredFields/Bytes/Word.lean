import AnchoredFields.Bytes.Decoder
import AnchoredFields.Bytes.LittleEndian

/-!
# Machine words

Words of one, two, four and eight bytes are stored little-endian.

* `Word.decode_encode`: a stored word is read back, whatever follows it.
-/

namespace AnchoredFields

/-- The sizes a machine word can have. -/
inductive Width
  | one
  | two
  | four
  | eight
  deriving DecidableEq, Repr

/-- The number of bytes of a word. -/
def Width.bytes : Width → Nat
  | .one => 1
  | .two => 2
  | .four => 4
  | .eight => 8

/-- A word of a given width. -/
abbrev Word (w : Width) :=
  BitVec (8 * w.bytes)

namespace Word

/-- The bytes of a word, least significant first. -/
def encode {w : Width} (value : Word w) : List UInt8 :=
  LittleEndian.encode w.bytes value.toNat

/-- Reads a word at the start of the bytes. -/
def decode (w : Width) : Decoder (Word w) :=
  fun bytes =>
    let stored := bytes.take w.bytes
    if stored.length < w.bytes then
      .error .outOfBounds
    else
      .ok (BitVec.ofNat (8 * w.bytes) (LittleEndian.decode stored), w.bytes)

@[simp] theorem length_encode {w : Width} (value : Word w) :
    value.encode.length = w.bytes :=
  LittleEndian.length_encode w.bytes value.toNat

theorem decode_encode {w : Width} (value : Word w) (rest : List UInt8) :
    decode w (value.encode ++ rest) = .ok (value, w.bytes) := by
  have htake : (value.encode ++ rest).take w.bytes = value.encode := by
    rw [List.take_append_of_le_length (by simp), List.take_of_length_le (by simp)]
  have hlt : value.toNat < 1 <<< (8 * w.bytes) := by
    rw [Nat.one_shiftLeft]
    exact value.isLt
  unfold decode
  simp only [htake, length_encode, Nat.lt_irrefl, if_false]
  rw [encode, LittleEndian.decode_encode_of_lt hlt, BitVec.ofNat_toNat, BitVec.setWidth_eq]

/-- A word is read exactly if all of its bytes are there. -/
theorem decode_eq_error_iff {w : Width} {bytes : List UInt8} {e : Error} :
    decode w bytes = .error e ↔ bytes.length < w.bytes ∧ e = .outOfBounds := by
  unfold decode
  simp only [List.length_take]
  split
  · rename_i h
    simp only [Except.error.injEq]
    constructor
    · rintro rfl
      exact ⟨by omega, rfl⟩
    · rintro ⟨_, rfl⟩
      rfl
  · rename_i h
    simp only [reduceCtorEq, false_iff]
    rintro ⟨hlt, _⟩
    omega

end Word
end AnchoredFields

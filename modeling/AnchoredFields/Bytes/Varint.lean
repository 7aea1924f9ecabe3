import AnchoredFields.Bytes.Decoder
import AnchoredFields.Bytes.LittleEndian

/-!
# Numbers of variable length

Every number in a field stream has 32 bits and takes one to five bytes.  The
count of bytes is a step function of the count of significant bits:

* 0 to 3 bits take one byte, 4 to 10 bits two, 11 to 17 bits three, 18 to 24
  bits four, and 25 to 32 bits five.

The low three bits of the first byte hold the count of the bytes that follow,
its high five bits hold the low five bits of the number.  The bytes that follow
hold the rest of the number, least significant byte first.  The count of bytes
is thus known from the first byte alone.

* `Varint.length_encode`: a number takes exactly `Varint.size` bytes;
* `Varint.decode_cons`: what is read, and which error wins, in terms of the
  first byte and of the bytes after it.
-/

namespace AnchoredFields
namespace Varint

/-- The most bytes that a number can take. -/
def maxSize : Nat := 5

/-- The number of bits without leading zeros. -/
def significantBits (value : UInt32) : Nat :=
  if value = 0 then 0 else value.toNat.log2 + 1

/-- The number of bytes that a number takes. -/
def size (value : UInt32) : Nat :=
  if significantBits value ≤ 3 then 1
  else if significantBits value ≤ 10 then 2
  else if significantBits value ≤ 17 then 3
  else if significantBits value ≤ 24 then 4
  else 5

/-- The bytes of a number. -/
def encode (value : UInt32) : List UInt8 :=
  UInt8.ofNat (value.toNat % 32 * 8 + (size value - 1)) ::
    LittleEndian.encode (size value - 1) (value.toNat / 32)

/-- Appends a number to some bytes, and tells how many bytes were appended.

The two parts of the first byte are put together as bits; the other bytes are the lowest
ones of eight that hold the rest of the number. -/
def appendTo (buffer : List UInt8) (value : UInt32) : Nat × List UInt8 :=
  let count := size value
  let first := ((value &&& 0x1F) <<< 3).toUInt8 ||| UInt8.ofNat (count - 1)
  let high := LittleEndian.encode 8 (value >>> 5).toNat
  (count, buffer ++ [first] ++ high.take (count - 1))

/-- Reads a number whose first byte is `first`, at the start of the bytes after it. -/
def decodeAfter (first : UInt8) (rest : List UInt8) : Except Error (UInt32 × Nat) :=
  let following := first.toNat % 8
  if maxSize ≤ following then
    .error (.lengthCode following)
  else
    let high := rest.take following
    if high.length < following then
      .error .outOfBounds
    else
      let value := first.toNat / 8 + 32 * LittleEndian.decode high
      if value < UInt32.size then
        .ok (UInt32.ofNat value, following + 1)
      else
        .error (.valueTooWide value)

/-- Reads a number at the start of the bytes. -/
def decode : Decoder UInt32
  | [] => .error .outOfBounds
  | first :: rest => decodeAfter first rest

theorem size_pos (value : UInt32) : 0 < size value := by
  unfold size
  repeat' split
  all_goals omega

theorem size_le_maxSize (value : UInt32) : size value ≤ maxSize := by
  unfold size maxSize
  repeat' split
  all_goals omega

@[simp] theorem length_encode (value : UInt32) : (encode value).length = size value := by
  have hpos := size_pos value
  simp only [encode, List.length_cons, LittleEndian.length_encode]
  omega

@[simp] theorem decode_nil : decode [] = .error .outOfBounds :=
  rfl

@[simp] theorem decode_cons (first : UInt8) (rest : List UInt8) :
    decode (first :: rest) = decodeAfter first rest :=
  rfl

end Varint
end AnchoredFields

import Mathlib.Algebra.Ring.Nat
import AnchoredFields.Bytes.Varint

/-!
# Numbers of variable length are read back

The count of bytes of a number follows from the count of its significant bits.
The classes are narrower than what the bytes could hold, so no bit of the number
is cut off when its high part is stored.

* `Varint.decode_encode_append`: a number is read back whatever follows it, and
  exactly its own bytes are taken.
-/

namespace AnchoredFields
namespace Varint

/-- A number is below the power of two that its significant bits reach. -/
theorem lt_two_pow_significantBits (value : UInt32) :
    value.toNat < 2 ^ significantBits value := by
  unfold significantBits
  by_cases hzero : value = 0
  · rw [if_pos hzero, hzero]
    decide
  · rw [if_neg hzero]
    exact Nat.lt_log2_self

theorem lt_of_significantBits_le {value : UInt32} {bits : Nat}
    (h : significantBits value ≤ bits) :
    value.toNat < 2 ^ bits :=
  Nat.lt_of_lt_of_le (lt_two_pow_significantBits value)
    (Nat.pow_le_pow_right (by decide) h)

/-- The bytes after the first one hold the whole high part of the number. -/
theorem high_lt (value : UInt32) :
    value.toNat / 32 < 1 <<< (8 * (size value - 1)) := by
  have hvalue : value.toNat < 2 ^ 32 := value.toNat_lt
  unfold size
  by_cases h3 : significantBits value ≤ 3
  · have hlt := lt_of_significantBits_le h3
    rw [if_pos h3]
    omega
  rw [if_neg h3]
  by_cases h10 : significantBits value ≤ 10
  · have hlt := lt_of_significantBits_le h10
    rw [if_pos h10]
    omega
  rw [if_neg h10]
  by_cases h17 : significantBits value ≤ 17
  · have hlt := lt_of_significantBits_le h17
    rw [if_pos h17]
    omega
  rw [if_neg h17]
  by_cases h24 : significantBits value ≤ 24
  · have hlt := lt_of_significantBits_le h24
    rw [if_pos h24]
    omega
  rw [if_neg h24]
  omega

/-- The first byte of a number, as a number. -/
theorem toNat_firstByte (value : UInt32) :
    (UInt8.ofNat (value.toNat % 32 * 8 + (size value - 1))).toNat =
      value.toNat % 32 * 8 + (size value - 1) := by
  have hsize : size value ≤ 5 := size_le_maxSize value
  have hbyte :
      (UInt8.ofNat (value.toNat % 32 * 8 + (size value - 1))).toNat =
        (value.toNat % 32 * 8 + (size value - 1)) % 256 :=
    UInt8.toNat_ofNat'
  rw [hbyte]
  omega

/-- A number is read back whatever follows it. -/
theorem decode_encode_append (value : UInt32) (rest : List UInt8) :
    decode (encode value ++ rest) = .ok (value, size value) := by
  have hpos : 0 < size value := size_pos value
  have hmax : size value ≤ maxSize := size_le_maxSize value
  have hfive : maxSize = 5 := rfl
  have hfirst := toNat_firstByte value
  have hfollowing :
      (value.toNat % 32 * 8 + (size value - 1)) % 8 = size value - 1 := by
    omega
  have htake :
      (LittleEndian.encode (size value - 1) (value.toNat / 32) ++ rest).take (size value - 1) =
        LittleEndian.encode (size value - 1) (value.toNat / 32) := by
    rw [List.take_append_of_le_length (by simp), List.take_of_length_le (by simp)]
  have hvalue :
      (value.toNat % 32 * 8 + (size value - 1)) / 8 + 32 * (value.toNat / 32) =
        value.toNat := by
    omega
  rw [encode, List.cons_append, decode_cons, decodeAfter]
  simp only [hfirst, hfollowing, htake, LittleEndian.length_encode, Nat.lt_irrefl, if_false,
    LittleEndian.decode_encode_of_lt (high_lt value), hvalue]
  rw [if_neg (by omega), if_pos value.toNat_lt_size, UInt32.ofNat_toNat, Nat.sub_add_cancel hpos]

end Varint
end AnchoredFields

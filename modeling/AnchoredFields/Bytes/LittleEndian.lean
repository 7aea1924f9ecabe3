/-!
# Little-endian numbers

A number is stored in a fixed count of bytes, the least significant byte first.

* `LittleEndian.length_encode`: the count is as asked for;
* `LittleEndian.decode_encode`: reading back gives the number modulo what the
  bytes can hold;
* `LittleEndian.encode_decode`: bytes are determined by their number.
-/

namespace AnchoredFields
namespace LittleEndian

/-- The `width` lowest bytes of a number, least significant first. -/
def encode : (width : Nat) → (n : Nat) → List UInt8
  | 0, _ => []
  | width + 1, n => UInt8.ofNat n :: encode width (n / 256)

/-- The number whose bytes, least significant first, are given. -/
def decode : List UInt8 → Nat
  | [] => 0
  | b :: rest => b.toNat + 256 * decode rest

@[simp] theorem length_encode (width n : Nat) : (encode width n).length = width := by
  induction width generalizing n with
  | zero => rfl
  | succ width ih => simp [encode, ih]

/-- One more byte holds 256 times as many numbers. -/
theorem one_shiftLeft_succ (width : Nat) :
    1 <<< (8 * (width + 1)) = 256 * 1 <<< (8 * width) := by
  rw [Nat.one_shiftLeft, Nat.one_shiftLeft, Nat.mul_succ, Nat.pow_add, Nat.mul_comm]

theorem decode_encode (width n : Nat) :
    decode (encode width n) = n % 1 <<< (8 * width) := by
  induction width generalizing n with
  | zero => simp [encode, decode, Nat.mod_one]
  | succ width ih =>
      have hbyte : (UInt8.ofNat n).toNat = n % 256 := UInt8.toNat_ofNat'
      rw [encode, decode, ih, hbyte, one_shiftLeft_succ, Nat.mod_mul]

theorem decode_encode_of_lt {width n : Nat} (h : n < 1 <<< (8 * width)) :
    decode (encode width n) = n := by
  rw [decode_encode, Nat.mod_eq_of_lt h]

theorem decode_lt (bytes : List UInt8) : decode bytes < 1 <<< (8 * bytes.length) := by
  induction bytes with
  | nil => simp [decode]
  | cons b rest ih =>
      have hb : b.toNat < 256 := b.toNat_lt
      rw [decode, List.length_cons, one_shiftLeft_succ]
      omega

theorem encode_decode (bytes : List UInt8) : encode bytes.length (decode bytes) = bytes := by
  induction bytes with
  | nil => rfl
  | cons b rest ih =>
      have hb : b.toNat < 256 := b.toNat_lt
      have hlow : UInt8.ofNat (b.toNat + 256 * decode rest) = b := by
        apply UInt8.toNat_inj.mp
        have hbyte : (UInt8.ofNat (b.toNat + 256 * decode rest)).toNat =
            (b.toNat + 256 * decode rest) % 256 := UInt8.toNat_ofNat'
        omega
      have hhigh : (b.toNat + 256 * decode rest) / 256 = decode rest := by omega
      simp only [List.length_cons, encode, decode, hlow, hhigh, ih]

end LittleEndian
end AnchoredFields

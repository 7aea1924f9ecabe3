import AnchoredFields.Proofs.NumberGrammar

/-!
# Numbers delimit themselves

The count of bytes of a number is the first of five classes whose bound the number is
below.  The bytes are appended behind whatever a buffer holds; they are read back whatever
follows them, and no part of them in front of the last byte is a number.

* `Varint.size_le_iff_of_mem`: the classes and their bounds;
* `Varint.size_mono`: a larger number never takes fewer bytes;
* `Varint.appendTo_eq`: the bits that are put together are the bytes of the number;
* `Varint.Spells.flawed_of_cut`: what is cut off lacks bytes, and that is reported;
* `Varint.self_delimiting`: the results together.
-/

namespace AnchoredFields

namespace LittleEndian

/-- The lowest bytes of a number are the first ones. -/
theorem take_encode {count width : Nat} (h : count ≤ width) (n : Nat) :
    (encode width n).take count = encode count n := by
  induction count generalizing width n with
  | zero =>
      rfl
  | succ count ih =>
      obtain ⟨width, rfl⟩ := Nat.exists_eq_add_of_lt h
      rw [encode, encode, List.take_succ_cons, ih (Nat.le_add_right count width)]

end LittleEndian

namespace Varint

/-! ## Classes of sizes -/

/-- A number is below a power of two exactly if its significant bits do not exceed the exponent. -/
theorem significantBits_le_iff {value : UInt32} {bits : Nat} :
    significantBits value ≤ bits ↔ value.toNat < 2 ^ bits := by
  refine ⟨lt_of_significantBits_le, ?_⟩
  intro h
  unfold significantBits
  by_cases hzero : value = 0
  · rw [if_pos hzero]
    exact Nat.zero_le bits
  · rw [if_neg hzero]
    have hne : value.toNat ≠ 0 := by
      rw [← UInt32.toNat_zero, ne_eq, UInt32.toNat_inj]
      exact hzero
    exact (Nat.log2_lt hne).mpr h

theorem significantBits_mono {a b : UInt32} (h : a.toNat ≤ b.toNat) :
    significantBits a ≤ significantBits b :=
  significantBits_le_iff.mpr (Nat.lt_of_le_of_lt h (lt_two_pow_significantBits b))

/-- A larger number does not take fewer bytes. -/
theorem size_mono {a b : UInt32} (h : a.toNat ≤ b.toNat) : size a ≤ size b := by
  have hbits := significantBits_mono h
  unfold size
  repeat' split
  all_goals omega

/-- The counts of bytes, each with the bits that a number of so many bytes has at most. -/
def classes : List (Nat × Nat) :=
  [(1, 3), (2, 10), (3, 17), (4, 24), (5, 32)]

/-- A number takes no more bytes than a class has exactly if it is below the bound of the class. -/
theorem size_le_iff_of_mem {value : UInt32} {count bits : Nat} (h : (count, bits) ∈ classes) :
    size value ≤ count ↔ value.toNat < 2 ^ bits := by
  have hwidth : significantBits value ≤ 32 := significantBits_le_iff.mpr value.toNat_lt
  rw [← significantBits_le_iff]
  simp only [classes, List.mem_cons, Prod.mk.injEq, List.not_mem_nil, or_false] at h
  unfold size
  rcases h with ⟨rfl, rfl⟩ | ⟨rfl, rfl⟩ | ⟨rfl, rfl⟩ | ⟨rfl, rfl⟩ | ⟨rfl, rfl⟩ <;>
    (repeat' split) <;> omega

/-- A number takes the bytes of the first class whose bound it is below. -/
structure Sized (value : UInt32) : Prop where
  one : size value = 1 ↔ value.toNat < 2 ^ 3
  two : size value = 2 ↔ 2 ^ 3 ≤ value.toNat ∧ value.toNat < 2 ^ 10
  three : size value = 3 ↔ 2 ^ 10 ≤ value.toNat ∧ value.toNat < 2 ^ 17
  four : size value = 4 ↔ 2 ^ 17 ≤ value.toNat ∧ value.toNat < 2 ^ 24
  five : size value = 5 ↔ 2 ^ 24 ≤ value.toNat ∧ value.toNat < 2 ^ 32

theorem sized (value : UInt32) : Sized value := by
  have hpos := size_pos value
  have hone : size value ≤ 1 ↔ value.toNat < 2 ^ 3 := size_le_iff_of_mem (by decide)
  have htwo : size value ≤ 2 ↔ value.toNat < 2 ^ 10 := size_le_iff_of_mem (by decide)
  have hthree : size value ≤ 3 ↔ value.toNat < 2 ^ 17 := size_le_iff_of_mem (by decide)
  have hfour : size value ≤ 4 ↔ value.toNat < 2 ^ 24 := size_le_iff_of_mem (by decide)
  have hfive : size value ≤ 5 ↔ value.toNat < 2 ^ 32 := size_le_iff_of_mem (by decide)
  refine ⟨?_, ?_, ?_, ?_, ?_⟩
  all_goals omega

/-! ## Appending -/

/-- The two parts of the first byte do not overlap, so putting their bits together adds them. -/
theorem firstByte_eq (value : UInt32) :
    ((value &&& 0x1F) <<< 3).toUInt8 ||| UInt8.ofNat (size value - 1) =
      UInt8.ofNat (value.toNat % 32 * 8 + (size value - 1)) := by
  have hsize : size value ≤ 5 := size_le_maxSize value
  have hlow : (value &&& 0x1F).toNat = value.toNat % 32 := by
    rw [UInt32.toNat_and]
    exact Nat.and_two_pow_sub_one_eq_mod value.toNat 5
  have hshifted : ((value &&& 0x1F) <<< 3).toUInt8.toNat = (value.toNat % 32) <<< 3 := by
    rw [UInt32.toNat_toUInt8, UInt32.toNat_shiftLeft, hlow]
    simp only [UInt32.reduceToNat, Nat.reduceMod, Nat.shiftLeft_eq]
    omega
  have hcount : (UInt8.ofNat (size value - 1)).toNat = size value - 1 :=
    UInt8.toNat_ofNat_of_lt' (by show size value - 1 < 256; omega)
  have hdisjoint : size value - 1 < 2 ^ 3 := by omega
  apply UInt8.toNat_inj.mp
  rw [UInt8.toNat_or, hshifted, hcount, toNat_firstByte,
    ← Nat.shiftLeft_add_eq_or_of_lt hdisjoint, Nat.shiftLeft_eq]

/-- Appending a number leaves the bytes in front of it as they are. -/
theorem appendTo_eq (buffer : List UInt8) (value : UInt32) :
    appendTo buffer value = (size value, buffer ++ encode value) := by
  have hcount : size value - 1 ≤ 8 := by
    have hsize : size value ≤ 5 := size_le_maxSize value
    omega
  have hhigh : (value >>> 5).toNat = value.toNat / 32 := by
    rw [UInt32.toNat_shiftRight]
    exact Nat.shiftRight_eq_div_pow value.toNat 5
  rw [appendTo, encode]
  simp only [firstByte_eq, hhigh, LittleEndian.take_encode hcount, List.append_assoc,
    List.singleton_append]

/-! ## Parts of a number -/

/-- What is read from some bytes, and takes all of them, is what they spell. -/
theorem spells_encode (value : UInt32) : Spells (encode value) value := by
  refine exact_decode.spells_of_read ?_
  have hread := decode_encode_append value []
  rwa [List.append_nil, ← length_encode] at hread

/-- A number that is cut off before its end lacks bytes. -/
theorem Spells.flawed_of_cut {stored part : List UInt8} {value : UInt32}
    (h : Spells stored value) (hpart : part <+: stored) (hshort : part.length < stored.length) :
    Flawed part .outOfBounds := by
  cases h with
  | @mk first high value hcode hcount hvalue =>
      cases part with
      | nil =>
          exact .missing
      | cons b rest =>
          obtain ⟨rfl, -⟩ := List.cons_prefix_cons.mp hpart
          rw [List.length_cons, List.length_cons] at hshort
          refine .truncated ?_ ?_
          all_goals omega

/-- A number is appended in full, in as many bytes as the first class has that holds it, and
is read back whatever follows; a part of its bytes in front of the last one never is. -/
theorem self_delimiting (value : UInt32) (buffer trailing : List UInt8) :
    (∃ written,
      appendTo buffer value = (size value, buffer ++ written) ∧
        written.length = size value ∧
          decode (written ++ trailing) = .ok (value, size value) ∧
            ∀ part,
              part <+: written → part.length < written.length →
                decode part = .error .outOfBounds) ∧
      Sized value ∧ ∀ larger, value ≤ larger → size value ≤ size larger := by
  refine ⟨⟨encode value, appendTo_eq buffer value, length_encode value, ?_, ?_⟩, sized value, ?_⟩
  · exact decode_encode_append value trailing
  · intro part hpart hshort
    exact decode_of_flawed ((spells_encode value).flawed_of_cut hpart hshort)
  · intro larger hle
    exact size_mono (UInt32.le_iff_toNat_le.mp hle)

/-- The widest number takes five bytes, of which the first four are not a number. -/
theorem self_delimiting_of_widest :
    appendTo [7] 0xFFFF_FFFF = (5, [7, 0xFC, 0xFF, 0xFF, 0xFF, 0x07]) ∧
      decode [0xFC, 0xFF, 0xFF, 0xFF, 0x07, 0xFF] = .ok (0xFFFF_FFFF, 5) ∧
        decode [0xFC, 0xFF, 0xFF, 0xFF] = .error .outOfBounds := by
  obtain ⟨⟨written, happend, -, hread, hcut⟩, -, -⟩ := self_delimiting 0xFFFF_FFFF [7] [0xFF]
  have hbytes : appendTo [7] 0xFFFF_FFFF = (5, [7] ++ [0xFC, 0xFF, 0xFF, 0xFF, 0x07]) := by decide
  rw [hbytes] at happend
  obtain rfl := List.append_cancel_left (Prod.mk.inj happend).2
  exact ⟨hbytes, hread, hcut [0xFC, 0xFF, 0xFF, 0xFF] (by decide) (by decide)⟩

end Varint
end AnchoredFields

import Mathlib.Algebra.Ring.Nat
import AnchoredFields.Image.Basic
import AnchoredFields.Proofs.ByteRanges

/-!
# Reading an image

Bytes that stand at an offset of an image are read at the address of that offset,
as long as the image fits the address space.  An anchor is read as the number that
was stored, and masking an address rounds it down to the spacing of the anchors.

* `Image.read_eq`, `Image.sliceFrom_eq`: reading bytes where they stand;
* `Image.readAnchor_eq`: reading an anchor;
* `Image.anchorAddress_eq`: the anchor in front of an address.
-/

namespace AnchoredFields

/-- There is only one multiple within a spacing in front of a number. -/
theorem alignDown_eq {a n m : Nat} (hm : a ∣ m) (hle : m ≤ n) (hlt : n < m + a) :
    alignDown a n = m := by
  have hdown := alignDown_le a n
  have hge := le_alignDown hm hle
  obtain ⟨j, rfl⟩ := hm
  obtain ⟨k, hk⟩ := dvd_alignDown a n
  rw [hk] at hdown hge ⊢
  have ha : 0 < a := by omega
  have hjk : j ≤ k := Nat.le_of_mul_le_mul_left hge ha
  have hkj : k < j + 1 := by
    refine Nat.lt_of_mul_lt_mul_left (a := a) ?_
    rw [Nat.mul_succ]
    omega
  rw [Nat.le_antisymm (Nat.le_of_lt_succ hkj) hjk]

/-- Masking the low bits of a number rounds it down. -/
theorem toNat_and_not_mask {k : Nat} (hk : k < 64) (x : UInt64) :
    (x &&& ~~~(UInt64.ofNat (2 ^ k) - 1)).toNat = alignDown (2 ^ k) x.toNat := by
  have hpow : 2 ^ k < 2 ^ 64 := Nat.pow_lt_pow_right (by decide) hk
  have hpos : 0 < 2 ^ k := Nat.two_pow_pos k
  have hmask : (UInt64.ofNat (2 ^ k) - 1).toNat = 2 ^ k - 1 := by
    have hone : (1 : UInt64) ≤ UInt64.ofNat (2 ^ k) := by
      rw [UInt64.le_iff_toNat_le, UInt64.toNat_ofNat_of_lt' hpow]
      exact hpos
    rw [UInt64.toNat_sub_of_le _ _ hone, UInt64.toNat_ofNat_of_lt' hpow]
    rfl
  have hnot : (~~~(UInt64.ofNat (2 ^ k) - 1)).toNat = 2 ^ 64 - (2 ^ k - 1 + 1) := by
    rw [UInt64.toNat_not, hmask]
    show 2 ^ 64 - 1 - (2 ^ k - 1) = _
    omega
  have hlow : 2 ^ k - 1 < 2 ^ 64 := by omega
  refine Nat.eq_of_testBit_eq ?_
  intro i
  rw [UInt64.toNat_and, Nat.testBit_and, hnot, Nat.testBit_two_pow_sub_succ hlow,
    Nat.testBit_two_pow_sub_one, alignDown, Nat.testBit_mul_two_pow, Nat.testBit_div_two_pow]
  by_cases hi : k ≤ i
  · have hback : i - k + k = i := by omega
    by_cases hword : i < 64
    · simp [hi, hword, hback, Nat.not_lt.mpr hi]
    · have hzero : x.toNat.testBit i = false :=
        Nat.testBit_lt_two_pow
          (Nat.lt_of_lt_of_le x.toNat_lt (Nat.pow_le_pow_right (by decide) (Nat.not_lt.mp hword)))
      simp [hback, hzero]
  · simp [hi, Nat.not_le.mp hi]

namespace Image

/-- All addresses of an image are 64-bit numbers. -/
def Fits (image : Image) : Prop :=
  image.base.toNat + image.size ≤ UInt64.size

variable {image : Image} {address : Address} {offset : Nat} {data : List UInt8}

theorem exists_addressOf (hsum : image.base.toNat + offset < UInt64.size) :
    ∃ address,
      image.addressOf offset = .ok address ∧ address.toNat = image.base.toNat + offset := by
  refine ⟨UInt64.ofNat (image.base.toNat + offset), ?_, UInt64.toNat_ofNat_of_lt' hsum⟩
  rw [addressOf, Address.after_eq_ok_iff]
  exact UInt64.toNat_ofNat_of_lt' hsum

theorem addressOf_eq (hfits : image.Fits) (hlt : offset < image.size) :
    ∃ address,
      image.addressOf offset = .ok address ∧ address.toNat = image.base.toNat + offset :=
  exists_addressOf (Nat.lt_of_lt_of_le (Nat.add_lt_add_left hlt _) hfits)

theorem sliceFrom_eq (haddress : address.toNat = image.base.toNat + offset)
    (hlt : offset < image.size) :
    image.sliceFrom address = .ok (image.bytes.drop offset) :=
  sliceFrom_eq_ok_iff.mpr ⟨offset, offsetOf_eq_ok_iff.mpr ⟨haddress, hlt⟩, rfl⟩

theorem read_eq (hstands : StandsAt data offset image.bytes)
    (haddress : address.toNat = image.base.toNat + offset)
    (hlt : offset < image.size) :
    image.read address data.length = .ok data := by
  have hstop := hstands.stop_le
  have hlength : data.length ≤ (image.bytes.drop offset).length := by
    rw [List.length_drop]
    omega
  rw [read, sliceFrom_eq haddress hlt]
  simp only [bind, Except.bind]
  rw [if_pos hlength, hstands.take_drop_eq]
  rfl

/-- Eight bytes are decoded as the number they store. -/
theorem exists_word {bytes : List UInt8} {n : Nat}
    (hstands : StandsAt (LittleEndian.encode Width.eight.bytes n) offset bytes)
    (hword : n < UInt64.size) :
    ∃ stored : Word .eight,
      Word.decode .eight (bytes.drop offset) = .ok (stored, Width.eight.bytes) ∧
        stored.toNat = n := by
  obtain ⟨value, rfl⟩ : ∃ value : Word .eight, value.toNat = n :=
    ⟨BitVec.ofNat 64 n, Nat.mod_eq_of_lt hword⟩
  obtain ⟨after, hafter⟩ := hstands.drop_eq
  have hdecode := Word.decode_encode value after
  rw [Word.encode, ← hafter] at hdecode
  exact ⟨value, hdecode, rfl⟩

/-- An anchor is read as the number it stores. -/
theorem readAnchor_eq {n : Nat}
    (hstands : StandsAt (LittleEndian.encode Width.eight.bytes n) offset image.bytes)
    (haddress : address.toNat = image.base.toNat + offset)
    (hword : n < UInt64.size) :
    ∃ stored, image.readAnchor address = .ok stored ∧ stored.toNat = n := by
  obtain ⟨value, hdecode, hvalue⟩ := exists_word hstands hword
  have hstop := hstands.stop_le
  have hlt : offset < image.size := by
    rw [LittleEndian.length_encode] at hstop
    exact Nat.lt_of_lt_of_le (Nat.lt_add_of_pos_right (by decide)) hstop
  refine ⟨UInt64.ofBitVec value, ?_, hvalue⟩
  rw [readAnchor, sliceFrom_eq haddress hlt]
  simp only [bind, Except.bind, hdecode]
  rfl

/-- The anchor in front of an address lies at the multiple of the spacing before it. -/
theorem anchorAddress_eq {shift : Nat} (hshift : shift < 64)
    (hspacing : image.anchorAlignment = UInt64.ofNat (2 ^ shift)) (address : Address) :
    ∃ anchor,
      image.anchorAddress address = .ok anchor ∧
        anchor.toNat = alignDown (2 ^ shift) address.toNat := by
  have hpow : 2 ^ shift < 2 ^ 64 := Nat.pow_lt_pow_right (by decide) hshift
  have hpos : 0 < 2 ^ shift := Nat.two_pow_pos shift
  have hne : image.anchorAlignment ≠ 0 := by
    intro hzero
    have hnat := congrArg UInt64.toNat (hspacing.symm.trans hzero)
    rw [UInt64.toNat_ofNat_of_lt' hpow] at hnat
    exact Nat.ne_of_gt hpos hnat
  refine ⟨address &&& ~~~(image.anchorAlignment - 1), ?_, ?_⟩
  · rw [anchorAddress, if_neg hne]
  · rw [hspacing]
    exact toNat_and_not_mask hshift address

end Image
end AnchoredFields

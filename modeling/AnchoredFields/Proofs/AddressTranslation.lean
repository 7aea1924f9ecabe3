import Mathlib.Order.Bounds.Basic
import AnchoredFields.Proofs.HostileImages
import AnchoredFields.Proofs.ImageReading

/-!
# Addresses and offsets

An image may be loaded anywhere, also so high that not all of its bytes have an address.  An
address leads to an offset by its distance from the base, or to no offset at all; what is read
there ends within the image or is refused.  Offsets that have an address are found again, and
masking the address rounds the offset down, as long as the base is a multiple of the alignment.

* `alignDown_add`: rounding down in front of a multiple;
* `Image.translates`: what an image makes of an address;
* `Image.exists_anchorAddress`: masking addresses and rounding offsets agree;
* `Image.translation_exact`: both for every image.
-/

namespace AnchoredFields

/-- The aligned predecessor of a number is the greatest multiple that is not above it. -/
theorem isGreatest_alignDown (a n : Nat) : IsGreatest { m | a ∣ m ∧ m ≤ n } (alignDown a n) :=
  ⟨⟨dvd_alignDown a n, alignDown_le a n⟩, fun _ hm => le_alignDown hm.1 hm.2⟩

/-- Behind a multiple, the distance from it is rounded down. -/
theorem alignDown_add {a n : Nat} (ha : 0 < a) (hdvd : a ∣ n) (m : Nat) :
    alignDown a (n + m) = n + alignDown a m := by
  have hle := alignDown_le a m
  have hlt : m < alignDown a m + a := Nat.lt_div_mul_add ha
  exact alignDown_eq (Nat.dvd_add hdvd (dvd_alignDown a m)) (by omega) (by omega)

namespace Image

/-- What an image makes of an address: the offset that it leads to, if any, and what is read
from there on. -/
structure Translates (image : Image) (address : Address) : Prop where
  offsetOf_eq_ok_iff :
    ∀ offset,
      image.offsetOf address = .ok offset ↔
        address.toNat = image.base.toNat + offset ∧ offset < image.size
  invalid :
    (∀ offset, image.offsetOf address ≠ .ok offset) →
      image.offsetOf address = .error (.invalidAddress address.toNat) ∧
        image.sliceFrom address = .error (.invalidAddress address.toNat) ∧
        (∀ count, image.read address count = .error (.invalidAddress address.toNat)) ∧
        image.readAnchor address = .error (.invalidAddress address.toNat)
  sliceFrom_eq :
    ∀ offset, image.offsetOf address = .ok offset →
      image.sliceFrom address = .ok (image.bytes.drop offset)
  read_eq :
    ∀ offset count, image.offsetOf address = .ok offset →
      image.read address count =
        if offset + count ≤ image.size then .ok ((image.bytes.drop offset).take count)
        else .error .outOfBounds
  readAnchor_eq :
    ∀ offset, image.offsetOf address = .ok offset → offset + Width.eight.bytes ≤ image.size →
      ∃ anchor,
        image.readAnchor address = .ok anchor ∧
          anchor.toNat =
            LittleEndian.decode ((image.bytes.drop offset).take Width.eight.bytes)
  readAnchor_short :
    ∀ offset, image.offsetOf address = .ok offset → image.size < offset + Width.eight.bytes →
      image.readAnchor address = .error .outOfBounds

variable {image : Image} {address : Address} {offset : Nat}

/-- An address that leads to no offset lies outside the image. -/
theorem not_contains_of_no_offset (h : ∀ offset, image.offsetOf address ≠ .ok offset) :
    ¬ image.Contains address := by
  rintro ⟨hbase, hstop⟩
  refine h (address.toNat - image.base.toNat) ?_
  exact Image.offsetOf_eq_ok_iff.mpr (by omega)

theorem read_of_offset (hoffset : image.offsetOf address = .ok offset) (count : Nat) :
    image.read address count =
      if offset + count ≤ image.size then .ok ((image.bytes.drop offset).take count)
      else .error .outOfBounds := by
  obtain ⟨haddress, hlt⟩ := Image.offsetOf_eq_ok_iff.mp hoffset
  have hrest : count ≤ (image.bytes.drop offset).length ↔ offset + count ≤ image.size := by
    rw [List.length_drop, ← size]
    omega
  rw [read, Image.sliceFrom_eq haddress hlt]
  simp only [bind, Except.bind, hrest]
  rfl

/-- The bytes of an anchor are all there exactly if the image does not end among them. -/
theorem holdsWord_iff (hoffset : image.offsetOf address = .ok offset) :
    image.HoldsWord address ↔ offset + Width.eight.bytes ≤ image.size := by
  obtain ⟨haddress, hlt⟩ := Image.offsetOf_eq_ok_iff.mp hoffset
  rw [HoldsWord, Width.bytes]
  omega

/-- Every image translates every address. -/
theorem translates (image : Image) (address : Address) : image.Translates address := by
  refine
    { offsetOf_eq_ok_iff := fun offset => Image.offsetOf_eq_ok_iff
      invalid := ?_
      sliceFrom_eq := ?_
      read_eq := fun offset count hoffset => read_of_offset hoffset count
      readAnchor_eq := ?_
      readAnchor_short := ?_ }
  · intro hnone
    have houtside := not_contains_of_no_offset hnone
    have hslice := sliceFrom_of_not_contains houtside
    have hnot : ¬ image.HoldsWord address := fun hword => houtside hword.contains
    have hanchor := readAnchor_of_not_holdsWord hnot
    rw [if_neg houtside] at hanchor
    refine ⟨?_, hslice, ?_, hanchor⟩
    · refine offsetOf_eq_error_iff.mpr ⟨?_, rfl⟩
      rw [Contains] at houtside
      omega
    · intro count
      rw [read, hslice]
      rfl
  · intro offset hoffset
    exact sliceFrom_eq_ok_iff.mpr ⟨offset, hoffset, rfl⟩
  · intro offset hoffset hstop
    obtain ⟨anchor, hread, hanchor⟩ :=
      readAnchor_of_holdsWord ((holdsWord_iff hoffset).mpr hstop)
    refine ⟨anchor, hread, ?_⟩
    have hdistance : address.toNat - image.base.toNat = offset := by
      have haddress := (Image.offsetOf_eq_ok_iff.mp hoffset).1
      omega
    rw [hanchor, wordAt, bytesFrom, hdistance]
  · intro offset hoffset hshort
    have hnot : ¬ image.HoldsWord address := by
      rw [holdsWord_iff hoffset]
      omega
    obtain ⟨haddress, hlt⟩ := Image.offsetOf_eq_ok_iff.mp hoffset
    have hinside : image.Contains address := by
      rw [Contains]
      omega
    rw [readAnchor_of_not_holdsWord hnot, if_pos hinside]

/-- If the base is a multiple of the alignment, masking the address of an offset leads to the
address of the offset rounded down. -/
theorem exists_anchorAddress
    (hpower : isPowerOfTwo image.anchorAlignment.toNat = true)
    (hbase : image.anchorAlignment.toNat ∣ image.base.toNat)
    (haddress : address.toNat = image.base.toNat + offset) :
    ∃ anchor,
      image.anchorAddress address = .ok anchor ∧
        anchor.toNat = image.base.toNat + alignDown image.anchorAlignment.toNat offset := by
  obtain ⟨k, hk⟩ := isPowerOfTwo_iff.mp hpower
  rw [Nat.one_shiftLeft] at hk
  have hshift : k < 64 := by
    have hlt := image.anchorAlignment.toNat_lt
    rw [hk] at hlt
    exact (Nat.pow_lt_pow_iff_right (by decide)).mp hlt
  have hspacing : image.anchorAlignment = UInt64.ofNat (2 ^ k) := by
    rw [← hk, UInt64.ofNat_toNat]
  obtain ⟨anchor, hmask, hanchor⟩ := anchorAddress_eq hshift hspacing address
  have hpos : 0 < 2 ^ k := Nat.two_pow_pos k
  rw [hk] at hbase ⊢
  exact ⟨anchor, hmask, by rw [hanchor, haddress, alignDown_add hpos hbase]⟩

/-- Addresses and offsets of an image are translated exactly, wherever it is loaded.  An offset
that has an address is what the address leads to, and the anchor in front of the address is at
the greatest multiple of the alignment that is not above the offset. -/
theorem translation_exact (image : Image) :
    (∀ address, image.Translates address) ∧
      ∀ offset, offset < image.size → image.base.toNat + offset < UInt64.size →
        ∃ address,
          image.addressOf offset = .ok address ∧
            address.toNat = image.base.toNat + offset ∧
            image.offsetOf address = .ok offset ∧
            (isPowerOfTwo image.anchorAlignment.toNat = true →
              image.anchorAlignment.toNat ∣ image.base.toNat →
              ∃ anchor rounded,
                image.anchorAddress address = .ok anchor ∧
                  IsGreatest { n | image.anchorAlignment.toNat ∣ n ∧ n ≤ offset } rounded ∧
                  anchor.toNat = image.base.toNat + rounded) := by
  refine ⟨image.translates, ?_⟩
  intro offset hlt hsum
  obtain ⟨address, hok, haddress⟩ := exists_addressOf hsum
  refine ⟨address, hok, haddress, Image.offsetOf_eq_ok_iff.mpr ⟨haddress, hlt⟩, ?_⟩
  intro hpower hbase
  obtain ⟨anchor, hmask, hanchor⟩ := exists_anchorAddress hpower hbase haddress
  exact ⟨anchor, _, hmask, isGreatest_alignDown _ offset, hanchor⟩

/-- An image that ends behind the last address: the byte at the last address has its anchor at
the base, eight bytes are read up to the end of the image, and none behind it. -/
theorem translation_exact_beyond_addresses :
    let image : Image :=
      { base := 0xFFFF_FFFF_FFFF_FFF0
        anchorAlignment := 16
        bytes := List.replicate 12 0 ++ [1, 0, 0, 0, 0, 0, 0, 0]
        regions := fun _ => none
        streams := [] }
    image.read 0xFFFF_FFFF_FFFF_FFFC 8 = .ok [1, 0, 0, 0, 0, 0, 0, 0] ∧
      image.read 0xFFFF_FFFF_FFFF_FFFD 8 = .error .outOfBounds ∧
      image.read 0xFFFF_FFFF_FFFF_FFEF 0 = .error (.invalidAddress 0xFFFF_FFFF_FFFF_FFEF) ∧
      ∃ address anchor,
        image.addressOf 15 = .ok address ∧ image.anchorAddress address = .ok anchor ∧
          anchor.toNat = image.base.toNat := by
  intro image
  obtain ⟨htranslates, hoffsets⟩ := image.translation_exact
  refine ⟨?_, ?_, ?_, ?_⟩
  · have hread := (htranslates 0xFFFF_FFFF_FFFF_FFFC).read_eq 12 8 (by decide)
    exact hread
  · have hread := (htranslates 0xFFFF_FFFF_FFFF_FFFD).read_eq 13 8 (by decide)
    exact hread
  · have hnone : ∀ offset, image.offsetOf 0xFFFF_FFFF_FFFF_FFEF ≠ .ok offset := by
      intro offset hoffset
      cases hoffset
    exact ((htranslates 0xFFFF_FFFF_FFFF_FFEF).invalid hnone).2.2.1 0
  · obtain ⟨address, hok, -, -, hanchors⟩ := hoffsets 15 (by decide) (by decide)
    obtain ⟨anchor, rounded, hmask, hgreatest, hanchor⟩ := hanchors (by decide) (by decide)
    have hrounded : rounded = 0 := hgreatest.unique (isGreatest_alignDown 16 15)
    exact ⟨address, anchor, hok, hmask, by rw [hanchor, hrounded, Nat.add_zero]⟩

end Image
end AnchoredFields

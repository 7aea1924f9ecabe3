import AnchoredFields.Image.View
import AnchoredFields.Proofs.StreamGrammar

/-!
# What is accepted at an address of an image

A view may be opened at any address of an image with any bytes.  An address outside the
image is refused as such.  From an address inside, all fields are decoded exactly if the
bytes from there on start with a field stream of numbers; otherwise the first element that
is missing or that nothing can be made of is what is reported.

* `Image.sliceFrom_of_contains`, `Image.sliceFrom_of_not_contains`: the bytes from an
  address on;
* `FieldStream.Defective.ne_invalidAddress`: a defect of the bytes is never mistaken for an
  address outside the image;
* `View.rawFields_decides`: which fields a view has, and why it has none.
-/

namespace AnchoredFields

namespace Image

/-- An address lies within the image. -/
def Contains (image : Image) (address : Address) : Prop :=
  image.base.toNat ≤ address.toNat ∧ address.toNat < image.base.toNat + image.size

instance (image : Image) (address : Address) : Decidable (image.Contains address) :=
  inferInstanceAs (Decidable (_ ∧ _))

/-- The bytes from an address to the end of the image. -/
def bytesFrom (image : Image) (address : Address) : List UInt8 :=
  image.bytes.drop (address.toNat - image.base.toNat)

variable {image : Image} {address : Address}

theorem sliceFrom_of_contains (h : image.Contains address) :
    image.sliceFrom address = .ok (image.bytesFrom address) := by
  obtain ⟨hbase, hstop⟩ := h
  refine sliceFrom_eq_ok_iff.mpr ⟨address.toNat - image.base.toNat, ?_, rfl⟩
  exact offsetOf_eq_ok_iff.mpr (by omega)

theorem sliceFrom_of_not_contains (h : ¬ image.Contains address) :
    image.sliceFrom address = .error (.invalidAddress address.toNat) := by
  have houtside :
      address.toNat < image.base.toNat ∨ image.base.toNat + image.size ≤ address.toNat := by
    rw [Contains] at h
    omega
  rw [sliceFrom, offsetOf_eq_error_iff.mpr ⟨houtside, rfl⟩]
  rfl

end Image

namespace Varint

/-- Bytes without a number are no matter of addresses. -/
theorem Flawed.ne_invalidAddress {bytes : List UInt8} {e : Error} (h : Flawed bytes e)
    (address : Nat) :
    e ≠ .invalidAddress address := by
  intro he
  subst he
  cases h

end Varint

namespace FieldStream

/-- Bytes that spell fields with numbers. -/
abbrev SpellsNumbers : List UInt8 → List (Tag × UInt32) → Prop :=
  Spells fun _ => Varint.Spells

/-- Bytes that do not start with fields with numbers, and what is wrong first. -/
abbrev DefectiveNumbers : List UInt8 → List (Tag × UInt32) → Error → Prop :=
  Defective (fun _ => Varint.Spells) fun _ => Varint.Flawed

/-- Bytes without a stream are no matter of addresses. -/
theorem Defective.ne_invalidAddress {bytes : List UInt8} {fields : List (Tag × UInt32)} {e : Error}
    (h : DefectiveNumbers bytes fields e)
    (address : Nat) :
    e ≠ .invalidAddress address := by
  induction h with
  | missing =>
      exact Error.noConfusion
  | unknownTag hcode rest =>
      exact Error.noConfusion
  | value hheader hvalue =>
      exact hvalue.ne_invalidAddress address
  | later hheader hvalue hrest ih =>
      exact ih

end FieldStream

namespace View

variable {image : Image} {address : Address}

theorem rawFields_of_contains (h : image.Contains address) :
    rawFields { image := image, address := some address } =
      FieldStream.decode (fun _ => Varint.decode) (image.bytesFrom address) := by
  simp only [rawFields, Image.sliceFrom_of_contains h, bind, Except.bind]

theorem rawFields_of_not_contains (h : ¬ image.Contains address) :
    rawFields { image := image, address := some address } =
      .error (.invalidAddress address.toNat) := by
  simp only [rawFields, Image.sliceFrom_of_not_contains h, bind, Except.bind]

/-- A view at an address inside its image has fields exactly if the bytes there spell them. -/
theorem rawFields_eq_ok_iff (h : image.Contains address) {fields : List (Tag × UInt32)} :
    rawFields { image := image, address := some address } = .ok fields ↔
      ∃ stream rest,
        image.bytesFrom address = stream ++ rest ∧ FieldStream.SpellsNumbers stream fields := by
  rw [rawFields_of_contains h]
  exact FieldStream.decode_eq_ok_iff fun _ => Varint.exact_decode

/-- A view at an address inside its image fails exactly for the first defect there. -/
theorem rawFields_eq_error_iff (h : image.Contains address) {e : Error} :
    rawFields { image := image, address := some address } = .error e ↔
      ∃ fields, FieldStream.DefectiveNumbers (image.bytesFrom address) fields e := by
  rw [rawFields_of_contains h]
  exact FieldStream.decode_eq_error_iff fun _ => Varint.exact_decode

/-- An address outside the image is refused for itself, and nothing else is. -/
theorem rawFields_eq_invalidAddress_iff {n : Nat} :
    rawFields { image := image, address := some address } = .error (.invalidAddress n) ↔
      ¬ image.Contains address ∧ n = address.toNat := by
  by_cases hcontains : image.Contains address
  · rw [rawFields_eq_error_iff hcontains]
    constructor
    · rintro ⟨fields, hdefect⟩
      exact absurd rfl (hdefect.ne_invalidAddress n)
    · rintro ⟨houtside, -⟩
      exact absurd hcontains houtside
  · rw [rawFields_of_not_contains hcontains, Except.error.injEq, Error.invalidAddress.injEq]
    exact ⟨fun hn => ⟨hcontains, hn.symm⟩, fun hn => hn.2.symm⟩

/-- A view of any image at any address decides whether a stream of numbers starts there, and
what follows the stream makes no difference. -/
theorem rawFields_decides (image : Image) (address : Address) :
    let view : View := { image := image, address := some address }
    (∀ n,
      view.rawFields = .error (.invalidAddress n) ↔
        ¬ image.Contains address ∧ n = address.toNat) ∧
      (image.Contains address →
        (∀ fields,
          view.rawFields = .ok fields ↔
            ∃ stream rest,
              image.bytesFrom address = stream ++ rest ∧
                FieldStream.SpellsNumbers stream fields) ∧
          (∀ e,
            view.rawFields = .error e ↔
              ∃ fields, FieldStream.DefectiveNumbers (image.bytesFrom address) fields e) ∧
            ∀ stream rest fields,
              image.bytesFrom address = stream ++ rest →
                FieldStream.SpellsNumbers stream fields →
                  ∀ (other : Image) (place : Address) (behind : List UInt8),
                    other.Contains place → other.bytesFrom place = stream ++ behind →
                      rawFields { image := other, address := some place } = view.rawFields) := by
  intro view
  refine ⟨fun n => rawFields_eq_invalidAddress_iff, fun hcontains => ⟨?_, ?_, ?_⟩⟩
  · intro fields
    exact rawFields_eq_ok_iff hcontains
  · intro e
    exact rawFields_eq_error_iff hcontains
  · intro stream rest fields hbytes hstream other place behind hplace hother
    have hview : view.rawFields = .ok fields :=
      (rawFields_eq_ok_iff hcontains).mpr ⟨stream, rest, hbytes, hstream⟩
    rw [hview]
    exact (rawFields_eq_ok_iff hplace).mpr ⟨stream, behind, hother, hstream⟩

/-- A tag occurs twice, first with a number in more bytes than it needs; the byte behind the
stream is no header, and a view that is opened there says so. -/
theorem rawFields_decides_of_repeated_tag :
    let image : Image :=
      { base := 0xFFFF_FFFF_FFFF_FFF0
        anchorAlignment := 128
        bytes := [0xAA, 0x01, 0x11, 0x00, 0x81, 0x28, 0xC0]
        regions := fun _ => none
        streams := [] }
    rawFields { image := image, address := some 0xFFFF_FFFF_FFFF_FFEF } =
        .error (.invalidAddress 0xFFFF_FFFF_FFFF_FFEF) ∧
      rawFields { image := image, address := some 0xFFFF_FFFF_FFFF_FFF1 } =
        .ok [(.dispatchMap, 2), (.dispatchMap, 5)] ∧
        rawFields { image := image, address := some 0xFFFF_FFFF_FFFF_FFF6 } =
          .error (.unknownTag 64) := by
  intro image
  have hfirst : Varint.Spells [0x11, 0x00] 2 := .mk rfl (by decide) rfl
  have hsecond : Varint.Spells [0x28] 5 := .mk rfl (by decide) rfl
  have hstream :
      FieldStream.SpellsNumbers (0x01 :: ([0x11, 0x00] ++ 0x81 :: [0x28]))
        [(.dispatchMap, 2), (.dispatchMap, 5)] :=
    .more ⟨rfl, rfl⟩ hfirst (.last ⟨rfl, rfl⟩ hsecond)
  have hdefect : FieldStream.DefectiveNumbers [0xC0] [] (.unknownTag 64) := by
    refine .unknownTag (b := 0xC0) ?_ []
    intro tag
    cases tag <;> decide
  have houtside : ¬ image.Contains 0xFFFF_FFFF_FFFF_FFEF := by decide
  have hstart : image.Contains 0xFFFF_FFFF_FFFF_FFF1 := by decide
  have hbehind : image.Contains 0xFFFF_FFFF_FFFF_FFF6 := by decide
  refine ⟨?_, ?_, ?_⟩
  · exact ((rawFields_decides image _).1 _).mpr ⟨houtside, rfl⟩
  · exact (((rawFields_decides image _).2 hstart).1 _).mpr ⟨_, [0xC0], rfl, hstream⟩
  · exact (((rawFields_decides image _).2 hbehind).2.1 _).mpr ⟨_, hdefect⟩

end View
end AnchoredFields

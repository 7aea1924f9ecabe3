import AnchoredFields.Bytes.Alignment
import AnchoredFields.Bytes.Word
import AnchoredFields.Image.Extent

/-!
# Images

An image is the frozen result of a layout: its bytes, the address they are loaded
at, where its regions are, and where each field stream starts.  Addresses lead
back to offsets, reads are bounds-checked, and the anchor in front of a stream is
found by masking the address of the stream.

* `Image.offsetOf_eq_ok_iff`: an address leads to the offset whose distance from
  the base it is, and only inside the image;
* `Image.sliceFrom_eq_ok_iff`: the bytes from an address on.
-/

namespace AnchoredFields

/-- Names a field stream by its position in encoding order. -/
structure Handle where
  index : Nat
  deriving DecidableEq, Repr

/-- A placed, immutable image. -/
structure Image where
  /-- The address of the first byte. -/
  base : Address
  /-- The alignment of the anchors between the field streams. -/
  anchorAlignment : UInt64
  bytes : List UInt8
  /-- Where each region is, if it was begun. -/
  regions : Region → Option Extent
  /-- The offset of each field stream, by handle. -/
  streams : List Nat

namespace Image

/-- The number of bytes. -/
def size (image : Image) : Nat :=
  image.bytes.length

/-- Whether an image has no bytes. -/
def isEmpty (image : Image) : Bool :=
  image.bytes.isEmpty

/-- The address of the byte at an offset. -/
def addressOf (image : Image) (offset : Nat) : Except Fault Address :=
  image.base.after offset

/-- The offset that an address leads to. -/
def offsetOf (image : Image) (address : Address) : Except Error Nat :=
  let distance := address.toNat - image.base.toNat
  if image.base.toNat ≤ address.toNat ∧ distance < image.size then
    .ok distance
  else
    .error (.invalidAddress address.toNat)

/-- The bytes from an address to the end of the image. -/
def sliceFrom (image : Image) (address : Address) : Except Error (List UInt8) := do
  let offset ← image.offsetOf address
  return image.bytes.drop offset

/-- A number of bytes starting at an address. -/
def read (image : Image) (address : Address) (count : Nat) : Except Error (List UInt8) := do
  let bytes ← image.sliceFrom address
  if count ≤ bytes.length then
    return bytes.take count
  else
    throw .outOfBounds

/-- The address of the anchor in front of a stream, found by masking. -/
def anchorAddress (image : Image) (address : Address) : Except Fault Address :=
  if image.anchorAlignment = 0 then
    .error .overflow
  else
    .ok (address &&& ~~~(image.anchorAlignment - 1))

/-- The address stored in an anchor. -/
def readAnchor (image : Image) (address : Address) : Except Error Address := do
  let bytes ← image.sliceFrom address
  let (stored, _) ← Word.decode .eight bytes
  return UInt64.ofBitVec stored

/-- The address of the field stream of a handle. -/
def streamAddress (image : Image) (handle : Handle) : Except Failure Address :=
  match image.streams[handle.index]? with
  | some offset => image.addressOf offset
  | none => throw (.error (.unknownHandle handle.index))

/-- The address that an optional handle stands for; an unknown handle stands for none. -/
def resolve (image : Image) (handle? : Option Handle) : Except Fault (Option Address) :=
  match handle? with
  | none => .ok none
  | some handle =>
      match image.streams[handle.index]? with
      | some offset => some <$> image.addressOf offset
      | none => .ok none

theorem offsetOf_eq_ok_iff {image : Image} {address : Address} {offset : Nat} :
    image.offsetOf address = .ok offset ↔
      address.toNat = image.base.toNat + offset ∧ offset < image.size := by
  unfold offsetOf
  simp only
  split
  · rename_i h
    rw [Except.ok.injEq]
    omega
  · rename_i h
    simp only [reduceCtorEq, false_iff]
    omega

theorem offsetOf_eq_error_iff {image : Image} {address : Address} {e : Error} :
    image.offsetOf address = .error e ↔
      (address.toNat < image.base.toNat ∨ image.base.toNat + image.size ≤ address.toNat) ∧
        e = .invalidAddress address.toNat := by
  unfold offsetOf
  simp only
  split
  · rename_i h
    simp only [reduceCtorEq, false_iff]
    omega
  · rename_i h
    rw [Except.error.injEq, eq_comm]
    constructor
    · intro he
      exact ⟨by omega, he⟩
    · exact And.right

theorem sliceFrom_eq_ok_iff {image : Image} {address : Address} {bytes : List UInt8} :
    image.sliceFrom address = .ok bytes ↔
      ∃ offset, image.offsetOf address = .ok offset ∧ bytes = image.bytes.drop offset := by
  unfold sliceFrom
  cases image.offsetOf address with
  | error e => simp [bind, Except.bind]
  | ok offset =>
      simp [bind, Except.bind, pure, Except.pure, eq_comm]

end Image
end AnchoredFields

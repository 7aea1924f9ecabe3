import AnchoredFields.Bytes.Alignment
import AnchoredFields.Failure

/-!
# Blobs and where they are placed

A blob is an opaque payload with an alignment.  Several sets of fields may refer
to the same blob, so a blob has an identity besides its content, and where it was
placed is recorded once for all of them, in a ledger.  A blob is placed at most
once; the ledger outlives any single layout.

* `Ledger.offset?_place`: recording a placement changes the entry of that blob
  and of no other.
-/

namespace AnchoredFields

/-- The content of a blob: its bytes, or one byte and how often it stands.  A content of the
second kind may be large, so it is spelled out only where it is copied. -/
inductive Payload where
  | bytes (data : List UInt8)
  | fill (byte : UInt8) (count : Nat)
  deriving DecidableEq, Repr

namespace Payload

/-- The bytes of a content. -/
def toList : Payload → List UInt8
  | .bytes data => data
  | .fill byte count => List.replicate count byte

/-- The number of bytes of a content. -/
def size : Payload → Nat
  | .bytes data => data.length
  | .fill _ count => count

@[simp] theorem length_toList (payload : Payload) : payload.toList.length = payload.size := by
  cases payload with
  | bytes data => rfl
  | fill byte count => exact List.length_replicate

end Payload

/-- An opaque payload of an out-of-line field. -/
structure Blob where
  /-- The number under which the ledger knows the blob. -/
  id : Nat
  payload : Payload
  /-- The alignment that the content needs, a power of two. -/
  alignment : Nat
  deriving DecidableEq, Repr

namespace Blob

/-- The bytes of the content. -/
def data (blob : Blob) : List UInt8 :=
  blob.payload.toList

/-- The number of bytes of the content. -/
def size (blob : Blob) : Nat :=
  blob.payload.size

@[simp] theorem length_data (blob : Blob) : blob.data.length = blob.size :=
  blob.payload.length_toList

/-- However it is kept, equal content has one size. -/
theorem size_congr {blob other : Blob} (h : blob.data = other.data) : blob.size = other.size := by
  rw [← blob.length_data, h, other.length_data]

end Blob

/-- The blobs made so far and where they were placed. -/
structure Ledger where
  /-- How many blobs were made; each is known by the count before it. -/
  issued : Nat := 0
  /-- The offset within the out-of-line region, by the number of the blob. -/
  placement : Nat → Option UInt32 := fun _ => none

namespace Ledger

/-- Makes a blob that is not placed yet. -/
def makeBlob (ledger : Ledger) (payload : Payload) (alignment : Nat) :
    Except Fault (Blob × Ledger) :=
  if isPowerOfTwo alignment then
    let blob := { id := ledger.issued, payload := payload, alignment := alignment }
    .ok (blob, { ledger with issued := ledger.issued + 1 })
  else
    .error (.blobAlignment alignment)

/-- The offset at which a blob was placed. -/
def offset? (ledger : Ledger) (blob : Blob) : Option UInt32 :=
  ledger.placement blob.id

/-- Whether a blob was placed. -/
def isPlaced (ledger : Ledger) (blob : Blob) : Bool :=
  (ledger.offset? blob).isSome

/-- Records where a blob is placed. -/
def place (ledger : Ledger) (blob : Blob) (offset : UInt32) : Ledger :=
  { ledger with
    placement := fun id => if id = blob.id then some offset else ledger.placement id }

@[simp] theorem offset?_place (ledger : Ledger) (blob other : Blob) (offset : UInt32) :
    (ledger.place blob offset).offset? other =
      if other.id = blob.id then some offset else ledger.offset? other :=
  rfl

end Ledger
end AnchoredFields

import AnchoredFields.Bytes.Address
import AnchoredFields.Bytes.Alignment
import AnchoredFields.Layout.FieldSet

/-!
# Placement of blobs

The blobs of a field set are placed behind the out-of-line data there already is,
in declaration order of their tags, each at the next multiple of its tag's
alignment.  All places are worked out before anything is changed, so a field set
that does not fit leaves no trace.
-/

namespace AnchoredFields

/-- A blob, the tag it belongs to, and the offset it is to stand at. -/
structure Placement where
  tag : Tag
  blob : Blob
  offset : UInt32
  deriving DecidableEq, Repr

namespace Placement

/-- The highest offset that the end of a blob can have. -/
def limit : Nat := UInt32.size - 1

/-- The alignment at which the blob of a tag is placed. -/
def alignmentOf (tag : Tag) (blob : Blob) : Nat :=
  tag.alignment?.getD blob.alignment

/-- The offsets of blobs that are placed one after the other, the first one not before `start`. -/
def offsetsFrom (start : Nat) : List (Tag × Blob) → Except Failure (List UInt32)
  | [] => return []
  | (tag, blob) :: rest => do
      let gap := alignUp (alignmentOf tag blob) start - start
      let offset ← (sum64 start gap : Except Fault Nat)
      let stop ← (sum64 offset blob.size : Except Fault Nat)
      if limit < stop then
        throw (.error (.layoutOverflow limit))
      else
        let later ← offsetsFrom stop rest
        return UInt32.ofNat offset :: later

/-- Pairs blobs with the offsets they are to stand at. -/
def pair (blobs : List (Tag × Blob)) (offsets : List UInt32) : List Placement :=
  List.zipWith
    (fun entry offset => { tag := entry.1, blob := entry.2, offset := offset }) blobs offsets

end Placement

namespace FieldSet

/-- The offsets of the blobs of a field set behind `start` bytes of out-of-line data. -/
def outlineOffsets (fields : FieldSet) (start : Nat) : Except Failure (List UInt32) :=
  Placement.offsetsFrom start fields.blobs

/-- Where the blobs of a field set go behind `start` bytes of out-of-line data: the blobs met
along the slots take the offsets in turn. -/
def placements (fields : FieldSet) (start : Nat) : Except Failure (List Placement) :=
  Placement.pair (blobsOf fields.alongRow) <$> fields.outlineOffsets start

/-- Fills in the offsets of the out-of-line fields. -/
def locate (fields : FieldSet) (placements : List Placement) : FieldSet :=
  let offsetOf (tag : Tag) : Option UInt32 :=
    (placements.find? fun placement => placement.tag = tag).map Placement.offset
  let located (tag : Tag) (field : OptionalField) : OptionalField :=
    match field.value with
    | .inline _ => field
    | .outOfLine _ => { field with offset := offsetOf tag }
  { slots := { get := fun tag => (fields.get tag).map (located tag) } }

end FieldSet
end AnchoredFields

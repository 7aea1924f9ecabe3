import AnchoredFields.Image.Basic

/-!
# Images under construction

A draft is an image that is still being written.  It only grows: bytes are
appended, and zeros are appended up to an alignment.  A region is open from where
it is begun until the next one is begun or the draft is finished; the padding in
front of a region belongs to no region.
-/

namespace AnchoredFields

/-- An image under construction. -/
structure Draft where
  /-- The address that the first byte will be loaded at. -/
  base : Address
  bytes : List UInt8 := []
  /-- Where each region begun so far is; the size counts once the region is closed. -/
  regions : Region → Option Extent := fun _ => none
  /-- The region that is open. -/
  current : Option Region := none

namespace Draft

/-- The offset at which the next byte will stand. -/
def size (draft : Draft) : Nat :=
  draft.bytes.length

/-- The address of the byte at an offset. -/
def addressOf (draft : Draft) (offset : Nat) : Except Fault Address :=
  draft.base.after offset

/-- Appends bytes; they stand at the size that the draft had before. -/
def append (draft : Draft) (bytes : List UInt8) : Draft :=
  { draft with bytes := draft.bytes ++ bytes }

/-- Appends bytes and tells the offset at which they stand. -/
def store (draft : Draft) (bytes : List UInt8) : Nat × Draft :=
  (draft.size, draft.append bytes)

/-- Closes the open region, if there is one, at the current end. -/
def endRegion (draft : Draft) : Draft :=
  match draft.current with
  | none => draft
  | some region =>
      { draft with
        regions := fun r =>
          if r = region then
            (draft.regions r).map fun extent =>
              { extent with size := draft.size - extent.start }
          else
            draft.regions r
        current := none }

/-- Appends zeros up to an alignment and tells how many.

The new size has to be a 64-bit number, and the upper half of the address space
is never filled up with padding. -/
def pad (draft : Draft) (alignment : Nat) : Except Fault (Nat × Draft) :=
  if isPowerOfTwo alignment = false then
    .error .paddingAlignment
  else
    let target := alignUp alignment draft.size
    let padding := target - draft.size
    if target < UInt64.size ∧ (alignment < UInt64.size / 2 ∨ padding = 0) then
      .ok (padding, draft.append (List.replicate padding 0))
    else
      .error .overflow

/-- Closes the open region and begins another one at an alignment; tells where it starts. -/
def beginRegion (draft : Draft) (region : Region) (alignment : Nat) :
    Except Fault (Nat × Draft) :=
  if (draft.regions region).isSome then
    .error (.regionTwice region)
  else do
    let (_, padded) ← draft.endRegion.pad alignment
    let opened :=
      { padded with
        regions := fun r =>
          if r = region then some { start := padded.size, size := 0 } else padded.regions r
        current := some region }
    return (padded.size, opened)

/-- Closes the open region and freezes the image. -/
def finish (draft : Draft) (anchorAlignment : UInt64) (streams : List Nat) : Image :=
  let closed := draft.endRegion
  { base := closed.base
    anchorAlignment := anchorAlignment
    bytes := closed.bytes
    regions := closed.regions
    streams := streams }

@[simp] theorem bytes_append (draft : Draft) (bytes : List UInt8) :
    (draft.append bytes).bytes = draft.bytes ++ bytes :=
  rfl

@[simp] theorem bytes_endRegion (draft : Draft) : draft.endRegion.bytes = draft.bytes := by
  unfold endRegion
  split <;> rfl

@[simp] theorem size_append (draft : Draft) (bytes : List UInt8) :
    (draft.append bytes).size = draft.size + bytes.length := by
  simp [size]

@[simp] theorem bytes_finish (draft : Draft) (anchorAlignment : UInt64) (streams : List Nat) :
    (draft.finish anchorAlignment streams).bytes = draft.bytes := by
  simp [finish]

end Draft
end AnchoredFields

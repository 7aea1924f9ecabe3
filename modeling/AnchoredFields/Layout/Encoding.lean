import AnchoredFields.Layout.Event
import AnchoredFields.Layout.Placement
import AnchoredFields.Layout.Planner

/-!
# Encoding field sets

Field sets are encoded one after the other into a planner.  An empty set gets no
stream.  A set without out-of-line fields is encoded at once.  Any other set has
its blobs placed first; its stream joins the open anchor group if it fits there
under the anchor of the group, and otherwise a new anchor is emitted for its first
blob and the stream is planned again under that anchor.

Encoding works on a workbench that holds the planner, the ledger of the blobs and
the events reported so far.  A failure leaves the workbench as it was at that
point: nothing has changed if the blobs do not fit.
-/

namespace AnchoredFields

/-- What encoding works on. -/
structure Workbench where
  planner : Planner
  ledger : Ledger
  events : List Event := []

/-- A step of work on a workbench. -/
abbrev Work :=
  EStateM Failure Workbench

namespace Work

/-- A computation that may fail and changes nothing. -/
def lift {α : Type} (result : Except Failure α) : Work α :=
  fun bench =>
    match result with
    | .ok a => .ok a bench
    | .error failure => .error failure bench

/-- A computation that may fault and changes nothing. -/
def guarded {α : Type} (result : Except Fault α) : Work α :=
  lift (result.mapError .fault)

/-- Changes the planner. -/
def change (f : Planner → Planner) : Work Unit :=
  modify fun bench => { bench with planner := f bench.planner }

/-- Reports an event. -/
def report (event : Event) : Work Unit :=
  modify fun bench => { bench with events := bench.events ++ [event] }

/-- The planner as it is now. -/
def planner : Work Planner :=
  return (← get).planner

/-- Copies a blob into the out-of-line data; it must not be placed yet. -/
def placeBlob (placement : Placement) : Work Unit := do
  let bench ← get
  if bench.ledger.isPlaced placement.blob then
    throw (.fault (.placedTwice placement.tag))
  else
    set { bench with
      planner := bench.planner.addBlob placement.blob placement.offset
      ledger := bench.ledger.place placement.blob placement.offset }
    report (.blobPlaced placement.tag placement.blob.size placement.offset.toNat)

/-- Copies blobs into the out-of-line data, one after the other. -/
def placeBlobs : List Placement → Work Unit
  | [] => change Planner.closeOutline
  | placement :: rest => do
      placeBlob placement
      placeBlobs rest

/-- Emits an anchor for the blob at an offset. -/
def openGroup (offset : UInt32) : Work Unit := do
  change fun planner => planner.openGroup offset
  let now ← planner
  report (.anchorOpened now.statistics.anchors now.target.toNat offset.toNat)

/-- Plans the stream of a field set in the present state. -/
def plan (fields : FieldSet) : Work Plan := do
  guarded ((← planner).plan fields)

/-- Encodes the stream of a field set as planned and keeps it. -/
def writeStream (fields : FieldSet) (plan : Plan) : Work Handle := do
  let before ← planner
  let stream ← guarded (before.encodeStream fields plan)
  change fun planner => planner.addStream fields stream
  report (.streamEncoded before.streamCount fields.size stream.length)
  return { index := before.streamCount }

/-- Encodes a field set that refers to no blob. -/
def encodeInlineOnly (fields : FieldSet) : Work Handle := do
  let plan ← plan fields
  let handle ← writeStream fields plan
  change fun planner => planner.fileInlineOnly handle
  return handle

/-- Plans a stream so that it fits a group, which may be a new one for the blob at
an offset. -/
def planInGroup (fields : FieldSet) (offset : UInt32) : Work Plan := do
  if (← planner).group.isNone then
    openGroup offset
  let first ← plan fields
  if (← planner).room < first.size then
    change Planner.abandonRoom
    openGroup offset
    plan fields
  else
    return first

/-- Encodes a field set whose blobs are placed, the first one at an offset. -/
def encodeAnchored (fields : FieldSet) (offset : UInt32) : Work Handle := do
  let plan ← planInGroup fields offset
  if (← planner).room < plan.size then
    throw (.fault (.streamTooLarge plan.size))
  else
    let handle ← writeStream fields plan
    change fun planner => planner.fileAnchored handle plan.size
    return handle

/-- Encodes the fields of one descriptor.  No stream is produced without fields. -/
def encode (fields : FieldSet) : Work (Option Handle) := do
  if fields.isEmpty then
    report .skipped
    return none
  else
    let before ← planner
    match ← lift (fields.placements before.outline.length) with
    | [] =>
        let handle ← encodeInlineOnly fields
        return some handle
    | first :: rest =>
        placeBlobs (first :: rest)
        let handle ← encodeAnchored (fields.locate (first :: rest)) first.offset
        return some handle

end Work
end AnchoredFields

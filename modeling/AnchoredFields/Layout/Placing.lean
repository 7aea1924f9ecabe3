import AnchoredFields.Image.Draft
import AnchoredFields.Layout.Encoding

/-!
# Placing a layout into an image

The image begins with the out-of-line data.  The field streams follow at the
spacing of the anchors: first those that need no anchor, then every anchor at the
next place of the grid, with the address of its target, and the streams behind it.
Only anchors hold addresses, so only they depend on where the image is loaded.
-/

namespace AnchoredFields

/-- The progress of placing the field streams. -/
structure StreamDraft where
  draft : Draft
  /-- The offset of each stream placed so far, by handle. -/
  offsets : List Nat
  /-- The bytes of padding in front of anchors. -/
  padding : Nat := 0

namespace StreamDraft

/-- Places a stream at the end and enters where it starts under its handle. -/
def addStream (placed : StreamDraft) (handle : Handle) (stream : List UInt8) :
    Except Fault StreamDraft :=
  if handle.index < placed.offsets.length then
    .ok
      { placed with
        draft := placed.draft.append stream
        offsets := placed.offsets.set handle.index placed.draft.size }
  else
    .error .handleOutOfRange

/-- Places an anchor at the next place of the grid. -/
def addAnchor (placed : StreamDraft) (spacing targetOffset : Nat) : Except Fault StreamDraft := do
  let (padding, draft) ← placed.draft.pad spacing
  let address ← draft.addressOf targetOffset
  let anchor := LittleEndian.encode AnchorGrid.anchorSize address.toNat
  return { placed with draft := draft.append anchor, padding := placed.padding + padding }

end StreamDraft

namespace Planner

/-- Places the stream of a handle. -/
def placeStream (planner : Planner) (placed : StreamDraft) (handle : Handle) :
    Except Fault StreamDraft :=
  match planner.stream handle with
  | some stream => placed.addStream handle stream
  | none => .error .handleOutOfRange

/-- Places the streams that need no anchor. -/
def placeInlineOnly (planner : Planner) (placed : StreamDraft) :
    List Handle → Except Fault StreamDraft
  | [] => .ok placed
  | handle :: rest => do
      let next ← planner.placeStream placed handle
      planner.placeInlineOnly next rest

/-- Places the anchors and the streams behind them. -/
def placeAnchored (planner : Planner) (outlineStart : Nat) (placed : StreamDraft) :
    List StreamEntry → Except Fault StreamDraft
  | [] => .ok placed
  | .anchor target :: rest => do
      let next ← placed.addAnchor planner.grid.spacing (outlineStart + target.toNat)
      planner.placeAnchored outlineStart next rest
  | .stream handle :: rest => do
      let next ← planner.placeStream placed handle
      planner.placeAnchored outlineStart next rest

/-- Places both regions of a layout into a draft. -/
def placeRegions (planner : Planner) : Except Fault StreamDraft := do
  let empty : Draft := { base := planner.grid.base }
  let (outlineStart, outline) ← empty.beginRegion .outOfLineData Tag.maxAlignment
  let (_, fields) ← (outline.append planner.outline).beginRegion .fieldStreams planner.grid.spacing
  let start : StreamDraft :=
    { draft := fields, offsets := List.replicate planner.streamCount 0 }
  let simple ← planner.placeInlineOnly start planner.inlineOnly
  planner.placeAnchored outlineStart simple planner.anchored

/-- Whether every blob stands where it was recorded. -/
def recordsAgree (planner : Planner) (ledger : Ledger) : Bool :=
  planner.records.all fun record => ledger.offset? record.blob == some record.offset

/-- Places a layout into an image, and reports it. -/
def place (planner : Planner) (ledger : Ledger) : Except Fault (Image × Event) := do
  let placed ← planner.placeRegions
  if placed.padding < planner.statistics.paddingBytes then
    throw .missingPadding
  else if planner.recordsAgree ledger = false then
    throw .misplacedBlob
  else
    let image :=
      placed.draft.finish (UInt64.ofNat planner.grid.spacing) placed.offsets
    let event :=
      Event.imagePlaced planner.streamCount (planner.streamCount - planner.inlineOnly.length)
        planner.records.length planner.statistics.anchors placed.padding
        planner.statistics.outlineBytes
    return (image, event)

end Planner

namespace Work

/-- Places the layout on the workbench into an image. -/
def place : Work Image := do
  let bench ← get
  let (image, event) ← guarded (bench.planner.place bench.ledger)
  report event
  return image

end Work
end AnchoredFields

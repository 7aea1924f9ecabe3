import AnchoredFields.Image.Basic
import AnchoredFields.Layout.AnchorGrid
import AnchoredFields.Layout.FieldSet
import AnchoredFields.Layout.Statistics

/-!
# Planners

A planner holds a layout that is being built: the streams encoded so far, the
out-of-line data they refer to, and the group of streams that is open behind the
latest anchor.  Streams without out-of-line fields need no anchor and are kept
apart from the others.

A stored out-of-line value is the distance of the blob from the target of the
governing anchor, in units of the tag's alignment.  So the size of a stream
depends on the anchor that governs it, and is planned against it first; a plan
holds only for the state it was made in.
-/

namespace AnchoredFields

/-- The streams that share the latest anchor. -/
structure Group where
  /-- The out-of-line offset that the anchor points to. -/
  target : UInt32
  /-- The bytes that are left for streams. -/
  room : Nat
  deriving DecidableEq, Repr

/-- What stands between the streams that need no anchor and the end of their region. -/
inductive StreamEntry
  | anchor (target : UInt32)
  | stream (handle : Handle)
  deriving DecidableEq, Repr

/-- A blob copied into the out-of-line data. -/
structure OutlineRecord where
  blob : Blob
  offset : UInt32
  deriving DecidableEq, Repr

/-- The size of a stream in the state that it was planned in. -/
structure Plan where
  size : Nat
  generation : Nat
  deriving DecidableEq, Repr

/-- A layout that is being built. -/
structure Planner where
  grid : AnchorGrid
  /-- The bytes of every stream, by handle. -/
  streams : List (List UInt8) := []
  /-- The streams that need no anchor. -/
  inlineOnly : List Handle := []
  /-- The anchors and the streams behind them, in order. -/
  anchored : List StreamEntry := []
  records : List OutlineRecord := []
  /-- The out-of-line data. -/
  outline : List UInt8 := []
  /-- The group behind the latest anchor. -/
  group : Option Group := none
  /-- Counts the changes that a plan does not survive. -/
  generation : Nat := 0
  statistics : Statistics := {}

namespace Planner

/-- An empty layout on a grid that works. -/
def new (grid : AnchorGrid) : Except Error Planner :=
  match grid.validate with
  | .ok () => .ok { grid := grid }
  | .error e => .error e

/-- The bytes of a stream, before the layout is placed. -/
def stream (planner : Planner) (handle : Handle) : Option (List UInt8) :=
  planner.streams[handle.index]?

/-- The number of streams encoded so far. -/
def streamCount (planner : Planner) : Nat :=
  planner.streams.length

/-- The out-of-line offset that stored distances are counted from. -/
def target (planner : Planner) : UInt32 :=
  match planner.group with
  | some group => group.target
  | none => 0

/-- The bytes that are left in the open group. -/
def room (planner : Planner) : Nat :=
  match planner.group with
  | some group => group.room
  | none => 0

/-- The distance from the governing anchor to a blob, in units of an alignment. -/
def delta (planner : Planner) (tag : Tag) (offset : Option UInt32) : Except Fault UInt32 :=
  let alignment := tag.alignment?.getD 1
  let place := offset.getD planner.target
  if offset.isSome ∧ planner.target ≤ place then
    let distance := place.toNat - planner.target.toNat
    if distance % alignment = 0 then
      .ok (UInt32.ofNat (distance / alignment))
    else
      .error .fractionalDelta
  else
    .error (.precedesAnchor tag place.toNat planner.target.toNat)

/-- The number stored for a field. -/
def storedValue (planner : Planner) (tag : Tag) (field : OptionalField) : Except Fault UInt32 :=
  match field.value with
  | .inline value => .ok value
  | .outOfLine _ => planner.delta tag field.offset

/-- The numbers stored for a list of fields. -/
def storedValues (planner : Planner) :
    List (Tag × OptionalField) → Except Fault (List (Tag × UInt32))
  | [] => .ok []
  | (tag, field) :: rest => do
      let value ← planner.storedValue tag field
      let later ← planner.storedValues rest
      return (tag, value) :: later

/-- Plans the stream of a field set against the governing anchor. -/
def plan (planner : Planner) (fields : FieldSet) : Except Fault Plan := do
  let stored ← planner.storedValues fields.present
  let size := stored.foldr (fun field size => FieldStream.fieldSize field.2 + size) 0
  return { size := size, generation := planner.generation }

/-- The bytes of the stream of a field set, as sized by a plan. -/
def encodeStream (planner : Planner) (fields : FieldSet) (plan : Plan) :
    Except Fault (List UInt8) :=
  if plan.generation = planner.generation then do
    let stored ← planner.storedValues fields.present
    let stream := FieldStream.encode Varint.encode stored
    if stream.length = plan.size then
      return stream
    else
      throw .planSize
  else
    throw .stalePlan

/-- Copies a blob to an offset behind the out-of-line data. -/
def addBlob (planner : Planner) (blob : Blob) (offset : UInt32) : Planner :=
  let gap := offset.toNat - planner.outline.length
  { planner with
    outline := planner.outline ++ List.replicate gap 0 ++ blob.data
    records := planner.records ++ [{ blob := blob, offset := offset }] }

/-- Accounts for the out-of-line data after blobs were added. -/
def closeOutline (planner : Planner) : Planner :=
  { planner with
    generation := planner.generation + 1
    statistics := { planner.statistics with outlineBytes := planner.outline.length } }

/-- The target of an anchor whose first blob stands at an offset.

It is rounded down to the largest alignment of any tag, so that the distance to
every later blob is a multiple of the alignment of its tag. -/
def anchorTarget (offset : UInt32) : UInt32 :=
  UInt32.ofNat (alignDown Tag.maxAlignment offset.toNat)

/-- Emits an anchor for the blob at an offset and opens the group behind it. -/
def openGroup (planner : Planner) (offset : UInt32) : Planner :=
  let target := anchorTarget offset
  { planner with
    anchored := planner.anchored ++ [.anchor target]
    group := some { target := target, room := planner.grid.spacing - AnchorGrid.anchorSize }
    generation := planner.generation + 1
    statistics := { planner.statistics with anchors := planner.statistics.anchors + 1 } }

/-- Gives up the room that is left in the open group. -/
def abandonRoom (planner : Planner) : Planner :=
  { planner with
    statistics :=
      { planner.statistics with
        paddingBytes := planner.statistics.paddingBytes + planner.room } }

/-- Keeps the stream of a field set under the next handle. -/
def addStream (planner : Planner) (fields : FieldSet) (stream : List UInt8) : Planner :=
  { planner with
    streams := planner.streams ++ [stream]
    statistics :=
      planner.statistics.recordStream (fields.present.map Prod.fst) stream.length }

/-- Files a stream among those that need no anchor. -/
def fileInlineOnly (planner : Planner) (handle : Handle) : Planner :=
  { planner with inlineOnly := planner.inlineOnly ++ [handle] }

/-- Files a stream behind the open anchor, where it takes up room. -/
def fileAnchored (planner : Planner) (handle : Handle) (size : Nat) : Planner :=
  { planner with
    anchored := planner.anchored ++ [.stream handle]
    group := planner.group.map fun group => { group with room := group.room - size } }

end Planner
end AnchoredFields

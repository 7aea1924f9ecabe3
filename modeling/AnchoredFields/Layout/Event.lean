import AnchoredFields.Tag
import AnchoredFields.Text.Hex

/-!
# Events of a layout

A layout reports what it does: in detail for each blob and each stream, in general
for each anchor and for the placement of the whole.
-/

namespace AnchoredFields

/-- How detailed a report is. -/
inductive Detail
  | trace
  | debug
  deriving DecidableEq, Repr

/-- The name of a level of detail. -/
def Detail.name : Detail → String
  | .trace => "TRACE"
  | .debug => "DEBUG"

/-- Something that a layout did. -/
inductive Event
  /-- A descriptor without optional fields got no stream. -/
  | skipped
  /-- A blob was copied into the out-of-line region. -/
  | blobPlaced (tag : Tag) (size offset : Nat)
  /-- A stream was encoded. -/
  | streamEncoded (index fields size : Nat)
  /-- An anchor was emitted for the blob at an offset. -/
  | anchorOpened (number target offset : Nat)
  /-- All regions were placed into an image. -/
  | imagePlaced (streams anchored blobs anchors padding outline : Nat)
  deriving DecidableEq, Repr

namespace Event

/-- The level of detail of an event. -/
def detail : Event → Detail
  | skipped => .trace
  | blobPlaced _ _ _ => .trace
  | streamEncoded _ _ _ => .trace
  | anchorOpened _ _ _ => .debug
  | imagePlaced _ _ _ _ _ _ => .debug

/-- The wording of an event. -/
def text : Event → String
  | skipped => "skipping descriptor without optional fields"
  | blobPlaced tag size offset =>
      s!"placed {tag.name} blob ({size} bytes) at out-of-line offset {hexText offset}"
  | streamEncoded index fields size =>
      s!"encoded field stream {index} ({fields} fields, {size} bytes)"
  | anchorOpened number target offset =>
      s!"anchor #{number} targets out-of-line offset {hexText target} " ++
        s!"(first blob at {hexText offset})"
  | imagePlaced streams anchored blobs anchors padding outline =>
      s!"placed {streams} field streams ({anchored} anchored) and {blobs} out-of-line blobs: " ++
        s!"{anchors} anchors, {padding} padding bytes, {outline} out-of-line bytes"

/-- The line of an event in a log. -/
def line (event : Event) : String :=
  event.detail.name ++ " " ++ event.text

end Event
end AnchoredFields

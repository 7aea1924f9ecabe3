import AnchoredFields.Layout.AnchorGrid

/-!
# Layout statistics

A layout counts what it produces: streams, the tags in them, their sizes, anchors,
and the bytes spent on padding and on out-of-line data.  Sizes are counted in
buckets, one per size, and the last bucket takes every larger stream too.
-/

namespace AnchoredFields

/-- The number of size buckets. -/
abbrev Statistics.sizeBuckets : Nat := 8

/-- Counters over everything that was laid out. -/
structure Statistics where
  /-- Streams encoded. -/
  streams : Nat := 0
  /-- Streams that contain a tag. -/
  tagCount : Tag → Nat := fun _ => 0
  /-- Streams by size: bucket `n` counts those of `n + 1` bytes. -/
  sizeCount : Fin Statistics.sizeBuckets → Nat := fun _ => 0
  /-- Anchors emitted. -/
  anchors : Nat := 0
  /-- Bytes left unused at the end of groups that were closed. -/
  paddingBytes : Nat := 0
  /-- Bytes of out-of-line data, with the gaps in it. -/
  outlineBytes : Nat := 0

namespace Statistics

/-- The bucket that counts streams of a size. -/
def bucket (size : Nat) : Fin sizeBuckets :=
  ⟨min (max size 1) sizeBuckets - 1, by
    have hcount : sizeBuckets = 8 := rfl
    omega⟩

/-- Counts a stream with the given tags and size. -/
def recordStream (statistics : Statistics) (tags : List Tag) (size : Nat) : Statistics :=
  { statistics with
    streams := statistics.streams + 1
    tagCount := fun tag =>
      if tag ∈ tags then statistics.tagCount tag + 1 else statistics.tagCount tag
    sizeCount := fun b =>
      if b = bucket size then statistics.sizeCount b + 1 else statistics.sizeCount b }

/-- Bytes spent on anchors. -/
def anchorBytes (statistics : Statistics) : Nat :=
  statistics.anchors * AnchorGrid.anchorSize

/-- A text filled up with blanks on the right. -/
def padRight (width : Nat) (text : String) : String :=
  text ++ String.ofList (List.replicate (width - text.length) ' ')

/-- A text filled up with blanks on the left. -/
def padLeft (width : Nat) (text : String) : String :=
  String.ofList (List.replicate (width - text.length) ' ') ++ text

/-- The line of a tag. -/
def tagLine (statistics : Statistics) (tag : Tag) : String :=
  "  " ++ padRight 26 tag.name ++ " " ++ toString (statistics.tagCount tag) ++ "\n"

/-- The line of a size bucket; the last bucket is marked as open. -/
def sizeLine (statistics : Statistics) (b : Fin sizeBuckets) : String :=
  let mark := if b.val + 1 = sizeBuckets then "+" else " "
  "  " ++ padLeft 2 (toString (b.val + 1)) ++ mark ++ " bytes " ++
    toString (statistics.sizeCount b) ++ "\n"

/-- The table of all counters. -/
def text (statistics : Statistics) : String :=
  s!"{statistics.streams} field streams, {statistics.anchors} anchors, " ++
    s!"{statistics.paddingBytes} padding bytes, {statistics.outlineBytes} out-of-line bytes\n" ++
    String.join (Tag.all.map statistics.tagLine) ++
    String.join ((List.finRange sizeBuckets).map statistics.sizeLine)

/-- The bucket of a size is its distance from one, up to the last bucket. -/
theorem bucket_val (size : Nat) : (bucket size).val = min (size - 1) (sizeBuckets - 1) := by
  have hcount : sizeBuckets = 8 := rfl
  show min (max size 1) sizeBuckets - 1 = min (size - 1) (sizeBuckets - 1)
  omega

end Statistics
end AnchoredFields

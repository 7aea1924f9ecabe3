/-!
# Regions of an image

An image has exactly two named regions: the out-of-line data that field streams
refer to, and the field streams themselves with the anchors between them.
-/

namespace AnchoredFields

/-- A named part of an image. -/
inductive Region
  | outOfLineData
  | fieldStreams
  deriving DecidableEq, Repr

namespace Region

/-- All regions in declaration order. -/
def all : List Region :=
  [outOfLineData, fieldStreams]

/-- Position of a region in declaration order. -/
def index : Region → Nat
  | outOfLineData => 0
  | fieldStreams => 1

/-- The name of a region in messages. -/
def name : Region → String
  | outOfLineData => "OutOfLineData"
  | fieldStreams => "FieldStreams"

end Region
end AnchoredFields

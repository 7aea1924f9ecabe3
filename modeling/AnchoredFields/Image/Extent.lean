import AnchoredFields.Bytes.Address

/-!
# Extents

An extent is a range of an image, given by where it starts and how many bytes it
has.  Its end is a 64-bit number too; asking an extent that reaches beyond that
for its end is a fault.
-/

namespace AnchoredFields

/-- A range of bytes of an image. -/
structure Extent where
  start : Nat
  size : Nat
  deriving DecidableEq, Repr

namespace Extent

/-- The offset after the last byte. -/
def stop (e : Extent) : Except Fault Nat :=
  sum64 e.start e.size

/-- Whether an offset lies in the range; the end matters only from the start on. -/
def contains (e : Extent) (offset : Nat) : Except Fault Bool :=
  if e.start ≤ offset then do
    let stop ← e.stop
    return decide (offset < stop)
  else
    return false

end Extent
end AnchoredFields

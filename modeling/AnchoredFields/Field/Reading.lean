import AnchoredFields.Bytes.Cursor
import AnchoredFields.Field.Stream

/-!
# Reading a field stream step by step

A field is read at a cursor in two steps, its header and its value.  A header
that names no tag is moved over all the same; every other failed step leaves the
cursor where it was.
-/

namespace AnchoredFields
namespace Cursor

/-- Reads the value of a field. -/
def readVarint : EStateM Error Cursor UInt32 :=
  read Varint.decode

/-- Reads the header of a field. -/
def readHeader : EStateM Error Cursor Header :=
  fun c =>
    match c.ahead with
    | [] => .error .outOfBounds c
    | b :: _ =>
        match Header.ofByte b with
        | .ok header => .ok header (c.advance 1)
        | .error e => .error e (c.advance 1)

end Cursor
end AnchoredFields

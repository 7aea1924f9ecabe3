import AnchoredFields.Bytes.Address
import AnchoredFields.Bytes.Word
import AnchoredFields.Field.Slots
import AnchoredFields.Field.Stream

/-!
# Detached fields

A descriptor that is made while a program runs belongs to no layout: there is no
anchor for its stream, so its out-of-line fields are stored as full pointers of
eight bytes.  Such a set of fields is written to a stream of its own and read back
from one.  Reading replaces whatever the set held; a set that could not be read
completely is left empty.
-/

namespace AnchoredFields

/-- The value of a detached field. -/
inductive DetachedValue
  | inline (value : UInt32)
  | pointer (address : Address)
  deriving DecidableEq, Repr

namespace DetachedValue

/-- Whether a value is a number in place. -/
def isInline : DetachedValue → Bool
  | inline _ => true
  | pointer _ => false

/-- The number of bytes of a field with the value, its header included. -/
def fieldSize : DetachedValue → Nat
  | inline value => FieldStream.fieldSize value
  | pointer _ => 1 + Width.eight.bytes

/-- The bytes of a value: a short number, or a pointer in full. -/
def encode : DetachedValue → List UInt8
  | inline value => Varint.encode value
  | pointer address => LittleEndian.encode Width.eight.bytes address.toNat

/-- Reads the value of a tag: a short number, or a pointer in full. -/
def decode (tag : Tag) : Decoder DetachedValue :=
  if tag.isInline then
    Decoder.map inline Varint.decode
  else
    Decoder.map (fun (w : Word .eight) => pointer (UInt64.ofBitVec w)) (Word.decode .eight)

end DetachedValue

/-- The fields of a descriptor that belongs to no layout. -/
structure DetachedFields where
  slots : Slots DetachedValue
  deriving DecidableEq

namespace DetachedFields

/-- No field is present. -/
def empty : DetachedFields :=
  { slots := .empty }

/-- Sets a field; the kind of the value has to be the one of the tag. -/
def set (fields : DetachedFields) (tag : Tag) (value : DetachedValue) :
    Except Fault DetachedFields :=
  if tag.isInline = value.isInline then
    .ok { slots := fields.slots.set tag value }
  else
    .error (.valueKind tag)

/-- Removes a field. -/
def clear (fields : DetachedFields) (tag : Tag) : DetachedFields :=
  { slots := fields.slots.clear tag }

/-- The value of a field. -/
def get (fields : DetachedFields) (tag : Tag) : Option DetachedValue :=
  fields.slots.get tag

/-- The number held by a field, or a default. -/
def inline (fields : DetachedFields) (tag : Tag) (default : UInt32) : UInt32 :=
  match fields.get tag with
  | some (.inline value) => value
  | _ => default

/-- The pointer held by a field. -/
def pointer (fields : DetachedFields) (tag : Tag) : Option Address :=
  match fields.get tag with
  | some (.pointer address) => some address
  | _ => none

/-- The fields that are present, in declaration order of their tags. -/
def present (fields : DetachedFields) : List (Tag × DetachedValue) :=
  fields.slots.present

/-- Whether no field is present. -/
def isEmpty (fields : DetachedFields) : Bool :=
  fields.slots.isEmpty

/-- The number of bytes of the stream. -/
def encodingSize (fields : DetachedFields) : Nat :=
  fields.present.foldr (fun field size => field.2.fieldSize + size) 0

/-- The bytes of the stream; none at all if no field is present. -/
def encode (fields : DetachedFields) : List UInt8 :=
  FieldStream.encode DetachedValue.encode fields.present

/-- Appends the stream to some bytes, and tells how many bytes were appended. -/
def appendTo (fields : DetachedFields) (destination : List UInt8) : Nat × List UInt8 :=
  let bytes := FieldStream.appendTo DetachedValue.encode destination fields.present
  (bytes.length - destination.length, bytes)

/-- The stream, if there is one. -/
def toStream (fields : DetachedFields) : Option (List UInt8) :=
  if fields.isEmpty then none else some fields.encode

/-- The fields of a list; the last occurrence of a tag counts. -/
def ofList (fields : List (Tag × DetachedValue)) : DetachedFields :=
  { slots := fields.foldl (fun slots field => slots.set field.1 field.2) .empty }

/-- The fields that a stream holds; no stream holds none. -/
def ofStream : Option (List UInt8) → Except Error DetachedFields
  | none => .ok empty
  | some source => do
      let fields ← FieldStream.decode DetachedValue.decode source
      return ofList fields

/-- Replaces a set of fields by those that a stream holds. -/
def decode (source : Option (List UInt8)) : EStateM Error DetachedFields Unit :=
  fun _ =>
    match ofStream source with
    | .ok fields => .ok () fields
    | .error e => .error e empty

end DetachedFields
end AnchoredFields

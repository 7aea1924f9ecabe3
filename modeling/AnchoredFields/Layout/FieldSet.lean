import AnchoredFields.Field.InlineValue
import AnchoredFields.Field.Slots
import AnchoredFields.Layout.Blob

/-!
# Field sets

The optional fields of one descriptor are collected in a field set before they
are laid out: inline fields with their numbers, out-of-line fields with the blobs
they refer to.  A tag that is set again takes the later value.  A field set does
not place anything; the offset of an out-of-line field is filled in by the layout.
-/

namespace AnchoredFields

/-- The value of an optional field. -/
inductive FieldValue
  | inline (value : UInt32)
  | outOfLine (blob : Blob)
  deriving DecidableEq, Repr

/-- One present field of a field set. -/
structure OptionalField where
  value : FieldValue
  /-- Where the layout has placed the blob, within the out-of-line region. -/
  offset : Option UInt32 := none
  deriving DecidableEq, Repr

/-- The optional fields of one descriptor. -/
structure FieldSet where
  slots : Slots OptionalField
  deriving DecidableEq

namespace FieldSet

/-- No field is set. -/
def empty : FieldSet :=
  { slots := .empty }

/-- Sets an inline tag to a number. -/
def setInline (fields : FieldSet) (tag : Tag) (value : UInt32) : Except Fault FieldSet :=
  if tag.isInline then
    .ok { slots := fields.slots.set tag { value := .inline value } }
  else
    .error (.notInline tag)

/-- Whether a tag grants the alignment that a blob needs. -/
def canHold (tag : Tag) (blob : Blob) : Bool :=
  match tag.alignment? with
  | some alignment => alignment % blob.alignment == 0
  | none => false

/-- Sets an out-of-line tag to a blob that is not placed yet. -/
def setOutOfLine (fields : FieldSet) (ledger : Ledger) (tag : Tag) (blob : Blob) :
    Except Fault FieldSet :=
  if ledger.isPlaced blob then
    .error (.alreadyPlaced tag)
  else if canHold tag blob then
    .ok { slots := fields.slots.set tag { value := .outOfLine blob } }
  else
    .error (.cannotHold tag blob.alignment)

/-- Sets a tag to a value of either kind. -/
def set (fields : FieldSet) (ledger : Ledger) (tag : Tag) : FieldValue → Except Fault FieldSet
  | .inline value => fields.setInline tag value
  | .outOfLine blob => fields.setOutOfLine ledger tag blob

/-- Sets an inline tag to a typed value. -/
def setValue {α : Type} [InlineValue α] (fields : FieldSet) (tag : Tag) (value : α) :
    Except Fault FieldSet :=
  fields.setInline tag (InlineValue.toRaw value)

/-- Sets the rarely used descriptor flags. -/
def setRareFlags (fields : FieldSet) (flags : RareFlags) : Except Fault FieldSet :=
  fields.setValue .rareFlags flags

/-- Sets the index of the interface dispatch map. -/
def setDispatchMap (fields : FieldSet) (index : UInt32) : Except Fault FieldSet :=
  fields.setValue .dispatchMap index

/-- Sets the padding added to boxed value types. -/
def setValueTypeFieldPadding (fields : FieldSet) (padding : UInt32) : Except Fault FieldSet :=
  fields.setValue .valueTypeFieldPadding padding

/-- Sets the offset of the value within a nullable instance. -/
def setNullableValueOffset (fields : FieldSet) (offset : UInt8) : Except Fault FieldSet :=
  fields.setValue .nullableValueOffset offset

/-- Sets the table slot of the cast test. -/
def setCastableIsInstSlot (fields : FieldSet) (slot : UInt16) : Except Fault FieldSet :=
  fields.setValue .castableIsInstSlot slot

/-- Sets the table slot of the cast implementation. -/
def setCastableGetImplTypeSlot (fields : FieldSet) (slot : UInt16) : Except Fault FieldSet :=
  fields.setValue .castableGetImplTypeSlot slot

/-- Sets the table of the sealed virtual slots. -/
def setSealedVirtualSlots (fields : FieldSet) (ledger : Ledger) (blob : Blob) :
    Except Fault FieldSet :=
  fields.setOutOfLine ledger .sealedVirtualSlots blob

/-- Sets the composition of a generic instance. -/
def setGenericComposition (fields : FieldSet) (ledger : Ledger) (blob : Blob) :
    Except Fault FieldSet :=
  fields.setOutOfLine ledger .genericComposition blob

/-- Sets the layout of the thread statics. -/
def setThreadStaticInfo (fields : FieldSet) (ledger : Ledger) (blob : Blob) :
    Except Fault FieldSet :=
  fields.setOutOfLine ledger .threadStaticInfo blob

/-- The field of a tag, if it is set. -/
def get (fields : FieldSet) (tag : Tag) : Option OptionalField :=
  fields.slots.get tag

/-- The fields that are set, in declaration order of their tags. -/
def present (fields : FieldSet) : List (Tag × OptionalField) :=
  fields.slots.present

/-- The fields that are set, met on a walk along the slots. -/
def alongRow (fields : FieldSet) : List (Tag × OptionalField) :=
  fields.slots.alongRow

/-- The number of fields that are set. -/
def size (fields : FieldSet) : Nat :=
  fields.slots.size

/-- Whether no field is set. -/
def isEmpty (fields : FieldSet) : Bool :=
  fields.slots.isEmpty

/-- The blobs that listed fields refer to. -/
abbrev blobsOf (entries : List (Tag × OptionalField)) : List (Tag × Blob) :=
  entries.filterMap fun (tag, field) =>
    match field.value with
    | .inline _ => none
    | .outOfLine blob => some (tag, blob)

/-- The blobs that are referred to, in declaration order of their tags. -/
def blobs (fields : FieldSet) : List (Tag × Blob) :=
  blobsOf fields.present

/-- Whether some out-of-line field is set. -/
def containsOutOfLine (fields : FieldSet) : Bool :=
  !fields.blobs.isEmpty

end FieldSet
end AnchoredFields

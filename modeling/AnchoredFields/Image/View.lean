import AnchoredFields.Field.InlineValue
import AnchoredFields.Field.Stream
import AnchoredFields.Image.Basic

/-!
# Views of the optional fields of a descriptor

A descriptor refers to its field stream by an address, or by none if it has no
optional fields.  A view looks fields up: an inline field has a default for when
it is absent, an out-of-line field leads to the address of its blob.  The stored
value of an out-of-line field is the distance of the blob from the anchor of the
stream, counted in units of the tag's alignment.
-/

namespace AnchoredFields

/-- The optional fields of one descriptor in an image. -/
structure View where
  image : Image
  /-- The address of the field stream, if there is one. -/
  address : Option Address

namespace View

/-- Whether the descriptor has no field stream. -/
def isNull (view : View) : Bool :=
  view.address.isNone

/-- The stored value of a tag. -/
def find (view : View) (tag : Tag) : Except Error (Option UInt32) :=
  match view.address with
  | none => .ok none
  | some address => do
      let bytes ← view.image.sliceFrom address
      FieldStream.find (fun _ => Varint.decode) tag bytes

/-- All fields with their stored values, in stream order. -/
def rawFields (view : View) : Except Error (List (Tag × UInt32)) :=
  match view.address with
  | none => .ok []
  | some address => do
      let bytes ← view.image.sliceFrom address
      FieldStream.decode (fun _ => Varint.decode) bytes

/-- The stored value of an inline tag, or a default if the field is absent. -/
def inlineField (view : View) (tag : Tag) (default : UInt32) : Except Failure UInt32 :=
  if tag.isInline then do
    let stored ← (view.find tag : Except Error (Option UInt32))
    return stored.getD default
  else
    throw (.fault (.notInline tag))

/-- The address of a blob that lies some units of an alignment behind an anchor. -/
def blobAddress (anchor : Address) (delta : UInt32) (alignment : Nat) : Except Error Address :=
  match anchor.after? (delta.toNat * alignment) with
  | some address => .ok address
  | none => .error (.deltaOverflow delta.toNat anchor.toNat)

/-- The address of the blob of an out-of-line tag, given the alignment of the tag. -/
def outOfLineField (view : View) (tag : Tag) (alignment : Nat) :
    Except Failure (Option Address) :=
  if tag.alignment? = some alignment then do
    let stored ← (view.find tag : Except Error (Option UInt32))
    match view.address, stored with
    | some address, some delta =>
        let anchorAddress ← (view.image.anchorAddress address : Except Fault Address)
        let anchor ← (view.image.readAnchor anchorAddress : Except Error Address)
        let target ← (blobAddress anchor delta alignment : Except Error Address)
        return some target
    | _, _ => return none
  else
    throw (.fault .accessAlignment)

/-- An inline field as a value of a type that may be narrower than what is stored. -/
def inlineValue {α : Type} [InlineValue α] (view : View) (tag : Tag) (default : α) :
    Except Failure α := do
  let raw ← view.inlineField tag (InlineValue.toRaw default)
  return InlineValue.ofRaw raw

/-- Rarely used descriptor flags. -/
def rareFlags (view : View) (default : RareFlags) : Except Failure RareFlags :=
  view.inlineValue .rareFlags default

/-- Index of the interface dispatch map. -/
def dispatchMap (view : View) (default : UInt32) : Except Failure UInt32 :=
  view.inlineValue .dispatchMap default

/-- Padding added to boxed value types. -/
def valueTypeFieldPadding (view : View) (default : UInt32) : Except Failure UInt32 :=
  view.inlineValue .valueTypeFieldPadding default

/-- Offset of the value within a nullable instance. -/
def nullableValueOffset (view : View) (default : UInt8) : Except Failure UInt8 :=
  view.inlineValue .nullableValueOffset default

/-- Table slot of the cast test. -/
def castableIsInstSlot (view : View) (default : UInt16) : Except Failure UInt16 :=
  view.inlineValue .castableIsInstSlot default

/-- Table slot of the cast implementation. -/
def castableGetImplTypeSlot (view : View) (default : UInt16) : Except Failure UInt16 :=
  view.inlineValue .castableGetImplTypeSlot default

/-- Table of the sealed virtual slots. -/
def sealedVirtualSlots (view : View) : Except Failure (Option Address) :=
  view.outOfLineField .sealedVirtualSlots 4

/-- Composition of a generic instance. -/
def genericComposition (view : View) : Except Failure (Option Address) :=
  view.outOfLineField .genericComposition 8

/-- Layout of the thread statics. -/
def threadStaticInfo (view : View) : Except Failure (Option Address) :=
  view.outOfLineField .threadStaticInfo 16

/-- The blob of an out-of-line tag, at the alignment that the tag prescribes. -/
def outOfLine (view : View) : (tag : Tag) → Except Failure (Option Address)
  | .sealedVirtualSlots => view.sealedVirtualSlots
  | .genericComposition => view.genericComposition
  | .threadStaticInfo => view.threadStaticInfo
  | _ => throw (.fault .accessAlignment)

end View
end AnchoredFields

import AnchoredFields.Text.Hex
import AnchoredFields.Tag
import AnchoredFields.Image.Region

/-!
# What can go wrong

Two kinds of failure are kept apart:

* an `Error` is caused by data: a truncated or foreign field stream, an address
  outside the image, a layout that does not admit what it is given;
* a `Fault` is a broken rule of use, or 64-bit arithmetic that does not fit.  A
  computation that meets one is abandoned.

Each cause is a constructor; its wording is given in one place, by
`Error.message` and `Fault.message?`.
-/

namespace AnchoredFields

/-- A constraint on the anchor grid that a configuration violates. -/
inductive GridDefect
  | shiftTooLarge (shift : Nat)
  | noMoreThanAnchor (alignment anchorSize : Nat)
  | noRoomForStream (alignment streamSize : Nat)
  | belowBlobAlignment (alignment blobAlignment : Nat)
  | baseNotAligned (base alignment : Nat)
  deriving DecidableEq, Repr

/-- The wording of a violated constraint. -/
def GridDefect.message : GridDefect → String
  | .shiftTooLarge shift =>
      s!"anchor alignment shift {shift} is too large"
  | .noMoreThanAnchor alignment anchorSize =>
      s!"anchor alignment {alignment} must exceed the anchor size {anchorSize}"
  | .noRoomForStream alignment streamSize =>
      s!"anchor alignment {alignment} leaves no room for a {streamSize} byte field stream"
  | .belowBlobAlignment alignment blobAlignment =>
      s!"anchor alignment {alignment} is below the out-of-line alignment {blobAlignment}"
  | .baseNotAligned base alignment =>
      s!"image base {hexText base} is not aligned to {alignment}"

/-- A failure caused by data. -/
inductive Error
  /-- A read would run past the end of the data. -/
  | outOfBounds
  /-- The length code of a number announces more bytes than a number can have. -/
  | lengthCode (code : Nat)
  /-- A number does not fit 32 bits. -/
  | valueTooWide (value : Nat)
  /-- A header names a tag outside the tag set. -/
  | unknownTag (code : Nat)
  /-- An address lies outside the image. -/
  | invalidAddress (address : Nat)
  /-- An anchor and the delta to a blob add up to more than 64 bits. -/
  | deltaOverflow (delta anchor : Nat)
  /-- No field stream belongs to the handle. -/
  | unknownHandle (index : Nat)
  /-- The layout is configured with an anchor grid that does not work. -/
  | configuration (defect : GridDefect)
  /-- The out-of-line region would grow beyond what 32-bit offsets reach. -/
  | layoutOverflow (limit : Nat)
  deriving DecidableEq, Repr

/-- The wording of an error. -/
def Error.message : Error → String
  | .outOfBounds => "Out of Bound read would have occurred!"
  | .lengthCode code => s!"Invalid varint length prefix - {code}"
  | .valueTooWide value => s!"Varint value {hexText value} exceeds 32 bits"
  | .unknownTag code => s!"Unknown optional field tag - {code}"
  | .invalidAddress address => s!"Address {hexText address} is outside of the image"
  | .deltaOverflow delta anchor =>
      s!"Out-of-line delta {delta} overflows anchor {hexText anchor}"
  | .unknownHandle index => s!"Unknown field stream handle {index}"
  | .configuration defect => s!"Invalid layout configuration - {defect.message}"
  | .layoutOverflow limit => s!"Out-of-line region exceeds {hexText limit} bytes"

/-- A broken rule of use, or arithmetic that does not fit 64 bits. -/
inductive Fault
  /-- A sum, difference or shift of 64-bit numbers does not fit 64 bits. -/
  | overflow
  /-- An out-of-line tag is used where an inline one is needed. -/
  | notInline (tag : Tag)
  /-- A blob that is already placed is set as a field value. -/
  | alreadyPlaced (tag : Tag)
  /-- A tag does not grant the alignment that a blob needs. -/
  | cannotHold (tag : Tag) (alignment : Nat)
  /-- A blob asks for an alignment that is not a power of two. -/
  | blobAlignment (alignment : Nat)
  /-- A blob is placed a second time. -/
  | placedTwice (tag : Tag)
  /-- A blob stands before the anchor that its stream refers to, or nowhere yet. -/
  | precedesAnchor (tag : Tag) (offset target : Nat)
  /-- The distance from an anchor to a blob is no multiple of the tag's alignment. -/
  | fractionalDelta
  /-- A field stream is larger than an empty anchor group. -/
  | streamTooLarge (size : Nat)
  /-- A stream is written by a plan that was made for an earlier state. -/
  | stalePlan
  /-- A stream does not have the size that was planned for it. -/
  | planSize
  /-- A handle beyond the streams of a layout is placed. -/
  | handleOutOfRange
  /-- Less padding was placed than was accounted for. -/
  | missingPadding
  /-- A blob does not stand where the layout recorded it. -/
  | misplacedBlob
  /-- A region is begun a second time. -/
  | regionTwice (region : Region)
  /-- An image is padded to an alignment that is not a power of two. -/
  | paddingAlignment
  /-- An out-of-line field is asked for with the alignment of another tag. -/
  | accessAlignment
  /-- A number is given for an out-of-line tag, or a pointer for an inline one. -/
  | valueKind (tag : Tag)
  deriving DecidableEq, Repr

/-- The wording of a fault; some faults have none. -/
def Fault.message? : Fault → Option String
  | .overflow => none
  | .notInline tag => some s!"{tag.name} is not an inline field"
  | .alreadyPlaced tag => some s!"{tag.name} blob was already placed"
  | .cannotHold tag alignment => some s!"{tag.name} cannot hold a blob aligned to {alignment}"
  | .blobAlignment alignment => some s!"blob alignment {alignment}"
  | .placedTwice tag => some s!"{tag.name} blob was placed twice"
  | .precedesAnchor tag offset target =>
      some s!"{tag.name} blob at {hexText offset} precedes its anchor {hexText target}"
  | .fractionalDelta => none
  | .streamTooLarge size => some s!"stream of {size} bytes does not fit an empty anchor group"
  | .stalePlan =>
      some "encoding plan is stale, the planner changed after it was computed"
  | .planSize => none
  | .handleOutOfRange => none
  | .missingPadding => none
  | .misplacedBlob => none
  | .regionTwice region => some s!"region {region.name} placed twice"
  | .paddingAlignment => none
  | .accessAlignment => none
  | .valueKind tag => some s!"value kind does not match {tag.name}"

/-- Why a computation did not end with a value. -/
inductive Failure
  | error (cause : Error)
  | fault (cause : Fault)
  deriving DecidableEq, Repr

instance : Coe Error Failure := ⟨.error⟩

instance : Coe Fault Failure := ⟨.fault⟩

/-- A computation that fails only by errors, among those that can also fault. -/
instance : MonadLift (Except Error) (Except Failure) :=
  ⟨Except.mapError .error⟩

/-- A computation that fails only by faults, among those that can also err. -/
instance : MonadLift (Except Fault) (Except Failure) :=
  ⟨Except.mapError .fault⟩

@[simp] theorem liftM_error_ok {α : Type} (a : α) :
    (liftM (Except.ok a : Except Error α) : Except Failure α) = .ok a :=
  rfl

@[simp] theorem liftM_error_error {α : Type} (e : Error) :
    (liftM (Except.error e : Except Error α) : Except Failure α) = .error (.error e) :=
  rfl

@[simp] theorem liftM_fault_ok {α : Type} (a : α) :
    (liftM (Except.ok a : Except Fault α) : Except Failure α) = .ok a :=
  rfl

@[simp] theorem liftM_fault_error {α : Type} (fault : Fault) :
    (liftM (Except.error fault : Except Fault α) : Except Failure α) = .error (.fault fault) :=
  rfl

end AnchoredFields

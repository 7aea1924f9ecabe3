import AnchoredFields.Layout.FieldSet

/-!
# Collecting the fields of a descriptor

The optional fields of a descriptor are collected by setters, one after the other: there
is one for each tag, which takes a value of the type that belongs to the tag, and one that
takes any tag with a value of either kind.  Besides the field set, a collector remembers
that a blob was set.  It never forgets that, also if the tag is set again.

* `Setter.run_eq`: every setter sets its tag to its value.
-/

namespace AnchoredFields

/-- Whether a value is a blob. -/
def FieldValue.isOutOfLine : FieldValue → Bool
  | .inline _ => false
  | .outOfLine _ => true

/-- A setter with the value that it is given. -/
inductive Setter
  | set (tag : Tag) (value : FieldValue)
  | rareFlags (flags : RareFlags)
  | dispatchMap (index : UInt32)
  | valueTypeFieldPadding (padding : UInt32)
  | nullableValueOffset (offset : UInt8)
  | castableIsInstSlot (slot : UInt16)
  | castableGetImplTypeSlot (slot : UInt16)
  | sealedVirtualSlots (blob : Blob)
  | genericComposition (blob : Blob)
  | threadStaticInfo (blob : Blob)
  deriving DecidableEq, Repr

namespace Setter

/-- The tag that is set. -/
def tag : Setter → Tag
  | .set tag _ => tag
  | .rareFlags _ => .rareFlags
  | .dispatchMap _ => .dispatchMap
  | .valueTypeFieldPadding _ => .valueTypeFieldPadding
  | .nullableValueOffset _ => .nullableValueOffset
  | .castableIsInstSlot _ => .castableIsInstSlot
  | .castableGetImplTypeSlot _ => .castableGetImplTypeSlot
  | .sealedVirtualSlots _ => .sealedVirtualSlots
  | .genericComposition _ => .genericComposition
  | .threadStaticInfo _ => .threadStaticInfo

/-- The value that the tag is set to. -/
def value : Setter → FieldValue
  | .set _ value => value
  | .rareFlags flags => .inline (InlineValue.toRaw flags)
  | .dispatchMap index => .inline (InlineValue.toRaw index)
  | .valueTypeFieldPadding padding => .inline (InlineValue.toRaw padding)
  | .nullableValueOffset offset => .inline (InlineValue.toRaw offset)
  | .castableIsInstSlot slot => .inline (InlineValue.toRaw slot)
  | .castableGetImplTypeSlot slot => .inline (InlineValue.toRaw slot)
  | .sealedVirtualSlots blob => .outOfLine blob
  | .genericComposition blob => .outOfLine blob
  | .threadStaticInfo blob => .outOfLine blob

/-- Uses a setter on a field set. -/
def run (fields : FieldSet) (ledger : Ledger) : Setter → Except Fault FieldSet
  | .set tag value => fields.set ledger tag value
  | .rareFlags flags => fields.setRareFlags flags
  | .dispatchMap index => fields.setDispatchMap index
  | .valueTypeFieldPadding padding => fields.setValueTypeFieldPadding padding
  | .nullableValueOffset offset => fields.setNullableValueOffset offset
  | .castableIsInstSlot slot => fields.setCastableIsInstSlot slot
  | .castableGetImplTypeSlot slot => fields.setCastableGetImplTypeSlot slot
  | .sealedVirtualSlots blob => fields.setSealedVirtualSlots ledger blob
  | .genericComposition blob => fields.setGenericComposition ledger blob
  | .threadStaticInfo blob => fields.setThreadStaticInfo ledger blob

theorem run_eq (setter : Setter) (fields : FieldSet) (ledger : Ledger) :
    setter.run fields ledger = fields.set ledger setter.tag setter.value := by
  cases setter <;> rfl

end Setter

/-- The field set of a descriptor while it is being collected. -/
structure Collector where
  fields : FieldSet
  /-- Whether a blob was ever set. -/
  containsOutOfLine : Bool
  deriving DecidableEq

namespace Collector

/-- Nothing is collected yet. -/
def empty : Collector :=
  { fields := .empty, containsOutOfLine := false }

/-- Uses a setter. -/
def use (collector : Collector) (ledger : Ledger) (setter : Setter) : Except Fault Collector := do
  let fields ← setter.run collector.fields ledger
  return { fields := fields
           containsOutOfLine := collector.containsOutOfLine || setter.value.isOutOfLine }

end Collector
end AnchoredFields

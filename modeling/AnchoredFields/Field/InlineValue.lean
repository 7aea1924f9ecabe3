import AnchoredFields.Field.RareFlags

/-!
# Values of inline fields

An inline field holds a 32-bit number; its typed value may be narrower.  A
narrow value is widened when it is set and truncated when it is read back.
-/

namespace AnchoredFields

/-- A type whose values can be held by an inline field. -/
class InlineValue (α : Type) where
  toRaw : α → UInt32
  ofRaw : UInt32 → α

instance : InlineValue UInt8 where
  toRaw := UInt8.toUInt32
  ofRaw := UInt32.toUInt8

instance : InlineValue UInt16 where
  toRaw := UInt16.toUInt32
  ofRaw := UInt32.toUInt16

instance : InlineValue UInt32 where
  toRaw := id
  ofRaw := id

instance : InlineValue RareFlags where
  toRaw := RareFlags.bits
  ofRaw := RareFlags.mk

end AnchoredFields

/-!
# Rarely set flags

A set of flags is a 32-bit number.  Eight bits have a name; the others are kept
as they come, and only `truncate` and `complement` drop them.
-/

namespace AnchoredFields

/-- A set of descriptor flags. -/
structure RareFlags where
  bits : UInt32
  deriving DecidableEq, Repr

namespace RareFlags

/-- The flags with a name, in declaration order. -/
def named : List (String × RareFlags) :=
  [("REQUIRES_ALIGN8", ⟨0x01⟩),
    ("IS_DYNAMIC_TYPE", ⟨0x02⟩),
    ("HAS_CCTOR", ⟨0x04⟩),
    ("HAS_SEALED_VTABLE_ENTRIES", ⟨0x08⟩),
    ("IS_ABSTRACT_CLASS", ⟨0x10⟩),
    ("HAS_DYNAMIC_GC_STATICS", ⟨0x20⟩),
    ("HAS_DYNAMIC_THREAD_STATICS", ⟨0x40⟩),
    ("IS_BYREF_LIKE", ⟨0x80⟩)]

/-- The flags of either set. -/
def union (x y : RareFlags) : RareFlags :=
  ⟨x.bits ||| y.bits⟩

/-- The flags of both sets. -/
def inter (x y : RareFlags) : RareFlags :=
  ⟨x.bits &&& y.bits⟩

/-- The flags of the first set that are not in the second. -/
def diff (x y : RareFlags) : RareFlags :=
  ⟨x.bits &&& ~~~y.bits⟩

/-- The flags of exactly one of the sets. -/
def symmDiff (x y : RareFlags) : RareFlags :=
  ⟨x.bits ^^^ y.bits⟩

/-- The set with no flag. -/
def empty : RareFlags :=
  ⟨0⟩

/-- The set of all named flags. -/
def all : RareFlags :=
  (named.map Prod.snd).foldl union empty

/-- The named flags of a set. -/
def truncate (x : RareFlags) : RareFlags :=
  x.inter all

/-- The named flags that are not in a set. -/
def complement (x : RareFlags) : RareFlags :=
  (RareFlags.mk (~~~x.bits)).truncate

/-- Whether every flag of the second set is in the first. -/
def contains (x y : RareFlags) : Bool :=
  x.inter y == y

/-- Whether some flag is in both sets. -/
def intersects (x y : RareFlags) : Bool :=
  x.inter y != empty

/-- Whether no bit is set, named or not. -/
def isEmpty (x : RareFlags) : Bool :=
  x == empty

/-- Whether all named flags are in a set. -/
def isAll (x : RareFlags) : Bool :=
  x.contains all

/-- The set with the given bits, if each of them has a name. -/
def ofBits? (bits : UInt32) : Option RareFlags :=
  if (RareFlags.mk bits).truncate.bits = bits then some ⟨bits⟩ else none

/-- The names of the named flags in a set, in declaration order. -/
def names (x : RareFlags) : List String :=
  (named.filter fun entry => x.contains entry.2).map Prod.fst

end RareFlags
end AnchoredFields

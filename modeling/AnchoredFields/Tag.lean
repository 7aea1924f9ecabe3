/-!
# Tags of the optional fields

An optional field is identified by a tag.  The set of tags is closed, and each
tag is classified once and for all by how its value is stored:

* an *inline* tag keeps a small number in the field stream itself;
* an *out-of-line* tag refers to a blob in a separate region, at the alignment
  that the tag prescribes.

Statements about the classification and the numbering:

* `Tag.ofIndex?_eq_some_iff`: the numbering of the tags is a bijection onto the
  numbers below `Tag.count`;
* `Tag.alignment?_dvd_maxAlignment`: every prescribed alignment divides the
  largest one.
-/

namespace AnchoredFields

/-- How the value of a field is stored. -/
inductive Storage
  | inline
  | outOfLine (alignment : Nat)
  deriving DecidableEq, Repr

/-- The identity of an optional field, in declaration order. -/
inductive Tag
  | rareFlags
  | dispatchMap
  | valueTypeFieldPadding
  | nullableValueOffset
  | castableIsInstSlot
  | castableGetImplTypeSlot
  | sealedVirtualSlots
  | genericComposition
  | threadStaticInfo
  deriving DecidableEq, Repr

namespace Tag

/-- All tags in declaration order. -/
def all : List Tag :=
  [rareFlags, dispatchMap, valueTypeFieldPadding, nullableValueOffset,
    castableIsInstSlot, castableGetImplTypeSlot, sealedVirtualSlots,
    genericComposition, threadStaticInfo]

/-- The number of tags. -/
def count : Nat :=
  all.length

/-- Position of a tag in declaration order, which is also its code in a header. -/
def index : Tag → Nat
  | rareFlags => 0
  | dispatchMap => 1
  | valueTypeFieldPadding => 2
  | nullableValueOffset => 3
  | castableIsInstSlot => 4
  | castableGetImplTypeSlot => 5
  | sealedVirtualSlots => 6
  | genericComposition => 7
  | threadStaticInfo => 8

/-- The tag at a position of the declaration order. -/
def ofIndex? (n : Nat) : Option Tag :=
  all[n]?

/-- The name of a tag in messages and tables. -/
def name : Tag → String
  | rareFlags => "RareFlags"
  | dispatchMap => "DispatchMap"
  | valueTypeFieldPadding => "ValueTypeFieldPadding"
  | nullableValueOffset => "NullableValueOffset"
  | castableIsInstSlot => "ICastableIsInstSlot"
  | castableGetImplTypeSlot => "ICastableGetImplTypeSlot"
  | sealedVirtualSlots => "SealedVirtualSlots"
  | genericComposition => "GenericComposition"
  | threadStaticInfo => "ThreadStaticInfo"

/-- How the values of a tag are stored. -/
def storage : Tag → Storage
  | sealedVirtualSlots => .outOfLine 4
  | genericComposition => .outOfLine 8
  | threadStaticInfo => .outOfLine 16
  | _ => .inline

/-- Whether the value of a tag stands in the field stream itself. -/
def isInline (t : Tag) : Bool :=
  match t.storage with
  | .inline => true
  | .outOfLine _ => false

/-- The alignment that an out-of-line tag prescribes for its blobs. -/
def alignment? (t : Tag) : Option Nat :=
  match t.storage with
  | .inline => none
  | .outOfLine alignment => some alignment

/-- The largest alignment that any tag prescribes. -/
def maxAlignment : Nat :=
  (all.filterMap alignment?).foldl max 1

theorem mem_all (t : Tag) : t ∈ all := by
  cases t <;> decide

theorem ofIndex?_index (t : Tag) : ofIndex? t.index = some t := by
  cases t <;> rfl

/-- A position carries a tag exactly if it is the position of that tag. -/
theorem ofIndex?_eq_some_iff {n : Nat} {t : Tag} :
    ofIndex? n = some t ↔ n = t.index := by
  constructor
  · intro h
    have hn : n < 9 := by
      rw [ofIndex?, List.getElem?_eq_some_iff] at h
      exact h.1
    have hcases : n = 0 ∨ n = 1 ∨ n = 2 ∨ n = 3 ∨ n = 4 ∨ n = 5 ∨ n = 6 ∨ n = 7 ∨ n = 8 := by
      omega
    rcases hcases with rfl | rfl | rfl | rfl | rfl | rfl | rfl | rfl | rfl <;>
      exact Option.some.inj h ▸ rfl
  · rintro rfl
    exact ofIndex?_index t

theorem isInline_eq_false_iff {t : Tag} :
    t.isInline = false ↔ ∃ a, t.alignment? = some a := by
  cases t <;> simp [isInline, alignment?, storage]

theorem isInline_iff_alignment?_eq_none {t : Tag} :
    t.isInline = true ↔ t.alignment? = none := by
  cases t <;> simp [isInline, alignment?, storage]

/-- Prescribed alignments are nested: each divides the largest one. -/
theorem alignment?_dvd_maxAlignment {t : Tag} {a : Nat} (h : t.alignment? = some a) :
    a ∣ maxAlignment := by
  cases t <;> simp [alignment?, storage] at h <;> subst h <;> decide

theorem alignment?_pos {t : Tag} {a : Nat} (h : t.alignment? = some a) : 0 < a := by
  cases t <;> simp [alignment?, storage] at h <;> omega

end Tag
end AnchoredFields

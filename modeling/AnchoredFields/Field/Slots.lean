import AnchoredFields.Tag

/-!
# One slot per tag

A set of fields has one slot for each tag, filled or not.  The filled slots are
listed in declaration order of their tags, whatever order they were filled in.

* `Slots.ext_get`: a set of fields is what its slots hold;
* `Slots.mem_present_iff`: the list of filled slots and the slots say the same;
* `Slots.alongRow_eq_present`: the filled slots are listed in the same way by tag and
  along the row;
* `Slots.size_eq`, `Slots.isEmpty_eq`: how many filled slots are listed.
-/

namespace AnchoredFields

/-- One slot for each tag. -/
structure Slots (α : Type) where
  get : Tag → Option α

namespace Slots

variable {α : Type}

/-- No slot is filled. -/
def empty : Slots α :=
  { get := fun _ => none }

/-- Fills the slot of a tag, whatever it held. -/
def set (s : Slots α) (tag : Tag) (value : α) : Slots α :=
  { get := fun t => if t = tag then some value else s.get t }

/-- Empties the slot of a tag. -/
def clear (s : Slots α) (tag : Tag) : Slots α :=
  { get := fun t => if t = tag then none else s.get t }

/-- The filled slots, in declaration order of their tags. -/
def present (s : Slots α) : List (Tag × α) :=
  Tag.all.filterMap fun tag => (s.get tag).map fun value => (tag, value)

/-- What the slots hold, in declaration order of their tags. -/
def row (s : Slots α) : List (Option α) :=
  Tag.all.map s.get

/-- The filled slots, met on a walk along the row with the tags beside it. -/
def alongRow (s : Slots α) : List (Tag × α) :=
  (Tag.all.zip s.row).filterMap fun (tag, slot) => slot.map fun value => (tag, value)

/-- The number of filled slots. -/
def size (s : Slots α) : Nat :=
  s.row.countP Option.isSome

/-- Whether no slot is filled. -/
def isEmpty (s : Slots α) : Bool :=
  s.row.all Option.isNone

@[ext] theorem ext_get {s t : Slots α} (h : ∀ tag, s.get tag = t.get tag) : s = t := by
  cases s
  cases t
  congr
  exact funext h

@[simp] theorem get_empty (tag : Tag) : (empty : Slots α).get tag = none :=
  rfl

@[simp] theorem get_set (s : Slots α) (tag t : Tag) (value : α) :
    (s.set tag value).get t = if t = tag then some value else s.get t :=
  rfl

@[simp] theorem get_clear (s : Slots α) (tag t : Tag) :
    (s.clear tag).get t = if t = tag then none else s.get t :=
  rfl

theorem mem_present_iff {s : Slots α} {tag : Tag} {value : α} :
    (tag, value) ∈ s.present ↔ s.get tag = some value := by
  simp only [present, List.mem_filterMap, Option.map_eq_some_iff, Prod.mk.injEq]
  constructor
  · rintro ⟨t, _, v, hv, rfl, rfl⟩
    exact hv
  · intro h
    exact ⟨tag, Tag.mem_all tag, value, h, rfl, rfl⟩

/-- Both ways to list the filled slots agree. -/
theorem alongRow_eq_present (s : Slots α) : s.alongRow = s.present := by
  have hzip : Tag.all.zip s.row = Tag.all.map fun tag => (tag, s.get tag) := by
    have hpairs : (Tag.all.map id).zip s.row = Tag.all.map fun tag => (tag, s.get tag) :=
      List.zip_map'
    rwa [List.map_id] at hpairs
  rw [alongRow, hzip, List.filterMap_map]
  rfl

theorem size_eq (s : Slots α) : s.size = s.present.length := by
  rw [size, row, List.countP_map, present, List.length_filterMap_eq_countP]
  congr 1
  funext tag
  rw [Option.isSome_map]
  rfl

theorem isEmpty_eq (s : Slots α) : s.isEmpty = s.present.isEmpty := by
  rw [Bool.eq_iff_iff, isEmpty, row, List.all_map, List.all_eq_true, List.isEmpty_iff, present,
    List.filterMap_eq_nil_iff]
  refine forall₂_congr ?_
  intro tag _
  rw [Option.map_eq_none_iff]
  exact Option.isNone_iff_eq_none

/-- Equality of sets of fields is decided slot by slot. -/
instance [DecidableEq α] : DecidableEq (Slots α) :=
  fun s t =>
    decidable_of_iff (∀ tag ∈ Tag.all, s.get tag = t.get tag)
      ⟨fun h => ext_get fun tag => h tag (Tag.mem_all tag), fun h _ _ => h ▸ rfl⟩

end Slots
end AnchoredFields

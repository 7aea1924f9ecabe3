import Mathlib.Data.List.Nodup
import AnchoredFields.Layout.FieldSet

/-!
# What setters leave in a field set

A field set is made by setters, starting from the set with no field.  The later
of two values of a tag wins, and every value suits its tag: a number stands under
an inline tag, a blob under a tag that grants the alignment it needs.

* `FieldSet.get_write`: a slot holds the last value that was set for its tag;
* `FieldSet.Made.suits`: every value suits its tag, and no blob has an offset yet;
* `Slots.present_sorted`: fields are listed in strictly increasing order of tags.
-/

namespace AnchoredFields

/-- In a list without repeated keys, a search for a key finds its only entry. -/
theorem find?_of_nodup_keys {β : Type} {key : β → Tag} {entries : List β}
    (hnodup : (entries.map key).Nodup)
    {entry : β} (hmem : entry ∈ entries) :
    entries.find? (fun e => key e = key entry) = some entry := by
  cases hfind : entries.find? (fun e => key e = key entry) with
  | none =>
      rw [List.find?_eq_none] at hfind
      exact absurd (by simp) (hfind entry hmem)
  | some found =>
      have hkey : key found = key entry := by simpa using List.find?_some hfind
      have hfound : found ∈ entries := List.mem_of_find?_eq_some hfind
      rw [List.inj_on_of_nodup_map hnodup hfound hmem hkey]

namespace Slots

variable {α : Type}

/-- The filled slots are listed in strictly increasing order of their tags. -/
theorem present_sorted (s : Slots α) :
    (s.present.map fun entry => entry.1.index).Pairwise (· < ·) := by
  have hall : Tag.all.Pairwise fun t u => t.index < u.index := by decide
  rw [List.pairwise_map, present, List.pairwise_filterMap]
  refine hall.imp ?_
  intro t u htu entry hentry next hnext
  obtain ⟨_, _, rfl⟩ := Option.map_eq_some_iff.mp hentry
  obtain ⟨_, _, rfl⟩ := Option.map_eq_some_iff.mp hnext
  exact htu

theorem present_keys_nodup (s : Slots α) : (s.present.map Prod.fst).Nodup := by
  have hsorted := s.present_sorted
  rw [List.pairwise_map] at hsorted
  rw [List.Nodup, List.pairwise_map]
  refine hsorted.imp ?_
  intro entry next hlt heq
  rw [heq] at hlt
  exact Nat.lt_irrefl _ hlt

theorem length_present_le (s : Slots α) : s.present.length ≤ Tag.count :=
  List.length_filterMap_le _ Tag.all

/-- A search through the filled slots gives what the slot of the tag holds. -/
theorem find?_present (s : Slots α) (tag : Tag) :
    (s.present.find? fun entry => entry.1 = tag) = (s.get tag).map fun a => (tag, a) := by
  cases hget : s.get tag with
  | some a =>
      exact find?_of_nodup_keys s.present_keys_nodup (mem_present_iff.mpr hget)
  | none =>
      rw [Option.map_none, List.find?_eq_none]
      rintro ⟨t, a⟩ hmem htag
      have ht : t = tag := by simpa using htag
      rw [mem_present_iff, ht, hget] at hmem
      cases hmem

theorem isEmpty_iff (s : Slots α) : s.isEmpty = true ↔ ∀ tag, s.get tag = none := by
  rw [isEmpty_eq, List.isEmpty_iff]
  constructor
  · intro hnil tag
    cases hget : s.get tag with
    | none =>
        rfl
    | some a =>
        have hmem := mem_present_iff.mpr hget
        rw [hnil] at hmem
        cases hmem
  · intro hnone
    refine List.eq_nil_iff_forall_not_mem.mpr ?_
    rintro ⟨tag, a⟩ hmem
    rw [mem_present_iff, hnone tag] at hmem
    cases hmem

end Slots

/-- Whether a value can stand under a tag. -/
def FieldValue.Suits (tag : Tag) : FieldValue → Prop
  | .inline _ => tag.isInline = true
  | .outOfLine blob => FieldSet.canHold tag blob = true

/-- A use of a setter, with the ledger of that moment. -/
structure Write where
  ledger : Ledger
  tag : Tag
  value : FieldValue

namespace Write

/-- The value that was written last for a tag. -/
def last (tag : Tag) : List Write → Option FieldValue
  | [] => none
  | w :: rest =>
      match last tag rest with
      | some value => some value
      | none => if w.tag = tag then some w.value else none

/-- Five numbers as wide as they can be, and a blob: with 64 bytes for a group, the stream leaves
no room for another one of its kind. -/
def crowded (tag : Tag) (blob : Blob) : List Write :=
  [⟨{}, .rareFlags, .inline 0xFFFFFFFF⟩,
    ⟨{}, .dispatchMap, .inline 0xFFFFFFFF⟩,
    ⟨{}, .valueTypeFieldPadding, .inline 0xFFFFFFFF⟩,
    ⟨{}, .nullableValueOffset, .inline 0xFFFFFFFF⟩,
    ⟨{}, .castableIsInstSlot, .inline 0xFFFFFFFF⟩,
    ⟨{}, tag, .outOfLine blob⟩]

end Write

namespace FieldSet

/-- Uses setters one after the other. -/
def write (fields : FieldSet) : List Write → Except Fault FieldSet
  | [] => .ok fields
  | w :: rest =>
      match fields.set w.ledger w.tag w.value with
      | .ok next => next.write rest
      | .error fault => .error fault

/-- A field set that setters made out of the one with no field. -/
def Made (fields : FieldSet) : Prop :=
  ∃ writes, empty.write writes = .ok fields

theorem canHold_iff {tag : Tag} {blob : Blob} :
    canHold tag blob = true ↔ ∃ a, tag.alignment? = some a ∧ blob.alignment ∣ a := by
  unfold canHold
  cases tag.alignment? with
  | none =>
      simp
  | some a =>
      simp [Nat.dvd_iff_mod_eq_zero]

/-- A setter that succeeds fills the slot of its tag with a value that suits the tag. -/
theorem set_eq_ok
    {fields next : FieldSet} {ledger : Ledger} {tag : Tag} {value : FieldValue}
    (h : fields.set ledger tag value = .ok next) :
    value.Suits tag ∧ next = { slots := fields.slots.set tag { value := value } } := by
  cases value with
  | inline raw =>
      rw [set, setInline] at h
      by_cases hinline : tag.isInline = true
      · rw [if_pos hinline] at h
        cases h
        exact ⟨hinline, rfl⟩
      · rw [if_neg hinline] at h
        cases h
  | outOfLine blob =>
      rw [set, setOutOfLine] at h
      by_cases hplaced : ledger.isPlaced blob = true
      · rw [if_pos hplaced] at h
        cases h
      rw [if_neg hplaced] at h
      by_cases hhold : canHold tag blob = true
      · rw [if_pos hhold] at h
        cases h
        exact ⟨hhold, rfl⟩
      · rw [if_neg hhold] at h
        cases h

theorem write_cons_eq_ok_iff
    {fields made : FieldSet} {w : Write} {rest : List Write} :
    fields.write (w :: rest) = .ok made ↔
      ∃ next, fields.set w.ledger w.tag w.value = .ok next ∧ next.write rest = .ok made := by
  rw [write]
  cases fields.set w.ledger w.tag w.value <;> simp

/-- A slot holds the last value that was written for its tag, and what it held before if
there is none. -/
theorem get_write
    {fields made : FieldSet} {writes : List Write}
    (h : fields.write writes = .ok made)
    (tag : Tag) :
    made.get tag =
      match Write.last tag writes with
      | some value => some { value := value }
      | none => fields.get tag := by
  induction writes generalizing fields with
  | nil =>
      cases h
      rfl
  | cons w rest ih =>
      obtain ⟨next, hset, hrest⟩ := write_cons_eq_ok_iff.mp h
      obtain ⟨-, rfl⟩ := set_eq_ok hset
      rw [ih hrest, Write.last]
      cases Write.last tag rest with
      | some value =>
          rfl
      | none =>
          by_cases htag : w.tag = tag
          · simp [get, htag]
          · simp [get, htag, Ne.symm htag]

/-- Whatever setters are used, every value suits its tag and no blob has an offset yet. -/
theorem write_suits
    {fields made : FieldSet} {writes : List Write}
    (h : fields.write writes = .ok made)
    (hfields : ∀ tag field, fields.get tag = some field →
      field.value.Suits tag ∧ field.offset = none) :
    ∀ tag field, made.get tag = some field → field.value.Suits tag ∧ field.offset = none := by
  induction writes generalizing fields with
  | nil =>
      cases h
      exact hfields
  | cons w rest ih =>
      obtain ⟨next, hset, hrest⟩ := write_cons_eq_ok_iff.mp h
      refine ih hrest ?_
      obtain ⟨hsuits, rfl⟩ := set_eq_ok hset
      intro tag field hget
      by_cases htag : tag = w.tag
      · have hfield : field = { value := w.value } := by
          simpa [get, htag, eq_comm] using hget
        rw [hfield, htag]
        exact ⟨hsuits, rfl⟩
      · refine hfields tag field ?_
        simpa [get, htag] using hget

theorem Made.suits
    {fields : FieldSet} (h : fields.Made)
    {tag : Tag} {field : OptionalField}
    (hget : fields.get tag = some field) :
    field.value.Suits tag ∧ field.offset = none := by
  obtain ⟨writes, hwrites⟩ := h
  refine write_suits hwrites ?_ tag field hget
  intro t f hf
  cases hf

theorem mem_present_iff {fields : FieldSet} {tag : Tag} {field : OptionalField} :
    (tag, field) ∈ fields.present ↔ fields.get tag = some field :=
  Slots.mem_present_iff

theorem mem_blobs_iff {fields : FieldSet} {tag : Tag} {blob : Blob} :
    (tag, blob) ∈ fields.blobs ↔
      ∃ field, fields.get tag = some field ∧ field.value = .outOfLine blob := by
  unfold blobs
  rw [List.mem_filterMap]
  constructor
  · rintro ⟨⟨t, field⟩, hmem, heq⟩
    cases hvalue : field.value with
    | inline raw =>
        simp [hvalue] at heq
    | outOfLine b =>
        simp only [hvalue, Option.some.injEq, Prod.mk.injEq] at heq
        obtain ⟨rfl, rfl⟩ := heq
        exact ⟨field, mem_present_iff.mp hmem, hvalue⟩
  · rintro ⟨field, hget, hvalue⟩
    refine ⟨(tag, field), mem_present_iff.mpr hget, ?_⟩
    simp only [hvalue]

/-- The blobs of a made field set stand under tags that grant the alignment they need. -/
theorem Made.blob_alignment
    {fields : FieldSet} (h : fields.Made)
    {tag : Tag} {blob : Blob}
    (hmem : (tag, blob) ∈ fields.blobs) :
    ∃ a, tag.alignment? = some a ∧ blob.alignment ∣ a := by
  obtain ⟨field, hget, hvalue⟩ := mem_blobs_iff.mp hmem
  have hsuits := (h.suits hget).1
  rw [hvalue] at hsuits
  exact canHold_iff.mp hsuits

/-- The tags of the blobs of a made field set have alignments. -/
theorem Made.exists_alignment {fields : FieldSet} (h : fields.Made) :
    ∀ entry ∈ fields.blobs, ∃ a, entry.1.alignment? = some a := by
  rintro ⟨tag, blob⟩ hentry
  obtain ⟨a, ha, -⟩ := h.blob_alignment hentry
  exact ⟨a, ha⟩

/-- No tag is listed twice among those that refer to blobs. -/
theorem blobs_keys_nodup (fields : FieldSet) : (fields.blobs.map Prod.fst).Nodup := by
  have hkeys := fields.slots.present_keys_nodup
  rw [List.Nodup, List.pairwise_map] at hkeys ⊢
  rw [blobs, List.pairwise_filterMap]
  refine hkeys.imp ?_
  rintro ⟨t, field⟩ ⟨u, next⟩ hne ⟨t', b⟩ hb ⟨u', c⟩ hc
  have ht : t' = t := by
    cases hvalue : field.value <;> simp_all
  have hu : u' = u := by
    cases hvalue : next.value <;> simp_all
  rw [ht, hu]
  exact hne

theorem isEmpty_iff {fields : FieldSet} :
    fields.isEmpty = true ↔ fields.present = [] := by
  rw [isEmpty, Slots.isEmpty_eq]
  exact List.isEmpty_iff

theorem blobs_eq_nil_of_isEmpty {fields : FieldSet} (h : fields.isEmpty = true) :
    fields.blobs = [] := by
  rw [blobs, isEmpty_iff.mp h]
  rfl

theorem isEmpty_eq_false_of_blobs {fields : FieldSet} (h : fields.blobs ≠ []) :
    fields.isEmpty = false :=
  Bool.eq_false_iff.mpr (mt blobs_eq_nil_of_isEmpty h)

end FieldSet
end AnchoredFields

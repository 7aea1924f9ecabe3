import AnchoredFields.Image.View
import AnchoredFields.Proofs.ImageReading
import AnchoredFields.Proofs.StoredNumbers
import AnchoredFields.Proofs.StreamRoundTrip

/-!
# What a view answers

A view that reads the stream of a field set answers every question about the set:
with the number that was set for an inline tag, cut to the type that is asked for,
with the default if none was set, and with the address of the blob of an
out-of-line tag.  A view without a stream answers as if no field was set.

* `View.Reads.of_standsAt`, `View.Reads.null`: views that read a field set;
* `View.Reads.inlineValue_eq`: the answer for an inline tag;
* `View.Reads.outOfLineField_none`, `View.Reads.outOfLineField_some`: the answers for
  an out-of-line tag.
-/

namespace AnchoredFields

/-- A type whose values survive being widened to a number and cut again. -/
class LawfulInlineValue (α : Type) [InlineValue α] : Prop where
  ofRaw_toRaw : ∀ value : α, InlineValue.ofRaw (InlineValue.toRaw value) = value

instance : LawfulInlineValue UInt8 where
  ofRaw_toRaw := UInt8.toUInt8_toUInt32

instance : LawfulInlineValue UInt16 where
  ofRaw_toRaw := UInt16.toUInt16_toUInt32

instance : LawfulInlineValue UInt32 where
  ofRaw_toRaw _ := rfl

instance : LawfulInlineValue RareFlags where
  ofRaw_toRaw _ := rfl

namespace View

/-- A view reads the numbers that a field set is stored as behind an anchor to `target`. -/
structure Reads (view : View) (fields : FieldSet) (ledger : Ledger) (target : Nat) : Prop where
  rawFields_eq : view.rawFields = .ok (fields.stored ledger target)
  find_eq :
    ∀ tag, view.find tag =
      .ok ((fields.get tag).map fun field => field.value.stored ledger target tag)

/-- A number is answered as it is stored. -/
theorem inlineValue_number (view : View) (tag : Tag) (default : UInt32) :
    view.inlineValue tag default = view.inlineField tag default := by
  have hraw : InlineValue.toRaw default = default := rfl
  rw [inlineValue, hraw]
  cases view.inlineField tag default <;> rfl

namespace Reads

variable {view : View} {fields : FieldSet} {ledger : Ledger} {target : Nat}

/-- A view without a stream reads the field set without fields. -/
theorem null (image : Image) (ledger : Ledger) (target : Nat)
    (hempty : fields.isEmpty = true) :
    Reads { image := image, address := none } fields ledger target where
  rawFields_eq := by
    rw [FieldSet.stored_eq_nil_iff.mpr hempty]
    rfl
  find_eq tag := by
    have hnone : fields.get tag = none := (Slots.isEmpty_iff fields.slots).mp hempty tag
    rw [hnone]
    rfl

/-- A view at a stream reads the field set of the stream, whatever follows the stream. -/
theorem of_standsAt {image : Image} {address : Address} {start : Nat}
    (hsome : fields.isEmpty = false)
    (hstands :
      StandsAt (FieldStream.encode Varint.encode (fields.stored ledger target)) start
        image.bytes)
    (haddress : address.toNat = image.base.toNat + start)
    (hlt : start < image.size) :
    Reads { image := image, address := some address } fields ledger target := by
  obtain ⟨after, hafter⟩ := hstands.drop_eq
  have hslice := Image.sliceFrom_eq haddress hlt
  rw [hafter] at hslice
  have hne : fields.stored ledger target ≠ [] := by
    intro hnil
    rw [FieldSet.stored_eq_nil_iff.mp hnil] at hsome
    cases hsome
  have hread := FieldStream.readsBack_numbers (fields.stored ledger target)
  constructor
  · simp only [rawFields, hslice, bind, Except.bind]
    exact FieldStream.decode_encode_append hread hne after
  · intro tag
    simp only [find, hslice, bind, Except.bind]
    rw [FieldStream.find_encode_append hread hne tag after,
      fields.find?_stored ledger target tag]

theorem inlineField_eq (h : view.Reads fields ledger target) {tag : Tag}
    (hinline : tag.isInline = true) (default : UInt32) :
    view.inlineField tag default =
      .ok
        (((fields.get tag).map fun field => field.value.stored ledger target tag).getD
          default) := by
  simp only [inlineField, if_pos hinline, h.find_eq tag, bind, Except.bind, liftM_error_ok,
    pure, Except.pure]

/-- An inline field is answered with its number, cut to the type, and with the default
unchanged if it is not set. -/
theorem inlineValue_eq {α : Type} [InlineValue α] [LawfulInlineValue α]
    (h : view.Reads fields ledger target) {tag : Tag}
    (hinline : tag.isInline = true) (default : α) :
    view.inlineValue tag default =
      .ok
        (((fields.get tag).map fun field =>
          InlineValue.ofRaw (field.value.stored ledger target tag)).getD default) := by
  simp only [inlineValue, h.inlineField_eq hinline, bind, Except.bind, pure, Except.pure]
  cases fields.get tag with
  | none =>
      simp [LawfulInlineValue.ofRaw_toRaw]
  | some field =>
      simp

theorem outOfLineField_none (h : view.Reads fields ledger target) {tag : Tag} {a : Nat}
    (ha : tag.alignment? = some a)
    (hnone : fields.get tag = none) :
    view.outOfLineField tag a = .ok none := by
  have hfind := h.find_eq tag
  rw [hnone] at hfind
  simp only [outOfLineField, if_pos ha, hfind, bind, Except.bind, liftM_error_ok,
    Option.map_none]
  cases view.address <;> rfl

end Reads

/-- The alignment that an accessor assumes is the one that the tag prescribes. -/
theorem outOfLine_eq (view : View) {tag : Tag} {a : Nat} (ha : tag.alignment? = some a) :
    view.outOfLine tag = view.outOfLineField tag a := by
  cases tag <;> simp [Tag.alignment?, Tag.storage] at ha <;> subst ha <;> rfl

/-- An out-of-line field leads from the anchor of the stream to the blob. -/
theorem outOfLineField_some {view : View} {tag : Tag} {a target offset : Nat} {delta : UInt32}
    {address anchorAddress anchor : Address}
    (ha : tag.alignment? = some a)
    (hfind : view.find tag = .ok (some delta))
    (haddress : view.address = some address)
    (hmask : view.image.anchorAddress address = .ok anchorAddress)
    (hread : view.image.readAnchor anchorAddress = .ok anchor)
    (hanchor : anchor.toNat = view.image.base.toNat + target)
    (hoffset : offset = target + delta.toNat * a)
    (hword : view.image.base.toNat + offset < UInt64.size) :
    ∃ blobAddress,
      view.outOfLineField tag a = .ok (some blobAddress) ∧
        blobAddress.toNat = view.image.base.toNat + offset := by
  have hsum : anchor.toNat + delta.toNat * a = view.image.base.toNat + offset := by omega
  have hafter :
      anchor.after? (delta.toNat * a) =
        some (UInt64.ofNat (view.image.base.toNat + offset)) := by
    rw [Address.after?_eq_some_iff, hsum, UInt64.toNat_ofNat_of_lt' hword]
  refine ⟨_, ?_, UInt64.toNat_ofNat_of_lt' hword⟩
  simp only [outOfLineField, if_pos ha, hfind, haddress, hmask, hread, blobAddress, hafter,
    bind, Except.bind, liftM_error_ok, liftM_fault_ok]
  rfl

end View

/-- A number stands for a value behind an anchor to `target`: itself for an inline value, the
units from the target to the blob for a blob. -/
def FieldValue.Stores (ledger : Ledger) (target : Nat) (tag : Tag) :
    FieldValue → UInt32 → Prop
  | .inline raw, number => number = raw
  | .outOfLine blob, number =>
      ∃ offset a,
        ledger.offset? blob = some offset ∧
        tag.alignment? = some a ∧
        offset.toNat = target + number.toNat * a

/-- Only one number stands for a value. -/
theorem FieldValue.Stores.unique {ledger : Ledger} {target : Nat} {tag : Tag}
    {value : FieldValue} {m n : UInt32}
    (hm : value.Stores ledger target tag m)
    (hn : value.Stores ledger target tag n) :
    m = n := by
  cases value with
  | inline raw =>
      exact Eq.trans hm (Eq.symm hn)
  | outOfLine blob =>
      obtain ⟨offset, a, hoffset, ha, hm⟩ := hm
      obtain ⟨offset', a', hoffset', ha', hn⟩ := hn
      rw [hoffset] at hoffset'
      rw [ha] at ha'
      cases hoffset'
      cases ha'
      have hpos := Tag.alignment?_pos ha
      have hmul : m.toNat * a = n.toNat * a := by omega
      exact UInt32.toNat_inj.mp (Nat.eq_of_mul_eq_mul_right hpos hmul)

/-- What is read for an inline tag after some writes. -/
def Write.read {α : Type} [InlineValue α] (tag : Tag) (writes : List Write) (default : α) : α :=
  match Write.last tag writes with
  | some (.inline raw) => InlineValue.ofRaw raw
  | _ => default

/-- What a view answers for a field set that was made by some writes and is stored behind an
anchor to `target`. -/
structure View.Answers (view : View) (ledger : Ledger) (target : Nat) (writes : List Write) :
    Prop where
  isNull_iff : view.isNull = true ↔ ∀ tag, Write.last tag writes = none
  rawFields_eq :
    ∃ fields,
      view.rawFields = .ok fields ∧
      (fields.map fun field => field.1.index).Pairwise (· < ·) ∧
      ∀ tag number,
        (tag, number) ∈ fields ↔
          ∃ value, Write.last tag writes = some value ∧
            value.Stores ledger target tag number
  /-- The anchor of the view leads to the target, if there is a distance to count from it. -/
  anchor :
    (∃ tag blob, Write.last tag writes = some (.outOfLine blob)) →
      ∃ address anchorAddress anchor,
        view.address = some address ∧
        view.image.anchorAddress address = .ok anchorAddress ∧
        view.image.readAnchor anchorAddress = .ok anchor ∧
        anchor.toNat = view.image.base.toNat + target
  inlineField_eq :
    ∀ tag, tag.isInline = true →
      ∀ default, view.inlineField tag default = .ok (Write.read tag writes default)
  rareFlags_eq :
    ∀ default, view.rareFlags default = .ok (Write.read .rareFlags writes default)
  dispatchMap_eq :
    ∀ default, view.dispatchMap default = .ok (Write.read .dispatchMap writes default)
  valueTypeFieldPadding_eq :
    ∀ default, view.valueTypeFieldPadding default =
      .ok (Write.read .valueTypeFieldPadding writes default)
  nullableValueOffset_eq :
    ∀ default, view.nullableValueOffset default =
      .ok (Write.read .nullableValueOffset writes default)
  castableIsInstSlot_eq :
    ∀ default, view.castableIsInstSlot default =
      .ok (Write.read .castableIsInstSlot writes default)
  castableGetImplTypeSlot_eq :
    ∀ default, view.castableGetImplTypeSlot default =
      .ok (Write.read .castableGetImplTypeSlot writes default)
  outOfLine_none :
    ∀ tag, tag.isInline = false → Write.last tag writes = none →
      view.outOfLine tag = .ok none

namespace FieldSet

/-- The slots of a made field set hold what was written last. -/
theorem get_write_empty {fields : FieldSet} {writes : List Write}
    (hwrites : empty.write writes = .ok fields) (tag : Tag) :
    fields.get tag = (Write.last tag writes).map fun value => { value := value } := by
  rw [get_write hwrites tag]
  cases Write.last tag writes <;> rfl

theorem isEmpty_write_iff {fields : FieldSet} {writes : List Write}
    (hwrites : empty.write writes = .ok fields) :
    fields.isEmpty = true ↔ ∀ tag, Write.last tag writes = none := by
  refine (Slots.isEmpty_iff fields.slots).trans (forall_congr' ?_)
  intro tag
  show fields.get tag = none ↔ _
  rw [get_write_empty hwrites tag, Option.map_eq_none_iff]

theorem mem_stored_iff {fields : FieldSet} {ledger : Ledger} {target : Nat} {tag : Tag}
    {number : UInt32} :
    (tag, number) ∈ fields.stored ledger target ↔
      ∃ field, fields.get tag = some field ∧
        field.value.stored ledger target tag = number := by
  rw [stored, List.mem_map]
  constructor
  · rintro ⟨⟨t, field⟩, hmem, heq⟩
    cases heq
    exact ⟨field, mem_present_iff.mp hmem, rfl⟩
  · rintro ⟨field, hget, rfl⟩
    exact ⟨(tag, field), mem_present_iff.mpr hget, rfl⟩

theorem stored_sorted (fields : FieldSet) (ledger : Ledger) (target : Nat) :
    ((fields.stored ledger target).map fun field => field.1.index).Pairwise (· < ·) := by
  rw [stored, List.map_map]
  exact fields.slots.present_sorted

end FieldSet

namespace View.Reads

variable {view : View} {fields : FieldSet} {ledger : Ledger} {target : Nat}
  {writes : List Write}

/-- The value of an inline tag is a number, so the answer is what was written last. -/
theorem inlineValue_write {α : Type} [InlineValue α] [LawfulInlineValue α]
    (h : view.Reads fields ledger target)
    (hwrites : FieldSet.empty.write writes = .ok fields)
    {tag : Tag} (hinline : tag.isInline = true) (default : α) :
    view.inlineValue tag default = .ok (Write.read tag writes default) := by
  have hget := FieldSet.get_write_empty hwrites tag
  rw [h.inlineValue_eq hinline, hget, Write.read]
  cases hlast : Write.last tag writes with
  | none =>
      rfl
  | some value =>
      cases value with
      | inline raw =>
          rfl
      | outOfLine blob =>
          rw [hlast] at hget
          have hmade : fields.Made := ⟨writes, hwrites⟩
          obtain ⟨a, ha, -⟩ := FieldSet.canHold_iff.mp (hmade.suits hget).1
          rw [Tag.isInline_iff_alignment?_eq_none, ha] at hinline
          cases hinline

/-- A view that reads a field set answers with what was written last. -/
theorem answers_write (h : view.Reads fields ledger target)
    (hwrites : FieldSet.empty.write writes = .ok fields)
    (hnull : view.isNull = fields.isEmpty)
    (hstores :
      ∀ tag field, fields.get tag = some field →
        field.value.Stores ledger target tag (field.value.stored ledger target tag))
    (hanchor :
      fields.blobs ≠ [] →
        ∃ address anchorAddress anchor,
          view.address = some address ∧
          view.image.anchorAddress address = .ok anchorAddress ∧
          view.image.readAnchor anchorAddress = .ok anchor ∧
          anchor.toNat = view.image.base.toNat + target) :
    view.Answers ledger target writes := by
  refine
    { isNull_iff := ?_
      rawFields_eq :=
        ⟨_, h.rawFields_eq, fields.stored_sorted ledger target, ?_⟩
      anchor := ?_
      inlineField_eq := ?_
      rareFlags_eq := h.inlineValue_write hwrites rfl
      dispatchMap_eq := h.inlineValue_write hwrites rfl
      valueTypeFieldPadding_eq := h.inlineValue_write hwrites rfl
      nullableValueOffset_eq := h.inlineValue_write hwrites rfl
      castableIsInstSlot_eq := h.inlineValue_write hwrites rfl
      castableGetImplTypeSlot_eq := h.inlineValue_write hwrites rfl
      outOfLine_none := ?_ }
  · rw [hnull]
    exact FieldSet.isEmpty_write_iff hwrites
  · intro tag number
    have hget := FieldSet.get_write_empty hwrites tag
    rw [FieldSet.mem_stored_iff]
    constructor
    · rintro ⟨field, hfield, rfl⟩
      have hnumber := hstores tag field hfield
      rw [hget] at hfield
      obtain ⟨value, hlast, rfl⟩ := Option.map_eq_some_iff.mp hfield
      exact ⟨value, hlast, hnumber⟩
    · rintro ⟨value, hlast, hnumber⟩
      rw [hlast] at hget
      exact ⟨{ value := value }, hget, (hstores tag _ hget).unique hnumber⟩
  · rintro ⟨tag, blob, hlast⟩
    refine hanchor (List.ne_nil_of_mem (a := (tag, blob)) ?_)
    refine FieldSet.mem_blobs_iff.mpr ⟨{ value := .outOfLine blob }, ?_, rfl⟩
    rw [FieldSet.get_write_empty hwrites tag, hlast]
    rfl
  · intro tag hinline default
    have hvalue := h.inlineValue_write hwrites hinline default
    rwa [View.inlineValue_number] at hvalue
  · intro tag hkind hlast
    obtain ⟨a, ha⟩ := Tag.isInline_eq_false_iff.mp hkind
    rw [View.outOfLine_eq view ha]
    refine h.outOfLineField_none ha ?_
    rw [FieldSet.get_write_empty hwrites tag, hlast]
    rfl

end View.Reads
end AnchoredFields

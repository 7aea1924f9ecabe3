import AnchoredFields.Proofs.BlobPlacement
import AnchoredFields.Proofs.Setters

/-!
# The numbers that a stream stores

An inline field is stored as its number, an out-of-line field as the distance of
its blob from the target of the governing anchor, in units of the tag's alignment.
The distance is a whole number of units because targets are rounded down to the
largest alignment.

* `FieldSet.stored`: the numbers of a field set, said by the ledger;
* `FieldSet.storedValues_locate`: the planner works out the same numbers from the
  offsets it has filled in.
-/

namespace AnchoredFields

/-- The number that a value is stored as under a tag, behind an anchor to `target`. -/
def FieldValue.stored (ledger : Ledger) (target : Nat) (tag : Tag) : FieldValue → UInt32
  | .inline value => value
  | .outOfLine blob =>
      match ledger.offset? blob with
      | some offset => UInt32.ofNat ((offset.toNat - target) / tag.alignment?.getD 1)
      | none => 0

/-- The numbers that a field set is stored as, in declaration order of the tags. -/
def FieldSet.stored (fields : FieldSet) (ledger : Ledger) (target : Nat) :
    List (Tag × UInt32) :=
  fields.present.map fun entry => (entry.1, entry.2.value.stored ledger target entry.1)

namespace Slots

variable {α β : Type}

/-- Changing what slots hold changes what is listed for them. -/
theorem present_map (s : Slots α) (f : Tag → α → β) :
    present { get := fun tag => (s.get tag).map (f tag) } =
      s.present.map fun entry => (entry.1, f entry.1 entry.2) := by
  unfold present
  rw [List.map_filterMap]
  congr 1
  funext tag
  simp only [Option.map_map]
  rfl

end Slots

namespace Planner

/-- A blob that stands whole units behind the target is stored as the number of units. -/
theorem delta_eq
    {planner : Planner} {tag : Tag} {a : Nat} {offset : UInt32}
    (ha : tag.alignment? = some a)
    (hbehind : planner.target.toNat ≤ offset.toNat)
    (hoffset : a ∣ offset.toNat)
    (htarget : a ∣ planner.target.toNat) :
    planner.delta tag (some offset) =
      .ok (UInt32.ofNat ((offset.toNat - planner.target.toNat) / a)) := by
  have hle : planner.target ≤ offset := UInt32.le_iff_toNat_le.mpr hbehind
  have hwhole : (offset.toNat - planner.target.toNat) % a = 0 :=
    Nat.mod_eq_zero_of_dvd (Nat.dvd_sub hoffset htarget)
  simp only [delta, ha, Option.getD_some, Option.isSome_some, true_and]
  rw [if_pos hle, if_pos hwhole]

/-- Fields that can be stored one by one, after a change to each, can be stored together. -/
theorem storedValues_map
    {planner : Planner} {fields : List (Tag × OptionalField)}
    (change : Tag → OptionalField → OptionalField)
    (number : Tag → OptionalField → UInt32)
    (h : ∀ entry ∈ fields,
      planner.storedValue entry.1 (change entry.1 entry.2) = .ok (number entry.1 entry.2)) :
    planner.storedValues (fields.map fun entry => (entry.1, change entry.1 entry.2)) =
      .ok (fields.map fun entry => (entry.1, number entry.1 entry.2)) := by
  induction fields with
  | nil =>
      rfl
  | cons entry rest ih =>
      have hfirst := h entry List.mem_cons_self
      have hrest := ih fun next hnext => h next (List.mem_cons_of_mem _ hnext)
      rw [List.map_cons, storedValues, hfirst, hrest]
      rfl

end Planner

namespace FieldSet

/-- A field with the offset that placements give for its tag. -/
def locatedField (placements : List Placement) (tag : Tag) (field : OptionalField) :
    OptionalField :=
  match field.value with
  | .inline _ => field
  | .outOfLine _ =>
      { field with
        offset := (placements.find? fun placement => placement.tag = tag).map Placement.offset }

theorem present_locate (fields : FieldSet) (placements : List Placement) :
    (fields.locate placements).present =
      fields.present.map fun entry => (entry.1, locatedField placements entry.1 entry.2) :=
  Slots.present_map fields.slots (locatedField placements)

/-- The placement of a blob is found by its tag. -/
theorem find?_placement
    {fields : FieldSet} {placements : List Placement}
    (hentries : placements.map Placement.entry = fields.blobs)
    {placement : Placement} (hmem : placement ∈ placements) :
    (placements.find? fun p => p.tag = placement.tag) = some placement := by
  have hnodup : (placements.map Placement.tag).Nodup := by
    have hkeys := fields.blobs_keys_nodup
    rw [← hentries, List.map_map] at hkeys
    exact hkeys
  exact find?_of_nodup_keys hnodup hmem

/-- The planner stores a located field set as the ledger says. -/
theorem storedValues_locate
    {planner : Planner} {fields : FieldSet} {ledger : Ledger} {placements : List Placement}
    (hmade : fields.Made)
    (hentries : placements.map Placement.entry = fields.blobs)
    (hledger : ∀ placement ∈ placements,
      ledger.offset? placement.blob = some placement.offset)
    (hbehind : ∀ placement ∈ placements, planner.target.toNat ≤ placement.offset.toNat)
    (haligned : ∀ placement ∈ placements,
      Placement.alignmentOf placement.tag placement.blob ∣ placement.offset.toNat)
    (htarget : Tag.maxAlignment ∣ planner.target.toNat) :
    planner.storedValues (fields.locate placements).present =
      .ok (fields.stored ledger planner.target.toNat) := by
  rw [present_locate]
  refine Planner.storedValues_map (locatedField placements)
    (fun tag field => field.value.stored ledger planner.target.toNat tag) ?_
  rintro ⟨tag, field⟩ hmem
  have hget := mem_present_iff.mp hmem
  cases hvalue : field.value with
  | inline raw =>
      simp only [Planner.storedValue, locatedField, hvalue, FieldValue.stored]
  | outOfLine blob =>
      have hblob : (tag, blob) ∈ fields.blobs := mem_blobs_iff.mpr ⟨field, hget, hvalue⟩
      obtain ⟨a, ha, -⟩ := hmade.blob_alignment hblob
      rw [← hentries] at hblob
      obtain ⟨placement, hplacement, hentry⟩ := List.mem_map.mp hblob
      obtain ⟨rfl, rfl⟩ : placement.tag = tag ∧ placement.blob = blob := by
        simpa [Placement.entry] using hentry
      have hoffset : a ∣ placement.offset.toNat := by
        have hdvd := haligned placement hplacement
        rwa [Placement.alignmentOf_eq ha] at hdvd
      have hunit : a ∣ planner.target.toNat :=
        Nat.dvd_trans (Tag.alignment?_dvd_maxAlignment ha) htarget
      have hdelta := Planner.delta_eq ha (hbehind placement hplacement) hoffset hunit
      simp only [Planner.storedValue, locatedField, hvalue, FieldValue.stored,
        find?_placement hentries hplacement, Option.map_some, hdelta,
        hledger placement hplacement, ha, Option.getD_some]

/-- A made field set without blobs is stored in the same way whatever the target is. -/
theorem storedValues_of_no_blobs
    (planner : Planner) {fields : FieldSet}
    (hblobs : fields.blobs = [])
    (ledger : Ledger)
    (target : Nat) :
    planner.storedValues fields.present = .ok (fields.stored ledger target) := by
  have hsame :
      fields.present.map (fun entry => (entry.1, entry.2)) = fields.present :=
    List.map_id' fields.present
  rw [← hsame]
  refine Planner.storedValues_map (fun _ field => field)
    (fun tag field => field.value.stored ledger target tag) ?_
  rintro ⟨tag, field⟩ hmem
  cases hvalue : field.value with
  | inline raw =>
      simp only [Planner.storedValue, hvalue, FieldValue.stored]
  | outOfLine blob =>
      have hblob : (tag, blob) ∈ fields.blobs :=
        mem_blobs_iff.mpr ⟨field, mem_present_iff.mp hmem, hvalue⟩
      rw [hblobs] at hblob
      cases hblob

theorem length_stored_le (fields : FieldSet) (ledger : Ledger) (target : Nat) :
    (fields.stored ledger target).length ≤ Tag.count := by
  rw [stored, List.length_map]
  exact fields.slots.length_present_le

theorem stored_eq_nil_iff {fields : FieldSet} {ledger : Ledger} {target : Nat} :
    fields.stored ledger target = [] ↔ fields.isEmpty = true := by
  rw [stored, List.map_eq_nil_iff, isEmpty_iff]

/-- A search through the stored numbers gives what the slot of the tag is stored as. -/
theorem find?_stored (fields : FieldSet) (ledger : Ledger) (target : Nat) (tag : Tag) :
    ((fields.stored ledger target).find? fun field => field.1 = tag).map Prod.snd =
      (fields.get tag).map fun field => field.value.stored ledger target tag := by
  have hfind := fields.slots.find?_present tag
  rw [stored, List.find?_map, Option.map_map]
  show Option.map _ (fields.slots.present.find? fun entry => entry.1 = tag) = _
  rw [hfind, Option.map_map]
  rfl

end FieldSet
end AnchoredFields

import AnchoredFields.Proofs.EncodingSteps

/-!
# Admitting a field set with blobs

A field set whose blobs have places is admitted in two parts: its blobs are copied
behind the out-of-line data, and its stream joins a group.  The anchor of that group
never stands for a target behind one of the blobs, and its target is a multiple of
every alignment, so that each distance is a whole number of units.

* `Planner.Placeable`: the blobs of a made field set have places;
* `Planner.Placeable.covered_settle`: the anchor that the stream is written for;
* `Planner.Placeable.invariant_admitted`, `Planner.Placeable.extends_admitted`: the
  layout with the field set.
-/

namespace AnchoredFields

/-- The blobs of a made field set can be aligned. -/
theorem FieldSet.Made.alignable {fields : FieldSet} (h : fields.Made) :
    Placement.Alignable fields.blobs :=
  Placement.alignable_of_exists h.exists_alignment

/-- A target from which the distance to every placed blob counts in units of its tag. -/
structure Placement.Covered (target : UInt32) (placements : List Placement) : Prop where
  dvd : Tag.maxAlignment ∣ target.toNat
  le : ∀ placement ∈ placements, target.toNat ≤ placement.offset.toNat

namespace Planner

/-- A layout with blobs copied behind its out-of-line data. -/
def copied (planner : Planner) (placements : List Placement) : Planner :=
  (planner.addBlobs placements).closeOutline

/-- A layout with the blobs of a field set copied, and open for its stream; the blobs are
recorded in a ledger, and the first one stands at an offset. -/
def settled
    (planner : Planner) (fields : FieldSet) (ledger : Ledger) (placements : List Placement)
    (offset : UInt32) : Planner :=
  (planner.copied placements).settle offset fun target =>
    (streamFor fields ledger target).length

/-- A layout that took a field set, whose blobs were copied as placed and recorded in a
ledger; the first blob stands at an offset. -/
def admitted
    (planner : Planner) (fields : FieldSet) (ledger : Ledger) (placements : List Placement)
    (offset : UInt32) : Planner :=
  let settled := planner.settled fields ledger placements offset
  settled.keepAnchored (fields.locate placements) (streamFor fields ledger settled.target)

/-- Copying blobs changes nothing that streams depend on. -/
theorem copied_eq (planner : Planner) (placements : List Placement) :
    planner.copied placements =
      { planner with
        outline := (planner.addBlobs placements).outline
        records := (planner.addBlobs placements).records
        generation := planner.generation + 1
        statistics :=
          { planner.statistics with
            outlineBytes := (planner.addBlobs placements).outline.length } } := by
  rw [copied, addBlobs_eq]
  rfl

theorem streamCount_settled
    (planner : Planner) (fields : FieldSet) (ledger : Ledger) (placements : List Placement)
    (offset : UInt32) :
    (planner.settled fields ledger placements offset).streamCount = planner.streamCount := by
  rw [settled, streamCount_settle, copied_eq]
  rfl

theorem issued_admitted
    (planner : Planner) (fields : FieldSet) (ledger : Ledger) (placements : List Placement)
    (offset : UInt32) :
    (planner.admitted fields ledger placements offset).issued =
      planner.issued ++ [{ index := planner.streamCount }] := by
  have hcount := planner.streamCount_settled fields ledger placements offset
  refine (issued_addStream _ (fields.locate placements) _).trans ?_
  rw [issued, issued, hcount]

/-- The blobs of a made field set have their places behind the out-of-line data. -/
structure Placeable (planner : Planner) (fields : FieldSet) (placements : List Placement) :
    Prop where
  made : fields.Made
  entries : placements.map Placement.entry = fields.blobs
  chain :
    Placement.Chain planner.outline.length placements
      (Placement.stopOf planner.outline.length fields.blobs)
  stop_le : Placement.stopOf planner.outline.length fields.blobs ≤ Placement.limit

namespace Placeable

variable {planner : Planner} {fields : FieldSet} {placements : List Placement}

theorem alignable (h : planner.Placeable fields placements) :
    Placement.Alignable (placements.map Placement.entry) := by
  rw [h.entries]
  exact h.made.alignable

theorem of_placements
    (hinv : planner.Invariant)
    (hmade : fields.Made)
    (hplaced : fields.placements planner.outline.length = .ok placements) :
    planner.Placeable fields placements := by
  obtain ⟨hentries, hchain, hstop⟩ :=
    (FieldSet.placements_eq_ok_iff hmade.alignable hinv.outline_le).mp hplaced
  exact ⟨hmade, hentries, hchain, hstop⟩

/-- Places depend on the out-of-line data only. -/
theorem of_outline_eq {other : Planner} (h : planner.Placeable fields placements)
    (houtline : other.outline = planner.outline) :
    other.Placeable fields placements :=
  ⟨h.made, h.entries, houtline ▸ h.chain, houtline ▸ h.stop_le⟩

theorem blobs_ne_nil {first : Placement} {rest : List Placement}
    (h : planner.Placeable fields (first :: rest)) :
    fields.blobs ≠ [] := by
  rw [← h.entries]
  exact List.cons_ne_nil _ _

/-- The places of the blobs are the ones that are worked out. -/
theorem placements_eq (h : planner.Placeable fields placements) (hinv : planner.Invariant) :
    fields.placements planner.outline.length = .ok placements :=
  (FieldSet.placements_eq_ok_iff h.made.alignable hinv.outline_le).mpr
    ⟨h.entries, h.chain, h.stop_le⟩

theorem outline_copied (planner : Planner) (placements : List Placement) :
    (planner.copied placements).outline = (planner.addBlobs placements).outline := by
  rw [copied_eq]

theorem target_copied (planner : Planner) (placements : List Placement) :
    (planner.copied placements).target = planner.target := by
  rw [copied_eq]
  rfl

theorem length_outline (h : planner.Placeable fields placements) :
    (planner.copied placements).outline.length =
      Placement.stopOf planner.outline.length fields.blobs := by
  rw [outline_copied]
  exact (h.chain.outline h.alignable rfl).1

theorem standsAt (h : planner.Placeable fields placements)
    {placement : Placement} (hmem : placement ∈ placements) :
    StandsAt placement.blob.data placement.offset.toNat
      (planner.copied placements).outline := by
  rw [outline_copied]
  exact (h.chain.outline h.alignable rfl).2.2 placement hmem

theorem extends_copied (h : planner.Placeable fields placements) :
    planner.Extends (planner.copied placements) := by
  have hmore := (h.chain.outline h.alignable rfl).2.1
  rw [copied_eq]
  exact ⟨rfl, List.prefix_rfl, List.prefix_rfl, List.prefix_rfl, hmore⟩

theorem invariant_copied (h : planner.Placeable fields placements)
    (hinv : planner.Invariant) :
    (planner.copied placements).Invariant := by
  have hlength := h.length_outline
  have hmore := h.extends_copied.outline.length_le
  have hstop := h.stop_le
  rw [outline_copied] at hlength hmore
  rw [copied_eq]
  exact hinv.grow hmore (by omega) _ _ _

/-- A placed blob ends within the out-of-line data. -/
theorem offset_le (h : planner.Placeable fields placements)
    {placement : Placement} (hmem : placement ∈ placements) :
    placement.offset.toNat ≤ (planner.copied placements).outline.length := by
  have hstands := (h.standsAt hmem).stop_le
  omega

theorem alignment_dvd (h : planner.Placeable fields placements)
    {placement : Placement} (hmem : placement ∈ placements) :
    Placement.alignmentOf placement.tag placement.blob ∣ placement.offset.toNat :=
  (h.chain.bounds h.alignable hmem).2.2

/-- The first blob of a field set stands in front of its other blobs. -/
theorem head_le {first : Placement} {rest : List Placement}
    (h : planner.Placeable fields (first :: rest))
    {placement : Placement} (hmem : placement ∈ first :: rest) :
    first.offset.toNat ≤ placement.offset.toNat := by
  have halign := h.alignable
  cases h.chain with
  | cons _ hrest =>
      rcases List.mem_cons.mp hmem with rfl | hlater
      · exact Nat.le_refl _
      · have hbehind := (hrest.bounds halign.tail hlater).1
        rw [Placement.stop] at hbehind
        omega

/-- A new anchor for the first blob covers all of them. -/
theorem covered_anchorTarget {first : Placement} {rest : List Placement}
    (h : planner.Placeable fields (first :: rest)) :
    Placement.Covered (anchorTarget first.offset) (first :: rest) := by
  have htarget := toNat_anchorTarget first.offset
  have hdown := alignDown_le Tag.maxAlignment first.offset.toNat
  refine ⟨htarget ▸ dvd_alignDown _ _, ?_⟩
  intro placement hmem
  have hhead := h.head_le hmem
  omega

/-- The anchor that is open covers all blobs that are copied from now on. -/
theorem covered_target (h : planner.Placeable fields placements)
    (hinv : planner.Invariant) :
    Placement.Covered planner.target placements := by
  obtain ⟨hdvd, hle⟩ := hinv.target_facts
  refine ⟨hdvd, ?_⟩
  intro placement hmem
  have hbehind := (h.chain.bounds h.alignable hmem).1
  omega

/-- The anchor of the group in which the stream is planned first covers all blobs. -/
theorem covered_opened {first : Placement} {rest : List Placement}
    (h : planner.Placeable fields (first :: rest))
    (hinv : planner.Invariant) :
    Placement.Covered ((planner.copied (first :: rest)).opened first.offset).target
      (first :: rest) := by
  rw [opened]
  by_cases hnone : (planner.copied (first :: rest)).group.isNone = true
  · rw [if_pos hnone]
    exact h.covered_anchorTarget
  · rw [if_neg hnone, target_copied]
    exact h.covered_target hinv

/-- So does the anchor of the group that the stream joins. -/
theorem covered_settle {first : Placement} {rest : List Placement}
    (h : planner.Placeable fields (first :: rest))
    (hinv : planner.Invariant)
    (size : UInt32 → Nat) :
    Placement.Covered ((planner.copied (first :: rest)).settle first.offset size).target
      (first :: rest) := by
  rw [settle]
  by_cases hroom :
      ((planner.copied (first :: rest)).opened first.offset).room <
        size ((planner.copied (first :: rest)).opened first.offset).target
  · rw [if_pos hroom]
    exact h.covered_anchorTarget
  · rw [if_neg hroom]
    exact h.covered_opened hinv

/-- Blobs that can all be placed are recorded at the offsets they are placed at. -/
theorem offset?_placeAll (h : planner.Placeable fields placements)
    {ledger : Ledger} (hfresh : ledger.AllFresh fields.blobs)
    {placement : Placement} (hmem : placement ∈ placements) :
    (ledger.placeAll placements).offset? placement.blob = some placement.offset := by
  have hnodup := hfresh.2
  rw [← h.entries, List.map_map] at hnodup
  exact Ledger.offset?_placeAll_of_mem hnodup hmem

/-- Behind an anchor that covers all blobs, the stream of the field set can be written. -/
theorem storedValues_locate (h : planner.Placeable fields placements)
    {ledger : Ledger} (hfresh : ledger.AllFresh fields.blobs)
    {now : Planner} (hcovered : Placement.Covered now.target placements) :
    now.storedValues (fields.locate placements).present =
      .ok (fields.stored (ledger.placeAll placements) now.target.toNat) :=
  FieldSet.storedValues_locate h.made h.entries (fun _ hmem => h.offset?_placeAll hfresh hmem)
    hcovered.le (fun _ hmem => h.alignment_dvd hmem) hcovered.dvd

/-- The group that is open for the stream of the field set takes it. -/
theorem invariant_settled {first : Placement} {rest : List Placement}
    (h : planner.Placeable fields (first :: rest))
    (hinv : planner.Invariant)
    (ledger : Ledger) :
    let settled := planner.settled fields ledger (first :: rest) first.offset
    settled.Invariant ∧
      settled.group.isSome = true ∧
      (streamFor fields ledger settled.target).length ≤ settled.room :=
  (h.invariant_copied hinv).settle (h.offset_le List.mem_cons_self)
    (fun target => length_streamFor_le fields ledger target)

theorem invariant_admitted {first : Placement} {rest : List Placement}
    (h : planner.Placeable fields (first :: rest))
    (hinv : planner.Invariant)
    (ledger : Ledger) :
    (planner.admitted fields ledger (first :: rest) first.offset).Invariant := by
  obtain ⟨hsettled, hopen, hroom⟩ := h.invariant_settled hinv ledger
  exact hsettled.keepAnchored _ hopen hroom

theorem extends_admitted (h : planner.Placeable fields placements)
    (ledger : Ledger) (offset : UInt32) :
    planner.Extends (planner.admitted fields ledger placements offset) :=
  (h.extends_copied.trans (extends_settle _ _ _)).trans (extends_keepAnchored _ _ _)

end Placeable
end Planner

end AnchoredFields

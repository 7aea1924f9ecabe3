import AnchoredFields.Proofs.RegionSizes

/-!
# The out-of-line region in an image

An image begins with the out-of-line data of its layout, so a blob stands in the image at the
offset that was recorded when it was placed, and the gaps between blobs are zeros there too.

* `Outlined.outlineImage`: the region in an image of the layout;
* `Run.outline_region`: the region of a run, in the layout and in the image.
-/

namespace AnchoredFields

/-- The out-of-line region of an image: the blobs at their places, and zeros between them. -/
structure OutlineImage (planner : Planner) (placements : List Placement) (image : Image) :
    Prop where
  region_eq :
    image.regions .outOfLineData = some { start := 0, size := planner.statistics.outlineBytes }
  stands :
    ∀ placement ∈ placements,
      StandsAt placement.blob.data placement.offset.toNat image.bytes
  zeros :
    ∀ i < planner.statistics.outlineBytes,
      (∀ placement ∈ placements, i < placement.offset.toNat ∨ placement.stop ≤ i) →
        image.bytes[i]? = some 0

variable {calls : List Call} {planner : Planner} {ledger : Ledger}

/-- The chain of all blobs of a run is found in every image of the layout. -/
theorem Outlined.outlineImage {placements : List Placement} {image : Image} {event : Event}
    (h : Outlined calls planner ledger placements)
    (hrun : Run calls planner ledger)
    (hplace : planner.place ledger = .ok (image, event)) :
    OutlineImage planner placements image := by
  have halign := h.alignable hrun
  have hbytes := hrun.outlineBytes_eq
  have hfront : planner.outline <+: image.bytes := by
    rw [(Planner.shows_place hplace).bytes_eq, Planner.regionFront, List.append_assoc]
    exact List.prefix_append _ _
  refine ⟨?_, ?_, ?_⟩
  · rw [hbytes]
    exact Planner.outline_region_place hplace
  · intro placement hmem
    rw [h.outline_eq] at hfront
    exact (h.chain.standsAt halign hmem).extend hfront
  · intro i hlt hbetween
    rw [hbytes] at hlt
    have hzero := h.chain.byte_between halign (Nat.zero_le i) hlt hbetween
    obtain ⟨more, hmore⟩ := hfront
    rw [← hmore, List.getElem?_append_left hlt, h.outline_eq]
    exact hzero

namespace Run

/-- The out-of-line region of a run holds every blob of the calls once, in order and without
overlap, each at the first place at its alignment; every field refers to its own blob; and every
image has the blobs at these places and zeros between them.  There is an image if what the
statistics and the streams tell of its size fits. -/
theorem outline_region (h : Run calls planner ledger) :
    ∃ placements,
      OutlineRegion calls planner ledger placements ∧
        (∀ image event, planner.place ledger = .ok (image, event) →
          OutlineImage planner placements image) ∧
        (planner.grid.base.toNat +
              (alignUp planner.grid.spacing planner.statistics.outlineBytes +
                planner.tallied calls) ≤ UInt64.size →
          ∃ image event,
            planner.place ledger = .ok (image, event) ∧
              OutlineImage planner placements image) := by
  obtain ⟨placements, houtlined⟩ := h.exists_outlined
  have hbytes := h.outlineBytes_eq
  refine
    ⟨placements,
      { houtlined with
        least := fun before placement after hsplit => houtlined.least h hsplit
        ordered := houtlined.ordered h
        located := fun call hcall => houtlined.located h hcall
        size_eq := hbytes.trans houtlined.chain.stop_eq
        size_le := hbytes ▸ h.invariant.outline_le },
      fun _ _ hplace => houtlined.outlineImage h hplace, ?_⟩
  intro hfits
  obtain ⟨image, event, hplace⟩ := h.exists_place (h.fits_of_tallied hfits)
  exact ⟨image, event, hplace, houtlined.outlineImage h hplace⟩

/-- A blob without bytes is placed like any other.  In the image, the bytes of the other blobs
stand at their offsets, and there are zeros between them. -/
theorem outline_region_of_three_blobs :
    let slots : Blob := { id := 0, payload := .bytes [1, 2, 3], alignment := 4 }
    let composition : Blob := { id := 2, payload := .bytes [], alignment := 1 }
    let statics : Blob := { id := 1, payload := .bytes [4], alignment := 16 }
    ∃ calls planner ledger placements image event,
      OutlineRegion calls planner ledger placements ∧
        placements.map Placement.entry =
          [(.sealedVirtualSlots, slots), (.genericComposition, composition),
            (.threadStaticInfo, statics)] ∧
        placements.map (fun placement => ledger.offset? placement.blob) =
          [some 0, some 8, some 16] ∧
        planner.statistics.outlineBytes = 17 ∧
        planner.place ledger = .ok (image, event) ∧
        image.regions .outOfLineData = some { start := 0, size := 17 } ∧
        StandsAt [1, 2, 3] 0 image.bytes ∧
        StandsAt [4] 16 image.bytes ∧
        ∀ i, 3 ≤ i → i < 16 → image.bytes[i]? = some 0 := by
  intro slots composition statics
  have hnew : Planner.new { shift := 6 } = .ok { grid := { shift := 6 } } := rfl
  have hwrites :
      FieldSet.empty.write
          [⟨{}, .threadStaticInfo,
              .outOfLine { id := 1, payload := .bytes [4], alignment := 16 }⟩,
            ⟨{}, .genericComposition,
              .outOfLine { id := 2, payload := .bytes [], alignment := 1 }⟩,
            ⟨{}, .sealedVirtualSlots,
              .outOfLine { id := 0, payload := .bytes [1, 2, 3], alignment := 4 }⟩] = .ok _ :=
    rfl
  obtain ⟨calls, planner, ledger, hrun, hblobs, hoffsets, hbytes, hfits⟩ :
      ∃ calls planner ledger,
        Run calls planner ledger ∧
          calls.flatMap (fun call => call.fields.blobs) =
            [(.sealedVirtualSlots, slots), (.genericComposition, composition),
              (.threadStaticInfo, statics)] ∧
          [slots, composition, statics].map ledger.offset? = [some 0, some 8, some 16] ∧
          planner.statistics.outlineBytes = 17 ∧
          planner.grid.base.toNat +
              (alignUp planner.grid.spacing planner.statistics.outlineBytes +
                planner.tallied calls) ≤ UInt64.size :=
    ⟨_, _, _, (Run.new hnew {}).call ⟨_, hwrites⟩ [] rfl, rfl, rfl, rfl, by decide⟩
  obtain ⟨placements, hregion, -, hexists⟩ := hrun.outline_region
  obtain ⟨image, event, hplace, himage⟩ := hexists hfits
  have hchain := hregion.toOutlined.ofBlobs_eq hrun
  have hknown :
      Placement.ofBlobs 0
          [(.sealedVirtualSlots, slots), (.genericComposition, composition),
            (.threadStaticInfo, statics)] =
        .ok
          [⟨.sealedVirtualSlots, slots, 0⟩, ⟨.genericComposition, composition, 8⟩,
            ⟨.threadStaticInfo, statics, 16⟩] := by
    unfold slots composition statics
    rfl
  rw [hblobs, hknown] at hchain
  cases hchain
  refine
    ⟨calls, planner, ledger, _, image, event, hregion, rfl, hoffsets, hbytes, hplace,
      hbytes ▸ himage.region_eq, himage.stands _ List.mem_cons_self,
      himage.stands ⟨.threadStaticInfo, statics, 16⟩ (by simp), ?_⟩
  intro i hle hlt
  refine himage.zeros i (by omega) ?_
  simp only [List.forall_mem_cons, List.not_mem_nil, IsEmpty.forall_iff, implies_true, and_true]
  refine ⟨Or.inr hle, ?_, Or.inl hlt⟩
  rcases Nat.lt_or_ge i 8 with hfront | hbehind
  · exact Or.inl hfront
  · exact Or.inr hbehind

end Run
end AnchoredFields

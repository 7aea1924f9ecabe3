import AnchoredFields.Proofs.ImageGeometry
import AnchoredFields.Proofs.Lookup

/-!
# Reading back what was laid out

The writer counts distances from the target of the group that was open when the
stream was planned; the reader masks the address of the stream and counts from what
it finds there.  Both count from the same target, so every field set of a run is
read back from the image.

* `Planner.Shows.exists_view`: the view at the stream of a call, and the anchor that it
  finds;
* `Planner.Holds.blob_placed`: where the blobs of a call are;
* `Planner.Holds.stores`: which numbers stand for the values of a call;
* `Run.blob_read`, `Run.answers`: the blobs and the fields of a call, read from the image.
-/

namespace AnchoredFields

/-- The base of an image is a multiple of every alignment that a tag prescribes. -/
theorem AnchorGrid.Valid.maxAlignment_dvd_base {grid : AnchorGrid} (h : grid.Valid) :
    Tag.maxAlignment ∣ grid.base.toNat := by
  have hfour : 4 ≤ grid.shift := by
    refine Nat.not_lt.mp ?_
    intro hlt
    have hsmall : grid.spacing ≤ 2 ^ 3 := by
      rw [grid.spacing_eq]
      exact Nat.pow_le_pow_right (by decide) (Nat.le_of_lt_succ hlt)
    have hfits := Nat.le_trans h.stream_fits hsmall
    exact absurd hfits (by decide)
  have hspacing : Tag.maxAlignment ∣ grid.spacing := by
    rw [grid.spacing_eq]
    exact Nat.pow_dvd_pow 2 hfour
  exact Nat.dvd_trans hspacing h.spacing_dvd_base

/-- A stored distance leads from the target back to the blob. -/
theorem FieldValue.target_add_stored
    {ledger : Ledger} {tag : Tag} {blob : Blob} {a target : Nat} {offset : UInt32}
    (ha : tag.alignment? = some a)
    (hoffset : ledger.offset? blob = some offset)
    (hle : target ≤ offset.toNat)
    (htarget : a ∣ target)
    (hdvd : a ∣ offset.toNat) :
    offset.toNat =
      target + (FieldValue.stored ledger target tag (.outOfLine blob)).toNat * a := by
  have hsmall : (offset.toNat - target) / a < UInt32.size :=
    Nat.lt_of_le_of_lt (Nat.div_le_self _ _)
      (Nat.lt_of_le_of_lt (Nat.sub_le _ _) offset.toNat_lt_size)
  have hwhole : (offset.toNat - target) / a * a = offset.toNat - target :=
    Nat.div_mul_cancel (Nat.dvd_sub hdvd htarget)
  have hstored :
      (FieldValue.stored ledger target tag (.outOfLine blob)).toNat =
        (offset.toNat - target) / a := by
    simp only [stored, hoffset, ha, Option.getD_some]
    exact UInt32.toNat_ofNat_of_lt' hsmall
  rw [hstored, hwhole]
  omega

namespace Planner

variable {planner : Planner} {ledger : Ledger} {image : Image} {call : Call}
  {handle : Handle} {target : UInt32}

/-- The handle of a call leads to a view that reads the field set of the call. -/
theorem Shows.exists_view (h : planner.Shows image) (hinv : planner.Invariant)
    (hfits : image.Fits)
    (hholds : planner.Holds ledger call handle target) :
    ∃ address,
      image.resolve (some handle) = .ok (some address) ∧
      View.Reads { image := image, address := some address } call.fields ledger
        target.toNat ∧
      (call.fields.blobs ≠ [] →
        ∃ anchorAddress anchor,
          image.anchorAddress address = .ok anchorAddress ∧
          image.readAnchor anchorAddress = .ok anchor ∧
          anchor.toNat = image.base.toNat + target.toNat) := by
  obtain ⟨start, address, hpiece, hresolve, hnumber, -, hstands⟩ :=
    h.exists_stream hinv hfits hholds
  have hlt := h.start_lt hholds hpiece
  refine ⟨address, hresolve, View.Reads.of_standsAt hholds.some_field hstands hnumber hlt, ?_⟩
  intro hblobs
  obtain ⟨place, anchorAddress, anchor, -, -, -, hread, htarget, hblock⟩ :=
    h.exists_block_of_piece hinv hfits hholds hblobs hpiece
  rw [hholds.streamSize_eq] at hblock
  have hpos := hholds.stream_pos
  exact ⟨anchorAddress, anchor, hblock address (by omega) (by omega), hread, htarget⟩

/-- The out-of-line data stands in the image at the offsets it has in the layout. -/
theorem Shows.standsAt_outline (h : planner.Shows image) {data : List UInt8} {offset : Nat}
    (hstands : StandsAt data offset planner.outline) :
    StandsAt data offset image.bytes := by
  rw [h.bytes_eq, regionFront]
  exact (hstands.append_right _).append_right _

/-- The out-of-line data does not reach to the end of the image if there is a stream. -/
theorem Shows.outline_lt (h : planner.Shows image) (hinv : planner.Invariant)
    (hfits : image.Fits)
    (hholds : planner.Holds ledger call handle target) :
    planner.outline.length < image.size := by
  obtain ⟨start, -, hpiece, -⟩ := h.exists_stream hinv hfits hholds
  have hlt := h.start_lt hholds hpiece
  have hstart : planner.regionStart ≤ start := (planner.pieces_bounds hpiece).1
  have hfront : planner.outline.length ≤ planner.regionStart :=
    le_alignUp planner.grid.spacing_pos _
  omega

/-- The target that a stream with blobs was written for is a multiple of every alignment. -/
theorem Holds.target_dvd (h : planner.Holds ledger call handle target)
    (hinv : planner.Invariant)
    (hblobs : call.fields.blobs ≠ []) :
    Tag.maxAlignment ∣ target.toNat := by
  rcases h.filed with ⟨hnone, -⟩ | ⟨-, group, hgroup, rfl, -⟩
  · exact absurd hnone hblobs
  · exact hinv.target_dvd group hgroup

/-- Where a blob of a call is placed, and what that place and the target are multiples of. -/
theorem Holds.blob_placed (h : planner.Holds ledger call handle target)
    (hinv : planner.Invariant)
    {tag : Tag} {blob : Blob} (hblob : (tag, blob) ∈ call.fields.blobs) :
    ∃ offset a,
      ledger.offset? blob = some offset ∧
      tag.alignment? = some a ∧
      blob.alignment ∣ a ∧
      a ∣ offset.toNat ∧
      a ∣ target.toNat ∧
      target.toNat ≤ offset.toNat ∧
      StandsAt blob.data offset.toNat planner.outline := by
  obtain ⟨offset, hoffset, hle, hdvd, hstands⟩ := h.blobs (tag, blob) hblob
  obtain ⟨a, ha, halign⟩ := h.made.blob_alignment hblob
  rw [Placement.alignmentOf_eq ha] at hdvd
  have htarget : a ∣ target.toNat :=
    Nat.dvd_trans (Tag.alignment?_dvd_maxAlignment ha)
      (h.target_dvd hinv (List.ne_nil_of_mem hblob))
  exact ⟨offset, a, hoffset, ha, halign, hdvd, htarget, hle, hstands⟩

/-- Every field of a call is stored as the number that stands for its value. -/
theorem Holds.stores (h : planner.Holds ledger call handle target)
    (hinv : planner.Invariant)
    {tag : Tag} {field : OptionalField}
    (hget : call.fields.get tag = some field) :
    field.value.Stores ledger target.toNat tag
      (field.value.stored ledger target.toNat tag) := by
  cases hvalue : field.value with
  | inline raw =>
      rfl
  | outOfLine blob =>
      have hblob : (tag, blob) ∈ call.fields.blobs :=
        FieldSet.mem_blobs_iff.mpr ⟨field, hget, hvalue⟩
      obtain ⟨offset, a, hoffset, ha, -, hdvd, htarget, hle, -⟩ := h.blob_placed hinv hblob
      exact
        ⟨offset, a, hoffset, ha,
          FieldValue.target_add_stored ha hoffset hle htarget hdvd⟩

end Planner

namespace Run

variable {calls : List Call} {planner : Planner} {ledger : Ledger} {image : Image}
  {event : Event} {call : Call}

/-- An out-of-line field of a call leads to the address of its blob, which is a multiple of
the alignment of the tag, and what is read there is the blob. -/
theorem blob_read (h : Run calls planner ledger)
    (hplace : planner.place ledger = .ok (image, event))
    (hfits : image.Fits)
    (hcall : call ∈ calls)
    {tag : Tag} {field : OptionalField} {blob : Blob}
    (hget : call.fields.get tag = some field)
    (hvalue : field.value = .outOfLine blob) :
    ∃ handle stream offset a address,
      call.handle = some handle ∧
      image.resolve (some handle) = .ok (some stream) ∧
      ledger.offset? blob = some offset ∧
      tag.alignment? = some a ∧
      View.outOfLine { image := image, address := some stream } tag = .ok (some address) ∧
      View.outOfLineField { image := image, address := some stream } tag a =
        .ok (some address) ∧
      address.toNat = planner.grid.base.toNat + offset.toNat ∧
      a ∣ address.toNat ∧
      blob.alignment ∣ address.toNat ∧
      image.read address blob.size = .ok blob.data := by
  have hinv := h.invariant
  have hshows := Planner.shows_place hplace
  have hblob : (tag, blob) ∈ call.fields.blobs :=
    FieldSet.mem_blobs_iff.mpr ⟨field, hget, hvalue⟩
  have hsome : call.fields.blobs ≠ [] := List.ne_nil_of_mem hblob
  rcases h.exists_holds hcall with ⟨hempty, -⟩ | ⟨handle, target, hholds⟩
  · exact absurd (FieldSet.blobs_eq_nil_of_isEmpty hempty) hsome
  obtain ⟨stream, hresolve, hreads, hanchored⟩ := hshows.exists_view hinv hfits hholds
  obtain ⟨anchorAddress, anchor, hmask, hread, hanchor⟩ := hanchored hsome
  obtain ⟨offset, a, hoffset, ha, halign, hdvd, htarget, hle, hstands⟩ :=
    hholds.blob_placed hinv hblob
  -- The blob lies within the image, so its address does not wrap around.
  have hstop := hstands.stop_le
  have houtline := hshows.outline_lt hinv hfits hholds
  have hlt : offset.toNat < image.size := by omega
  have hword : image.base.toNat + offset.toNat < UInt64.size :=
    Nat.lt_of_lt_of_le (Nat.add_lt_add_left hlt _) hfits
  have hfind := hreads.find_eq tag
  rw [hget, Option.map_some, hvalue] at hfind
  obtain ⟨address, haccess, hnumber⟩ :=
    View.outOfLineField_some ha hfind rfl hmask hread hanchor
      (FieldValue.target_add_stored ha hoffset hle htarget hdvd) hword
  have hbase : a ∣ image.base.toNat := by
    rw [hshows.base_eq]
    exact
      Nat.dvd_trans (Tag.alignment?_dvd_maxAlignment ha)
        hinv.grid_valid.maxAlignment_dvd_base
  have haddress : a ∣ address.toNat := by
    rw [hnumber]
    exact Nat.dvd_add hbase hdvd
  refine
    ⟨handle, stream, offset, a, address, hholds.handle_eq, hresolve, hoffset, ha, ?_, haccess,
      ?_, haddress, Nat.dvd_trans halign haddress, ?_⟩
  · rw [View.outOfLine_eq _ ha]
    exact haccess
  · rw [← hshows.base_eq]
    exact hnumber
  · rw [← blob.length_data]
    exact Image.read_eq (hshows.standsAt_outline hstands) hnumber hlt

theorem blob_read_of_four_calls :
    ∃ image stream address,
      View.genericComposition { image := image, address := some stream } =
        .ok (some address) ∧
      image.read address 3 = .ok [1, 2, 3] := by
  obtain ⟨first, second, third, calls, planner, ledger, image, event, -, hsecond, -, hlisted,
    hrun, hplace, hfits, -⟩ := exists_four_calls
  obtain ⟨call, hcall, heq⟩ := exists_call hlisted 1 rfl
  obtain ⟨rfl, -⟩ := Prod.mk.inj heq
  have hget := FieldSet.get_write_empty hsecond .genericComposition
  obtain ⟨handle, stream, offset, a, address, -, -, -, -, haccess, -, -, -, -, hread⟩ :=
    hrun.blob_read hplace hfits hcall hget rfl
  exact ⟨image, stream, address, haccess, hread⟩

/-- The view of every call of a run answers with what was written last to the field set of the
call; a call without fields has no handle and a view without a stream. -/
theorem answers (h : Run calls planner ledger)
    (hplace : planner.place ledger = .ok (image, event))
    (hfits : image.Fits)
    (hcall : call ∈ calls)
    {writes : List Write}
    (hwrites : FieldSet.empty.write writes = .ok call.fields) :
    ∃ (view : View) (target : Nat),
      view.image = image ∧
      image.resolve call.handle = .ok view.address ∧
      (call.handle = none ↔ ∀ tag, Write.last tag writes = none) ∧
      view.Answers ledger target writes := by
  have hinv := h.invariant
  have hshows := Planner.shows_place hplace
  have hnone := FieldSet.isEmpty_write_iff hwrites
  rcases h.exists_holds hcall with ⟨hempty, hhandle⟩ | ⟨handle, target, hholds⟩
  · have hreads := View.Reads.null image ledger 0 hempty
    refine
      ⟨{ image := image, address := none }, 0, rfl, by rw [hhandle]; rfl, ?_,
        hreads.answers_write hwrites hempty.symm ?_ ?_⟩
    · rw [hhandle, ← hnone]
      exact iff_of_true rfl hempty
    · intro tag field hget
      have hslot : call.fields.get tag = none :=
        (Slots.isEmpty_iff call.fields.slots).mp hempty tag
      rw [hslot] at hget
      cases hget
    · intro hblobs
      exact absurd (FieldSet.blobs_eq_nil_of_isEmpty hempty) hblobs
  · obtain ⟨address, hresolve, hreads, hanchored⟩ := hshows.exists_view hinv hfits hholds
    refine
      ⟨{ image := image, address := some address }, target.toNat, rfl, ?_, ?_,
        hreads.answers_write hwrites hholds.some_field.symm (fun _ _ => hholds.stores hinv) ?_⟩
    · rw [hholds.handle_eq]
      exact hresolve
    · rw [hholds.handle_eq, ← hnone, hholds.some_field]
      simp
    · intro hblobs
      obtain ⟨anchorAddress, anchor, hmask, hread, hanchor⟩ := hanchored hblobs
      exact ⟨address, anchorAddress, anchor, rfl, hmask, hread, hanchor⟩

/-- One view for a stream with a blob eight bytes behind the target of its anchor, one for a
stream of a number that is wider than its accessor, and one for a call without fields. -/
theorem answers_of_four_calls :
    ∃ (image : Image) (crowded single bare : View) (fields : List (Tag × UInt32)),
      image.resolve (some { index := 1 }) = .ok crowded.address ∧
      crowded.rawFields = .ok fields ∧
      (.genericComposition, 1) ∈ fields ∧
      crowded.rareFlags { bits := 9 } = .ok { bits := 0xFFFFFFFF } ∧
      image.resolve (some { index := 2 }) = .ok single.address ∧
      single.isNull = false ∧
      single.nullableValueOffset 0 = .ok 4 ∧
      single.rareFlags { bits := 9 } = .ok { bits := 9 } ∧
      single.sealedVirtualSlots = .ok none ∧
      image.resolve none = .ok bare.address ∧
      bare.isNull = true ∧
      bare.rawFields = .ok [] ∧
      bare.nullableValueOffset 5 = .ok 5 ∧
      bare.genericComposition = .ok none := by
  obtain ⟨first, second, third, calls, planner, ledger, image, event, -, hsecond, hthird,
    hlisted, hrun, hplace, hfits, -, hbase, hresolve, hmask, hread, hoffset⟩ :=
    exists_four_calls
  have hanswer (i : Nat) {fields : FieldSet} {handle : Option Handle} {writes : List Write}
      (hmem :
        [(first, some { index := 0 }), (second, some { index := 1 }),
          (third, some { index := 2 }), (.empty, none)][i]? = some (fields, handle))
      (hwrites : FieldSet.empty.write writes = .ok fields) :
      ∃ (view : View) (target : Nat),
        view.image = image ∧
          image.resolve handle = .ok view.address ∧
            view.Answers ledger target writes := by
    obtain ⟨call, hcall, heq⟩ := exists_call hlisted i hmem
    obtain ⟨rfl, rfl⟩ := Prod.mk.inj heq
    obtain ⟨view, target, himage, haddress, -, hanswers⟩ :=
      hrun.answers hplace hfits hcall hwrites
    exact ⟨view, target, himage, haddress, hanswers⟩
  have hnothing : FieldSet.empty.write [] = .ok .empty := rfl
  obtain ⟨crowded, target, himage, hcrowdedAt, hcrowded⟩ := hanswer 1 rfl hsecond
  obtain ⟨single, _, -, hsingleAt, hsingle⟩ := hanswer 2 rfl hthird
  obtain ⟨bare, _, -, hbareAt, hbare⟩ := hanswer 3 rfl hnothing
  obtain ⟨fields, hfields, -, hstored⟩ := hcrowded.rawFields_eq
  obtain ⟨rest, hrest, -, hunset⟩ := hbare.rawFields_eq
  have hempty : rest = [] := by
    refine List.eq_nil_iff_forall_not_mem.mpr ?_
    rintro ⟨tag, number⟩ hmem
    obtain ⟨value, hlast, -⟩ := (hunset tag number).mp hmem
    cases hlast
  have hsome : ¬ single.isNull = true := by
    intro hnull
    cases hsingle.isNull_iff.mp hnull .nullableValueOffset
  -- The anchor of the second stream tells the target from which the blob is counted.
  obtain ⟨address, anchorAddress, anchor, haddress, hmasked, hanchor, htarget⟩ :=
    hcrowded.anchor ⟨.genericComposition, _, rfl⟩
  rw [himage] at hmasked hanchor htarget
  rw [hresolve, haddress] at hcrowdedAt
  cases hcrowdedAt
  rw [hmask] at hmasked
  cases hmasked
  rw [hread] at hanchor
  cases hanchor
  have hsixteen : target = 16 := by
    rw [hbase] at htarget
    exact Nat.add_left_cancel htarget.symm
  have hone : (.genericComposition, 1) ∈ fields :=
    (hstored .genericComposition 1).mpr
      ⟨_, rfl, 24, 8, hoffset, rfl, by rw [hsixteen]; rfl⟩
  exact
    ⟨image, crowded, single, bare, fields, by rw [hresolve, haddress], hfields, hone,
      hcrowded.rareFlags_eq _, hsingleAt, Bool.eq_false_iff.mpr hsome,
      hsingle.nullableValueOffset_eq 0, hsingle.rareFlags_eq _,
      hsingle.outOfLine_none .sealedVirtualSlots rfl rfl, hbareAt,
      hbare.isNull_iff.mpr fun _ => rfl, hempty ▸ hrest, hbare.nullableValueOffset_eq 5,
      hbare.outOfLine_none .genericComposition rfl rfl⟩

end Run
end AnchoredFields

import AnchoredFields.Proofs.HostileImages
import AnchoredFields.Proofs.PlacingReturns
import AnchoredFields.Proofs.ReadBack

/-!
# Layouts near the end of the address space

The base of an image is only asked to be a multiple of the spacing, so an image may
begin right before the last address and reach beyond it.  Nobody looks at that before
a sum is formed: placing forms the addresses of the targets of anchors, and looking up
a handle forms the address of a stream.

* `Planner.placeAnchored_eq_overflow`, `Planner.Invariant.place_eq_overflow`: placing
  overflows if some anchor cannot be placed;
* `Planner.Shows.overflows`, `Run.locates`: looking up a handle;
* `Run.address_space`: which sums overflow, and that none does exactly if the image ends
  within the address space.
-/

namespace AnchoredFields

theorem Address.after_eq_overflow {a : Address} {n : Nat} (h : UInt64.size ≤ a.toNat + n) :
    a.after n = .error .overflow := by
  rw [after, after?, if_neg (Nat.not_lt.mpr h)]

theorem Draft.pad_eq_overflow {draft : Draft} {alignment : Nat}
    (hpower : isPowerOfTwo alignment = true)
    (hsize : UInt64.size ≤ alignUp alignment draft.size) :
    draft.pad alignment = .error .overflow := by
  rw [pad, if_neg (by rw [hpower]; exact Bool.noConfusion)]
  exact if_neg fun hfits => Nat.not_lt.mpr hsize hfits.1

namespace Planner

variable {planner : Planner} {ledger : Ledger} {image : Image} {event : Event}
  {handle : Handle} {start : Nat}

/-- An anchor overflows if it would start at no 64-bit number or if its target has no
address. -/
theorem addAnchor_eq_overflow {placed : StreamDraft} {target : Nat}
    (hspacing : planner.grid.spacing < UInt64.size / 2)
    (hbase : placed.draft.base = planner.grid.base)
    (hover :
      ¬ (alignUp planner.grid.spacing placed.draft.size < UInt64.size ∧
          planner.grid.base.toNat + target < UInt64.size)) :
    placed.addAnchor planner.grid.spacing target = .error .overflow := by
  rw [StreamDraft.addAnchor]
  by_cases hstart : alignUp planner.grid.spacing placed.draft.size < UInt64.size
  · have htarget : UInt64.size ≤ placed.draft.base.toNat + target := by
      rw [hbase]
      exact Nat.not_lt.mp fun hlt => hover ⟨hstart, hlt⟩
    have haddress (bytes : List UInt8) :
        (placed.draft.append bytes).addressOf target = .error .overflow :=
      Address.after_eq_overflow htarget
    rw [Draft.pad_eq planner.grid.isPowerOfTwo_spacing hspacing hstart]
    simp only [bind, Except.bind, haddress]
  · rw [Draft.pad_eq_overflow planner.grid.isPowerOfTwo_spacing (Nat.not_lt.mp hstart)]
    rfl

/-- Placing entries overflows if one of their anchors cannot be placed. -/
theorem placeAnchored_eq_overflow {entries : List StreamEntry} {placed : StreamDraft}
    (hspacing : planner.grid.spacing < UInt64.size / 2)
    (hready : planner.Ready placed entries)
    (hanchors : ¬ planner.AnchorsFit (planner.pieces placed.draft.size entries)) :
    planner.placeAnchored 0 placed entries = .error .overflow := by
  induction entries generalizing placed with
  | nil =>
      exact absurd (fun _ _ hmem => nomatch hmem) hanchors
  | cons entry rest ih =>
      cases entry with
      | anchor target =>
          rw [placeAnchored, Nat.zero_add]
          by_cases hfirst :
              alignUp planner.grid.spacing placed.draft.size < UInt64.size ∧
                planner.grid.base.toNat + target.toNat < UInt64.size
          · obtain ⟨next, hnext, -⟩ :=
              exists_addAnchor hspacing hready.base_eq hfirst.1 hfirst.2
            rw [hnext]
            refine ih (hready.of_addAnchor hnext) ?_
            rw [(size_addAnchor hnext hready.base_eq).1]
            exact fun hrest => hanchors (anchorsFit_cons_anchor.mpr ⟨hfirst, hrest⟩)
          · rw [addAnchor_eq_overflow hspacing hready.base_eq hfirst]
            rfl
      | stream handle =>
          rw [placeAnchored, hready.placeStream_eq]
          refine ih hready.withStream ?_
          rw [size_withStream]
          exact fun hrest => hanchors (anchorsFit_cons_stream.mpr hrest)

/-- A layout overflows while it is placed if one of its anchors cannot be placed. -/
theorem Invariant.place_eq_overflow (h : planner.Invariant)
    (hanchors : ¬ planner.AnchorsFit planner.regionPieces) (ledger : Ledger) :
    planner.place ledger = .error .overflow := by
  obtain ⟨placed, hready, hsize, -, hregions⟩ := h.exists_placeRegions_eq
  have hpieces :
      ¬ planner.AnchorsFit (planner.pieces placed.draft.size planner.regionEntries) := by
    rw [hsize]
    exact hanchors
  rw [place, hregions, placeAnchored_eq_overflow h.spacing_lt_half hready hpieces]
  rfl

/-- Looking up a handle overflows where its stream has no address. -/
theorem Shows.overflows (h : planner.Shows image) (hinv : planner.Invariant)
    (hpiece : { entry := .stream handle, start := start } ∈ planner.regionPieces)
    (hle : UInt64.size ≤ image.base.toNat + start) :
    image.streamAddress handle = .error (.fault .overflow) ∧
      image.resolve (some handle) = .error .overflow := by
  have haddress : image.addressOf start = .error .overflow := Address.after_eq_overflow hle
  constructor
  · simp only [Image.streamAddress, h.offset_eq hinv hpiece, haddress, liftM_fault_error]
  · simp only [Image.resolve, h.offset_eq hinv hpiece, haddress]
    rfl

theorem Shows.fits_iff (h : planner.Shows image) : image.Fits ↔ planner.Fits := by
  rw [Image.Fits, h.base_eq, h.size_eq, Fits]

theorem Shows.anchorAlignment_ne_zero (h : planner.Shows image) (hinv : planner.Invariant) :
    image.anchorAlignment ≠ 0 := by
  have hlt : planner.grid.spacing < UInt64.size := by
    have hhalf := hinv.spacing_lt_half
    omega
  intro hzero
  have hnat := congrArg UInt64.toNat (h.anchorAlignment_eq.symm.trans hzero)
  rw [UInt64.toNat_ofNat_of_lt' hlt] at hnat
  exact Nat.ne_of_gt planner.grid.spacing_pos hnat

/-- In an image of the layout, the handle leads to the fields if their stream has an address, and
overflows otherwise: the address of its stream is all that looking it up forms. -/
def Locates (planner : Planner) (ledger : Ledger) (image : Image) (handle : Handle)
    (fields : FieldSet) : Prop :=
  ∃ start target,
    { entry := .stream handle, start := start } ∈ planner.regionPieces ∧
    (planner.grid.base.toNat + start < UInt64.size →
      ∃ address : Address,
        address.toNat = planner.grid.base.toNat + start ∧
        image.streamAddress handle = .ok address ∧
        image.resolve (some handle) = .ok (some address) ∧
        View.Reads { image := image, address := some address } fields ledger target) ∧
    (UInt64.size ≤ planner.grid.base.toNat + start →
      image.streamAddress handle = .error (.fault .overflow) ∧
        image.resolve (some handle) = .error .overflow)

/-- No sum of addresses overflows: the layout is placed, all of its handles are looked up with
views whose accessors settle, and every byte of the image has an address. -/
structure Addressable (planner : Planner) (ledger : Ledger) : Prop where
  placed : ∃ image event, planner.place ledger = .ok (image, event)
  resolved :
    ∀ image event, planner.place ledger = .ok (image, event) →
      ∀ handle ∈ planner.issued, ∃ address,
        image.streamAddress handle = .ok address ∧
          image.resolve (some handle) = .ok (some address) ∧
            View.Settled { image := image, address := some address }
  reached :
    ∀ image event, planner.place ledger = .ok (image, event) →
      ∀ offset < image.size, ∃ address, image.addressOf offset = .ok address

/-- If the last byte of the image has an address, then the image fits. -/
theorem Addressable.fits (h : planner.Addressable ledger) : planner.Fits := by
  obtain ⟨image, event, hplace⟩ := h.placed
  have hshows := shows_place hplace
  have hsize := hshows.size_eq
  rw [Fits]
  by_cases hempty : planner.regionStop = 0
  · rw [hempty]
    exact Nat.le_of_lt planner.grid.base.toNat_lt_size
  · obtain ⟨address, haddress⟩ :=
      h.reached image event hplace (planner.regionStop - 1) (by omega)
    have hnumber := Address.after_eq_ok_iff.mp haddress
    have hlt := address.toNat_lt_size
    rw [hshows.base_eq] at hnumber
    omega

end Planner

/-- Which sums of addresses overflow in a layout and in its image, with a layout that holds what
some calls put there. -/
structure AddressSpace (calls : List Call) (planner : Planner) (ledger : Ledger) : Prop where
  /-- Placing forms the addresses of the targets of anchors, and no others. -/
  placed :
    planner.AnchorsFit planner.regionPieces →
      ∃ image event, planner.place ledger = .ok (image, event)
  overflows :
    ¬ planner.AnchorsFit planner.regionPieces → planner.place ledger = .error .overflow
  located :
    ∀ image event, planner.place ledger = .ok (image, event) →
      ∀ call ∈ calls, ∀ handle, call.handle = some handle →
        planner.Locates ledger image handle call.fields
  /-- The accessors form checked sums, so they settle at every address. -/
  settled :
    ∀ image event, planner.place ledger = .ok (image, event) →
      ∀ address?, View.Settled { image := image, address := address? }
  addressable_iff : planner.Addressable ledger ↔ planner.Fits

namespace Run

variable {calls : List Call} {planner : Planner} {ledger : Ledger}

/-- The handle of a call leads to its fields if its stream has an address, and overflows
otherwise. -/
theorem locates (h : Run calls planner ledger) {image : Image}
    (hshows : planner.Shows image) {call : Call} (hcall : call ∈ calls) {handle : Handle}
    (hhandle : call.handle = some handle) :
    planner.Locates ledger image handle call.fields := by
  have hinv := h.invariant
  obtain ⟨target, hholds⟩ := h.holds_of_handle hcall hhandle
  obtain ⟨start, hpiece⟩ := hinv.exists_stream_piece hholds.mem_issued
  refine ⟨start, target.toNat, hpiece, ?_, ?_⟩
  · rw [← hshows.base_eq]
    intro hlt
    obtain ⟨address, hnumber, hstream, hresolve⟩ := hshows.resolves hinv hpiece hlt
    have hreads :=
      View.Reads.of_standsAt hholds.some_field (hshows.standsAt_stream hholds hpiece) hnumber
        (hshows.start_lt hholds hpiece)
    exact ⟨address, hnumber, hstream, hresolve, hreads⟩
  · rw [← hshows.base_eq]
    exact hshows.overflows hinv hpiece

/-- A layout whose image ends within the address space is placed and looked up without
overflow. -/
theorem addressable (h : Run calls planner ledger) (hfits : planner.Fits) :
    planner.Addressable ledger where
  placed := h.exists_place hfits
  resolved := by
    intro image event hplace handle hissued
    have hinv := h.invariant
    have hshows := Planner.shows_place hplace
    rw [← h.handles_eq] at hissued
    obtain ⟨call, hcall, hhandle⟩ := List.mem_filterMap.mp hissued
    obtain ⟨target, hholds⟩ := h.holds_of_handle hcall hhandle
    obtain ⟨start, _, hpiece, hresolves, -⟩ := h.locates hshows hcall hhandle
    have hlt : planner.grid.base.toNat + start < UInt64.size := by
      have hstart := hshows.start_lt hholds hpiece
      rw [hshows.size_eq] at hstart
      exact Nat.lt_of_lt_of_le (Nat.add_lt_add_left hstart _) hfits
    obtain ⟨address, -, hstream, hresolve, -⟩ := hresolves hlt
    exact
      ⟨address, hstream, hresolve,
        View.settled _ (hshows.anchorAlignment_ne_zero hinv)⟩
  reached := by
    intro image event hplace offset hlt
    have hshows := Planner.shows_place hplace
    obtain ⟨address, haddress, -⟩ := Image.addressOf_eq (hshows.fits_iff.mpr hfits) hlt
    exact ⟨address, haddress⟩

/-- Placing overflows exactly if an anchor has no room or its target no address, and looking up a
handle exactly if its stream has no address; accessors never do.  So everything can be placed and
looked up exactly if the image ends within the address space. -/
theorem address_space (h : Run calls planner ledger) :
    AddressSpace calls planner ledger where
  placed hanchors := by
    obtain ⟨image, hplace⟩ := h.exists_place_of_anchors hanchors
    exact ⟨image, _, hplace⟩
  overflows hanchors := h.invariant.place_eq_overflow hanchors ledger
  located _ _ hplace _ hcall _ hhandle :=
    h.locates (Planner.shows_place hplace) hcall hhandle
  settled _ _ hplace _ :=
    View.settled _ ((Planner.shows_place hplace).anchorAlignment_ne_zero h.invariant)
  addressable_iff := ⟨Planner.Addressable.fits, h.addressable⟩

/-- With two steps of the spacing left, the image of one blob fits. -/
theorem address_space_of_two_steps :
    ∃ calls planner ledger,
      Run calls planner ledger ∧
        planner.grid = { shift := 6, base := 0xFFFFFFFFFFFFFF80 } ∧
          planner.Addressable ledger := by
  have hnew :
      Planner.new { shift := 6, base := 0xFFFFFFFFFFFFFF80 } =
        .ok { grid := { shift := 6, base := 0xFFFFFFFFFFFFFF80 } } :=
    rfl
  have hwrite :
      FieldSet.empty.write
          [⟨{}, .sealedVirtualSlots,
            .outOfLine { id := 0, payload := .bytes [1], alignment := 4 }⟩] =
        .ok _ :=
    rfl
  have hrun := (Run.new hnew {}).call ⟨_, hwrite⟩ [] rfl
  refine ⟨_, _, _, hrun, rfl, hrun.address_space.addressable_iff.mpr ?_⟩
  rw [Planner.Fits]
  decide

-- Evaluating the image takes one step for each of its bytes.
set_option maxRecDepth 2000 in
/-- With one step of the spacing left, a blob is placed, but the handle of its stream has no
address; and the anchor of a second group has none for its target. -/
theorem overflow_of_one_step :
    (∃ calls planner ledger image event handle,
      Run calls planner ledger ∧
        planner.grid = { shift := 6, base := 0xFFFFFFFFFFFFFFC0 } ∧
          planner.place ledger = .ok (image, event) ∧
            handle ∈ planner.issued ∧
              image.streamAddress handle = .error (.fault .overflow) ∧
                image.resolve (some handle) = .error .overflow) ∧
      ∃ calls planner ledger,
        Run calls planner ledger ∧
          planner.grid = { shift := 6, base := 0xFFFFFFFFFFFFFFC0 } ∧
            planner.place ledger = .error .overflow := by
  have hnew :
      Planner.new { shift := 6, base := 0xFFFFFFFFFFFFFFC0 } =
        .ok { grid := { shift := 6, base := 0xFFFFFFFFFFFFFFC0 } } :=
    rfl
  constructor
  · have hwrite :
        FieldSet.empty.write
            [⟨{}, .sealedVirtualSlots,
              .outOfLine { id := 0, payload := .bytes [1], alignment := 4 }⟩] =
          .ok _ :=
      rfl
    have hrun := (Run.new hnew {}).call ⟨_, hwrite⟩ [] rfl
    exact ⟨_, _, _, _, _, { index := 0 }, hrun, rfl, rfl, List.mem_cons_self, rfl, rfl⟩
  · have hfirst :
        FieldSet.empty.write
            (Write.crowded .sealedVirtualSlots
              { id := 0, payload := .fill 1 64, alignment := 4 }) = .ok _ :=
      rfl
    have hsecond :
        FieldSet.empty.write
            (Write.crowded .sealedVirtualSlots
              { id := 1, payload := .bytes [2], alignment := 4 }) = .ok _ :=
      rfl
    have hone := (Run.new hnew {}).call ⟨_, hfirst⟩ [] rfl
    have htwo := hone.call ⟨_, hsecond⟩ [] rfl
    exact ⟨_, _, _, htwo, rfl, rfl⟩

end Run
end AnchoredFields

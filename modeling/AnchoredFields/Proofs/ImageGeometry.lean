import AnchoredFields.Proofs.EncodingRuns
import AnchoredFields.Proofs.ImagePlacing
import AnchoredFields.Proofs.ImageReading

/-!
# Where everything stands in the image of a run

The planner budgets the room of a group without knowing where the group will
start; placing aligns the anchor and never looks at the budget.  The two agree: a
stream with blobs lies in one block of the grid, and its anchor is the one at the
start of that block.

* `Planner.Shows.exists_stream`: the stream of a call is read at its address;
* `Planner.Shows.exists_block`: the block of a stream with blobs;
* `Geometry`, `Run.geometry`: all that holds of the stream region.
-/

namespace AnchoredFields

theorem AnchorGrid.spacing_eq (grid : AnchorGrid) : grid.spacing = 2 ^ grid.shift :=
  Nat.one_shiftLeft grid.shift

namespace Planner

variable {planner : Planner} {ledger : Ledger} {image : Image} {call : Call}
  {handle : Handle} {target : UInt32} {start : Nat}

/-- The stream of a call with fields is not empty. -/
theorem Holds.stream_pos (h : planner.Holds ledger call handle target) :
    0 < (streamFor call.fields ledger target).length := by
  refine List.length_pos_iff.mpr (FieldStream.encode_numbers_ne_nil ?_)
  intro hnil
  have hempty := FieldSet.stored_eq_nil_iff.mp hnil
  rw [h.some_field] at hempty
  cases hempty

theorem Holds.entryBytes_eq (h : planner.Holds ledger call handle target) :
    planner.entryBytes (.stream handle) = streamFor call.fields ledger target := by
  rw [entryBytes, h.stream_eq, Option.getD_some]

theorem Holds.streamSize_eq (h : planner.Holds ledger call handle target) :
    planner.streamSize handle = (streamFor call.fields ledger target).length := by
  rw [streamSize, h.stream_eq, Option.getD_some]

theorem Holds.mem_issued (h : planner.Holds ledger call handle target) :
    handle ∈ planner.issued := by
  obtain ⟨hlt, -⟩ := List.getElem?_eq_some_iff.mp h.stream_eq
  exact mem_issued_iff.mpr hlt

/-- There is a piece for every handle that was given out. -/
theorem Invariant.exists_stream_piece (h : planner.Invariant)
    (hissued : handle ∈ planner.issued) :
    ∃ start, { entry := .stream handle, start := start } ∈ planner.regionPieces := by
  have hfiled := h.filed_perm.mem_iff.mpr hissued
  rw [← handles_regionPieces] at hfiled
  obtain ⟨⟨entry, start⟩, hpiece, hhandle⟩ := List.mem_filterMap.mp hfiled
  cases entry with
  | anchor target =>
      cases hhandle
  | stream other =>
      cases hhandle
      exact ⟨start, hpiece⟩

/-- A handle is looked up where its stream has an address. -/
theorem Shows.resolves (h : planner.Shows image) (hinv : planner.Invariant)
    (hpiece : { entry := .stream handle, start := start } ∈ planner.regionPieces)
    (hlt : image.base.toNat + start < UInt64.size) :
    ∃ address,
      address.toNat = image.base.toNat + start ∧
        image.streamAddress handle = .ok address ∧
          image.resolve (some handle) = .ok (some address) := by
  obtain ⟨address, haddress, hnumber⟩ := Image.exists_addressOf hlt
  refine ⟨address, hnumber, ?_, ?_⟩
  · simp only [Image.streamAddress, h.offset_eq hinv hpiece, haddress, liftM_fault_ok]
  · simp only [Image.resolve, h.offset_eq hinv hpiece, haddress]
    rfl

/-- The stream of a call stands in the image as it was written. -/
theorem Shows.standsAt_stream (h : planner.Shows image)
    (hholds : planner.Holds ledger call handle target)
    (hpiece : { entry := .stream handle, start := start } ∈ planner.regionPieces) :
    StandsAt (streamFor call.fields ledger target) start image.bytes :=
  hholds.entryBytes_eq ▸ h.standsAt hpiece

/-- The stream of a call starts within the image. -/
theorem Shows.start_lt (h : planner.Shows image)
    (hholds : planner.Holds ledger call handle target)
    (hpiece : { entry := .stream handle, start := start } ∈ planner.regionPieces) :
    start < image.size :=
  Nat.lt_of_lt_of_le (Nat.lt_add_of_pos_right hholds.stream_pos)
    (h.standsAt_stream hholds hpiece).stop_le

/-- The stream of a call has an address, and is read there. -/
theorem Shows.exists_stream (h : planner.Shows image) (hinv : planner.Invariant)
    (hfits : image.Fits)
    (hholds : planner.Holds ledger call handle target) :
    ∃ start address,
      { entry := .stream handle, start := start } ∈ planner.regionPieces ∧
      image.resolve (some handle) = .ok (some address) ∧
      address.toNat = image.base.toNat + start ∧
      start + (streamFor call.fields ledger target).length ≤ image.size ∧
      StandsAt (streamFor call.fields ledger target) start image.bytes := by
  obtain ⟨start, hpiece⟩ := hinv.exists_stream_piece hholds.mem_issued
  have hstands := h.standsAt_stream hholds hpiece
  have hlt : image.base.toNat + start < UInt64.size :=
    Nat.lt_of_lt_of_le (Nat.add_lt_add_left (h.start_lt hholds hpiece) _) hfits
  obtain ⟨address, hnumber, -, hresolve⟩ := h.resolves hinv hpiece hlt
  exact ⟨start, address, hpiece, hresolve, hnumber, hstands.stop_le, hstands⟩

/-- Every address within a block of the grid leads to the anchor at the start of the block. -/
theorem Shows.anchorAddress_eq (h : planner.Shows image) (hinv : planner.Invariant)
    {anchor : Nat} (hanchor : planner.grid.spacing ∣ anchor)
    {address : Address}
    (hle : image.base.toNat + anchor ≤ address.toNat)
    (hlt : address.toNat < image.base.toNat + anchor + planner.grid.spacing) :
    ∃ anchorAddress,
      image.anchorAddress address = .ok anchorAddress ∧
        anchorAddress.toNat = image.base.toNat + anchor := by
  have hshift := Nat.lt_trans hinv.grid_valid.shift_lt (by decide : 32 < 64)
  have halignment := h.anchorAlignment_eq
  rw [AnchorGrid.spacing_eq] at halignment
  obtain ⟨anchorAddress, haddress, hnumber⟩ :=
    Image.anchorAddress_eq hshift halignment address
  have hbase : planner.grid.spacing ∣ image.base.toNat := by
    rw [h.base_eq]
    exact hinv.grid_valid.spacing_dvd_base
  refine ⟨anchorAddress, haddress, ?_⟩
  rw [hnumber, ← AnchorGrid.spacing_eq]
  exact alignDown_eq (Nat.dvd_add hbase hanchor) hle hlt

/-- A stream with blobs lies in the block of the anchor that governs it, behind the anchor. -/
theorem Shows.exists_block (h : planner.Shows image) (hinv : planner.Invariant)
    (hholds : planner.Holds ledger call handle target)
    (hblobs : call.fields.blobs ≠ []) :
    ∃ anchor start,
      { entry := .anchor target, start := anchor } ∈ planner.regionPieces ∧
      { entry := .stream handle, start := start } ∈ planner.regionPieces ∧
      anchor + AnchorGrid.anchorSize ≤ start ∧
      ∀ address : Address,
        image.base.toNat + start ≤ address.toNat →
        address.toNat <
          image.base.toNat + start + (streamFor call.fields ledger target).length →
        ∃ anchorAddress,
          image.anchorAddress address = .ok anchorAddress ∧
            anchorAddress.toNat = image.base.toNat + anchor := by
  rcases hholds.filed with ⟨hnone, -⟩ | ⟨-, hgoverns⟩
  · exact absurd hnone hblobs
  · obtain ⟨anchor, start, hanchor, hpiece, hdvd, hbehind, hstop⟩ :=
      hinv.exists_anchor hgoverns planner.regionStart
    rw [hholds.streamSize_eq] at hstop
    refine ⟨anchor, start, hanchor, hpiece, hbehind, ?_⟩
    intro address hle hlt
    exact h.anchorAddress_eq hinv hdvd (by omega) (by omega)

/-- A stream stands at one place only. -/
theorem Shows.start_unique (h : planner.Shows image) (hinv : planner.Invariant)
    {start other : Nat}
    (hstart : { entry := .stream handle, start := start } ∈ planner.regionPieces)
    (hother : { entry := .stream handle, start := other } ∈ planner.regionPieces) :
    start = other := by
  have hoffset := h.offset_eq hinv hstart
  rw [h.offset_eq hinv hother] at hoffset
  exact (Option.some.inj hoffset).symm

/-- The target of every anchor lies within the out-of-line data. -/
theorem Invariant.target_le_of_mem (hinv : planner.Invariant)
    (hmem : StreamEntry.anchor target ∈ planner.regionEntries) :
    target.toNat ≤ planner.outline.length := by
  have hanchored := planner.anchor_mem_anchored hmem
  rw [hinv.anchored_eq] at hanchored
  obtain ⟨group, hgroup, hentry⟩ := List.mem_flatMap.mp hanchored
  rcases List.mem_cons.mp hentry with hanchor | hstream
  · cases hanchor
    exact hinv.target_le group (List.mem_reverse.mp hgroup)
  · obtain ⟨_, _, hstream⟩ := List.mem_map.mp hstream
    cases hstream

/-- An anchor has an address, and is read there as the address of its target. -/
theorem Shows.exists_anchor (h : planner.Shows image) (hinv : planner.Invariant)
    (hfits : image.Fits)
    (hmem : { entry := .anchor target, start := start } ∈ planner.regionPieces) :
    ∃ anchorAddress anchor : Address,
      anchorAddress.toNat = image.base.toNat + start ∧
      image.readAnchor anchorAddress = .ok anchor ∧
      anchor.toNat = image.base.toNat + target.toNat := by
  have htarget := hinv.target_le_of_mem (planner.entry_mem_of_piece hmem)
  have hstands := h.standsAt hmem
  have hstop : start + AnchorGrid.anchorSize ≤ image.size := h.pieceStop_le hmem
  have hstart : planner.regionStart ≤ start := (planner.pieces_bounds hmem).1
  have hfront : planner.outline.length ≤ planner.regionStart :=
    le_alignUp planner.grid.spacing_pos _
  have hpos : 0 < AnchorGrid.anchorSize := by decide
  have hlt : start < image.size := by omega
  have hword : image.base.toNat + target.toNat < UInt64.size :=
    Nat.lt_of_lt_of_le (by omega) hfits
  obtain ⟨anchorAddress, -, hnumber⟩ := Image.addressOf_eq hfits hlt
  rw [entryBytes, ← h.base_eq] at hstands
  obtain ⟨anchor, hread, hanchor⟩ := Image.readAnchor_eq hstands hnumber hword
  exact ⟨anchorAddress, anchor, hnumber, hread, hanchor⟩

/-- The extent of the stream region holds every piece, and zeros between them. -/
theorem Shows.exists_extent (h : planner.Shows image) :
    ∃ extent,
      image.regions .fieldStreams = some extent ∧
      (∀ piece ∈ planner.regionPieces,
        extent.start ≤ piece.start ∧
          planner.pieceStop piece ≤ extent.start + extent.size) ∧
      ∀ i, extent.start ≤ i → i < extent.start + extent.size →
        (∀ piece ∈ planner.regionPieces, i < piece.start ∨ planner.pieceStop piece ≤ i) →
        image.bytes[i]? = some 0 := by
  have hregion := planner.le_endOf planner.regionStart planner.regionEntries
  have hsize :
      planner.regionStart + (planner.regionStop - planner.regionStart) =
        planner.endOf planner.regionStart planner.regionEntries := by
    rw [regionStop]
    omega
  refine ⟨_, h.region_eq, ?_, ?_⟩
  · intro piece hpiece
    rw [hsize]
    exact planner.pieces_bounds hpiece
  · intro i hle hlt hbetween
    rw [hsize] at hlt
    exact h.getElem?_between hle hlt hbetween

/-- All addresses of a stream with blobs are masked to the anchor that governs the stream. -/
theorem Shows.exists_block_of_piece (h : planner.Shows image) (hinv : planner.Invariant)
    (hfits : image.Fits)
    (hholds : planner.Holds ledger call handle target)
    (hblobs : call.fields.blobs ≠ [])
    (hpiece : { entry := .stream handle, start := start } ∈ planner.regionPieces) :
    ∃ place anchorAddress anchor,
      { entry := .anchor target, start := place } ∈ planner.regionPieces ∧
      place + AnchorGrid.anchorSize ≤ start ∧
      anchorAddress.toNat = image.base.toNat + place ∧
      image.readAnchor anchorAddress = .ok anchor ∧
      anchor.toNat = image.base.toNat + target.toNat ∧
      ∀ address : Address,
        image.base.toNat + start ≤ address.toNat →
        address.toNat < image.base.toNat + start + planner.streamSize handle →
        image.anchorAddress address = .ok anchorAddress := by
  obtain ⟨place, other, hanchor, hother, hbehind, hblock⟩ :=
    h.exists_block hinv hholds hblobs
  obtain rfl := h.start_unique hinv hpiece hother
  obtain ⟨anchorAddress, anchor, hnumber, hread, htarget⟩ :=
    h.exists_anchor hinv hfits hanchor
  refine ⟨place, anchorAddress, anchor, hanchor, hbehind, hnumber, hread, htarget, ?_⟩
  intro address hle hlt
  rw [hholds.streamSize_eq] at hlt
  obtain ⟨masked, hmasked, hsame⟩ := hblock address hle hlt
  rw [hmasked, UInt64.toNat_inj.mp (hsame.trans hnumber.symm)]

/-- A stream without blobs ends before every anchor. -/
theorem Shows.stop_le_anchor (h : planner.Shows image) (hinv : planner.Invariant)
    (hholds : planner.Holds ledger call handle target)
    (hblobs : call.fields.blobs = [])
    (hpiece : { entry := .stream handle, start := start } ∈ planner.regionPieces)
    {aim : UInt32} {anchor : Nat}
    (hanchor : { entry := .anchor aim, start := anchor } ∈ planner.regionPieces) :
    start + planner.streamSize handle ≤ anchor := by
  rcases hholds.filed with ⟨-, hmem⟩ | ⟨hsome, -⟩
  · obtain ⟨other, hother, hbefore⟩ :=
      planner.inlineOnly_before_anchors planner.regionStart hmem
    obtain rfl := h.start_unique hinv hpiece hother
    exact hbefore aim anchor hanchor
  · exact absurd hblobs hsome

end Planner

/-- Where the streams of a run and its anchors stand in an image. -/
structure Geometry (calls : List Call) (planner : Planner) (image : Image)
    (pieces : List Piece) : Prop where
  /-- Handles are numbered in the order in which streams are produced. -/
  handles_eq : calls.filterMap Call.handle = (List.range planner.streamCount).map Handle.mk
  /-- What is read at the address of a handle is the stream as it was after the call that
  returned the handle. -/
  stream_read :
    ∀ call ∈ calls, ∀ handle, call.handle = some handle →
      ∃ stream start address,
        call.after.stream handle = some stream ∧
        planner.stream handle = some stream ∧
        { entry := .stream handle, start := start } ∈ pieces ∧
        address.toNat = image.base.toNat + start ∧
        image.resolve (some handle) = .ok (some address) ∧
        image.read address stream.length = .ok stream
  /-- What is read at an anchor is the address of its target. -/
  anchor_read :
    ∀ target start, { entry := .anchor target, start := start } ∈ pieces →
      ∃ address stored,
        address.toNat = image.base.toNat + start ∧
        image.readAnchor address = .ok stored ∧
        stored.toNat = image.base.toNat + target.toNat
  /-- The pieces are all streams and all anchors. -/
  entries_eq :
    pieces.map Piece.entry = planner.inlineOnly.map .stream ++ planner.anchored
  disjoint : pieces.Pairwise fun piece next => planner.pieceStop piece ≤ next.start
  inside :
    ∃ extent,
      image.regions .fieldStreams = some extent ∧
      (∀ piece ∈ pieces,
        extent.start ≤ piece.start ∧
          planner.pieceStop piece ≤ extent.start + extent.size) ∧
      ∀ i, extent.start ≤ i → i < extent.start + extent.size →
        (∀ piece ∈ pieces, i < piece.start ∨ planner.pieceStop piece ≤ i) →
        image.bytes[i]? = some 0
  /-- All addresses of a stream with blobs are masked to the same anchor in front of it. -/
  one_block :
    ∀ call ∈ calls, call.fields.containsOutOfLine = true →
      ∀ handle start, call.handle = some handle →
        { entry := .stream handle, start := start } ∈ pieces →
        ∃ target anchor anchorAddress,
          { entry := .anchor target, start := anchor } ∈ pieces ∧
          anchor + AnchorGrid.anchorSize ≤ start ∧
          anchorAddress.toNat = image.base.toNat + anchor ∧
          ∀ address : Address,
            image.base.toNat + start ≤ address.toNat →
            address.toNat < image.base.toNat + start + planner.streamSize handle →
            image.anchorAddress address = .ok anchorAddress
  /-- A stream without blobs ends before every anchor. -/
  before_anchors :
    ∀ call ∈ calls, call.fields.containsOutOfLine = false →
      ∀ handle start, call.handle = some handle →
        { entry := .stream handle, start := start } ∈ pieces →
        ∀ target anchor, { entry := .anchor target, start := anchor } ∈ pieces →
          start + planner.streamSize handle ≤ anchor

namespace FieldSet

theorem containsOutOfLine_iff {fields : FieldSet} :
    fields.containsOutOfLine = true ↔ fields.blobs ≠ [] := by
  simp [containsOutOfLine]

theorem containsOutOfLine_eq_false_iff {fields : FieldSet} :
    fields.containsOutOfLine = false ↔ fields.blobs = [] := by
  simp [containsOutOfLine]

end FieldSet

namespace Run

variable {calls : List Call} {planner : Planner} {ledger : Ledger} {call : Call}
  {handle : Handle}

/-- Everything is kept of a call that returned a handle. -/
theorem holds_of_handle (h : Run calls planner ledger) (hcall : call ∈ calls)
    (hhandle : call.handle = some handle) :
    ∃ target, planner.Holds ledger call handle target := by
  rcases h.exists_holds hcall with ⟨-, hnone⟩ | ⟨given, target, hholds⟩
  · rw [hnone] at hhandle
    cases hhandle
  · have hgiven : given = handle :=
      Option.some.inj (hholds.handle_eq.symm.trans hhandle)
    exact ⟨target, hgiven ▸ hholds⟩

-- Evaluating the image takes one step for each of its bytes.
set_option maxRecDepth 3000 in
/-- A run of four calls whose image fits: a number of fields with a blob, as many again that need
an anchor of their own, one number, and nothing.  The second blob stands eight bytes behind the
target of the second anchor. -/
theorem exists_four_calls :
    ∃ first second third calls planner ledger image event,
      FieldSet.empty.write
          (Write.crowded .sealedVirtualSlots
            { id := 0, payload := .fill 1 20, alignment := 4 }) = .ok first ∧
      FieldSet.empty.write
          (Write.crowded .genericComposition
            { id := 1, payload := .bytes [1, 2, 3], alignment := 2 }) = .ok second ∧
      FieldSet.empty.write [⟨{}, .nullableValueOffset, .inline 260⟩] = .ok third ∧
      calls.map (fun call => (call.fields, call.handle)) =
        [(first, some { index := 0 }), (second, some { index := 1 }),
          (third, some { index := 2 }), (.empty, none)] ∧
      Run calls planner ledger ∧
      planner.place ledger = .ok (image, event) ∧
      image.Fits ∧
      planner.regionEntries =
        [.stream { index := 2 }, .anchor 0, .stream { index := 0 }, .anchor 16,
          .stream { index := 1 }] ∧
      image.base = 0x10000000 ∧
      image.resolve (some { index := 1 }) = .ok (some 0x100000C8) ∧
      image.anchorAddress 0x100000C8 = .ok 0x100000C0 ∧
      image.readAnchor 0x100000C0 = .ok 0x10000010 ∧
      ledger.placement 1 = some 24 := by
  have hnew : Planner.new { shift := 6 } = .ok { grid := { shift := 6 } } := rfl
  have hfirst :
      FieldSet.empty.write
          (Write.crowded .sealedVirtualSlots
            { id := 0, payload := .fill 1 20, alignment := 4 }) = .ok _ :=
    rfl
  have hsecond :
      FieldSet.empty.write
          (Write.crowded .genericComposition
            { id := 1, payload := .bytes [1, 2, 3], alignment := 2 }) = .ok _ :=
    rfl
  have hthird :
      FieldSet.empty.write [⟨{}, .nullableValueOffset, .inline 260⟩] = .ok _ :=
    rfl
  have hnone : FieldSet.empty.write [] = .ok .empty := rfl
  have hone := (Run.new hnew {}).call ⟨_, hfirst⟩ [] rfl
  have htwo := hone.call ⟨_, hsecond⟩ [] rfl
  have hthree := htwo.call ⟨_, hthird⟩ [] rfl
  have hfour := hthree.call ⟨_, hnone⟩ [] rfl
  refine
    ⟨_, _, _, _, _, _, _, _, hfirst, hsecond, hthird, rfl, hfour, rfl, ?_, rfl, rfl, rfl, rfl,
      rfl, rfl⟩
  rw [Image.Fits]
  decide

/-- What is listed of the calls is said of a call. -/
theorem exists_call {α : Type} {f : Call → α} {calls : List Call} {listed : List α}
    (hlisted : calls.map f = listed) (i : Nat) {a : α} (ha : listed[i]? = some a) :
    ∃ call ∈ calls, f call = a := by
  rw [← hlisted] at ha
  exact List.mem_map.mp (List.mem_of_getElem? ha)

/-- In the image of a run, every stream is where its handle says and as it was when the handle
was given out; streams and anchors share no byte; a stream with blobs lies in one block of the
grid, behind the anchor of the block; the other streams stand in front of all anchors; and the
rest of the region is zero. -/
theorem geometry (h : Run calls planner ledger)
    {image : Image} {event : Event}
    (hplace : planner.place ledger = .ok (image, event))
    (hfits : image.Fits) :
    ∃ pieces, Geometry calls planner image pieces := by
  have hinv := h.invariant
  have hshows := Planner.shows_place hplace
  refine
    ⟨planner.regionPieces,
      { handles_eq := h.handles_eq
        stream_read := ?_
        anchor_read := ?_
        entries_eq := planner.map_entry_pieces _ _
        disjoint := planner.pieces_pairwise _ _
        inside := hshows.exists_extent
        one_block := ?_
        before_anchors := ?_ }⟩
  · intro call hcall handle hhandle
    obtain ⟨target, hholds⟩ := h.holds_of_handle hcall hhandle
    obtain ⟨start, address, hpiece, hresolve, hnumber, hstop, hstands⟩ :=
      hshows.exists_stream hinv hfits hholds
    have hpos := hholds.stream_pos
    have hread := Image.read_eq hstands hnumber (by omega)
    exact
      ⟨_, start, address, hholds.stream_after, hholds.stream_eq, hpiece, hnumber, hresolve,
        hread⟩
  · intro target start hpiece
    exact hshows.exists_anchor hinv hfits hpiece
  · intro call hcall hblobs handle start hhandle hpiece
    obtain ⟨target, hholds⟩ := h.holds_of_handle hcall hhandle
    obtain ⟨place, anchorAddress, -, hanchor, hbehind, hnumber, -, -, hblock⟩ :=
      hshows.exists_block_of_piece hinv hfits hholds
        (FieldSet.containsOutOfLine_iff.mp hblobs) hpiece
    exact ⟨target, place, anchorAddress, hanchor, hbehind, hnumber, hblock⟩
  · intro call hcall hblobs handle start hhandle hpiece aim anchor hanchor
    obtain ⟨target, hholds⟩ := h.holds_of_handle hcall hhandle
    exact
      hshows.stop_le_anchor hinv hholds (FieldSet.containsOutOfLine_eq_false_iff.mp hblobs)
        hpiece hanchor

/-- Of three streams, two stand behind an anchor of their own: the second of them is masked to
an anchor that holds the address of its target. -/
theorem geometry_of_four_calls :
    ∃ calls planner image pieces,
      Geometry calls planner image pieces ∧
        calls.map Call.handle =
          [some { index := 0 }, some { index := 1 }, some { index := 2 }, none] ∧
        pieces.map Piece.entry =
          [.stream { index := 2 }, .anchor 0, .stream { index := 0 }, .anchor 16,
            .stream { index := 1 }] ∧
        ∃ start target anchor address anchorAddress stored,
          { entry := .stream { index := 1 }, start := start } ∈ pieces ∧
          { entry := .anchor target, start := anchor } ∈ pieces ∧
          anchor + AnchorGrid.anchorSize ≤ start ∧
          image.resolve (some { index := 1 }) = .ok (some address) ∧
          image.anchorAddress address = .ok anchorAddress ∧
          image.readAnchor anchorAddress = .ok stored ∧
          stored.toNat = image.base.toNat + target.toNat := by
  obtain ⟨first, second, third, calls, planner, ledger, image, event, -, hsecond, -,
    hlisted, hrun, hplace, hfits, hentries, -⟩ := exists_four_calls
  obtain ⟨pieces, hgeometry⟩ := hrun.geometry hplace hfits
  have hhandles := congrArg (List.map Prod.snd) hlisted
  rw [List.map_map] at hhandles
  obtain ⟨call, hcall, heq⟩ := exists_call hlisted 1 rfl
  obtain ⟨rfl, hhandle⟩ := Prod.mk.inj heq
  have hblobs : call.fields.containsOutOfLine = true := Except.ok.inj hsecond ▸ rfl
  obtain ⟨stream, start, address, -, -, hpiece, hnumber, hresolve, -⟩ :=
    hgeometry.stream_read call hcall _ hhandle
  obtain ⟨target, anchor, anchorAddress, hanchor, hbehind, hplaced, hblock⟩ :=
    hgeometry.one_block call hcall hblobs _ start hhandle hpiece
  obtain ⟨found, stored, hfound, hread, hstored⟩ := hgeometry.anchor_read target anchor hanchor
  obtain rfl : found = anchorAddress := UInt64.toNat_inj.mp (hfound.trans hplaced.symm)
  obtain ⟨aim, hholds⟩ := hrun.holds_of_handle hcall hhandle
  have hpos := hholds.stream_pos
  rw [← hholds.streamSize_eq] at hpos
  exact
    ⟨calls, planner, image, pieces, hgeometry, hhandles, hgeometry.entries_eq.trans hentries,
      start, target, anchor, address, found, stored, hpiece, hanchor, hbehind, hresolve,
      hblock address (by omega) (by omega), hread, hstored⟩

end Run
end AnchoredFields

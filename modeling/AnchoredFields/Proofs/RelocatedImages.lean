import AnchoredFields.Proofs.ImageReading
import AnchoredFields.Proofs.PaddingBytes
import AnchoredFields.Proofs.RelocatedRuns

/-!
# Only anchors need relocation

The same field sets, laid out on grids with different bases, give images that differ
in the slots of the anchors only; and there every address differs by as much as the
bases do.

* `Planner.anchorSlots`: where the anchors stand;
* `Planner.Reachable.length_anchorSlots`: there are as many as the statistics count;
* `Planner.Shows.getElem?_moved`, `Planner.Shows.exists_anchor_words`: the bytes between the
  slots, and the addresses in them;
* `Work.layOut_relocates`: two layouts, from the first call to the image.
-/

namespace AnchoredFields

/-- Where the anchor stands that a piece is. -/
def Piece.anchorStart? (piece : Piece) : Option Nat :=
  match piece.entry with
  | .anchor _ => some piece.start
  | .stream _ => none

namespace Planner

/-- The offsets of the anchors in the image of a layout. -/
def anchorSlots (planner : Planner) : List Nat :=
  planner.regionPieces.filterMap Piece.anchorStart?

theorem mem_anchorSlots_iff {planner : Planner} {slot : Nat} :
    slot ∈ planner.anchorSlots ↔
      ∃ target, { entry := .anchor target, start := slot } ∈ planner.regionPieces := by
  rw [anchorSlots, List.mem_filterMap]
  constructor
  · rintro ⟨⟨entry, start⟩, hmem, hstart⟩
    cases entry with
    | anchor target =>
        cases hstart
        exact ⟨target, hmem⟩
    | stream handle =>
        cases hstart
  · rintro ⟨target, hmem⟩
    exact ⟨_, hmem, rfl⟩

theorem length_anchorStart?_pieces (planner : Planner) (offset : Nat)
    (entries : List StreamEntry) :
    ((planner.pieces offset entries).filterMap Piece.anchorStart?).length =
      (entries.filterMap StreamEntry.target?).length := by
  induction entries generalizing offset with
  | nil =>
      rfl
  | cons entry rest ih =>
      cases entry with
      | anchor target =>
          exact congrArg (· + 1) (ih _)
      | stream handle =>
          exact ih _

/-- The image has as many anchors as the statistics count. -/
theorem Reachable.length_anchorSlots {planner : Planner} (h : planner.Reachable) :
    planner.anchorSlots.length = planner.statistics.anchors := by
  rw [anchorSlots, regionPieces, length_anchorStart?_pieces, regionEntries,
    List.filterMap_append, AnchorGroup.targets_streams, List.nil_append, h.invariant.anchored_eq,
    AnchorGroup.length_targets, List.length_reverse, h.accounted.anchors_eq]

/-! ### The stream region -/

section

variable {planner : Planner} {grid : AnchorGrid} {records : List OutlineRecord}

theorem startAt_moved (hshift : grid.shift = planner.grid.shift) (offset : Nat)
    (entry : StreamEntry) :
    (planner.moved grid records).startAt offset entry = planner.startAt offset entry := by
  cases entry with
  | anchor target =>
      exact congrArg (alignUp · offset) (AnchorGrid.spacing_congr hshift)
  | stream handle =>
      rfl

theorem entrySize_moved (entry : StreamEntry) :
    (planner.moved grid records).entrySize entry = planner.entrySize entry := by
  cases entry <;> rfl

/-- Everything starts at the same offset, whatever the base is. -/
theorem pieces_moved (hshift : grid.shift = planner.grid.shift) (offset : Nat)
    (entries : List StreamEntry) :
    (planner.moved grid records).pieces offset entries = planner.pieces offset entries := by
  induction entries generalizing offset with
  | nil =>
      rfl
  | cons entry rest ih =>
      rw [pieces, pieces, ih, startAt_moved hshift, entrySize_moved]

theorem endOf_moved (hshift : grid.shift = planner.grid.shift) (offset : Nat)
    (entries : List StreamEntry) :
    (planner.moved grid records).endOf offset entries = planner.endOf offset entries := by
  induction entries generalizing offset with
  | nil =>
      rfl
  | cons entry rest ih =>
      rw [endOf, endOf, ih, startAt_moved hshift, entrySize_moved]

theorem regionStart_moved (hshift : grid.shift = planner.grid.shift)
    (records : List OutlineRecord) :
    (planner.moved grid records).regionStart = planner.regionStart :=
  congrArg (alignUp · planner.outline.length) (AnchorGrid.spacing_congr hshift)

theorem regionFront_moved (hshift : grid.shift = planner.grid.shift)
    (records : List OutlineRecord) :
    (planner.moved grid records).regionFront = planner.regionFront :=
  congrArg (fun start => planner.outline ++ List.replicate (start - planner.outline.length) 0)
    (regionStart_moved hshift records)

theorem regionPieces_moved (hshift : grid.shift = planner.grid.shift)
    (records : List OutlineRecord) :
    (planner.moved grid records).regionPieces = planner.regionPieces := by
  rw [regionPieces, regionStart_moved hshift, pieces_moved hshift]
  rfl

theorem regionStop_moved (hshift : grid.shift = planner.grid.shift)
    (records : List OutlineRecord) :
    (planner.moved grid records).regionStop = planner.regionStop := by
  rw [regionStop, regionStart_moved hshift, endOf_moved hshift]
  rfl

variable {image other : Image}

/-- In the stream region, a stream is the same in both images, and so are the zeros. -/
theorem Shows.getElem?_moved_region
    (h : planner.Shows image)
    (h' : (planner.moved grid records).Shows other)
    (hshift : grid.shift = planner.grid.shift)
    {i : Nat}
    (hge : planner.regionStart ≤ i)
    (hin : i < planner.regionStop)
    (hout : ∀ slot ∈ planner.anchorSlots, i < slot ∨ slot + AnchorGrid.anchorSize ≤ i) :
    other.bytes[i]? = image.bytes[i]? := by
  have hpieces := regionPieces_moved hshift records
  have hstart := regionStart_moved hshift records
  have hstop := regionStop_moved hshift records
  by_cases hpiece :
      ∃ piece ∈ planner.regionPieces, piece.start ≤ i ∧ i < planner.pieceStop piece
  · obtain ⟨⟨entry, start⟩, hmem, hle, hlt⟩ := hpiece
    cases entry with
    | anchor target =>
        have hslot := hout start (mem_anchorSlots_iff.mpr ⟨target, hmem⟩)
        change i < start + AnchorGrid.anchorSize at hlt
        change start ≤ i at hle
        omega
    | stream handle =>
        have hbytes := (h.standsAt hmem).getElem?_eq hle hlt
        have hbytes' := (h'.standsAt (hpieces ▸ hmem)).getElem?_eq hle hlt
        rw [hbytes, hbytes']
        rfl
  · have hbetween :
        ∀ piece ∈ planner.regionPieces, i < piece.start ∨ planner.pieceStop piece ≤ i := by
      intro piece hmem
      rcases Nat.lt_or_ge i piece.start with hbefore | hafter
      · exact Or.inl hbefore
      · exact Or.inr (Nat.not_lt.mp fun hlt => hpiece ⟨piece, hmem, hafter, hlt⟩)
    have hbetween' :
        ∀ piece ∈ (planner.moved grid records).regionPieces,
          i < piece.start ∨ (planner.moved grid records).pieceStop piece ≤ i := by
      intro piece hmem
      rw [pieceStop, entrySize_moved]
      exact hbetween piece (hpieces ▸ hmem)
    rw [h.getElem?_between hge hin hbetween,
      h'.getElem?_between (hstart ▸ hge) (hstop ▸ hin) hbetween']

/-- Between the slots of the anchors, the images have equal bytes. -/
theorem Shows.getElem?_moved
    (h : planner.Shows image)
    (h' : (planner.moved grid records).Shows other)
    (hshift : grid.shift = planner.grid.shift)
    {i : Nat}
    (hout : ∀ slot ∈ planner.anchorSlots, i < slot ∨ slot + AnchorGrid.anchorSize ≤ i) :
    other.bytes[i]? = image.bytes[i]? := by
  have hstart := regionStart_moved hshift records
  have hlength := planner.length_regionFront
  have hlength' := (planner.moved grid records).length_regionFront
  rcases Nat.lt_or_ge i planner.regionStart with hlt | hge
  · rw [h.bytes_eq, h'.bytes_eq, regionFront_moved hshift records,
      List.getElem?_append_left (by omega), List.getElem?_append_left (by omega)]
  rcases Nat.lt_or_ge i planner.regionStop with hin | hbehind
  · exact h.getElem?_moved_region h' hshift hge hin hout
  · have hsize := h.size_eq
    have hsize' := h'.size_eq
    rw [regionStop_moved hshift records] at hsize'
    rw [List.getElem?_eq_none (Nat.le_trans (Nat.le_of_eq hsize') hbehind),
      List.getElem?_eq_none (Nat.le_trans (Nat.le_of_eq hsize) hbehind)]

/-- The regions have the same extents. -/
theorem regions_moved {ledger book : Ledger} {event event' : Event}
    (h : planner.place ledger = .ok (image, event))
    (h' : (planner.moved grid records).place book = .ok (other, event'))
    (hshift : grid.shift = planner.grid.shift) :
    other.regions = image.regions := by
  funext region
  cases region with
  | outOfLineData =>
      rw [outline_region_place h, outline_region_place h']
      rfl
  | fieldStreams =>
      rw [(shows_place h).region_eq, (shows_place h').region_eq, regionStop_moved hshift,
        regionStart_moved hshift]

/-- In a slot, every layout has the address of the same target. -/
theorem Shows.exists_anchor_words
    (h : planner.Shows image)
    (h' : (planner.moved grid records).Shows other)
    (hshift : grid.shift = planner.grid.shift)
    (hfits : ∀ target, .anchor target ∈ planner.regionEntries →
      planner.grid.base.toNat + target.toNat < UInt64.size)
    (hfits' : ∀ target, .anchor target ∈ planner.regionEntries →
      grid.base.toNat + target.toNat < UInt64.size)
    {slot : Nat} (hslot : slot ∈ planner.anchorSlots) :
    ∃ value moved : Word .eight,
      Word.decode .eight (image.bytes.drop slot) = .ok (value, AnchorGrid.anchorSize) ∧
        Word.decode .eight (other.bytes.drop slot) = .ok (moved, AnchorGrid.anchorSize) ∧
        (moved.toNat : Int) - value.toNat = grid.base.toNat - planner.grid.base.toNat := by
  obtain ⟨target, hmem⟩ := mem_anchorSlots_iff.mp hslot
  have hentry := planner.entry_mem_of_piece hmem
  have hmem' := hmem
  rw [← regionPieces_moved hshift records] at hmem'
  obtain ⟨value, hvalue, hnumber⟩ :=
    Image.exists_word (h.standsAt hmem) (hfits target hentry)
  obtain ⟨moved, hmoved, hnumber'⟩ :=
    Image.exists_word (h'.standsAt hmem') (hfits' target hentry)
  change moved.toNat = grid.base.toNat + target.toNat at hnumber'
  refine ⟨value, moved, hvalue, hmoved, ?_⟩
  omega

end
end Planner

/-- Two layouts of field sets with equal content, and their images, on grids that differ in
their bases only. -/
structure Relocation (grid grid' : AnchorGrid) (sets copies : List FieldSet)
    (answers answers' : List (Except Error (Option Handle)))
    (bench bench' : Workbench) (image image' : Image) : Prop where
  /-- The same handles are returned, and the same field sets are refused. -/
  answers_eq : answers' = answers
  streams_eq : bench'.planner.streams = bench.planner.streams
  statistics_eq : bench'.planner.statistics = bench.planner.statistics
  /-- The blobs are placed at the same offsets. -/
  offsets_eq :
    (Work.accepted copies answers').map (fun fields => fields.offsets bench'.ledger) =
      (Work.accepted sets answers).map fun fields => fields.offsets bench.ledger
  size_eq : image'.size = image.size
  regions_eq : image'.regions = image.regions
  /-- The streams start at the same offsets. -/
  starts_eq : image'.streams = image.streams
  slots_eq : bench'.planner.anchorSlots = bench.planner.anchorSlots
  slots_length : bench.planner.anchorSlots.length = bench.planner.statistics.anchors
  bytes_eq :
    ∀ i, (∀ slot ∈ bench.planner.anchorSlots, i < slot ∨ slot + AnchorGrid.anchorSize ≤ i) →
      image'.bytes[i]? = image.bytes[i]?
  /-- The addresses in the slots differ by as much as the bases. -/
  words :
    ∀ slot ∈ bench.planner.anchorSlots, ∃ value value' : Word .eight,
      Word.decode .eight (image.bytes.drop slot) = .ok (value, AnchorGrid.anchorSize) ∧
        Word.decode .eight (image'.bytes.drop slot) = .ok (value', AnchorGrid.anchorSize) ∧
        (value'.toNat : Int) - value.toNat = grid'.base.toNat - grid.base.toNat

namespace Work

/-- Placing the layout on a workbench places it with the ledger there. -/
theorem place_apply (bench : Workbench) :
    place bench =
      (guarded (bench.planner.place bench.ledger) >>= fun placed =>
        report placed.2 >>= fun _ => pure placed.1 : Work Image) bench :=
  rfl

theorem place_of_ok {bench : Workbench} {image : Image} {event : Event}
    (h : bench.planner.place bench.ledger = .ok (image, event)) :
    place bench = .ok image { bench with events := bench.events ++ [event] } := by
  rw [place_apply, h]
  rfl

theorem place_of_error {bench : Workbench} {fault : Fault}
    (h : bench.planner.place bench.ledger = .error fault) :
    place bench = .error (.fault fault) bench := by
  rw [place_apply, h]
  rfl

/-- What was laid out was encoded and then placed. -/
theorem layOut_eq_ok_iff
    {sets : List FieldSet} {bench last : Workbench}
    {answers : List (Except Error (Option Handle))} {image : Image} :
    layOut sets bench = .ok (answers, image) last ↔
      ∃ event next,
        attemptAll sets bench = .ok answers next ∧
          next.planner.place next.ledger = .ok (image, event) ∧
          last = { next with events := next.events ++ [event] } := by
  simp only [layOut, bind_apply]
  cases attemptAll sets bench with
  | error failure next =>
      simp
  | ok all next =>
      cases hplaced : next.planner.place next.ledger with
      | error fault =>
          simp only [place_of_error hplaced, reduceCtorEq, false_iff]
          rintro ⟨event, later, hnext, hlater, -⟩
          cases hnext
          rw [hplaced] at hlater
          cases hlater
      | ok result =>
          obtain ⟨picture, event⟩ := result
          simp only [place_of_ok hplaced]
          constructor
          · intro h
            cases h
            exact ⟨event, next, rfl, hplaced, rfl⟩
          · rintro ⟨event', later, hnext, hlater, rfl⟩
            cases hnext
            rw [hplaced] at hlater
            cases hlater
            rfl

/-- Only anchors need relocation.  Field sets with equal content, laid out on two grids with
the same spacing, get the same handles, streams, offsets and statistics; and the images are equal
but for the anchors, whose addresses differ by as much as the bases of the grids. -/
theorem layOut_relocates
    {grid grid' : AnchorGrid} {planner planner' : Planner}
    (hnew : Planner.new grid = .ok planner)
    (hnew' : Planner.new grid' = .ok planner')
    (hshift : grid'.shift = grid.shift)
    {sets copies : List FieldSet}
    (hmade : ∀ fields ∈ sets, fields.Made)
    (hmade' : ∀ fields ∈ copies, fields.Made)
    (hcontents : sets.map FieldSet.contents = copies.map FieldSet.contents)
    {ledger ledger' : Ledger} {events events' : List Event}
    {answers answers' : List (Except Error (Option Handle))} {image image' : Image}
    {last last' : Workbench}
    (h :
      layOut sets { planner := planner, ledger := ledger, events := events } =
        .ok (answers, image) last)
    (h' :
      layOut copies { planner := planner', ledger := ledger', events := events' } =
        .ok (answers', image') last') :
    Relocation grid grid' sets copies answers answers' last last' image image' := by
  obtain ⟨event, next, hall, hplace, rfl⟩ := layOut_eq_ok_iff.mp h
  obtain ⟨event', next', hall', hplace', rfl⟩ := layOut_eq_ok_iff.mp h'
  have hreach := Planner.Reachable.new hnew
  have hreach' := Planner.Reachable.new hnew'
  obtain ⟨-, rfl⟩ := Planner.new_eq_ok_iff.mp hnew
  obtain ⟨-, rfl⟩ := Planner.new_eq_ok_iff.mp hnew'
  obtain ⟨hlast, hextends, -⟩ := kept_attemptAll hreach hmade hall
  obtain ⟨-, hextends', -⟩ := kept_attemptAll hreach' hmade' hall'
  obtain ⟨hanswers, ⟨moved, records, hsame, hmoved⟩, hoffsets⟩ :=
    attemptAll_relocates hreach hreach' hmade hmade' hcontents ⟨grid', [], hshift, rfl⟩ hall hall'
  -- The last layouts are the same but for the grid, which is that of the first layout.
  obtain ⟨planner, book, done⟩ := next
  obtain ⟨planner', book', done'⟩ := next'
  change planner' = planner.moved moved records at hmoved
  subst hmoved
  have hgrid : planner.grid = grid := hextends.grid_eq
  have hgrid' : moved = grid' := hextends'.grid_eq
  subst hgrid hgrid'
  have hshows := Planner.shows_place hplace
  have hshows' := Planner.shows_place hplace'
  have hpieces := Planner.regionPieces_moved hshift records
  have hsize := hshows.size_eq
  have hsize' := hshows'.size_eq
  rw [Planner.regionStop_moved hshift] at hsize'
  refine
    { answers_eq := hanswers
      streams_eq := rfl
      statistics_eq := rfl
      offsets_eq := hoffsets
      size_eq := hsize'.trans hsize.symm
      regions_eq := Planner.regions_moved hplace hplace' hshift
      starts_eq := ?_
      slots_eq := congrArg (List.filterMap Piece.anchorStart?) hpieces
      slots_length := hlast.length_anchorSlots
      bytes_eq := fun i hout => hshows.getElem?_moved hshows' hshift hout
      words := fun slot hslot =>
        hshows.exists_anchor_words hshows' hshift
          (fun target hmem => Planner.target_lt_of_place hplace hmem)
          (fun target hmem => Planner.target_lt_of_place hplace' hmem) hslot }
  rw [hshows.streams_eq, hshows'.streams_eq, hpieces]
  rfl

-- Evaluating the images takes one step for each of their bytes.
set_option maxRecDepth 2000 in
/-- One field set with one blob, laid out at two bases. -/
theorem layOut_relocates_of_one_blob :
    ∃ sets copies answers answers' last last' image image',
      Relocation { shift := 6 } { shift := 6, base := 0x20000000 } sets copies
          answers answers' last last' image image' ∧
        answers = [.ok (some { index := 0 })] ∧
        last.planner.anchorSlots.length = 1 := by
  have hnew : Planner.new { shift := 6 } = .ok { grid := { shift := 6 } } := rfl
  have hnew' :
      Planner.new { shift := 6, base := 0x20000000 } =
        .ok { grid := { shift := 6, base := 0x20000000 } } :=
    rfl
  have hfields :
      FieldSet.empty.write
          [⟨{}, .genericComposition,
            .outOfLine { id := 0, payload := .bytes [1, 2, 3], alignment := 2 }⟩] =
        .ok _ :=
    rfl
  have hcopy :
      FieldSet.empty.write
          [⟨{}, .genericComposition,
            .outOfLine { id := 1, payload := .bytes [1, 2, 3], alignment := 1 }⟩] =
        .ok _ :=
    rfl
  have hfirst :
      layOut
          [FieldSet.mk (FieldSet.empty.slots.set .genericComposition
            { value := .outOfLine { id := 0, payload := .bytes [1, 2, 3], alignment := 2 } })]
          { planner := { grid := { shift := 6 } }, ledger := {} } =
        .ok _ _ :=
    rfl
  have hsecond :
      layOut
          [FieldSet.mk (FieldSet.empty.slots.set .genericComposition
            { value := .outOfLine { id := 1, payload := .bytes [1, 2, 3], alignment := 1 } })]
          { planner := { grid := { shift := 6, base := 0x20000000 } }, ledger := {} } =
        .ok _ _ :=
    rfl
  have hrelocation :=
    layOut_relocates hnew hnew' rfl (List.forall_mem_singleton.mpr ⟨_, hfields⟩)
      (List.forall_mem_singleton.mpr ⟨_, hcopy⟩) (by decide) hfirst hsecond
  have hslots := hrelocation.slots_length
  exact ⟨_, _, _, _, _, _, _, _, hrelocation, rfl, hslots⟩

end Work
end AnchoredFields

import AnchoredFields.Proofs.Anchorage
import AnchoredFields.Proofs.ImagePlacing

/-!
# Layouts with equal blocks

An image does not show handles: the stream region is made of the anchors and of the
bytes of the streams, in order.  Two layouts on the same grid that have the same
out-of-line data and the same blocks are placed into the same image, and the streams
at the same place among the blocks start at the same offset.

* `Planner.placeAnchored_congr`, `Planner.starts_congr`: placing equal blocks;
* `Planner.exists_place_congr`: placing equal layouts;
* `Planner.Shows.map_starts`: where the streams of an image start.
-/

namespace AnchoredFields

/-- The bytes of a block that is a stream. -/
def Block.stream? : Block → Option (List UInt8)
  | .anchor _ => none
  | .stream bytes => some bytes

/-- Where the stream starts that a piece is. -/
def Piece.streamStart? (piece : Piece) : Option Nat :=
  match piece.entry with
  | .anchor _ => none
  | .stream _ => some piece.start

namespace Planner

/-- What the stream region consists of. -/
def regionBlocks (planner : Planner) : List Block :=
  planner.regionEntries.map planner.block

/-- Streams without blobs stand in front of the anchored part. -/
theorem regionBlocks_eq (planner : Planner) :
    planner.regionBlocks =
      (planner.inlineOnly.map planner.stream).map (fun stream => .stream (stream.getD [])) ++
        planner.anchorage.blocks := by
  rw [regionBlocks, regionEntries, List.map_append, List.map_map, List.map_map]
  rfl

variable {planner other : Planner}

/-- Equal blocks are anchors to the same target, or streams of the same bytes. -/
theorem block_eq_cases {entry twin : StreamEntry}
    (h : planner.block entry = other.block twin) :
    (∃ target, entry = .anchor target ∧ twin = .anchor target) ∨
      ∃ handle same,
        entry = .stream handle ∧ twin = .stream same ∧
          (other.stream same).getD [] = (planner.stream handle).getD [] := by
  cases entry with
  | anchor target =>
      cases twin with
      | anchor aim =>
          cases h
          exact Or.inl ⟨target, rfl, rfl⟩
      | stream same =>
          cases h
  | stream handle =>
      cases twin with
      | anchor aim =>
          cases h
      | stream same =>
          exact Or.inr ⟨handle, same, rfl, rfl, (Block.stream.inj h).symm⟩

theorem addAnchor_congr {placed twin next : StreamDraft} {spacing target : Nat}
    (hdraft : twin.draft = placed.draft)
    (hpadding : twin.padding = placed.padding)
    (h : placed.addAnchor spacing target = .ok next) :
    ∃ next',
      twin.addAnchor spacing target = .ok next' ∧
        next'.draft = next.draft ∧ next'.padding = next.padding := by
  unfold StreamDraft.addAnchor at h ⊢
  rw [hdraft, hpadding]
  cases hpad : placed.draft.pad spacing with
  | error fault =>
      rw [hpad] at h
      cases h
  | ok result =>
      obtain ⟨padding, padded⟩ := result
      rw [hpad] at h
      cases haddress : padded.addressOf target with
      | error fault =>
          simp only [bind, Except.bind, haddress] at h
          cases h
      | ok address =>
          simp only [bind, Except.bind, haddress, pure, Except.pure] at h ⊢
          cases h
          exact ⟨_, rfl, rfl, rfl⟩

/-- Equal blocks are placed in the same way. -/
theorem placeAnchored_congr {entries twins : List StreamEntry} {placed twin final : StreamDraft}
    (hgrid : other.grid = planner.grid)
    (hready : other.Ready twin twins)
    (hblocks : entries.map planner.block = twins.map other.block)
    (hdraft : twin.draft = placed.draft)
    (hpadding : twin.padding = placed.padding)
    (h : planner.placeAnchored 0 placed entries = .ok final) :
    ∃ final',
      other.placeAnchored 0 twin twins = .ok final' ∧
        final'.draft = final.draft ∧ final'.padding = final.padding := by
  induction entries generalizing twins placed twin with
  | nil =>
      rw [List.map_nil, eq_comm, List.map_eq_nil_iff] at hblocks
      subst hblocks
      cases h
      exact ⟨twin, rfl, hdraft, hpadding⟩
  | cons entry rest ih =>
      rw [List.map_cons, eq_comm, List.map_eq_cons_iff] at hblocks
      obtain ⟨first, later, rfl, hfirst, hlater⟩ := hblocks
      rcases block_eq_cases hfirst.symm with ⟨target, rfl, rfl⟩ | ⟨handle, same, rfl, rfl, hbytes⟩
      · rw [placeAnchored, Nat.zero_add] at h
        cases hanchor : placed.addAnchor planner.grid.spacing target.toNat with
        | error fault =>
            rw [hanchor] at h
            cases h
        | ok next =>
            rw [hanchor] at h
            obtain ⟨next', hnext, hdraft', hpadding'⟩ := addAnchor_congr hdraft hpadding hanchor
            rw [← hgrid] at hnext
            obtain ⟨final', hfinal, hsame⟩ :=
              ih (hready.of_addAnchor hnext) hlater.symm hdraft' hpadding' h
            refine ⟨final', ?_, hsame⟩
            rw [placeAnchored, Nat.zero_add, hnext]
            exact hfinal
      · rw [placeAnchored] at h
        cases hstream : planner.placeStream placed handle with
        | error fault =>
            rw [hstream] at h
            cases h
        | ok next =>
            rw [hstream] at h
            obtain ⟨-, -, rfl⟩ := placeStream_eq_ok_iff.mp hstream
            have hnext :
                (other.withStream twin same).draft = (planner.withStream placed handle).draft := by
              simp only [withStream, entryBytes, hbytes, hdraft]
            obtain ⟨final', hfinal, hsame⟩ := ih hready.withStream hlater.symm hnext hpadding h
            refine ⟨final', ?_, hsame⟩
            rw [placeAnchored, hready.placeStream_eq]
            exact hfinal

/-- Streams at the same place among equal blocks start at the same offset. -/
theorem starts_congr {entries twins : List StreamEntry}
    (hgrid : other.grid = planner.grid)
    (hblocks : entries.map planner.block = twins.map other.block)
    (offset : Nat) :
    (other.pieces offset twins).filterMap Piece.streamStart? =
      (planner.pieces offset entries).filterMap Piece.streamStart? := by
  induction entries generalizing twins offset with
  | nil =>
      rw [List.map_nil, eq_comm, List.map_eq_nil_iff] at hblocks
      rw [hblocks]
      rfl
  | cons entry rest ih =>
      rw [List.map_cons, eq_comm, List.map_eq_cons_iff] at hblocks
      obtain ⟨first, later, rfl, hfirst, hlater⟩ := hblocks
      rcases block_eq_cases hfirst.symm with ⟨target, rfl, rfl⟩ | ⟨handle, same, rfl, rfl, hbytes⟩
      · rw [pieces, pieces, startAt, startAt, hgrid]
        exact ih hlater.symm _
      · have hsize : other.streamSize same = planner.streamSize handle :=
          congrArg List.length hbytes
        rw [pieces, pieces, entrySize, entrySize, hsize]
        exact congrArg (offset :: ·) (ih hlater.symm (offset + planner.streamSize handle))

/-- A layout with equal blocks is placed into an equal image. -/
theorem exists_place_congr {ledger book : Ledger} {image : Image} {event : Event}
    (hinv : other.Invariant)
    (hgrid : other.grid = planner.grid)
    (houtline : other.outline = planner.outline)
    (hblocks : planner.regionBlocks = other.regionBlocks)
    (hpadding : other.statistics.paddingBytes = planner.statistics.paddingBytes)
    (hrecords : other.recordsAgree book = true)
    (h : planner.place ledger = .ok (image, event)) :
    ∃ image' event',
      other.place book = .ok (image', event') ∧
        image'.base = image.base ∧
        image'.anchorAlignment = image.anchorAlignment ∧
        image'.bytes = image.bytes ∧
        image'.regions = image.regions := by
  obtain ⟨placed, hplaced, henough, -, rfl, -⟩ := place_eq_ok_iff.mp h
  obtain ⟨fields, hfront, hentries⟩ := placeRegions_eq_ok_iff.mp hplaced
  have hfront' : other.frontDraft = .ok fields := by
    rw [← hfront, frontDraft, frontDraft, hgrid, houtline]
  let start (count : Nat) : StreamDraft :=
    { draft := fields, offsets := List.replicate count 0 }
  have hdraft : (start other.streamCount).draft = (start planner.streamCount).draft := rfl
  have hready : other.Ready (start other.streamCount) other.regionEntries := by
    refine hinv.ready ?_
    rw [hgrid]
    exact (frontDraft_eq_ok hfront).1
  obtain ⟨placed', hentries', hdraft, hfilled⟩ :=
    placeAnchored_congr hgrid hready hblocks hdraft rfl hentries
  have hplaced' : other.placeRegions = .ok placed' :=
    placeRegions_eq_ok_iff.mpr ⟨fields, hfront', hentries'⟩
  refine
    ⟨_, _, place_eq_ok_iff.mpr ⟨placed', hplaced', ?_, hrecords, rfl, rfl⟩, ?_⟩
  · rw [hpadding, hfilled]
    exact henough
  · rw [hdraft, hgrid]
    exact ⟨rfl, rfl, rfl, rfl⟩

/-- The streams of an image start where their pieces do. -/
theorem Shows.map_starts {image : Image} (h : planner.Shows image) (hinv : planner.Invariant) :
    planner.filed.map (fun handle => image.streams[handle.index]?) =
      (planner.regionPieces.filterMap Piece.streamStart?).map some := by
  rw [← handles_regionPieces, List.map_filterMap, List.map_filterMap]
  refine List.filterMap_congr ?_
  rintro ⟨entry, start⟩ hmem
  cases entry with
  | anchor target =>
      rfl
  | stream handle =>
      exact congrArg some (h.offset_eq hinv hmem)

/-- The streams among entries are those among the blocks that the entries consist of. -/
theorem Invariant.map_stream_handles (hinv : planner.Invariant) {entries : List StreamEntry}
    (hfiled : ∀ handle, .stream handle ∈ entries → handle ∈ planner.filed) :
    (entries.filterMap StreamEntry.handle?).map planner.stream =
      ((entries.map planner.block).filterMap Block.stream?).map some := by
  rw [List.filterMap_map, List.map_filterMap, List.map_filterMap]
  refine List.filterMap_congr ?_
  intro entry hmem
  cases entry with
  | anchor target =>
      rfl
  | stream handle =>
      have hlt := hinv.index_lt (hfiled handle hmem)
      show some (planner.stream handle) = some (some ((planner.stream handle).getD []))
      rw [stream, List.getElem?_eq_getElem hlt]
      rfl

/-- The streams of a layout are those of its blocks, in the order in which they are filed. -/
theorem Invariant.map_stream_filed (hinv : planner.Invariant) :
    planner.filed.map planner.stream =
      (planner.regionBlocks.filterMap Block.stream?).map some := by
  rw [← handles_regionEntries, regionBlocks]
  refine hinv.map_stream_handles ?_
  intro handle hmem
  rw [← handles_regionEntries]
  exact List.mem_filterMap.mpr ⟨_, hmem, rfl⟩

end Planner
end AnchoredFields

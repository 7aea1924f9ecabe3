import AnchoredFields.Proofs.CallStreams
import AnchoredFields.Proofs.Counters
import AnchoredFields.Proofs.PlacingReturns

/-!
# Field sets without blobs do not interfere

Two runs whose calls with blobs have equal content, in order, and whose calls without
blobs do too, come to the same layout however the two kinds are interleaved: only
handles are numbered differently.  Calls without blobs can even be left out without
any effect on the others.

* `Run.sameAnchored`: runs with equal calls with blobs;
* `Run.sameLayout`: runs with equal calls of both kinds;
* `Run.exists_alone`: a run of the calls with blobs alone;
* `Run.inline_only_calls`: all of this together.
-/

namespace AnchoredFields

/-- Where the stream of a call starts in an image. -/
def Image.startOf (image : Image) (call : Call) : Option Nat :=
  call.handle.bind fun handle => image.streams[handle.index]?

/-- What two lists agree on point by point, they agree on. -/
theorem map_eq_map_of {α β γ δ ε : Type} {xs : List α} {ys : List β}
    {f : α → γ} {f' : β → γ} {g : α → δ} {g' : β → δ} {k : α → ε} {k' : β → ε}
    (hf : xs.map f = ys.map f')
    (hg : xs.map g = ys.map g')
    (hk : ∀ x y, f x = f' y → g x = g' y → k x = k' y) :
    xs.map k = ys.map k' := by
  induction xs generalizing ys with
  | nil =>
      rw [List.map_nil, eq_comm, List.map_eq_nil_iff] at hf
      rw [hf]
      rfl
  | cons x xs ih =>
      rw [List.map_cons, eq_comm, List.map_eq_cons_iff] at hf
      obtain ⟨y, ys, rfl, hhead, htail⟩ := hf
      rw [List.map_cons, List.map_cons, List.cons.injEq] at hg
      rw [List.map_cons, List.map_cons, hk x y hhead.symm hg.1, ih htail.symm hg.2]

/-- Calls for field sets with equal content, one by one. -/
def SameContents (calls others : List Call) : Prop :=
  calls.map (fun call => call.fields.contents) = others.map fun call => call.fields.contents

namespace SameContents

variable {calls others : List Call}

/-- The blobs of equal calls have equal bytes, call by call. -/
theorem map_blobs (h : SameContents calls others) :
    calls.map (fun call => call.fields.blobs.map fun entry => (entry.1, entry.2.data)) =
      others.map fun call => call.fields.blobs.map fun entry => (entry.1, entry.2.data) :=
  map_eq_map_of h h fun _ _ hsame _ => FieldSet.blobs_congr hsame

/-- Equal calls set every tag equally often. -/
theorem countP_tag (h : SameContents calls others) (tag : Tag) :
    (calls.countP fun call => (call.fields.get tag).isSome) =
      others.countP fun call => (call.fields.get tag).isSome := by
  have hset :
      calls.map (fun call => (call.fields.get tag).isSome) =
        others.map fun call => (call.fields.get tag).isSome :=
    map_eq_map_of h h fun _ _ hsame _ => FieldSet.isSome_get_congr hsame tag
  have hcount := congrArg (List.countP id) hset
  rwa [List.countP_map, List.countP_map] at hcount

/-- Calls of both kinds that are equal set every tag equally often, however they are
interleaved. -/
theorem countP_tag_kinds
    (hanchored : SameContents (outOfLineCalls calls) (outOfLineCalls others))
    (hinline : SameContents (inlineCalls calls) (inlineCalls others))
    (tag : Tag) :
    (calls.countP fun call => (call.fields.get tag).isSome) =
      others.countP fun call => (call.fields.get tag).isSome := by
  have hsome :
      ∀ call : Call, (call.fields.get tag).isSome = true → call.fields.isEmpty = false := by
    intro call hset
    refine Bool.eq_false_iff.mpr ?_
    intro hempty
    have hmem := FieldSet.mem_tags_iff.mpr hset
    rw [FieldSet.isEmpty_iff.mp hempty] at hmem
    cases hmem
  rw [countP_kinds calls hsome, countP_kinds others hsome, hanchored.countP_tag,
    hinline.countP_tag]

end SameContents

/-- Two runs whose calls with blobs come out in the same way. -/
structure SameAnchored
    (calls : List Call) (planner : Planner) (ledger : Ledger)
    (others : List Call) (other : Planner) (book : Ledger) : Prop where
  streams_eq :
    (outOfLineCalls others).map other.streamOf = (outOfLineCalls calls).map planner.streamOf
  offsets_eq :
    (outOfLineCalls others).map (fun call => call.fields.offsets book) =
      (outOfLineCalls calls).map fun call => call.fields.offsets ledger
  /-- The anchors have the same targets, and the same streams behind them. -/
  blocks_eq : other.anchored.map other.block = planner.anchored.map planner.block
  anchors_eq : other.statistics.anchors = planner.statistics.anchors
  padding_eq : other.statistics.paddingBytes = planner.statistics.paddingBytes
  outline_eq : other.outline = planner.outline
  outlineBytes_eq : other.statistics.outlineBytes = planner.statistics.outlineBytes

/-- Two runs that come to the same layout, but for the numbering of the handles. -/
structure SameLayout
    (calls : List Call) (planner : Planner) (ledger : Ledger)
    (others : List Call) (other : Planner) (book : Ledger) : Prop
    extends SameAnchored calls planner ledger others other book where
  inline_eq :
    (inlineCalls others).map other.streamOf = (inlineCalls calls).map planner.streamOf
  statistics_eq : other.statistics = planner.statistics
  /-- If one of the layouts can be placed, then so can the other one, into an equal image. -/
  image_eq :
    ∀ image event, planner.place ledger = .ok (image, event) →
      ∃ image' event',
        other.place book = .ok (image', event') ∧
          image'.base = image.base ∧
          image'.anchorAlignment = image.anchorAlignment ∧
          image'.bytes = image.bytes ∧
          image'.regions = image.regions ∧
          (inlineCalls others ++ outOfLineCalls others).map image'.startOf =
            (inlineCalls calls ++ outOfLineCalls calls).map image.startOf
  /-- There is such an image if it ends within the address space. -/
  placed :
    planner.Fits → ∃ image event, planner.place ledger = .ok (image, event)

namespace Planner

/-- The streams in the order in which they are filed are those in the order of the handles. -/
theorem Invariant.streams_perm {planner : Planner} (hinv : planner.Invariant) :
    planner.streams.Perm (planner.regionBlocks.filterMap Block.stream?) := by
  have hfiled := hinv.filed_perm.map planner.stream
  rw [hinv.map_stream_filed, planner.map_stream_issued] at hfiled
  have hstreams := (hfiled.filterMap id).symm
  rwa [List.filterMap_map, List.filterMap_map, Function.id_comp, List.filterMap_some,
    List.filterMap_some] at hstreams

end Planner

namespace Run

variable {calls others : List Call} {planner other : Planner} {ledger book : Ledger}

/-- The placements of runs with equal calls with blobs say the same. -/
theorem exists_payload_congr (h : Run calls planner ledger) (h' : Run others other book)
    (hcontents : SameContents (outOfLineCalls calls) (outOfLineCalls others)) :
    ∃ placements twins,
      Outlined calls planner ledger placements ∧
        Outlined others other book twins ∧
        placements.map Placement.payload = twins.map Placement.payload := by
  obtain ⟨placements, houtlined⟩ := h.exists_outlined
  obtain ⟨twins, houtlined'⟩ := h'.exists_outlined
  have htags :
      ∀ entry ∈ calls.flatMap fun call => call.fields.blobs,
        ∃ a, entry.1.alignment? = some a := by
    intro entry hentry
    obtain ⟨call, hcall, hblob⟩ := List.mem_flatMap.mp hentry
    exact (h.made hcall).exists_alignment entry hblob
  have hdata :
      (calls.flatMap fun call => call.fields.blobs).map (fun entry => (entry.1, entry.2.data)) =
        (others.flatMap fun call => call.fields.blobs).map
          fun entry => (entry.1, entry.2.data) := by
    rw [← flatMap_blobs_outOfLineCalls calls, ← flatMap_blobs_outOfLineCalls others,
      List.map_flatMap, List.map_flatMap, List.flatMap_def, List.flatMap_def,
      hcontents.map_blobs]
  have hplaced := Placement.ofBlobs_congr htags hdata 0
  rw [houtlined.ofBlobs_eq h, houtlined'.ofBlobs_eq h'] at hplaced
  exact ⟨placements, twins, houtlined, houtlined', Except.ok.inj hplaced⟩

/-- Equal calls with blobs make equal out-of-line data. -/
theorem outline_congr (h : Run calls planner ledger) (h' : Run others other book)
    (hcontents : SameContents (outOfLineCalls calls) (outOfLineCalls others)) :
    planner.outline = other.outline := by
  obtain ⟨placements, twins, houtlined, houtlined', hpayload⟩ :=
    h.exists_payload_congr h' hcontents
  rw [houtlined.outline_eq, houtlined'.outline_eq, Placement.bytesFrom_congr hpayload]

/-- Equal calls with blobs have their blobs at equal offsets. -/
theorem offsets_congr (h : Run calls planner ledger) (h' : Run others other book)
    (hcontents : SameContents (outOfLineCalls calls) (outOfLineCalls others)) :
    (outOfLineCalls calls).map (fun call => call.fields.offsets ledger) =
      (outOfLineCalls others).map fun call => call.fields.offsets book := by
  obtain ⟨placements, twins, houtlined, houtlined', hpayload⟩ :=
    h.exists_payload_congr h' hcontents
  rw [List.eq_iff_flatten_eq, houtlined.flatten_offsets, houtlined'.flatten_offsets]
  constructor
  · exact Placement.offsets_congr hpayload
  · have hlengths := congrArg (List.map List.length) hcontents.map_blobs
    simp only [List.map_map, Function.comp_def, List.length_map, FieldSet.offsets] at hlengths ⊢
    exact hlengths

/-- Runs with equal calls with blobs come to the same anchored part. -/
theorem anchorage_congr (h : Run calls planner ledger) (h' : Run others other book)
    (hgrid : other.grid = planner.grid)
    (hcontents : SameContents (outOfLineCalls calls) (outOfLineCalls others)) :
    planner.anchorage = other.anchorage := by
  have hdemands :
      (outOfLineCalls calls).map (fun call => call.fields.demand ledger) =
        (outOfLineCalls others).map fun call => call.fields.demand book :=
    map_eq_map_of hcontents (h.offsets_congr h' hcontents)
      fun _ _ hsame hoffsets => FieldSet.demand_congr hsame hoffsets
  rw [h.anchorage_eq, h'.anchorage_eq, hdemands, hgrid]

/-- Runs with equal calls with blobs do the same with them, whatever other calls they have. -/
theorem sameAnchored (h : Run calls planner ledger) (h' : Run others other book)
    (hgrid : other.grid = planner.grid)
    (hcontents : SameContents (outOfLineCalls calls) (outOfLineCalls others)) :
    SameAnchored calls planner ledger others other book := by
  have houtline := h.outline_congr h' hcontents
  have hanchorage := h.anchorage_congr h' hgrid hcontents
  exact
    { streams_eq := by
        rw [h.map_streamOf_outOfLineCalls, h'.map_streamOf_outOfLineCalls, hanchorage]
      offsets_eq := (h.offsets_congr h' hcontents).symm
      blocks_eq := congrArg Anchorage.blocks hanchorage.symm
      anchors_eq := congrArg Anchorage.anchors hanchorage.symm
      padding_eq := congrArg Anchorage.padding hanchorage.symm
      outline_eq := houtline.symm
      outlineBytes_eq := by rw [h.outlineBytes_eq, h'.outlineBytes_eq, houtline] }

/-- Runs with equal calls without blobs make the same streams of them. -/
theorem inline_congr (h : Run calls planner ledger) (h' : Run others other book)
    (hcontents : SameContents (inlineCalls calls) (inlineCalls others)) :
    (inlineCalls others).map other.streamOf = (inlineCalls calls).map planner.streamOf := by
  have hmade :
      (inlineCalls calls).map (fun call => some (Planner.streamFor call.fields {} 0)) =
        (inlineCalls others).map fun call => some (Planner.streamFor call.fields {} 0) :=
    map_eq_map_of hcontents hcontents fun _ _ hsame _ => by
      rw [Planner.streamFor_congr hsame (FieldSet.offsets_empty_congr hsame)]
  rw [List.map_congr_left fun _ hcall => h.streamOf_eq_of_no_blobs hcall, hmade,
    List.map_congr_left fun _ hcall => h'.streamOf_eq_of_no_blobs hcall]

/-- Runs with equal streams of both kinds fill the stream region with equal blocks. -/
theorem regionBlocks_congr (h : Run calls planner ledger) (h' : Run others other book)
    (hanchored : SameAnchored calls planner ledger others other book)
    (hinline :
      (inlineCalls others).map other.streamOf = (inlineCalls calls).map planner.streamOf) :
    planner.regionBlocks = other.regionBlocks := by
  rw [planner.regionBlocks_eq, other.regionBlocks_eq, ← h.map_streamOf_inlineCalls,
    ← h'.map_streamOf_inlineCalls, hinline]
  exact congrArg (_ ++ ·) hanchored.blocks_eq.symm

/-- Runs with equal calls of both kinds count the same. -/
theorem statistics_congr (h : Run calls planner ledger) (h' : Run others other book)
    (hsame : SameAnchored calls planner ledger others other book)
    (hblocks : planner.regionBlocks = other.regionBlocks)
    (htags :
      ∀ tag,
        (calls.countP fun call => (call.fields.get tag).isSome) =
          others.countP fun call => (call.fields.get tag).isSome) :
    other.statistics = planner.statistics := by
  have hstreams : other.streams.Perm planner.streams := by
    refine h'.invariant.streams_perm.trans ?_
    rw [← hblocks]
    exact h.invariant.streams_perm.symm
  refine Statistics.ext ?_ ?_ ?_ hsame.anchors_eq hsame.padding_eq hsame.outlineBytes_eq
  · rw [h.counted.streams_eq, h'.counted.streams_eq]
    exact hstreams.length_eq
  · funext tag
    rw [h.counted.tagCount_eq, h'.counted.tagCount_eq, htags]
  · funext b
    rw [h.counted.sizeCount_eq, h'.counted.sizeCount_eq]
    exact hstreams.countP_eq _

/-- The streams of an image, kind by kind, start where the pieces of the stream region do. -/
theorem map_startOf (h : Run calls planner ledger) {image : Image} {event : Event}
    (hplace : planner.place ledger = .ok (image, event)) :
    (inlineCalls calls ++ outOfLineCalls calls).map image.startOf =
      (planner.regionPieces.filterMap Piece.streamStart?).map some := by
  have hhandles :
      (inlineCalls calls ++ outOfLineCalls calls).map Call.handle = planner.filed.map some := by
    obtain ⟨hinline, hanchored⟩ := h.map_handle_eq
    rw [List.map_append, hinline, hanchored, ← List.map_append]
    rfl
  rw [← (Planner.shows_place hplace).map_starts h.invariant]
  exact map_bind_handle hhandles fun handle => image.streams[handle.index]?

/-- Runs with equal blocks in the stream region are placed into equal images. -/
theorem exists_image_congr (h : Run calls planner ledger) (h' : Run others other book)
    (hgrid : other.grid = planner.grid)
    (hsame : SameAnchored calls planner ledger others other book)
    (hblocks : planner.regionBlocks = other.regionBlocks)
    {image : Image} {event : Event}
    (hplace : planner.place ledger = .ok (image, event)) :
    ∃ image' event',
      other.place book = .ok (image', event') ∧
        image'.base = image.base ∧
        image'.anchorAlignment = image.anchorAlignment ∧
        image'.bytes = image.bytes ∧
        image'.regions = image.regions ∧
        (inlineCalls others ++ outOfLineCalls others).map image'.startOf =
          (inlineCalls calls ++ outOfLineCalls calls).map image.startOf := by
  obtain ⟨image', event', hplace', hbase, halignment, hbytes, hregions⟩ :=
    Planner.exists_place_congr h'.invariant hgrid hsame.outline_eq hblocks hsame.padding_eq
      h'.recordsAgree hplace
  have hstart : other.regionStart = planner.regionStart := by
    rw [Planner.regionStart, Planner.regionStart, hgrid, hsame.outline_eq]
  refine ⟨image', event', hplace', hbase, halignment, hbytes, hregions, ?_⟩
  rw [h.map_startOf hplace, h'.map_startOf hplace', Planner.regionPieces, Planner.regionPieces,
    hstart, Planner.starts_congr hgrid hblocks]

/-- Runs with equal calls of both kinds come to the same layout, however the kinds are
interleaved. -/
theorem sameLayout (h : Run calls planner ledger) (h' : Run others other book)
    (hgrid : other.grid = planner.grid)
    (hanchored : SameContents (outOfLineCalls calls) (outOfLineCalls others))
    (hinline : SameContents (inlineCalls calls) (inlineCalls others)) :
    SameLayout calls planner ledger others other book := by
  have hsame := h.sameAnchored h' hgrid hanchored
  have hstreams := h.inline_congr h' hinline
  have hblocks := h.regionBlocks_congr h' hsame hstreams
  exact
    { hsame with
      inline_eq := hstreams
      statistics_eq := h.statistics_congr h' hsame hblocks (hanchored.countP_tag_kinds hinline)
      image_eq := fun image event hplace =>
        h.exists_image_congr h' hgrid hsame hblocks hplace
      placed := h.exists_place }

/-- The calls with blobs can be made alone, on the same ledger. -/
theorem exists_alone (h : Run calls planner ledger) :
    ∃ kept alone,
      Run kept alone ledger ∧
        kept.map Call.fields = (outOfLineCalls calls).map Call.fields ∧
        outOfLineCalls kept = kept ∧
        alone.grid = planner.grid ∧
        alone.outline = planner.outline := by
  induction h using outcome_induction with
  | new grid ledger hvalid hrun =>
      exact ⟨[], _, hrun, rfl, rfl, rfl, rfl⟩
  | meanwhile calls planner ledger later hbefore hledger hrun ih =>
      obtain ⟨kept, alone, hkept, hothers⟩ := ih
      exact ⟨kept, alone, hkept.meanwhile hledger, hothers⟩
  | skipped calls planner ledger fields hbefore hempty call hrun ih =>
      rw [outOfLineCalls_append_of_no_blobs (FieldSet.blobs_eq_nil_of_isEmpty hempty)]
      exact ih
  | inlineOnly calls planner ledger fields hbefore hsome hblobs next call hrun ih =>
      rw [outOfLineCalls_append_of_no_blobs hblobs]
      exact ih
  | admitted calls planner ledger fields first rest hbefore hsome hfields hfresh
      placed next call hrun ih =>
      obtain ⟨kept, alone, hkept, hsame, hall, hgrid, houtline⟩ := ih
      have hblobs := hfields.blobs_ne_nil
      -- The blobs go to the same places, because the out-of-line data are the same.
      have halone : alone.Placeable fields (first :: rest) := hfields.of_outline_eq houtline
      have hplaced := halone.placements_eq hkept.invariant
      let bench : Workbench := { planner := alone, ledger := ledger }
      have hinv : bench.planner.Invariant := hkept.invariant
      obtain ⟨events, hcall⟩ := Work.encode_fresh hinv hplaced halone hfresh
      refine ⟨_, _, hkept.call hfields.made [] hcall, ?_, ?_, ?_, ?_⟩
      · rw [outOfLineCalls_append_of_blobs hblobs, List.map_append, List.map_append, hsame]
        rfl
      · rw [outOfLineCalls_append_of_blobs hblobs, hall]
      · exact (halone.extends_admitted placed first.offset).grid_eq.trans
          (hgrid.trans (hfields.extends_admitted placed first.offset).grid_eq.symm)
      · have hlater := (hfields.outline_admitted placed first.offset).1
        have hlater' := (halone.outline_admitted placed first.offset).1
        rw [houtline, ← hlater] at hlater'
        exact hlater'

/-- Calls without blobs do not interfere.  Another run on the same grid whose calls with blobs
have equal content does the same with them, whatever else either run encodes and in whichever
order; if the other calls have equal content too, both runs come to the same layout.  And the
calls with blobs of a run, made alone, come out as they did in the run. -/
theorem inline_only_calls (h : Run calls planner ledger) :
    (∀ others other book, Run others other book →
      other.grid = planner.grid →
      SameContents (outOfLineCalls calls) (outOfLineCalls others) →
      SameAnchored calls planner ledger others other book ∧
        (SameContents (inlineCalls calls) (inlineCalls others) →
          SameLayout calls planner ledger others other book)) ∧
      ∃ kept alone,
        Run kept alone ledger ∧
          kept.map Call.fields = (outOfLineCalls calls).map Call.fields ∧
          SameAnchored calls planner ledger kept alone ledger := by
  refine ⟨?_, ?_⟩
  · intro others other book h' hgrid hanchored
    exact ⟨h.sameAnchored h' hgrid hanchored, h.sameLayout h' hgrid hanchored⟩
  · obtain ⟨kept, alone, hkept, hfields, hall, hgrid, -⟩ := h.exists_alone
    refine ⟨kept, alone, hkept, hfields, h.sameAnchored hkept hgrid ?_⟩
    have hcontents := congrArg (List.map FieldSet.contents) hfields
    rw [List.map_map, List.map_map] at hcontents
    rw [hall]
    exact hcontents.symm

/-- A number and a blob, in either order. -/
theorem inline_only_calls_of_two_orders :
    ∃ calls planner ledger others other book,
      SameLayout calls planner ledger others other book ∧
        (outOfLineCalls calls).map Call.handle = [some ⟨1⟩] ∧
        (outOfLineCalls others).map Call.handle = [some ⟨0⟩] ∧
        ∃ kept alone,
          kept.length = 1 ∧ SameAnchored calls planner ledger kept alone ledger := by
  have hnew : Planner.new { shift := 6 } = .ok { grid := { shift := 6 } } := rfl
  have hnumber :
      FieldSet.empty.write [⟨{}, .nullableValueOffset, .inline 260⟩] = .ok _ :=
    rfl
  have hblob :
      FieldSet.empty.write
          [⟨{}, .genericComposition,
            .outOfLine { id := 0, payload := .bytes [1, 2, 3], alignment := 2 }⟩] = .ok _ :=
    rfl
  have hcopy :
      FieldSet.empty.write
          [⟨{}, .genericComposition,
            .outOfLine { id := 5, payload := .bytes [1, 2, 3], alignment := 4 }⟩] = .ok _ :=
    rfl
  have hfirst := (Run.new hnew {}).call ⟨_, hnumber⟩ [] rfl
  have hrun := hfirst.call ⟨_, hblob⟩ [] rfl
  have hfirst' := (Run.new hnew {}).call ⟨_, hcopy⟩ [] rfl
  have hrun' := hfirst'.call ⟨_, hnumber⟩ [] rfl
  obtain ⟨hothers, kept, alone, -, hkept, hsame⟩ := hrun.inline_only_calls
  obtain ⟨-, hlayout⟩ := hothers _ _ _ hrun' rfl (by rw [SameContents]; decide)
  have hlayout := hlayout (by rw [SameContents]; decide)
  refine ⟨_, _, _, _, _, _, hlayout, rfl, rfl, kept, alone, ?_, hsame⟩
  rw [← List.length_map (f := Call.fields), hkept]
  rfl

end Run
end AnchoredFields

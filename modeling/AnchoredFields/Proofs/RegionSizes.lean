import AnchoredFields.Proofs.CallStreams
import AnchoredFields.Proofs.PlacingReturns

/-!
# The size of the stream region

The statistics count anchors and padding before any byte is placed.  What is placed is
nothing but the streams, the anchors and the padding, and of the padding only the zeros in
front of the first anchor are not counted: so the size of the region can be told from the
statistics and the streams.  It can also be told from the groups, because all of them but
the last one fill the grid.

* `Planner.endOf_eq`: entries end behind their bytes and their padding;
* `Planner.Invariant.sum_loads`: what the groups hold, and what they leave;
* `Run.regionStop_eq`: where the region of a run ends;
* `Run.region_sizes`: the image of a run.
-/

namespace AnchoredFields

/-- Behind a multiple, the next multiple is as far away as behind zero. -/
theorem alignUp_add_left {a n : Nat} (ha : 0 < a) (hdvd : a ∣ n) (m : Nat) :
    alignUp a (n + m) = n + alignUp a m := by
  obtain ⟨k, rfl⟩ := hdvd
  rw [alignUp, alignUp, Nat.add_assoc, Nat.mul_add_div ha, Nat.add_mul, Nat.mul_comm a k]

namespace Planner

/-! ### Bytes and padding -/

section

variable (planner : Planner)

/-- Entries end behind all their bytes and the padding in front of their anchors. -/
theorem endOf_eq (offset : Nat) (entries : List StreamEntry) :
    planner.endOf offset entries =
      offset + planner.paddingFrom offset entries + (entries.map planner.entrySize).sum := by
  induction entries generalizing offset with
  | nil =>
      rfl
  | cons entry rest ih =>
      have hstart := planner.le_startAt offset entry
      rw [endOf, ih, paddingFrom, List.map_cons, List.sum_cons]
      omega

/-- The bytes of entries are those of their anchors and of their streams. -/
theorem sum_entrySize (entries : List StreamEntry) :
    (entries.map planner.entrySize).sum =
      (entries.filterMap StreamEntry.target?).length * AnchorGrid.anchorSize +
        ((entries.filterMap StreamEntry.handle?).map planner.streamSize).sum := by
  induction entries with
  | nil =>
      rfl
  | cons entry rest ih =>
      rw [List.map_cons, List.sum_cons, ih]
      cases entry with
      | anchor target =>
          simp [List.filterMap_cons, entrySize, Nat.succ_mul]
          omega
      | stream handle =>
          simp [List.filterMap_cons, entrySize, Nat.add_left_comm]

/-- The bytes of the streams of calls. -/
def streamBytes (calls : List Call) : Nat :=
  (calls.map fun call => ((planner.streamOf call).getD []).length).sum

/-- The zeros between the streams that need no anchor, of so many bytes, and the first anchor. -/
def leadBytes (front : Nat) : Nat :=
  if planner.statistics.anchors = 0 then 0 else alignUp planner.grid.spacing front - front

/-- The size of the stream region, as the statistics and the streams of the calls tell it. -/
def tallied (calls : List Call) : Nat :=
  planner.streamBytes (inlineCalls calls) +
    planner.leadBytes (planner.streamBytes (inlineCalls calls)) +
      planner.statistics.anchorBytes + planner.streamBytes (outOfLineCalls calls) +
        planner.statistics.paddingBytes

variable {planner}

/-- The streams of calls are as large as the streams under the handles of the calls. -/
theorem streamBytes_eq {calls : List Call} {handles : List Handle}
    (h : calls.map Call.handle = handles.map some) :
    planner.streamBytes calls = (handles.map planner.streamSize).sum := by
  have hstreams := map_bind_handle h planner.stream
  have hsizes := congrArg (List.map fun stream => (stream.getD []).length) hstreams
  rw [List.map_map, List.map_map] at hsizes
  exact congrArg List.sum hsizes

end

/-! ### Groups -/

namespace Invariant

variable {planner : Planner}

/-- The streams behind anchors are those of the groups, in order. -/
theorem handles_anchored (h : planner.Invariant) :
    planner.anchored.filterMap StreamEntry.handle? =
      planner.groups.reverse.flatMap AnchorGroup.handles := by
  rw [h.anchored_eq, List.filterMap_flatMap]
  exact congrArg (planner.groups.reverse.flatMap ·) (funext AnchorGroup.handles_entries)

/-- The anchored streams are as large as what the groups hold. -/
theorem sum_streamSize (h : planner.Invariant) :
    ((planner.anchored.filterMap StreamEntry.handle?).map planner.streamSize).sum =
      (planner.groups.map planner.load).sum := by
  rw [h.handles_anchored, List.map_flatMap, List.flatMap_def, List.sum_flatten, List.map_map,
    List.map_reverse, List.sum_reverse]
  rfl

/-- What groups hold and what they leave is all that they have room for. -/
theorem sum_loads (h : planner.Invariant) {groups : List AnchorGroup}
    (hgroups : groups ⊆ planner.groups) :
    (groups.map planner.load).sum + (groups.map planner.waste).sum =
      groups.length * (planner.grid.spacing - AnchorGrid.anchorSize) := by
  induction groups with
  | nil =>
      exact (Nat.zero_mul _).symm
  | cons group rest ih =>
      have hload := h.load_le group (hgroups List.mem_cons_self)
      have hrest := ih fun next hnext => hgroups (List.mem_cons_of_mem _ hnext)
      rw [List.map_cons, List.map_cons, List.sum_cons, List.sum_cons, List.length_cons,
        Nat.succ_mul, ← hrest, waste]
      omega

end Invariant

/-- The bytes behind the streams that need no anchor, if there are groups: all groups but the
last one reach to the next place of the grid. -/
theorem Reachable.groups_size {planner : Planner} (h : planner.Reachable) {latest : AnchorGroup}
    {older : List AnchorGroup} (hgroups : planner.groups = latest :: older) :
    planner.statistics.anchorBytes + (planner.groups.map planner.load).sum +
        planner.statistics.paddingBytes =
      (planner.statistics.anchors - 1) * planner.grid.spacing + AnchorGrid.anchorSize +
        planner.load latest := by
  have hinv := h.invariant
  -- Only the older groups count as closed: the room of the latest one may be left unused.
  have holder : older ⊆ planner.groups := by
    rw [hgroups]
    exact List.subset_cons_self latest older
  have hsums := hinv.sum_loads holder
  have hspacing := hinv.grid_valid.stream_fits
  have hsplit :
      older.length * planner.grid.spacing =
        older.length * (planner.grid.spacing - AnchorGrid.anchorSize) +
          older.length * AnchorGrid.anchorSize := by
    rw [← Nat.mul_add, Nat.sub_add_cancel (by omega)]
  rw [Statistics.anchorBytes, h.accounted.anchors_eq, h.accounted.padding_eq, closedWaste, hgroups,
    List.tail_cons, List.map_cons, List.sum_cons, List.length_cons, Nat.succ_mul,
    Nat.add_sub_cancel, hsplit]
  omega

end Planner

/-! ### Runs -/

/-- The image of a run, by the sizes of its parts. -/
structure RegionSizes (calls : List Call) (planner : Planner) (ledger : Ledger)
    (image : Image) (event : Event) : Prop where
  /-- No stream is missing from the sizes. -/
  kept :
    ∀ call ∈ calls, call.handle ≠ none → ∃ stream, planner.streamOf call = some stream
  /-- The region starts at the first place of the grid that is not within the out-of-line data,
  and consists of the streams, the anchors and the padding. -/
  region_eq :
    ∃ start,
      image.regions .fieldStreams = some { start := start, size := planner.tallied calls } ∧
        planner.grid.spacing ∣ start ∧
          planner.statistics.outlineBytes ≤ start ∧
            ∀ n, planner.grid.spacing ∣ n → planner.statistics.outlineBytes ≤ n → start ≤ n
  /-- The image ends with the region. -/
  size_eq :
    ∀ extent, image.regions .fieldStreams = some extent → image.size = extent.start + extent.size
  /-- All groups but the latest one reach to the next place of the grid. -/
  latest_eq :
    0 < planner.statistics.anchors →
      ∃ latest older,
        planner.groups = latest :: older ∧
          planner.tallied calls =
            alignUp planner.grid.spacing (planner.streamBytes (inlineCalls calls)) +
              (planner.statistics.anchors - 1) * planner.grid.spacing + AnchorGrid.anchorSize +
                planner.load latest
  /-- The padding that was placed is what the statistics count and what stands in front of the
  first anchor. -/
  event_eq :
    event =
      .imagePlaced planner.streamCount (planner.streamCount - planner.inlineOnly.length)
        planner.records.length planner.statistics.anchors
        (planner.leadBytes (planner.streamBytes (inlineCalls calls)) +
          planner.statistics.paddingBytes)
        planner.statistics.outlineBytes
  records_eq : ∀ record ∈ planner.records, ledger.offset? record.blob = some record.offset

namespace Run

variable {calls : List Call} {planner : Planner} {ledger : Ledger}

/-- The streams that need no anchor stand at the start of the region. -/
theorem endOf_inlineOnly (h : Run calls planner ledger) :
    planner.endOf planner.regionStart (planner.inlineOnly.map .stream) =
      planner.regionStart + planner.streamBytes (inlineCalls calls) := by
  rw [Planner.endOf_streams, Planner.streamBytes_eq h.map_handle_eq.1]

/-- The streams with blobs are what the groups hold. -/
theorem streamBytes_outOfLineCalls (h : Run calls planner ledger) :
    planner.streamBytes (outOfLineCalls calls) = (planner.groups.map planner.load).sum := by
  rw [Planner.streamBytes_eq h.map_handle_eq.2, h.invariant.sum_streamSize]

/-- The padding in the region is what the statistics count and what stands in front of the first
anchor. -/
theorem paddingFrom_eq (h : Run calls planner ledger) :
    planner.paddingFrom planner.regionStart planner.regionEntries =
      planner.leadBytes (planner.streamBytes (inlineCalls calls)) +
        planner.statistics.paddingBytes := by
  have haccounted := h.reachable.accounted
  have hstart : planner.grid.spacing ∣ planner.regionStart := dvd_alignUp _ _
  rw [h.reachable.paddingFrom_regionEntries, h.endOf_inlineOnly, Planner.leadBytes,
    haccounted.anchors_eq]
  by_cases hgroups : planner.groups = []
  · rw [if_pos hgroups, if_pos (List.length_eq_zero_iff.mpr hgroups), haccounted.padding_eq,
      Planner.closedWaste, hgroups]
    rfl
  · rw [if_neg hgroups, if_neg (mt List.length_eq_zero_iff.mp hgroups),
      alignUp_add_left planner.grid.spacing_pos hstart, Nat.add_sub_add_left]

/-- The region ends behind all that the statistics and the streams tell. -/
theorem regionStop_eq (h : Run calls planner ledger) :
    planner.regionStop = planner.regionStart + planner.tallied calls := by
  have hanchors :
      (planner.anchored.filterMap StreamEntry.target?).length = planner.statistics.anchors := by
    rw [h.invariant.anchored_eq, AnchorGroup.length_targets, List.length_reverse,
      h.reachable.accounted.anchors_eq]
  have hsum := planner.sum_entrySize planner.anchored
  rw [hanchors, h.invariant.sum_streamSize, ← h.streamBytes_outOfLineCalls] at hsum
  have hinline := planner.endOf_eq planner.regionStart (planner.inlineOnly.map .stream)
  rw [h.endOf_inlineOnly, Planner.paddingFrom_streams] at hinline
  rw [Planner.regionStop, Planner.endOf_eq, h.paddingFrom_eq, Planner.regionEntries,
    List.map_append, List.sum_append, hsum, Planner.tallied, Statistics.anchorBytes]
  omega

/-- With anchors, the region is as large as the groups make it. -/
theorem tallied_of_anchors (h : Run calls planner ledger)
    (hanchors : 0 < planner.statistics.anchors) :
    ∃ latest older,
      planner.groups = latest :: older ∧
        planner.tallied calls =
          alignUp planner.grid.spacing (planner.streamBytes (inlineCalls calls)) +
            (planner.statistics.anchors - 1) * planner.grid.spacing + AnchorGrid.anchorSize +
              planner.load latest := by
  have hne : planner.groups ≠ [] := by
    rw [h.reachable.accounted.anchors_eq] at hanchors
    exact List.ne_nil_of_length_pos hanchors
  obtain ⟨latest, older, hgroups⟩ := List.exists_cons_of_ne_nil hne
  have hsize := h.reachable.groups_size hgroups
  have hup :=
    le_alignUp planner.grid.spacing_pos (planner.streamBytes (inlineCalls calls))
  refine ⟨latest, older, hgroups, ?_⟩
  rw [Planner.tallied, Planner.leadBytes, if_neg (Nat.pos_iff_ne_zero.mp hanchors),
    h.streamBytes_outOfLineCalls]
  omega

/-- The image fits if what the statistics and the streams tell fits. -/
theorem fits_of_tallied (h : Run calls planner ledger)
    (hfits :
      planner.grid.base.toNat +
          (alignUp planner.grid.spacing planner.statistics.outlineBytes +
            planner.tallied calls) ≤ UInt64.size) :
    planner.Fits := by
  rw [Planner.Fits, h.regionStop_eq, Planner.regionStart, ← h.outlineBytes_eq]
  exact hfits

/-- The layout of a run whose image fits is placed, with a stream region of the size that the
statistics and the streams tell. -/
theorem region_sizes (h : Run calls planner ledger)
    (hfits :
      planner.grid.base.toNat +
          (alignUp planner.grid.spacing planner.statistics.outlineBytes +
            planner.tallied calls) ≤ UInt64.size) :
    ∃ image event,
      planner.place ledger = .ok (image, event) ∧
        RegionSizes calls planner ledger image event := by
  have hstart :
      planner.regionStart = alignUp planner.grid.spacing planner.statistics.outlineBytes := by
    rw [Planner.regionStart, h.outlineBytes_eq]
  have hstop := h.regionStop_eq
  obtain ⟨image, hplace⟩ := h.exists_place_padding (h.fits_of_tallied hfits)
  have hshows := Planner.shows_place hplace
  have hregion :
      image.regions .fieldStreams =
        some { start := planner.regionStart, size := planner.tallied calls } := by
    rw [hshows.region_eq, hstop, Nat.add_sub_cancel_left]
  refine ⟨image, _, hplace, ?_⟩
  exact
    { kept := fun call hcall hsome => h.exists_streamOf hcall hsome
      region_eq :=
        ⟨planner.regionStart, hregion, dvd_alignUp _ _,
          hstart ▸ le_alignUp planner.grid.spacing_pos _,
          fun n hdvd hle => hstart ▸ alignUp_le planner.grid.spacing_pos hdvd hle⟩
      size_eq := by
        intro extent hextent
        rw [hregion, Option.some.injEq] at hextent
        rw [hshows.size_eq, hstop, ← hextent]
      latest_eq := h.tallied_of_anchors
      event_eq := by rw [h.paddingFrom_eq]
      records_eq := by
        intro record hrecord
        have hagree := h.recordsAgree
        rw [Planner.recordsAgree, List.all_eq_true] at hagree
        exact beq_iff_eq.mp (hagree record hrecord) }

/-- The region of three streams, one in front of all anchors and two behind one anchor each. -/
theorem region_sizes_of_two_groups :
    ∃ calls planner ledger image event,
      RegionSizes calls planner ledger image event ∧
        planner.statistics.anchors = 2 ∧
          planner.tallied calls = 168 := by
  obtain ⟨calls, planner, ledger, hrun, hgrid, hanchors, hpadding, houtline, -, hinline,
    houtOfLine⟩ := exists_two_groups
  have hfront : planner.streamBytes (inlineCalls calls) = 3 := congrArg List.sum hinline
  have hbehind : planner.streamBytes (outOfLineCalls calls) = 64 := congrArg List.sum houtOfLine
  have htallied : planner.tallied calls = 168 := by
    rw [Planner.tallied, Planner.leadBytes, Statistics.anchorBytes, hfront, hbehind, hanchors,
      hpadding, hgrid]
    rfl
  have hfits :
      planner.grid.base.toNat +
          (alignUp planner.grid.spacing planner.statistics.outlineBytes +
            planner.tallied calls) ≤ UInt64.size := by
    rw [htallied, hgrid, houtline]
    decide
  obtain ⟨image, event, -, hsizes⟩ := hrun.region_sizes hfits
  exact ⟨calls, planner, ledger, image, event, hsizes, hanchors, htallied⟩

end Run
end AnchoredFields

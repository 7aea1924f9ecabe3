import Mathlib.Algebra.BigOperators.Fin
import AnchoredFields.Proofs.Counters
import AnchoredFields.Proofs.GreedyGroups
import AnchoredFields.Proofs.RelocatedImages

/-!
# Statistics after any history

Field sets are encoded one after the other, and some of them may be refused.  A refused call
leaves nothing behind, so a history leads to the layout of its other calls.  There, every
counter of the statistics is what can be counted in the layout itself: streams as they are
decoded, anchors as they are placed, and the room that closed groups leave.

* `History.exists_run`: a history leads to where the run of its accepted calls leads;
* `Run.tagCount_eq`, `Run.sizeCount_eq`: the tags and the sizes of the streams of a run;
* `Run.narrow`: the counters are no larger than the words that hold them;
* `History.exact_statistics`: every counter after any history.
-/

namespace AnchoredFields

/-! ### Histories -/

/-- A field set that was given to `encode`, and the answer. -/
structure Attempt where
  fields : FieldSet
  answer : Except Error (Option Handle)

namespace Attempt

/-- The call that an attempt was, unless it was refused. -/
def accepted? (attempt : Attempt) : Option (FieldSet × Option Handle) :=
  match attempt.answer with
  | .ok handle => some (attempt.fields, handle)
  | .error _ => none

/-- Whether the answer is the handle of a stream. -/
def stores (attempt : Attempt) : Bool :=
  match attempt.answer with
  | .ok (some _) => true
  | _ => false

end Attempt

/-- Attempts to encode field sets, and the layout and the ledger that they lead to; other layouts
may place blobs in between. -/
inductive History : List Attempt → Planner → Ledger → Prop
  | new
      {grid : AnchorGrid} {planner : Planner}
      (hnew : Planner.new grid = .ok planner)
      (ledger : Ledger) :
      History [] planner ledger
  | meanwhile
      {attempts : List Attempt} {planner : Planner} {ledger later : Ledger}
      (hbefore : History attempts planner ledger)
      (hledger : ledger.Extends later) :
      History attempts planner later
  | attempt
      {attempts : List Attempt} {planner : Planner} {ledger : Ledger}
      {fields : FieldSet} {answer : Except Error (Option Handle)} {next : Workbench}
      (hbefore : History attempts planner ledger)
      (hmade : fields.Made)
      (events : List Event)
      (hattempt :
        Work.attempt fields { planner := planner, ledger := ledger, events := events } =
          .ok answer next) :
      History (attempts ++ [{ fields := fields, answer := answer }]) next.planner next.ledger

/-- A history leads to where the run of its accepted calls leads. -/
theorem History.exists_run {attempts : List Attempt} {planner : Planner} {ledger : Ledger}
    (h : History attempts planner ledger) :
    ∃ calls,
      Run calls planner ledger ∧
        calls.map (fun call => (call.fields, call.handle)) =
          attempts.filterMap Attempt.accepted? := by
  induction h with
  | new hnew ledger =>
      exact ⟨[], .new hnew ledger, rfl⟩
  | meanwhile hbefore hledger ih =>
      obtain ⟨calls, hrun, hcalls⟩ := ih
      exact ⟨calls, hrun.meanwhile hledger, hcalls⟩
  | @attempt attempts planner ledger fields answer next hbefore hmade events hattempt ih =>
      obtain ⟨calls, hrun, hcalls⟩ := ih
      have hinv : (Workbench.mk planner ledger events).planner.Invariant := hrun.invariant
      obtain ⟨-, ⟨handle, rfl, hcall⟩ | ⟨rfl, rfl⟩⟩ := Work.attempt_eq_ok hinv hmade hattempt
      · refine ⟨_, hrun.call hmade events hcall, ?_⟩
        rw [List.map_append, List.filterMap_append, hcalls]
        rfl
      · refine ⟨calls, hrun, ?_⟩
        rw [List.filterMap_append, hcalls]
        exact (List.append_nil _).symm

/-- The attempts that were answered with a handle are the calls that returned one. -/
theorem countP_stores {attempts : List Attempt} {calls : List Call}
    (h :
      calls.map (fun call => (call.fields, call.handle)) =
        attempts.filterMap Attempt.accepted?) :
    attempts.countP Attempt.stores = (calls.filterMap Call.handle).length := by
  have hhandles : (calls.map fun call => (call.fields, call.handle)).filterMap Prod.snd =
      calls.filterMap Call.handle := by
    rw [List.filterMap_map]
    rfl
  rw [← hhandles, h, List.filterMap_filterMap, List.length_filterMap_eq_countP]
  refine List.countP_congr ?_
  rintro ⟨fields, answer⟩ -
  rcases answer with error | _ | handle <;> simp [Attempt.stores, Attempt.accepted?]

/-! ### Tags and sizes of streams -/

/-- Whether a stream can be decoded, with a tag among its fields. -/
def FieldStream.hasTag (tag : Tag) (stream : List UInt8) : Bool :=
  match FieldStream.decode (fun _ => Varint.decode) stream with
  | .ok fields => fields.any fun field => field.1 = tag
  | .error _ => false

namespace Planner

variable {fields : FieldSet}

theorem decode_streamFor (hsome : fields.isEmpty = false) (ledger : Ledger) (target : UInt32) :
    FieldStream.decode (fun _ => Varint.decode) (streamFor fields ledger target) =
      .ok (fields.stored ledger target.toNat) := by
  have hne : fields.stored ledger target.toNat ≠ [] := by
    intro hnil
    rw [FieldSet.stored_eq_nil_iff.mp hnil] at hsome
    cases hsome
  have hdecode :=
    FieldStream.decode_encode_append
      (FieldStream.readsBack_numbers (fields.stored ledger target.toNat)) hne []
  rwa [List.append_nil] at hdecode

/-- The tags in the stream of a field set are those that are set. -/
theorem hasTag_streamFor (hsome : fields.isEmpty = false) (ledger : Ledger) (target : UInt32)
    (tag : Tag) :
    FieldStream.hasTag tag (streamFor fields ledger target) = (fields.get tag).isSome := by
  rw [FieldStream.hasTag, decode_streamFor hsome, Bool.eq_iff_iff, ← FieldSet.mem_tags_iff]
  simp [FieldSet.stored, List.mem_map]

end Planner

/-- Numbers below a bound, counted one by one, are as many as there are. -/
theorem sum_countP_eq_length {α : Type} {n : Nat} (f : α → Fin n) (xs : List α) :
    ((List.finRange n).map fun b => xs.countP fun x => f x = b).sum = xs.length := by
  rw [← Fin.sum_univ_def]
  induction xs with
  | nil =>
      simp
  | cons x rest ih =>
      simp [List.countP_cons, Finset.sum_add_distrib, ih]

/-- The counters are no larger than the words that hold them: 32 bits for what is counted, 64 bits
for bytes. -/
structure Statistics.Narrow (statistics : Statistics) : Prop where
  streams : statistics.streams < UInt32.size
  tagCount : ∀ tag, statistics.tagCount tag < UInt32.size
  sizeCount : ∀ b, statistics.sizeCount b < UInt32.size
  anchors : statistics.anchors < UInt32.size
  paddingBytes : statistics.paddingBytes < UInt64.size
  outlineBytes : statistics.outlineBytes < UInt64.size

/-- Bucket `b` is that of size `b + 1`, and the last bucket that of all larger sizes too. -/
theorem Statistics.bucket_eq_iff {size : Nat} (hpos : 0 < size) (b : Fin sizeBuckets) :
    bucket size = b ↔ size = b.val + 1 ∨ b.val + 1 = sizeBuckets ∧ sizeBuckets ≤ size := by
  have hcount : sizeBuckets = 8 := rfl
  have hlt := b.isLt
  rw [Fin.ext_iff, bucket_val]
  omega

namespace Run

variable {calls : List Call} {planner : Planner} {ledger : Ledger}

/-- Every stream of a layout is that of a call. -/
theorem exists_holds_stream (h : Run calls planner ledger) {stream : List UInt8}
    (hstream : stream ∈ planner.streams) :
    ∃ call handle target,
      planner.Holds ledger call handle target ∧
        stream = Planner.streamFor call.fields ledger target := by
  rw [← h.filterMap_streamOf] at hstream
  obtain ⟨call, hcall, hof⟩ := List.mem_filterMap.mp hstream
  rcases h.exists_holds hcall with ⟨-, hnone⟩ | ⟨handle, target, hholds⟩
  · rw [Planner.streamOf_of_none hnone] at hof
    cases hof
  · rw [hholds.streamOf_eq] at hof
    exact ⟨call, handle, target, hholds, (Option.some.inj hof).symm⟩

/-- A tag is counted once for every stream that it is decoded from. -/
theorem tagCount_eq (h : Run calls planner ledger) (tag : Tag) :
    planner.statistics.tagCount tag = planner.streams.countP (FieldStream.hasTag tag) := by
  rw [h.counted.tagCount_eq, ← h.filterMap_streamOf, List.countP_filterMap]
  refine List.countP_congr ?_
  intro call hcall
  rcases h.exists_holds hcall with ⟨hempty, hnone⟩ | ⟨handle, target, hholds⟩
  · have hget : call.fields.get tag = none :=
      (Slots.isEmpty_iff call.fields.slots).mp hempty tag
    rw [Planner.streamOf_of_none hnone, hget]
    rfl
  · rw [hholds.streamOf_eq, Option.map_some, Option.getD_some,
      Planner.hasTag_streamFor hholds.some_field]

/-- A bucket counts the streams of its size, and the last one all larger ones too. -/
theorem sizeCount_eq (h : Run calls planner ledger) (b : Fin Statistics.sizeBuckets) :
    planner.statistics.sizeCount b =
      planner.streams.countP fun stream =>
        stream.length = b.val + 1 ∨
          b.val + 1 = Statistics.sizeBuckets ∧ Statistics.sizeBuckets ≤ stream.length := by
  rw [h.counted.sizeCount_eq]
  refine List.countP_congr ?_
  intro stream hstream
  obtain ⟨call, handle, target, hholds, rfl⟩ := h.exists_holds_stream hstream
  rw [decide_eq_true_iff, decide_eq_true_iff]
  exact Statistics.bucket_eq_iff hholds.stream_pos b

theorem sum_sizeCount (h : Run calls planner ledger) :
    ((List.finRange Statistics.sizeBuckets).map planner.statistics.sizeCount).sum =
      planner.streamCount := by
  have hcounts :
      planner.statistics.sizeCount =
        fun b => planner.streams.countP fun stream => Statistics.bucket stream.length = b :=
    funext h.counted.sizeCount_eq
  have hsum :=
    sum_countP_eq_length (fun stream : List UInt8 => Statistics.bucket stream.length)
      planner.streams
  rw [hcounts, hsum, Planner.streamCount]

/-- There are no more anchors than streams. -/
theorem anchors_le (h : Run calls planner ledger) :
    planner.statistics.anchors ≤ planner.streamCount := by
  obtain ⟨groups, hgreedy, hgroups⟩ := h.exists_groups
  have hanchors : planner.statistics.anchors = groups.length :=
    congrArg Anchorage.anchors hgroups
  have hfiled : (outOfLineCalls calls).length ≤ planner.filed.length := by
    rw [← List.length_map (f := Call.handle), h.map_handle_eq.2, List.length_map,
      Planner.filed, List.length_append]
    exact Nat.le_add_left _ _
  have hissued : planner.filed.length = planner.streamCount := by
    rw [h.invariant.filed_perm.length_eq, Planner.issued, List.length_map, List.length_range]
  have hlength := hgreedy.length_le
  omega

/-- Closed groups leave at most 53 bytes each. -/
theorem paddingBytes_le_anchors (h : Run calls planner ledger) :
    planner.statistics.paddingBytes ≤
      (planner.statistics.anchors - 1) * (FieldStream.maxSize - 1) := by
  obtain ⟨groups, hgreedy, hgroups⟩ := h.exists_groups
  have hpadding :
      planner.statistics.paddingBytes =
        (groups.tail.map fun group =>
          planner.grid.spacing - AnchorGrid.anchorSize - group.load ledger).sum :=
    congrArg Anchorage.padding hgroups
  have hanchors : planner.statistics.anchors = groups.length :=
    congrArg Anchorage.anchors hgroups
  rw [hpadding, hanchors]
  exact hgreedy.sum_waste_le

/-- The counters of fewer than `2 ^ 32` streams fit. -/
theorem narrow (h : Run calls planner ledger) (hcount : planner.streamCount < UInt32.size) :
    planner.statistics.Narrow := by
  have hanchors := Nat.lt_of_le_of_lt h.anchors_le hcount
  have hpadding : planner.statistics.paddingBytes < UInt64.size := by
    have hle := h.paddingBytes_le_anchors
    have hmax : FieldStream.maxSize - 1 = 53 := rfl
    rw [hmax] at hle
    simp only [UInt32.size, UInt64.size] at hanchors ⊢
    omega
  exact
    { streams := h.counted.streams_eq ▸ hcount
      tagCount := by
        intro tag
        rw [h.tagCount_eq]
        exact Nat.lt_of_le_of_lt List.countP_le_length hcount
      sizeCount := by
        intro b
        rw [h.sizeCount_eq]
        exact Nat.lt_of_le_of_lt List.countP_le_length hcount
      anchors := hanchors
      paddingBytes := hpadding
      outlineBytes := by
        rw [h.outlineBytes_eq]
        exact Nat.lt_of_le_of_lt h.invariant.outline_le (by decide) }

end Run

/-! ### Anchors in an image -/

namespace Planner

/-- Anchors stand one behind the other, without sharing a byte. -/
theorem anchorSlots_pairwise (planner : Planner) :
    planner.anchorSlots.Pairwise fun slot next => slot + AnchorGrid.anchorSize ≤ next := by
  rw [anchorSlots, List.pairwise_filterMap]
  refine (planner.pieces_pairwise planner.regionStart planner.regionEntries).imp ?_
  rintro ⟨entry, start⟩ ⟨other, later⟩ hle slot hslot next hnext
  cases entry with
  | stream handle =>
      cases hslot
  | anchor target =>
      cases other with
      | stream handle =>
          cases hnext
      | anchor aim =>
          cases hslot
          cases hnext
          exact hle

/-- In an image, an anchor of the layout stands at each of the offsets of anchors. -/
theorem Shows.standsAt_anchor {planner : Planner} {image : Image} (h : planner.Shows image)
    {slot : Nat} (hslot : slot ∈ planner.anchorSlots) :
    ∃ target,
      .anchor target ∈ planner.anchored ∧
        StandsAt
          (LittleEndian.encode AnchorGrid.anchorSize (planner.grid.base.toNat + target.toNat))
          slot image.bytes := by
  obtain ⟨target, hpiece⟩ := mem_anchorSlots_iff.mp hslot
  exact ⟨target, planner.anchor_mem_anchored (planner.entry_mem_of_piece hpiece), h.standsAt hpiece⟩

end Planner

/-- Every counter of a layout is what can be counted in the layout and among the attempts that
led to it. -/
structure ExactStatistics (attempts : List Attempt) (planner : Planner) (ledger : Ledger) :
    Prop where
  streams_eq : planner.statistics.streams = planner.streamCount
  stores_eq : attempts.countP Attempt.stores = planner.streamCount
  sizes_sum :
    ((List.finRange Statistics.sizeBuckets).map planner.statistics.sizeCount).sum =
      planner.streamCount
  /-- All streams can be decoded. -/
  decodes :
    ∀ stream ∈ planner.streams,
      ∃ fields, FieldStream.decode (fun _ => Varint.decode) stream = .ok fields
  tagCount_eq :
    ∀ tag, planner.statistics.tagCount tag = planner.streams.countP (FieldStream.hasTag tag)
  /-- Bucket `b` counts the streams of `b + 1` bytes, and the last one all larger ones too. -/
  sizeCount_eq :
    ∀ b : Fin Statistics.sizeBuckets,
      planner.statistics.sizeCount b =
        planner.streams.countP fun stream =>
          stream.length = b.val + 1 ∨
            b.val + 1 = Statistics.sizeBuckets ∧ Statistics.sizeBuckets ≤ stream.length
  /-- There are as many anchors as placing writes. -/
  anchors_eq : planner.statistics.anchors = planner.anchorSlots.length
  anchors_placed :
    ∀ image event, planner.place ledger = .ok (image, event) →
      (planner.anchorSlots.Pairwise fun slot next => slot + AnchorGrid.anchorSize ≤ next) ∧
        ∀ slot ∈ planner.anchorSlots, ∃ target,
          .anchor target ∈ planner.anchored ∧
            StandsAt
              (LittleEndian.encode AnchorGrid.anchorSize
                (planner.grid.base.toNat + target.toNat))
              slot image.bytes
  /-- The groups are the anchors with the streams behind them, the latest one first. -/
  groups_eq : planner.anchored = planner.groups.reverse.flatMap AnchorGroup.entries
  load_le :
    ∀ group ∈ planner.groups,
      AnchorGrid.anchorSize + planner.load group ≤ planner.grid.spacing
  /-- All groups but the latest one are closed. -/
  padding_eq :
    planner.statistics.paddingBytes =
      (planner.groups.tail.map fun group =>
        planner.grid.spacing - AnchorGrid.anchorSize - planner.load group).sum
  outline_eq : planner.statistics.outlineBytes = planner.outline.length
  outline_placed :
    ∀ image event, planner.place ledger = .ok (image, event) →
      image.regions .outOfLineData =
        some { start := 0, size := planner.statistics.outlineBytes }
  narrow : planner.streamCount < UInt32.size → planner.statistics.Narrow

namespace History

variable {attempts : List Attempt} {planner : Planner} {ledger : Ledger}

/-- After any history, whether or not calls were refused in it, every counter is exact. -/
theorem exact_statistics (h : History attempts planner ledger) :
    ExactStatistics attempts planner ledger := by
  obtain ⟨calls, hrun, hcalls⟩ := h.exists_run
  have hinv := hrun.invariant
  have houtline := hrun.outlineBytes_eq
  exact
    { streams_eq := hrun.counted.streams_eq
      stores_eq := by
        rw [countP_stores hcalls, hrun.handles_eq, Planner.issued, List.length_map,
          List.length_range]
      sizes_sum := hrun.sum_sizeCount
      decodes := by
        intro stream hstream
        obtain ⟨call, handle, target, hholds, rfl⟩ := hrun.exists_holds_stream hstream
        exact ⟨_, Planner.decode_streamFor hholds.some_field ledger target⟩
      tagCount_eq := hrun.tagCount_eq
      sizeCount_eq := hrun.sizeCount_eq
      anchors_eq := hrun.reachable.length_anchorSlots.symm
      anchors_placed := fun _ _ hplace =>
        ⟨planner.anchorSlots_pairwise,
          fun _ hslot => (Planner.shows_place hplace).standsAt_anchor hslot⟩
      groups_eq := hinv.anchored_eq
      load_le := hinv.load_le
      padding_eq := hrun.reachable.accounted.padding_eq
      outline_eq := houtline
      outline_placed := fun _ _ hplace => by
        rw [houtline]
        exact Planner.outline_region_place hplace
      narrow := hrun.narrow }

/-- A blob of 4 GiB is refused by every layout, which stays as it was. -/
theorem attempt_large (bench : Workbench) (hinv : bench.planner.Invariant) :
    let blob : Blob := { id := 2, payload := .fill 0 4294967296, alignment := 4 }
    let fields : FieldSet :=
      { slots := Slots.empty.set .sealedVirtualSlots { value := .outOfLine blob } }
    fields.Made ∧
      Work.attempt fields bench = .ok (.error (.layoutOverflow Placement.limit)) bench := by
  intro blob fields
  have hmade : fields.Made := by
    refine ⟨[⟨{}, .sealedVirtualSlots, .outOfLine blob⟩], ?_⟩
    unfold fields blob
    rfl
  have hblobs : fields.blobs = [(.sealedVirtualSlots, blob)] := rfl
  have hsize : blob.size = 4294967296 := rfl
  have hmemory : fields.InMemory := by
    rw [FieldSet.InMemory, hblobs, List.forall_mem_singleton, hsize]
    decide
  have hstop : Placement.limit < bench.planner.stopWith fields := by
    have hle :=
      Placement.size_le_stopOf hmade.alignable bench.planner.outline.length
        (hblobs ▸ List.mem_cons_self)
    rw [hsize] at hle
    exact Nat.lt_of_lt_of_le (by decide) hle
  exact ⟨hmade, Work.attempt_of_limit_lt hinv hmade hmemory hstop⟩

-- Evaluating the image takes one step for each of its bytes.
set_option maxRecDepth 3000 in
/-- Two streams that do not share an anchor, a blob that is refused, one number, and a field set
without fields: every counter is above zero, and the layout is placed. -/
theorem exact_statistics_of_refused_blob :
    ∃ attempts planner ledger image event,
      History attempts planner ledger ∧
        attempts.map Attempt.stores = [true, true, false, true, false] ∧
          planner.statistics.streams = 3 ∧
            planner.streams.countP (FieldStream.hasTag .nullableValueOffset) = 3 ∧
              planner.streams.countP (FieldStream.hasTag .sealedVirtualSlots) = 2 ∧
                planner.statistics.sizeCount 2 = 1 ∧
                  planner.statistics.sizeCount 7 = 2 ∧
                    planner.anchorSlots.length = 2 ∧
                      planner.statistics.paddingBytes = 24 ∧
                        planner.outline.length = 21 ∧
                          planner.place ledger = .ok (image, event) ∧
                            image.regions .outOfLineData = some { start := 0, size := 21 } := by
  have hnew : Planner.new { shift := 6 } = .ok { grid := { shift := 6 } } := rfl
  have hfirst :
      FieldSet.empty.write
          (Write.crowded .sealedVirtualSlots
            { id := 0, payload := .fill 1 20, alignment := 4 }) = .ok _ :=
    rfl
  have hsecond :
      FieldSet.empty.write
          (Write.crowded .sealedVirtualSlots
            { id := 1, payload := .bytes [2], alignment := 4 }) = .ok _ :=
    rfl
  have hnumber : FieldSet.empty.write [⟨{}, .nullableValueOffset, .inline 260⟩] = .ok _ := rfl
  have htwo := ((History.new hnew {}).attempt ⟨_, hfirst⟩ [] rfl).attempt ⟨_, hsecond⟩ [] rfl
  obtain ⟨calls, hrun, -⟩ := htwo.exists_run
  obtain ⟨hmade, hrefused⟩ :=
    attempt_large { planner := _, ledger := _, events := [] } hrun.invariant
  have hthree := htwo.attempt hmade [] hrefused
  have hfive := (hthree.attempt ⟨_, hnumber⟩ [] rfl).attempt ⟨[], rfl⟩ [] rfl
  have hexact := hfive.exact_statistics
  refine ⟨_, _, _, _, _, hfive, rfl, ?_, ?_, ?_, rfl, rfl, ?_, rfl, ?_, rfl, ?_⟩
  · exact (hexact.streams_eq.trans hexact.stores_eq.symm).trans rfl
  · exact (hexact.tagCount_eq .nullableValueOffset).symm
  · exact (hexact.tagCount_eq .sealedVirtualSlots).symm
  · exact hexact.anchors_eq.symm
  · exact hexact.outline_eq.symm
  · exact hexact.outline_placed _ _ rfl

end History
end AnchoredFields

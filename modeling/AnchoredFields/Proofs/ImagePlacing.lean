import AnchoredFields.Layout.Placing
import AnchoredFields.Proofs.StreamRegion

/-!
# What placing makes of a layout

Placing writes the out-of-line data, pads to the grid and writes the stream region
piece by piece.  The image is said here all at once, by the layout alone.

* `Planner.placeStream_eq_ok_iff`, `Planner.Invariant.ready`: every stream that placing asks
  for is there, and so is the place for its offset;
* `Planner.placeAnchored_eq`: placing entries appends their bytes;
* `Planner.shows_place`: the image of a layout that was placed.
-/

namespace AnchoredFields

namespace Draft

theorem append_append (draft : Draft) (bytes more : List UInt8) :
    (draft.append bytes).append more = draft.append (bytes ++ more) := by
  rw [append, append, append, List.append_assoc]

theorem append_nil (draft : Draft) : draft.append [] = draft := by
  rw [append, List.append_nil]

theorem size_endRegion (draft : Draft) : draft.endRegion.size = draft.size := by
  rw [size, bytes_endRegion, size]

/-- An empty draft needs no padding. -/
theorem alignUp_size_empty (base : Address) {alignment : Nat} (halign : 0 < alignment) :
    alignUp alignment (size { base := base }) = 0 :=
  alignUp_eq_self halign (Nat.dvd_zero _)

theorem pad_eq_ok {draft next : Draft} {alignment padding : Nat}
    (h : draft.pad alignment = .ok (padding, next)) :
    next = draft.append (List.replicate (alignUp alignment draft.size - draft.size) 0) := by
  unfold pad at h
  by_cases hpower : isPowerOfTwo alignment = false
  · rw [if_pos hpower] at h
    cases h
  rw [if_neg hpower] at h
  simp only at h
  split at h
  · cases h
    rfl
  · cases h

/-- Beginning a region closes the open one, pads, and opens the region where the padding ends. -/
theorem beginRegion_eq_ok {draft next : Draft} {region : Region} {alignment start : Nat}
    (halign : 0 < alignment)
    (h : draft.beginRegion region alignment = .ok (start, next)) :
    start = alignUp alignment draft.size ∧
      next.base = draft.endRegion.base ∧
      next.bytes =
        draft.bytes ++ List.replicate (alignUp alignment draft.size - draft.size) 0 ∧
      next.regions region = some { start := start, size := 0 } ∧
      next.current = some region := by
  unfold beginRegion at h
  split at h
  · cases h
  cases hpad : draft.endRegion.pad alignment with
  | error fault =>
      rw [hpad] at h
      cases h
  | ok result =>
      obtain ⟨padding, padded⟩ := result
      have hsize := draft.size_endRegion
      have hpadded := pad_eq_ok hpad
      rw [hsize] at hpadded
      rw [hpad] at h
      cases h
      have hup := le_alignUp halign draft.size
      subst hpadded
      refine ⟨?_, rfl, ?_, ?_, rfl⟩
      · rw [size_append, hsize, List.length_replicate]
        omega
      · rw [bytes_append, bytes_endRegion]
      · exact if_pos rfl

/-- Beginning a region leaves the others as closing the open one left them. -/
theorem regions_beginRegion {draft next : Draft} {region other : Region} {alignment start : Nat}
    (h : draft.beginRegion region alignment = .ok (start, next))
    (hother : other ≠ region) :
    next.regions other = draft.endRegion.regions other := by
  unfold beginRegion at h
  split at h
  · cases h
  cases hpad : draft.endRegion.pad alignment with
  | error fault =>
      rw [hpad] at h
      cases h
  | ok result =>
      obtain ⟨padding, padded⟩ := result
      have hpadded := pad_eq_ok hpad
      rw [hpad] at h
      cases h
      subst hpadded
      exact if_neg hother

/-- Closing a region gives it the size it has grown to. -/
theorem regions_endRegion (draft : Draft) {region : Region} {extent : Extent}
    (hcurrent : draft.current = some region)
    (hextent : draft.regions region = some extent) :
    draft.endRegion.regions region =
      some { start := extent.start, size := draft.size - extent.start } := by
  simp only [endRegion, hcurrent, if_true, hextent, Option.map_some]

theorem regions_endRegion_of_ne {draft : Draft} {region other : Region}
    (hcurrent : draft.current = some region)
    (hother : other ≠ region) :
    draft.endRegion.regions other = draft.regions other := by
  simp only [endRegion, hcurrent, if_neg hother]

theorem base_endRegion (draft : Draft) : draft.endRegion.base = draft.base := by
  unfold endRegion
  split <;> rfl

end Draft

namespace Planner

/-- Enters where pieces start into a list of offsets by handle. -/
def enterOffsets (offsets : List Nat) : List Piece → List Nat
  | [] => offsets
  | piece :: rest =>
      match piece.entry with
      | .anchor _ => enterOffsets offsets rest
      | .stream handle => enterOffsets (offsets.set handle.index piece.start) rest

variable {planner : Planner}

theorem addAnchor_eq {placed next : StreamDraft} {target : Nat}
    (h : placed.addAnchor planner.grid.spacing target = .ok next)
    (hbase : placed.draft.base = planner.grid.base) :
    let start := alignUp planner.grid.spacing placed.draft.size
    next.draft =
        placed.draft.append
          (List.replicate (start - placed.draft.size) 0 ++
            LittleEndian.encode AnchorGrid.anchorSize (planner.grid.base.toNat + target)) ∧
      next.offsets = placed.offsets ∧
      planner.grid.base.toNat + target < UInt64.size := by
  unfold StreamDraft.addAnchor at h
  cases hpad : placed.draft.pad planner.grid.spacing with
  | error fault =>
      rw [hpad] at h
      cases h
  | ok result =>
      obtain ⟨padding, padded⟩ := result
      have hpadded := Draft.pad_eq_ok hpad
      rw [hpad] at h
      cases haddress : padded.addressOf target with
      | error fault =>
          simp only [bind, Except.bind, haddress] at h
          cases h
      | ok address =>
          simp only [bind, Except.bind, haddress, pure, Except.pure] at h
          cases h
          have hnumber : address.toNat = planner.grid.base.toNat + target := by
            rw [← hbase, Address.after_eq_ok_iff.mp haddress, hpadded]
            rfl
          rw [← hnumber, hpadded, Draft.append_append]
          exact ⟨rfl, rfl, address.toNat_lt⟩

/-- Behind an anchor, the next entry follows. -/
theorem size_addAnchor {placed next : StreamDraft} {target : Nat}
    (h : placed.addAnchor planner.grid.spacing target = .ok next)
    (hbase : placed.draft.base = planner.grid.base) :
    next.draft.size =
        alignUp planner.grid.spacing placed.draft.size + AnchorGrid.anchorSize ∧
      next.draft.base = planner.grid.base := by
  obtain ⟨hdraft, -, -⟩ := addAnchor_eq h hbase
  have hup := le_alignUp planner.grid.spacing_pos placed.draft.size
  constructor
  · rw [hdraft, Draft.size_append, List.length_append, List.length_replicate,
      LittleEndian.length_encode]
    omega
  · rw [hdraft]
    exact hbase

/-- What is placed after the stream of a handle was put at the end. -/
def withStream (planner : Planner) (placed : StreamDraft) (handle : Handle) : StreamDraft :=
  { placed with
    draft := placed.draft.append (planner.entryBytes (.stream handle))
    offsets := placed.offsets.set handle.index placed.draft.size }

theorem size_withStream (planner : Planner) (placed : StreamDraft) (handle : Handle) :
    (planner.withStream placed handle).draft.size =
      placed.draft.size + planner.streamSize handle :=
  Draft.size_append _ _

/-- The stream of a handle is placed exactly if the layout has it and its start can be entered. -/
theorem placeStream_eq_ok_iff {placed next : StreamDraft} {handle : Handle} :
    planner.placeStream placed handle = .ok next ↔
      handle.index < planner.streamCount ∧
        handle.index < placed.offsets.length ∧
          next = planner.withStream placed handle := by
  rw [placeStream]
  by_cases hstream : handle.index < planner.streamCount
  · have hfound : planner.stream handle = some planner.streams[handle.index] :=
      List.getElem?_eq_getElem hstream
    rw [withStream, entryBytes, hfound]
    by_cases hentry : handle.index < placed.offsets.length
    · simp [StreamDraft.addStream, hentry, hstream, eq_comm]
    · simp [StreamDraft.addStream, hentry]
  · have hmissing : planner.stream handle = none :=
      List.getElem?_eq_none (Nat.not_lt.mp hstream)
    rw [hmissing]
    simp [hstream]

/-- A draft takes entries of the layout: it is loaded at the base of the layout, it has an offset
to enter for every stream, and the entries name streams that are there. -/
structure Ready (planner : Planner) (placed : StreamDraft) (entries : List StreamEntry) :
    Prop where
  base_eq : placed.draft.base = planner.grid.base
  length_offsets : placed.offsets.length = planner.streamCount
  handle_lt : ∀ handle, .stream handle ∈ entries → handle.index < planner.streamCount

namespace Ready

variable {placed next : StreamDraft} {rest : List StreamEntry} {handle : Handle}
  {target : UInt32}

theorem of_addAnchor (h : planner.Ready placed (.anchor target :: rest))
    (hanchor : placed.addAnchor planner.grid.spacing target.toNat = .ok next) :
    planner.Ready next rest where
  base_eq := (size_addAnchor hanchor h.base_eq).2
  length_offsets := by rw [(addAnchor_eq hanchor h.base_eq).2.1, h.length_offsets]
  handle_lt other hmem := h.handle_lt other (List.mem_cons_of_mem _ hmem)

theorem placeStream_eq (h : planner.Ready placed (.stream handle :: rest)) :
    planner.placeStream placed handle = .ok (planner.withStream placed handle) := by
  have hlt := h.handle_lt handle List.mem_cons_self
  exact placeStream_eq_ok_iff.mpr ⟨hlt, h.length_offsets ▸ hlt, rfl⟩

theorem withStream (h : planner.Ready placed (.stream handle :: rest)) :
    planner.Ready (planner.withStream placed handle) rest where
  base_eq := h.base_eq
  length_offsets := (List.length_set ..).trans h.length_offsets
  handle_lt other hmem := h.handle_lt other (List.mem_cons_of_mem _ hmem)

end Ready

/-- Placing entries appends their bytes, enters where their streams start, and finds an address
for every target. -/
theorem placeAnchored_eq {entries : List StreamEntry} {placed final : StreamDraft}
    (h : planner.placeAnchored 0 placed entries = .ok final)
    (hbase : placed.draft.base = planner.grid.base) :
    final.draft =
        placed.draft.append (planner.regionBytes placed.draft.size entries) ∧
      final.offsets =
        enterOffsets placed.offsets (planner.pieces placed.draft.size entries) ∧
      ∀ target, .anchor target ∈ entries →
        planner.grid.base.toNat + target.toNat < UInt64.size := by
  induction entries generalizing placed with
  | nil =>
      cases h
      exact ⟨(Draft.append_nil _).symm, rfl, fun target hmem => nomatch hmem⟩
  | cons entry rest ih =>
      cases entry with
      | anchor target =>
          rw [placeAnchored, Nat.zero_add] at h
          cases hanchor : placed.addAnchor planner.grid.spacing target.toNat with
          | error fault =>
              rw [hanchor] at h
              cases h
          | ok next =>
              rw [hanchor] at h
              obtain ⟨hdraft, hoffsets, htarget⟩ := addAnchor_eq hanchor hbase
              obtain ⟨hsize, hnext⟩ := size_addAnchor hanchor hbase
              obtain ⟨hfinal, hentered, htargets⟩ := ih h hnext
              rw [hsize] at hfinal hentered
              rw [hoffsets] at hentered
              refine ⟨?_, hentered, ?_⟩
              · rw [hfinal, hdraft, Draft.append_append, List.append_assoc]
                rfl
              · intro other hmem
                rcases List.mem_cons.mp hmem with hfirst | hlater
                · cases hfirst
                  exact htarget
                · exact htargets other hlater
      | stream handle =>
          rw [placeAnchored] at h
          cases hstream : planner.placeStream placed handle with
          | error fault =>
              rw [hstream] at h
              cases h
          | ok next =>
              rw [hstream] at h
              obtain ⟨-, -, rfl⟩ := placeStream_eq_ok_iff.mp hstream
              obtain ⟨hfinal, hentered, htargets⟩ := ih h hbase
              rw [size_withStream] at hfinal hentered
              refine ⟨?_, hentered, ?_⟩
              · rw [hfinal, withStream, Draft.append_append, regionBytes, startAt, Nat.sub_self]
                rfl
              · intro target hmem
                rcases List.mem_cons.mp hmem with hfirst | hlater
                · cases hfirst
                · exact htargets target hlater

/-- Streams that need no anchor are placed like the others. -/
theorem placeAnchored_placeInlineOnly (placed : StreamDraft) (handles : List Handle)
    (entries : List StreamEntry) :
    (planner.placeInlineOnly placed handles >>= fun simple =>
        planner.placeAnchored 0 simple entries) =
      planner.placeAnchored 0 placed (handles.map .stream ++ entries) := by
  induction handles generalizing placed with
  | nil =>
      rfl
  | cons handle rest ih =>
      rw [placeInlineOnly, List.map_cons, List.cons_append, placeAnchored]
      cases planner.placeStream placed handle with
      | error fault =>
          rfl
      | ok next =>
          exact ih next

/-- Where the stream region starts. -/
def regionStart (planner : Planner) : Nat :=
  alignUp planner.grid.spacing planner.outline.length

/-- Where the stream region ends. -/
def regionStop (planner : Planner) : Nat :=
  planner.endOf planner.regionStart planner.regionEntries

/-- The pieces of the stream region, each where it starts in the image. -/
def regionPieces (planner : Planner) : List Piece :=
  planner.pieces planner.regionStart planner.regionEntries

/-- The out-of-line data, up to where the stream region starts. -/
def regionFront (planner : Planner) : List UInt8 :=
  planner.outline ++ List.replicate (planner.regionStart - planner.outline.length) 0

/-- The image of a layout. -/
structure Shows (planner : Planner) (image : Image) : Prop where
  base_eq : image.base = planner.grid.base
  anchorAlignment_eq : image.anchorAlignment = UInt64.ofNat planner.grid.spacing
  bytes_eq :
    image.bytes =
      planner.regionFront ++ planner.regionBytes planner.regionStart planner.regionEntries
  region_eq :
    image.regions .fieldStreams =
      some
        { start := planner.regionStart
          size := planner.regionStop - planner.regionStart }
  streams_eq :
    image.streams =
      enterOffsets (List.replicate planner.streamCount 0) planner.regionPieces

theorem length_regionFront (planner : Planner) :
    planner.regionFront.length = planner.regionStart := by
  have hup := le_alignUp planner.grid.spacing_pos planner.outline.length
  rw [regionFront, List.length_append, List.length_replicate, regionStart]
  omega

/-- The draft in which the out-of-line data stands and the stream region is begun. -/
def frontDraft (planner : Planner) : Except Fault Draft := do
  let empty : Draft := { base := planner.grid.base }
  let (_, outline) ← empty.beginRegion .outOfLineData Tag.maxAlignment
  let (_, fields) ← (outline.append planner.outline).beginRegion .fieldStreams planner.grid.spacing
  return fields

/-- The out-of-line data stands at the start of the image, and the streams behind it. -/
theorem frontDraft_eq_ok {fields : Draft} (h : planner.frontDraft = .ok fields) :
    fields.base = planner.grid.base ∧
      fields.bytes = planner.regionFront ∧
      fields.regions .fieldStreams = some { start := planner.regionStart, size := 0 } ∧
      fields.regions .outOfLineData =
        some { start := 0, size := planner.outline.length } ∧
      fields.current = some .fieldStreams := by
  unfold frontDraft at h
  simp only at h
  have hnone := Draft.alignUp_size_empty planner.grid.base (by decide : 0 < Tag.maxAlignment)
  cases houter : Draft.beginRegion { base := planner.grid.base } .outOfLineData
      Tag.maxAlignment with
  | error fault =>
      rw [houter] at h
      cases h
  | ok result =>
      obtain ⟨outlineStart, outline⟩ := result
      obtain ⟨hzero, hbase, hbytes, hbegun, hcurrent⟩ :=
        Draft.beginRegion_eq_ok (by decide) houter
      rw [hnone] at hzero hbytes
      rw [hzero] at hbegun
      have hempty : outline.bytes = [] := hbytes
      have hsize : (outline.append planner.outline).size = planner.outline.length := by
        rw [Draft.size_append, Draft.size, hempty]
        exact Nat.zero_add _
      rw [houter] at h
      simp only [bind, Except.bind] at h
      cases hinner : (outline.append planner.outline).beginRegion .fieldStreams
          planner.grid.spacing with
      | error fault =>
          rw [hinner] at h
          cases h
      | ok result =>
          obtain ⟨start, inner⟩ := result
          obtain ⟨hstart, hfields, hfront, hregion, hopen⟩ :=
            Draft.beginRegion_eq_ok planner.grid.spacing_pos hinner
          rw [hsize] at hstart hfront
          rw [Draft.base_endRegion] at hfields
          rw [Draft.bytes_append, hempty, List.nil_append] at hfront
          have houtline :
              inner.regions .outOfLineData =
                some { start := 0, size := planner.outline.length } := by
            have hclosed :=
              Draft.regions_endRegion (outline.append planner.outline) hcurrent hbegun
            rw [Draft.regions_beginRegion hinner (by decide), hclosed, hsize]
            rfl
          change start = planner.regionStart at hstart
          rw [hstart] at hregion
          rw [hinner] at h
          cases h
          exact ⟨hfields.trans hbase, hfront, hregion, houtline, hopen⟩

/-- The handles of a layout are those of its streams, so an empty draft takes all of its
entries. -/
theorem Invariant.ready (h : planner.Invariant) {fields : Draft}
    (hbase : fields.base = planner.grid.base) :
    planner.Ready { draft := fields, offsets := List.replicate planner.streamCount 0 }
      planner.regionEntries where
  base_eq := hbase
  length_offsets := List.length_replicate
  handle_lt handle hmem := by
    have hfiled : handle ∈ planner.filed := by
      rw [← handles_regionEntries]
      exact List.mem_filterMap.mpr ⟨_, hmem, rfl⟩
    exact mem_issued_iff.mp (h.filed_perm.mem_iff.mp hfiled)

/-- Placing the regions is placing all entries behind the out-of-line data. -/
theorem placeRegions_eq_bind (planner : Planner) :
    planner.placeRegions =
      planner.frontDraft >>= fun fields =>
        planner.placeAnchored 0
          { draft := fields, offsets := List.replicate planner.streamCount 0 }
          planner.regionEntries := by
  have hnone := Draft.alignUp_size_empty planner.grid.base (by decide : 0 < Tag.maxAlignment)
  unfold placeRegions frontDraft
  simp only
  cases houter : Draft.beginRegion { base := planner.grid.base } .outOfLineData
      Tag.maxAlignment with
  | error fault =>
      rfl
  | ok result =>
      obtain ⟨outlineStart, outline⟩ := result
      have hzero := (Draft.beginRegion_eq_ok (by decide) houter).1
      rw [hnone] at hzero
      simp only [bind, Except.bind, hzero]
      cases (outline.append planner.outline).beginRegion .fieldStreams planner.grid.spacing with
      | error fault =>
          rfl
      | ok result =>
          exact planner.placeAnchored_placeInlineOnly _ planner.inlineOnly planner.anchored

/-- The regions are placed by placing all entries behind the out-of-line data. -/
theorem placeRegions_eq_ok_iff {placed : StreamDraft} :
    planner.placeRegions = .ok placed ↔
      ∃ fields,
        planner.frontDraft = .ok fields ∧
          planner.placeAnchored 0
              { draft := fields, offsets := List.replicate planner.streamCount 0 }
              planner.regionEntries = .ok placed := by
  rw [placeRegions_eq_bind]
  cases planner.frontDraft with
  | error fault =>
      simp [bind, Except.bind]
  | ok fields =>
      simp [bind, Except.bind]

/-- The draft in which both regions are placed. -/
theorem placeRegions_eq {placed : StreamDraft} (h : planner.placeRegions = .ok placed) :
    ∃ fields : Draft,
      planner.frontDraft = .ok fields ∧
      placed.draft =
        fields.append (planner.regionBytes planner.regionStart planner.regionEntries) ∧
      placed.offsets =
        enterOffsets (List.replicate planner.streamCount 0) planner.regionPieces := by
  obtain ⟨fields, hfront, hplaced⟩ := placeRegions_eq_ok_iff.mp h
  obtain ⟨hbase, hbytes, -⟩ := frontDraft_eq_ok hfront
  obtain ⟨hdraft, hoffsets, -⟩ := placeAnchored_eq hplaced hbase
  have hlength : fields.size = planner.regionStart := by
    rw [Draft.size, hbytes]
    exact planner.length_regionFront
  simp only [hlength] at hdraft hoffsets
  exact ⟨fields, hfront, hdraft, hoffsets⟩

/-- A layout is placed if its regions are, no padding is missing and every blob stands where it
was recorded. -/
theorem place_eq_ok_iff {ledger : Ledger} {image : Image} {event : Event} :
    planner.place ledger = .ok (image, event) ↔
      ∃ placed,
        planner.placeRegions = .ok placed ∧
          planner.statistics.paddingBytes ≤ placed.padding ∧
          planner.recordsAgree ledger = true ∧
          image = placed.draft.finish (UInt64.ofNat planner.grid.spacing) placed.offsets ∧
          event =
            .imagePlaced planner.streamCount
              (planner.streamCount - planner.inlineOnly.length) planner.records.length
              planner.statistics.anchors placed.padding planner.statistics.outlineBytes := by
  unfold place
  cases planner.placeRegions with
  | error fault =>
      simp [bind, Except.bind]
  | ok placed =>
      simp only [bind, Except.bind, Except.ok.injEq, exists_eq_left']
      by_cases hpadding : placed.padding < planner.statistics.paddingBytes
      · simp [hpadding, Nat.not_le.mpr hpadding]
      · rw [if_neg hpadding]
        cases planner.recordsAgree ledger with
        | false =>
            simp
        | true =>
            simp [Nat.not_lt.mp hpadding, pure, Except.pure, eq_comm]

/-- The image of a layout that was placed is the one that the layout shows. -/
theorem shows_place {ledger : Ledger} {image : Image} {event : Event}
    (h : planner.place ledger = .ok (image, event)) :
    planner.Shows image := by
  obtain ⟨placed, hplaced, -, -, rfl, -⟩ := place_eq_ok_iff.mp h
  obtain ⟨fields, hfront, hdraft, hoffsets⟩ := placeRegions_eq hplaced
  obtain ⟨hbase, hbytes, hregion, -, hcurrent⟩ := frontDraft_eq_ok hfront
  have hall : placed.draft.bytes =
      planner.regionFront ++
        planner.regionBytes planner.regionStart planner.regionEntries := by
    rw [hdraft, Draft.bytes_append, hbytes]
  have hsize : placed.draft.size = planner.regionStop := by
    have hregionBytes :=
      planner.length_regionBytes planner.regionStart planner.regionEntries
    rw [Draft.size, hall, List.length_append, length_regionFront]
    exact hregionBytes
  have hopen : placed.draft.current = some .fieldStreams := by
    rw [hdraft]
    exact hcurrent
  have hbegun :
      placed.draft.regions .fieldStreams =
        some { start := planner.regionStart, size := 0 } := by
    rw [hdraft]
    exact hregion
  refine
    { base_eq := ?_
      anchorAlignment_eq := rfl
      bytes_eq := ?_
      region_eq := ?_
      streams_eq := hoffsets }
  · show placed.draft.endRegion.base = _
    rw [Draft.base_endRegion, hdraft]
    exact hbase
  · rw [Draft.bytes_finish]
    exact hall
  · show placed.draft.endRegion.regions .fieldStreams = _
    rw [← hsize]
    exact Draft.regions_endRegion placed.draft hopen hbegun

/-- The region of the out-of-line data begins the image and has the size of the data. -/
theorem outline_region_place {ledger : Ledger} {image : Image} {event : Event}
    (h : planner.place ledger = .ok (image, event)) :
    image.regions .outOfLineData = some { start := 0, size := planner.outline.length } := by
  obtain ⟨placed, hplaced, -, -, rfl, -⟩ := place_eq_ok_iff.mp h
  obtain ⟨fields, hfront, hdraft, -⟩ := placeRegions_eq hplaced
  obtain ⟨-, -, -, houtline, hcurrent⟩ := frontDraft_eq_ok hfront
  have hopen : placed.draft.current = some .fieldStreams := by
    rw [hdraft]
    exact hcurrent
  show placed.draft.endRegion.regions .outOfLineData = _
  rw [Draft.regions_endRegion_of_ne hopen (by decide), hdraft]
  exact houtline

/-- In a layout that was placed, the target of every anchor has an address. -/
theorem target_lt_of_place {ledger : Ledger} {image : Image} {event : Event}
    (h : planner.place ledger = .ok (image, event))
    {target : UInt32} (hmem : .anchor target ∈ planner.regionEntries) :
    planner.grid.base.toNat + target.toNat < UInt64.size := by
  obtain ⟨placed, hplaced, -⟩ := place_eq_ok_iff.mp h
  obtain ⟨fields, hfront, hentries⟩ := placeRegions_eq_ok_iff.mp hplaced
  exact (placeAnchored_eq hentries (frontDraft_eq_ok hfront).1).2.2 target hmem

/-- Pieces of other streams leave the offset of a stream as it is. -/
theorem enterOffsets_of_not_mem {pieces : List Piece} {offsets : List Nat} {handle : Handle}
    (h : handle ∉ pieces.filterMap Piece.handle?) :
    (enterOffsets offsets pieces)[handle.index]? = offsets[handle.index]? := by
  induction pieces generalizing offsets with
  | nil =>
      rfl
  | cons piece rest ih =>
      obtain ⟨entry, start⟩ := piece
      cases entry with
      | anchor target =>
          exact ih h
      | stream other =>
          rw [Piece.handles_cons, List.mem_cons, not_or] at h
          have hindex : other.index ≠ handle.index := by
            intro hsame
            obtain ⟨i⟩ := handle
            obtain ⟨j⟩ := other
            exact h.1 (congrArg Handle.mk hsame.symm)
          rw [enterOffsets, ih h.2, List.getElem?_set_ne hindex]

/-- The offset of a stream is where its piece starts. -/
theorem enterOffsets_of_mem {pieces : List Piece} {offsets : List Nat} {handle : Handle}
    {start : Nat}
    (hnodup : (pieces.filterMap Piece.handle?).Nodup)
    (hmem : { entry := .stream handle, start := start } ∈ pieces)
    (hlt : handle.index < offsets.length) :
    (enterOffsets offsets pieces)[handle.index]? = some start := by
  induction pieces generalizing offsets with
  | nil =>
      cases hmem
  | cons piece rest ih =>
      obtain ⟨entry, first⟩ := piece
      cases entry with
      | anchor target =>
          rcases List.mem_cons.mp hmem with hfirst | hlater
          · cases hfirst
          · exact ih hnodup hlater hlt
      | stream other =>
          rw [Piece.handles_cons, List.nodup_cons] at hnodup
          rw [enterOffsets]
          rcases List.mem_cons.mp hmem with hfirst | hlater
          · cases hfirst
            rw [enterOffsets_of_not_mem hnodup.1, List.getElem?_set_self hlt]
          · exact ih hnodup.2 hlater (by rwa [List.length_set])

/-- The streams of the pieces are all streams, in the order in which they are filed. -/
theorem handles_regionPieces (planner : Planner) :
    planner.regionPieces.filterMap Piece.handle? = planner.filed := by
  have hentries := planner.map_entry_pieces planner.regionStart planner.regionEntries
  rw [← handles_regionEntries, ← hentries, List.filterMap_map]
  rfl

namespace Shows

variable {image : Image}

theorem size_eq (h : planner.Shows image) : image.size = planner.regionStop := by
  rw [Image.size, h.bytes_eq, List.length_append, length_regionFront]
  exact planner.length_regionBytes planner.regionStart planner.regionEntries

theorem standsAt (h : planner.Shows image) {piece : Piece}
    (hmem : piece ∈ planner.regionPieces) :
    StandsAt (planner.entryBytes piece.entry) piece.start image.bytes := by
  rw [h.bytes_eq]
  exact planner.standsAt_piece hmem planner.length_regionFront

/-- A byte of the stream region that belongs to no piece is zero. -/
theorem getElem?_between (h : planner.Shows image) {i : Nat}
    (hle : planner.regionStart ≤ i) (hlt : i < planner.regionStop)
    (hbetween :
      ∀ piece ∈ planner.regionPieces, i < piece.start ∨ planner.pieceStop piece ≤ i) :
    image.bytes[i]? = some 0 := by
  rw [h.bytes_eq]
  exact planner.byte_between planner.length_regionFront hle hlt hbetween

theorem pieceStop_le (h : planner.Shows image) {piece : Piece}
    (hmem : piece ∈ planner.regionPieces) :
    planner.pieceStop piece ≤ image.size := by
  rw [h.size_eq]
  exact (planner.pieces_bounds hmem).2

/-- The offset that the image has for a stream is where its piece starts. -/
theorem offset_eq (h : planner.Shows image) (hinv : planner.Invariant)
    {handle : Handle} {start : Nat}
    (hmem : { entry := .stream handle, start := start } ∈ planner.regionPieces) :
    image.streams[handle.index]? = some start := by
  have hnodup : (planner.regionPieces.filterMap Piece.handle?).Nodup := by
    rw [handles_regionPieces]
    exact hinv.filed_perm.nodup_iff.mpr planner.issued_nodup
  have hfiled : handle ∈ planner.filed := by
    rw [← handles_regionPieces]
    exact List.mem_filterMap.mpr ⟨_, hmem, rfl⟩
  have hissued := mem_issued_iff.mp (hinv.filed_perm.mem_iff.mp hfiled)
  rw [h.streams_eq]
  refine enterOffsets_of_mem hnodup hmem ?_
  rwa [List.length_replicate]

end Shows
end Planner
end AnchoredFields

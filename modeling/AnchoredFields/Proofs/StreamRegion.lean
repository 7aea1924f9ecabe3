import AnchoredFields.Bytes.LittleEndian
import AnchoredFields.Proofs.ByteRanges
import AnchoredFields.Proofs.PlannerInvariant

/-!
# The stream region

The stream region holds the streams that need no anchor, and behind them the
anchors and the streams they govern.  Anchors start at multiples of the spacing
and everything else follows without a gap, so the place of every piece is fixed by
the sizes of the pieces before it.

* `Planner.pieces_pairwise`, `Planner.pieces_bounds`: the pieces do not overlap and
  lie within the region;
* `Planner.standsAt_piece`, `Planner.byte_between`: the bytes of the pieces, and
  zeros between them;
* `Planner.Invariant.exists_anchor`: a stream that an anchor governs lies in front of
  the next multiple of the spacing behind that anchor.
-/

namespace AnchoredFields

/-- Something that stands in the stream region, and the offset where it starts. -/
structure Piece where
  entry : StreamEntry
  start : Nat

namespace Piece

/-- The handle of a piece that is a stream. -/
def handle? (piece : Piece) : Option Handle :=
  piece.entry.handle?

theorem handles_cons (handle : Handle) (start : Nat) (rest : List Piece) :
    ({ entry := .stream handle, start := start } :: rest).filterMap handle? =
      handle :: rest.filterMap handle? :=
  rfl

end Piece

namespace Planner

/-- What stands in the stream region, in order. -/
def regionEntries (planner : Planner) : List StreamEntry :=
  planner.inlineOnly.map .stream ++ planner.anchored

/-- The bytes of an entry. -/
def entryBytes (planner : Planner) : StreamEntry → List UInt8
  | .anchor target =>
      LittleEndian.encode AnchorGrid.anchorSize (planner.grid.base.toNat + target.toNat)
  | .stream handle => (planner.stream handle).getD []

/-- The number of bytes of an entry. -/
def entrySize (planner : Planner) : StreamEntry → Nat
  | .anchor _ => AnchorGrid.anchorSize
  | .stream handle => planner.streamSize handle

/-- Where an entry starts that follows an offset. -/
def startAt (planner : Planner) (offset : Nat) : StreamEntry → Nat
  | .anchor _ => alignUp planner.grid.spacing offset
  | .stream _ => offset

/-- Entries that follow an offset, each where it starts. -/
def pieces (planner : Planner) (offset : Nat) : List StreamEntry → List Piece
  | [] => []
  | entry :: rest =>
      { entry := entry, start := planner.startAt offset entry } ::
        planner.pieces (planner.startAt offset entry + planner.entrySize entry) rest

/-- Where entries end that follow an offset. -/
def endOf (planner : Planner) (offset : Nat) : List StreamEntry → Nat
  | [] => offset
  | entry :: rest =>
      planner.endOf (planner.startAt offset entry + planner.entrySize entry) rest

/-- The bytes of entries that follow an offset, with zeros in front of anchors. -/
def regionBytes (planner : Planner) (offset : Nat) : List StreamEntry → List UInt8
  | [] => []
  | entry :: rest =>
      List.replicate (planner.startAt offset entry - offset) 0 ++
        (planner.entryBytes entry ++
          planner.regionBytes (planner.startAt offset entry + planner.entrySize entry) rest)

/-- The offset after the last byte of a piece. -/
def pieceStop (planner : Planner) (piece : Piece) : Nat :=
  piece.start + planner.entrySize piece.entry

variable (planner : Planner)

/-- The streams among the entries are all streams, in the order in which they are filed. -/
theorem handles_regionEntries :
    planner.regionEntries.filterMap StreamEntry.handle? = planner.filed := by
  have hstreams :
      (planner.inlineOnly.map StreamEntry.stream).filterMap StreamEntry.handle? =
        planner.inlineOnly := by
    rw [List.filterMap_map]
    exact List.filterMap_some
  rw [regionEntries, List.filterMap_append, hstreams]
  rfl

theorem le_startAt (offset : Nat) (entry : StreamEntry) :
    offset ≤ planner.startAt offset entry := by
  cases entry with
  | anchor target =>
      exact le_alignUp planner.grid.spacing_pos offset
  | stream handle =>
      exact Nat.le_refl offset

theorem length_entryBytes (entry : StreamEntry) :
    (planner.entryBytes entry).length = planner.entrySize entry := by
  cases entry with
  | anchor target =>
      exact LittleEndian.length_encode _ _
  | stream handle =>
      rfl

theorem pieces_append (offset : Nat) (entries more : List StreamEntry) :
    planner.pieces offset (entries ++ more) =
      planner.pieces offset entries ++ planner.pieces (planner.endOf offset entries) more := by
  induction entries generalizing offset with
  | nil =>
      rfl
  | cons entry rest ih =>
      rw [List.cons_append, pieces, pieces, endOf, ih, List.cons_append]

theorem map_entry_pieces (offset : Nat) (entries : List StreamEntry) :
    (planner.pieces offset entries).map Piece.entry = entries := by
  induction entries generalizing offset with
  | nil =>
      rfl
  | cons entry rest ih =>
      rw [pieces, List.map_cons, ih]

theorem entry_mem_of_piece {offset start : Nat} {entries : List StreamEntry}
    {entry : StreamEntry}
    (h : { entry := entry, start := start } ∈ planner.pieces offset entries) :
    entry ∈ entries := by
  rw [← planner.map_entry_pieces offset entries]
  exact List.mem_map_of_mem h

/-- There are no anchors among the streams without blobs. -/
theorem anchor_mem_anchored {target : UInt32}
    (h : .anchor target ∈ planner.regionEntries) :
    .anchor target ∈ planner.anchored := by
  rcases List.mem_append.mp h with hinline | hanchored
  · obtain ⟨_, _, hstream⟩ := List.mem_map.mp hinline
    cases hstream
  · exact hanchored

theorem le_endOf (offset : Nat) (entries : List StreamEntry) :
    offset ≤ planner.endOf offset entries := by
  induction entries generalizing offset with
  | nil =>
      exact Nat.le_refl offset
  | cons entry rest ih =>
      have hstart := planner.le_startAt offset entry
      have hrest := ih (planner.startAt offset entry + planner.entrySize entry)
      rw [endOf]
      omega

theorem length_regionBytes (offset : Nat) (entries : List StreamEntry) :
    offset + (planner.regionBytes offset entries).length = planner.endOf offset entries := by
  induction entries generalizing offset with
  | nil =>
      rfl
  | cons entry rest ih =>
      have hstart := planner.le_startAt offset entry
      have hrest := ih (planner.startAt offset entry + planner.entrySize entry)
      rw [regionBytes, endOf, ← hrest, List.length_append, List.length_append,
        List.length_replicate, length_entryBytes]
      omega

theorem pieces_bounds {offset : Nat} {entries : List StreamEntry} {piece : Piece}
    (hmem : piece ∈ planner.pieces offset entries) :
    offset ≤ piece.start ∧ planner.pieceStop piece ≤ planner.endOf offset entries := by
  induction entries generalizing offset with
  | nil =>
      cases hmem
  | cons entry rest ih =>
      have hstart := planner.le_startAt offset entry
      rw [pieces] at hmem
      rw [endOf]
      rcases List.mem_cons.mp hmem with rfl | hlater
      · exact ⟨hstart, planner.le_endOf _ rest⟩
      · obtain ⟨hbehind, hstop⟩ := ih hlater
        exact ⟨by omega, hstop⟩

/-- Every piece ends before the next one starts. -/
theorem pieces_pairwise (offset : Nat) (entries : List StreamEntry) :
    (planner.pieces offset entries).Pairwise fun piece next =>
      planner.pieceStop piece ≤ next.start := by
  induction entries generalizing offset with
  | nil =>
      exact List.Pairwise.nil
  | cons entry rest ih =>
      rw [pieces, List.pairwise_cons]
      refine ⟨?_, ih _⟩
      intro next hnext
      exact (planner.pieces_bounds hnext).1

/-- Behind as many bytes as the offset says, the bytes of a piece stand where it starts. -/
theorem standsAt_piece {offset : Nat} {entries : List StreamEntry} {piece : Piece}
    (hmem : piece ∈ planner.pieces offset entries)
    {front : List UInt8} (hfront : front.length = offset) :
    StandsAt (planner.entryBytes piece.entry) piece.start
      (front ++ planner.regionBytes offset entries) := by
  induction entries generalizing offset front with
  | nil =>
      cases hmem
  | cons entry rest ih =>
      have hstart := planner.le_startAt offset entry
      have hgap :
          (front ++ List.replicate (planner.startAt offset entry - offset) 0).length =
            planner.startAt offset entry := by
        rw [List.length_append, List.length_replicate]
        omega
      rw [pieces] at hmem
      rw [regionBytes, ← List.append_assoc]
      rcases List.mem_cons.mp hmem with rfl | hlater
      · have hbehind :=
          StandsAt.behind
            (front ++ List.replicate (planner.startAt offset entry - offset) 0)
            (planner.entryBytes entry)
            (planner.regionBytes (planner.startAt offset entry + planner.entrySize entry) rest)
        rwa [hgap] at hbehind
      · rw [← List.append_assoc]
        refine ih hlater ?_
        rw [List.length_append, hgap, length_entryBytes]

/-- A byte of the region that belongs to no piece is zero. -/
theorem byte_between {offset : Nat} {entries : List StreamEntry}
    {front : List UInt8} (hfront : front.length = offset)
    {i : Nat} (hle : offset ≤ i) (hlt : i < planner.endOf offset entries)
    (hbetween :
      ∀ piece ∈ planner.pieces offset entries, i < piece.start ∨ planner.pieceStop piece ≤ i) :
    (front ++ planner.regionBytes offset entries)[i]? = some 0 := by
  induction entries generalizing offset front with
  | nil =>
      rw [endOf] at hlt
      omega
  | cons entry rest ih =>
      have hstart := planner.le_startAt offset entry
      have hgap :
          (front ++ List.replicate (planner.startAt offset entry - offset) 0).length =
            planner.startAt offset entry := by
        rw [List.length_append, List.length_replicate]
        omega
      rw [regionBytes, ← List.append_assoc]
      rcases hbetween _ List.mem_cons_self with hbefore | hbehind
      · change i < planner.startAt offset entry at hbefore
        have hzero : i - front.length < planner.startAt offset entry - offset := by omega
        rw [List.getElem?_append_left (by omega), List.getElem?_append_right (by omega),
          List.getElem?_replicate_of_lt hzero]
      · rw [← List.append_assoc]
        refine ih ?_ hbehind hlt ?_
        · rw [List.length_append, hgap, length_entryBytes]
        · intro piece hpiece
          exact hbetween piece (List.mem_cons_of_mem _ hpiece)

theorem exists_piece (offset : Nat) {entries : List StreamEntry} {entry : StreamEntry}
    (hmem : entry ∈ entries) :
    ∃ start, { entry := entry, start := start } ∈ planner.pieces offset entries := by
  rw [← planner.map_entry_pieces offset entries] at hmem
  obtain ⟨piece, hpiece, rfl⟩ := List.mem_map.mp hmem
  exact ⟨piece.start, hpiece⟩

theorem endOf_streams (offset : Nat) (handles : List Handle) :
    planner.endOf offset (handles.map .stream) =
      offset + (handles.map planner.streamSize).sum := by
  induction handles generalizing offset with
  | nil =>
      rfl
  | cons handle rest ih =>
      rw [List.map_cons, endOf, ih, List.map_cons, List.sum_cons, ← Nat.add_assoc]
      rfl

/-- The streams of a group stand between its anchor and the end of its load. -/
theorem group_bounds (offset : Nat) {group : AnchorGroup} {handle : Handle}
    (hmem : handle ∈ group.handles) :
    let anchor := alignUp planner.grid.spacing offset
    ∃ start,
      { entry := .anchor group.target, start := anchor } ∈
        planner.pieces offset group.entries ∧
      { entry := .stream handle, start := start } ∈ planner.pieces offset group.entries ∧
      anchor + AnchorGrid.anchorSize ≤ start ∧
      start + planner.streamSize handle ≤
        anchor + AnchorGrid.anchorSize + planner.load group := by
  intro anchor
  have hend :=
    planner.endOf_streams (anchor + AnchorGrid.anchorSize) group.handles
  obtain ⟨start, hpiece⟩ :=
    planner.exists_piece (anchor + AnchorGrid.anchorSize)
      (List.mem_map_of_mem (f := StreamEntry.stream) hmem)
  obtain ⟨hle, hstop⟩ := planner.pieces_bounds hpiece
  rw [hend] at hstop
  exact ⟨start, List.mem_cons_self, List.mem_cons_of_mem _ hpiece, hle, hstop⟩

theorem mem_pieces_middle {offset : Nat} {front entries back : List StreamEntry} {piece : Piece}
    (hmem : piece ∈ planner.pieces (planner.endOf offset front) entries) :
    piece ∈ planner.pieces offset (front ++ (entries ++ back)) := by
  rw [pieces_append, pieces_append]
  exact List.mem_append_right _ (List.mem_append_left _ hmem)

namespace Invariant

variable {planner : Planner}

/-- A governed stream lies between its anchor and the next multiple of the spacing. -/
theorem exists_anchor (h : planner.Invariant) {target : UInt32} {handle : Handle}
    (hgoverns : planner.Governs target handle)
    (offset : Nat) :
    ∃ anchor start,
      { entry := .anchor target, start := anchor } ∈
        planner.pieces offset planner.regionEntries ∧
      { entry := .stream handle, start := start } ∈
        planner.pieces offset planner.regionEntries ∧
      planner.grid.spacing ∣ anchor ∧
      anchor + AnchorGrid.anchorSize ≤ start ∧
      start + planner.streamSize handle ≤ anchor + planner.grid.spacing := by
  obtain ⟨group, hgroup, rfl, hhandle⟩ := hgoverns
  have hload := h.load_le group hgroup
  obtain ⟨older, later, hsplit⟩ := List.append_of_mem (List.mem_reverse.mpr hgroup)
  have hentries :
      planner.regionEntries =
        (planner.inlineOnly.map .stream ++ older.flatMap AnchorGroup.entries) ++
          (group.entries ++ later.flatMap AnchorGroup.entries) := by
    rw [regionEntries, h.anchored_eq, hsplit, List.flatMap_append, List.flatMap_cons,
      List.append_assoc]
  obtain ⟨start, hanchor, hstream, hbehind, hstop⟩ :=
    planner.group_bounds
      (planner.endOf offset
        (planner.inlineOnly.map .stream ++ older.flatMap AnchorGroup.entries))
      hhandle
  rw [hentries]
  exact
    ⟨_, start, planner.mem_pieces_middle hanchor, planner.mem_pieces_middle hstream,
      dvd_alignUp _ _, hbehind, by omega⟩

end Invariant

/-- A stream that needs no anchor ends before every anchor. -/
theorem inlineOnly_before_anchors (offset : Nat) {handle : Handle}
    (hmem : handle ∈ planner.inlineOnly) :
    ∃ start,
      { entry := .stream handle, start := start } ∈
        planner.pieces offset planner.regionEntries ∧
      ∀ target anchor,
        { entry := .anchor target, start := anchor } ∈
          planner.pieces offset planner.regionEntries →
        start + planner.streamSize handle ≤ anchor := by
  obtain ⟨start, hpiece⟩ :=
    planner.exists_piece offset (List.mem_map_of_mem (f := StreamEntry.stream) hmem)
  have hstop := (planner.pieces_bounds hpiece).2
  rw [regionEntries, pieces_append]
  refine ⟨start, List.mem_append_left _ hpiece, ?_⟩
  intro target anchor hanchor
  rcases List.mem_append.mp hanchor with hinline | hlater
  · have hentry := List.mem_map_of_mem (f := Piece.entry) hinline
    rw [map_entry_pieces, List.mem_map] at hentry
    obtain ⟨_, _, hstream⟩ := hentry
    cases hstream
  · have hbehind := (planner.pieces_bounds hlater).1
    exact Nat.le_trans hstop hbehind

end Planner
end AnchoredFields

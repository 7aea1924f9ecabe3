import AnchoredFields.Proofs.EqualRegions
import AnchoredFields.Proofs.ImageGeometry
import AnchoredFields.Proofs.OutlineRegion
import AnchoredFields.Proofs.PaddingBytes

/-!
# Placing returns

Placing checks sums of addresses, that no padding is missing, and that every blob
stands where it was recorded.  The two latter checks never fail for the layout of a
run.  The former are made for anchors only, and do not fail as long as the image ends
within the address space.

* `Planner.exists_placeAnchored`: entries are placed if their anchors can be;
* `Run.exists_place_of_anchors`: the layout of a run is placed if its anchors can be;
* `Run.exists_place`: in particular, it is placed if its image fits.
-/

namespace AnchoredFields

namespace Draft

theorem pad_eq {draft : Draft} {alignment : Nat}
    (hpower : isPowerOfTwo alignment = true)
    (hsmall : alignment < UInt64.size / 2)
    (hsize : alignUp alignment draft.size < UInt64.size) :
    let padding := alignUp alignment draft.size - draft.size
    draft.pad alignment = .ok (padding, draft.append (List.replicate padding 0)) := by
  intro padding
  rw [pad, if_neg (by rw [hpower]; exact Bool.noConfusion)]
  exact if_pos ⟨hsize, Or.inl hsmall⟩

/-- A region can be begun once, where its start is a 64-bit number. -/
theorem exists_beginRegion {draft : Draft} {region : Region} {alignment : Nat}
    (hnew : draft.regions region = none)
    (hpower : isPowerOfTwo alignment = true)
    (hsmall : alignment < UInt64.size / 2)
    (hsize : alignUp alignment draft.size < UInt64.size) :
    ∃ start next, draft.beginRegion region alignment = .ok (start, next) := by
  have hclosed : alignUp alignment draft.endRegion.size < UInt64.size := by
    rw [size, bytes_endRegion]
    exact hsize
  rw [beginRegion, hnew, if_neg (by simp), pad_eq hpower hsmall hclosed]
  exact ⟨_, _, rfl⟩

end Draft

namespace Planner

variable {planner : Planner}

/-- The image of a layout ends within the address space. -/
def Fits (planner : Planner) : Prop :=
  planner.grid.base.toNat + planner.regionStop ≤ UInt64.size

/-- Every anchor among some pieces starts at a 64-bit number, and its target has an address. -/
def AnchorsFit (planner : Planner) (pieces : List Piece) : Prop :=
  ∀ target start, { entry := .anchor target, start := start } ∈ pieces →
    start < UInt64.size ∧ planner.grid.base.toNat + target.toNat < UInt64.size

theorem anchorsFit_cons_anchor {target : UInt32} {start : Nat} {rest : List Piece} :
    planner.AnchorsFit ({ entry := .anchor target, start := start } :: rest) ↔
      (start < UInt64.size ∧ planner.grid.base.toNat + target.toNat < UInt64.size) ∧
        planner.AnchorsFit rest := by
  constructor
  · intro h
    exact
      ⟨h target start List.mem_cons_self,
        fun other place hmem => h other place (List.mem_cons_of_mem _ hmem)⟩
  · rintro ⟨hfirst, hrest⟩ other place hmem
    rcases List.mem_cons.mp hmem with hsame | hlater
    · cases hsame
      exact hfirst
    · exact hrest other place hlater

theorem anchorsFit_cons_stream {handle : Handle} {start : Nat} {rest : List Piece} :
    planner.AnchorsFit ({ entry := .stream handle, start := start } :: rest) ↔
      planner.AnchorsFit rest := by
  constructor
  · intro h other place hmem
    exact h other place (List.mem_cons_of_mem _ hmem)
  · intro h other place hmem
    rcases List.mem_cons.mp hmem with hsame | hlater
    · cases hsame
    · exact h other place hlater

theorem Invariant.spacing_lt (h : planner.Invariant) :
    planner.grid.spacing < UInt32.size := by
  rw [AnchorGrid.spacing_eq]
  exact Nat.pow_lt_pow_right (by decide) h.grid_valid.shift_lt

theorem Invariant.spacing_lt_half (h : planner.Invariant) :
    planner.grid.spacing < UInt64.size / 2 :=
  Nat.lt_trans h.spacing_lt (by decide)

/-- The stream region always starts at a 64-bit number. -/
theorem Invariant.regionStart_lt (h : planner.Invariant) :
    planner.regionStart < UInt64.size := by
  have hup := alignUp_lt planner.grid.spacing_pos planner.outline.length
  have hlimit : Placement.limit + UInt32.size < UInt64.size := by decide
  have houtline := h.outline_le
  have hspacing := h.spacing_lt
  rw [regionStart]
  omega

theorem Invariant.exists_frontDraft (h : planner.Invariant) :
    ∃ fields, planner.frontDraft = .ok fields := by
  have hnone := Draft.alignUp_size_empty planner.grid.base (by decide : 0 < Tag.maxAlignment)
  have hempty : Draft.regions { base := planner.grid.base } .outOfLineData = none := rfl
  have hpower : isPowerOfTwo Tag.maxAlignment = true := by decide
  obtain ⟨outlineStart, outline, houter⟩ :=
    Draft.exists_beginRegion hempty hpower (by decide) (by rw [hnone]; decide)
  obtain ⟨-, -, hbytes, -, -⟩ := Draft.beginRegion_eq_ok (by decide) houter
  rw [hnone] at hbytes
  have hsize : (outline.append planner.outline).size = planner.outline.length := by
    rw [Draft.size_append, Draft.size, hbytes]
    exact Nat.zero_add _
  have hnew : (outline.append planner.outline).regions .fieldStreams = none :=
    Draft.regions_beginRegion houter (by decide)
  obtain ⟨start, fields, hinner⟩ :=
    Draft.exists_beginRegion hnew planner.grid.isPowerOfTwo_spacing
      h.spacing_lt_half (by rw [hsize]; exact h.regionStart_lt)
  refine ⟨fields, ?_⟩
  simp only [frontDraft, houter, hinner, bind, Except.bind, pure, Except.pure]

/-- An anchor is placed where it has room, with the address of a target that has one. -/
theorem exists_addAnchor {placed : StreamDraft} {target : Nat}
    (hspacing : planner.grid.spacing < UInt64.size / 2)
    (hbase : placed.draft.base = planner.grid.base)
    (hstart : alignUp planner.grid.spacing placed.draft.size < UInt64.size)
    (htarget : planner.grid.base.toNat + target < UInt64.size) :
    ∃ next,
      placed.addAnchor planner.grid.spacing target = .ok next ∧
        next.padding =
          placed.padding +
            (alignUp planner.grid.spacing placed.draft.size - placed.draft.size) := by
  let zeros := alignUp planner.grid.spacing placed.draft.size - placed.draft.size
  let padded := placed.draft.append (List.replicate zeros 0)
  let address := UInt64.ofNat (planner.grid.base.toNat + target)
  have hpad : placed.draft.pad planner.grid.spacing = .ok (zeros, padded) :=
    Draft.pad_eq planner.grid.isPowerOfTwo_spacing hspacing hstart
  have haddress : padded.addressOf target = .ok address := by
    refine Address.after_eq_ok_iff.mpr ?_
    rw [UInt64.toNat_ofNat_of_lt' htarget]
    exact congrArg (fun base : Address => base.toNat + target) hbase.symm
  refine
    ⟨{ placed with
        draft := padded.append (LittleEndian.encode AnchorGrid.anchorSize address.toNat)
        padding := placed.padding + zeros }, ?_, rfl⟩
  rw [StreamDraft.addAnchor, hpad]
  simp only [bind, Except.bind, haddress]
  rfl

/-- Entries are placed if their anchors start at 64-bit numbers and the targets have addresses. -/
theorem exists_placeAnchored {entries : List StreamEntry} {placed : StreamDraft}
    (hspacing : planner.grid.spacing < UInt64.size / 2)
    (hready : planner.Ready placed entries)
    (hanchors : planner.AnchorsFit (planner.pieces placed.draft.size entries)) :
    ∃ final,
      planner.placeAnchored 0 placed entries = .ok final ∧
        final.padding = placed.padding + planner.paddingFrom placed.draft.size entries := by
  induction entries generalizing placed with
  | nil =>
      exact ⟨placed, rfl, rfl⟩
  | cons entry rest ih =>
      cases entry with
      | anchor target =>
          obtain ⟨⟨hstart, htarget⟩, hrest⟩ := anchorsFit_cons_anchor.mp hanchors
          obtain ⟨next, hnext, hpadding⟩ :=
            exists_addAnchor hspacing hready.base_eq hstart htarget
          have hsize := (size_addAnchor hnext hready.base_eq).1
          obtain ⟨final, hfinal, hsum⟩ :=
            ih (hready.of_addAnchor hnext) (by rw [hsize]; exact hrest)
          refine ⟨final, ?_, ?_⟩
          · rw [placeAnchored, Nat.zero_add, hnext]
            exact hfinal
          · rw [hsum, hpadding, hsize, paddingFrom, Nat.add_assoc]
            rfl
      | stream handle =>
          have hrest := anchorsFit_cons_stream.mp hanchors
          have hsize := planner.size_withStream placed handle
          obtain ⟨final, hfinal, hsum⟩ :=
            ih hready.withStream (by rw [hsize]; exact hrest)
          refine ⟨final, ?_, ?_⟩
          · rw [placeAnchored, hready.placeStream_eq]
            exact hfinal
          · rw [hsum, hsize, paddingFrom, startAt, Nat.sub_self, Nat.zero_add]
            rfl

/-- In a layout that fits, every anchor can be placed. -/
theorem Invariant.anchorsFit (h : planner.Invariant) (hfits : planner.Fits) :
    planner.AnchorsFit planner.regionPieces := by
  intro target start hpiece
  obtain ⟨hle, hstop⟩ := planner.pieces_bounds hpiece
  have htarget := h.target_le_of_mem (planner.entry_mem_of_piece hpiece)
  have hfront : planner.outline.length ≤ planner.regionStart :=
    le_alignUp planner.grid.spacing_pos _
  have hanchor : start + AnchorGrid.anchorSize ≤ planner.regionStop := hstop
  have hpos : 0 < AnchorGrid.anchorSize := by decide
  rw [Fits] at hfits
  change planner.regionStart ≤ start at hle
  omega

/-- The regions of a layout are placed behind a front of fixed size. -/
theorem Invariant.exists_placeRegions_eq (h : planner.Invariant) :
    ∃ start : StreamDraft,
      planner.Ready start planner.regionEntries ∧
        start.draft.size = planner.regionStart ∧
          start.padding = 0 ∧
            planner.placeRegions = planner.placeAnchored 0 start planner.regionEntries := by
  obtain ⟨fields, hfront⟩ := h.exists_frontDraft
  obtain ⟨hbase, hbytes, -⟩ := frontDraft_eq_ok hfront
  have hsize : fields.size = planner.regionStart := by
    rw [Draft.size, hbytes]
    exact planner.length_regionFront
  refine
    ⟨{ draft := fields, offsets := List.replicate planner.streamCount 0 }, h.ready hbase, hsize,
      rfl, ?_⟩
  rw [placeRegions_eq_bind, hfront]
  rfl

end Planner

/-- The ledger has every blob where the layout recorded it. -/
theorem Run.recordsAgree {calls : List Call} {planner : Planner} {ledger : Ledger}
    (h : Run calls planner ledger) :
    planner.recordsAgree ledger = true := by
  obtain ⟨placements, houtlined⟩ := h.exists_outlined
  rw [Planner.recordsAgree, houtlined.records_eq, List.all_map, List.all_eq_true]
  intro placement hmem
  exact beq_iff_eq.mpr (houtlined.offset_eq placement hmem)

/-- The layout of a run is placed if its anchors can be, and as many zeros are put in front of
them as the entries ask for. -/
theorem Run.exists_place_of_anchors {calls : List Call} {planner : Planner} {ledger : Ledger}
    (h : Run calls planner ledger) (hanchors : planner.AnchorsFit planner.regionPieces) :
    ∃ image,
      planner.place ledger =
        .ok
          (image,
            .imagePlaced planner.streamCount
              (planner.streamCount - planner.inlineOnly.length) planner.records.length
              planner.statistics.anchors
              (planner.paddingFrom planner.regionStart planner.regionEntries)
              planner.statistics.outlineBytes) := by
  have hinv := h.invariant
  obtain ⟨start, hready, hsize, hzero, hregions⟩ := hinv.exists_placeRegions_eq
  have hpieces :
      planner.AnchorsFit (planner.pieces start.draft.size planner.regionEntries) := by
    rw [hsize]
    exact hanchors
  obtain ⟨placed, hplaced, hpadding⟩ :=
    Planner.exists_placeAnchored hinv.spacing_lt_half hready hpieces
  rw [hzero, Nat.zero_add, hsize] at hpadding
  have henough : planner.statistics.paddingBytes ≤ placed.padding := by
    rw [hpadding]
    exact h.reachable.paddingBytes_le planner.regionStart
  rw [← hpadding]
  exact
    ⟨_, Planner.place_eq_ok_iff.mpr
      ⟨placed, hregions.trans hplaced, henough, h.recordsAgree, rfl, rfl⟩⟩

/-- The layout of a run is placed if its image fits, and as many zeros are put in front of the
anchors as its entries ask for. -/
theorem Run.exists_place_padding {calls : List Call} {planner : Planner} {ledger : Ledger}
    (h : Run calls planner ledger) (hfits : planner.Fits) :
    ∃ image,
      planner.place ledger =
        .ok
          (image,
            .imagePlaced planner.streamCount
              (planner.streamCount - planner.inlineOnly.length) planner.records.length
              planner.statistics.anchors
              (planner.paddingFrom planner.regionStart planner.regionEntries)
              planner.statistics.outlineBytes) :=
  h.exists_place_of_anchors (h.invariant.anchorsFit hfits)

/-- The layout of a run is placed if its image fits. -/
theorem Run.exists_place {calls : List Call} {planner : Planner} {ledger : Ledger}
    (h : Run calls planner ledger) (hfits : planner.Fits) :
    ∃ image event, planner.place ledger = .ok (image, event) := by
  obtain ⟨image, hplace⟩ := h.exists_place_padding hfits
  exact ⟨image, _, hplace⟩

end AnchoredFields

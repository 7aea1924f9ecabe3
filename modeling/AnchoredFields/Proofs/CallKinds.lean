import AnchoredFields.Proofs.Anchorage
import AnchoredFields.Proofs.ImageGeometry

/-!
# What each kind of call contributes

A call has blobs, or fields but no blob, or no field at all.  Calls with blobs make up
the anchored part of the layout and the out-of-line data, calls without blobs make up
the streams in front, and calls without fields contribute nothing.  So whatever order
the two kinds are interleaved in, each kind contributes what it would alone.

* `countP_kinds`: what calls with fields have is counted kind by kind;
* `Run.map_handle_eq`: the streams of each kind are filed in the order of the calls;
* `Run.anchorage_eq`: the anchored part is made of the demands of the calls with blobs.
-/

namespace AnchoredFields

/-! ### Kinds of calls -/

/-- Whether there are fields and none of them is an out-of-line field. -/
def FieldSet.isInlineOnly (fields : FieldSet) : Bool :=
  !fields.isEmpty && !fields.containsOutOfLine

/-- The calls for field sets with blobs. -/
def outOfLineCalls (calls : List Call) : List Call :=
  calls.filter fun call => call.fields.containsOutOfLine

/-- The calls for field sets that have fields but no blobs. -/
def inlineCalls (calls : List Call) : List Call :=
  calls.filter fun call => call.fields.isInlineOnly

section

variable {calls : List Call} {call : Call}

theorem outOfLineCalls_append_of_no_blobs (h : call.fields.blobs = []) :
    outOfLineCalls (calls ++ [call]) = outOfLineCalls calls := by
  have hno := FieldSet.containsOutOfLine_eq_false_iff.mpr h
  simp [outOfLineCalls, hno]

theorem outOfLineCalls_append_of_blobs (h : call.fields.blobs ≠ []) :
    outOfLineCalls (calls ++ [call]) = outOfLineCalls calls ++ [call] := by
  have hyes := FieldSet.containsOutOfLine_iff.mpr h
  simp [outOfLineCalls, hyes]

theorem inlineCalls_append_of_isEmpty (h : call.fields.isEmpty = true) :
    inlineCalls (calls ++ [call]) = inlineCalls calls := by
  simp [inlineCalls, FieldSet.isInlineOnly, h]

theorem inlineCalls_append_of_blobs (h : call.fields.blobs ≠ []) :
    inlineCalls (calls ++ [call]) = inlineCalls calls := by
  have hyes := FieldSet.containsOutOfLine_iff.mpr h
  simp [inlineCalls, FieldSet.isInlineOnly, hyes]

theorem inlineCalls_append_of_no_blobs (hsome : call.fields.isEmpty = false)
    (h : call.fields.blobs = []) :
    inlineCalls (calls ++ [call]) = inlineCalls calls ++ [call] := by
  have hno := FieldSet.containsOutOfLine_eq_false_iff.mpr h
  simp [inlineCalls, FieldSet.isInlineOnly, hsome, hno]

theorem mem_outOfLineCalls_iff :
    call ∈ outOfLineCalls calls ↔ call ∈ calls ∧ call.fields.blobs ≠ [] := by
  rw [outOfLineCalls, List.mem_filter, FieldSet.containsOutOfLine_iff]

theorem mem_inlineCalls_iff :
    call ∈ inlineCalls calls ↔
      call ∈ calls ∧ call.fields.isEmpty = false ∧ call.fields.blobs = [] := by
  rw [inlineCalls, List.mem_filter, FieldSet.isInlineOnly, Bool.and_eq_true, Bool.not_eq_true',
    Bool.not_eq_true', FieldSet.containsOutOfLine_eq_false_iff]

/-- Blobs belong to the calls with blobs. -/
theorem flatMap_blobs_outOfLineCalls (calls : List Call) :
    (outOfLineCalls calls).flatMap (fun call => call.fields.blobs) =
      calls.flatMap fun call => call.fields.blobs := by
  induction calls with
  | nil =>
      rfl
  | cons call rest ih =>
      rw [List.flatMap_cons, ← ih, outOfLineCalls, List.filter_cons]
      by_cases hblobs : call.fields.containsOutOfLine = true
      · rw [if_pos hblobs, List.flatMap_cons]
        rfl
      · rw [if_neg hblobs]
        rw [FieldSet.containsOutOfLine_iff, not_not] at hblobs
        rw [hblobs]
        rfl

/-- What only calls with fields have is counted kind by kind. -/
theorem countP_kinds (calls : List Call) {p : Call → Bool}
    (h : ∀ call, p call = true → call.fields.isEmpty = false) :
    calls.countP p = (inlineCalls calls).countP p + (outOfLineCalls calls).countP p := by
  rw [List.countP_eq_countP_filter_add calls p fun call => call.fields.containsOutOfLine,
    Nat.add_comm]
  congr 1
  rw [inlineCalls, List.countP_filter, List.countP_filter]
  refine List.countP_congr ?_
  intro call _
  simp only [FieldSet.isInlineOnly, Bool.and_eq_true]
  constructor
  · rintro ⟨hp, hno⟩
    exact ⟨hp, by simp [h call hp], hno⟩
  · rintro ⟨hp, -, hno⟩
    exact ⟨hp, hno⟩

end

/-! ### Demands -/

namespace FieldSet

/-- The offset of the first blob of a field set. -/
def firstOffset (fields : FieldSet) (ledger : Ledger) : UInt32 :=
  ((fields.offsets ledger).head?.bind Prod.snd).getD 0

/-- What a field set whose blobs are placed asks of the anchors. -/
def demand (fields : FieldSet) (ledger : Ledger) : Demand where
  offset := fields.firstOffset ledger
  stream := Planner.streamFor fields ledger

variable {fields others : FieldSet} {ledger book : Ledger}

theorem demand_congr (h : fields.contents = others.contents)
    (hoffsets : fields.offsets ledger = others.offsets book) :
    fields.demand ledger = others.demand book := by
  rw [demand, demand, firstOffset, firstOffset, hoffsets, Planner.streamFor_congr h hoffsets]

/-- A demand does not change any more once the blobs are placed. -/
theorem demand_of_extends (hledger : ledger.Extends book)
    (hplaced : ∀ entry ∈ fields.blobs, ∃ offset, ledger.offset? entry.2 = some offset) :
    fields.demand book = fields.demand ledger :=
  demand_congr rfl (offsets_of_extends hledger hplaced)

end FieldSet

theorem Planner.Placeable.demand_eq
    {planner : Planner} {fields : FieldSet} {first : Placement} {rest : List Placement}
    (h : planner.Placeable fields (first :: rest))
    {ledger : Ledger} (hfresh : ledger.AllFresh fields.blobs) :
    let placed := ledger.placeAll (first :: rest)
    fields.demand placed = { offset := first.offset, stream := streamFor fields placed } := by
  intro placed
  rw [FieldSet.demand, FieldSet.firstOffset,
    FieldSet.offsets_eq h.entries fun _ hmem => h.offset?_placeAll hfresh hmem]
  rfl

/-- Streams without blobs depend on nothing but the numbers in them. -/
theorem Planner.streamFor_of_no_blobs {fields : FieldSet} (h : fields.blobs = [])
    (ledger : Ledger) (target : UInt32) :
    streamFor fields ledger target = streamFor fields {} 0 := by
  have hstored : fields.stored ledger target.toNat = fields.stored {} (0 : UInt32).toNat :=
    Except.ok.inj
      ((FieldSet.storedValues_of_no_blobs { grid := {} } h ledger target.toNat).symm.trans
        (FieldSet.storedValues_of_no_blobs { grid := {} } h {} (0 : UInt32).toNat))
  rw [streamFor, streamFor, hstored]

namespace Planner

/-- Settling on a group files no stream. -/
theorem handles_settle (planner : Planner) (offset : UInt32) (size : UInt32 → Nat) :
    (planner.settle offset size).anchored.filterMap StreamEntry.handle? =
      planner.anchored.filterMap StreamEntry.handle? := by
  have hgroup : ∀ before : Planner,
      (before.openGroup offset).anchored.filterMap StreamEntry.handle? =
        before.anchored.filterMap StreamEntry.handle? := by
    intro before
    rw [openGroup, List.filterMap_append]
    exact List.append_nil _
  have hopened :
      (planner.opened offset).anchored.filterMap StreamEntry.handle? =
        planner.anchored.filterMap StreamEntry.handle? := by
    rw [opened]
    by_cases hnone : planner.group.isNone = true
    · rw [if_pos hnone, hgroup]
    · rw [if_neg hnone]
  rw [settle]
  by_cases hroom : (planner.opened offset).room < size (planner.opened offset).target
  · rw [if_pos hroom, hgroup]
    exact hopened
  · rw [if_neg hroom]
    exact hopened

/-- An admitted field set is filed behind the others with blobs. -/
theorem handles_admitted (planner : Planner) (fields : FieldSet) (ledger : Ledger)
    (placements : List Placement) (offset : UInt32) :
    let later := planner.admitted fields ledger placements offset
    later.inlineOnly = planner.inlineOnly ∧
      later.anchored.filterMap StreamEntry.handle? =
        planner.anchored.filterMap StreamEntry.handle? ++ [{ index := planner.streamCount }] := by
  intro later
  have hcount := planner.streamCount_settled fields ledger placements offset
  have hanchored :
      (planner.settled fields ledger placements offset).anchored.filterMap StreamEntry.handle? =
        planner.anchored.filterMap StreamEntry.handle? := by
    rw [settled, handles_settle, copied_eq]
  constructor
  · show (planner.settled fields ledger placements offset).inlineOnly = _
    rw [settled, settle_eq, copied_eq]
  · let settled := planner.settled fields ledger placements offset
    show (settled.anchored ++ [StreamEntry.stream { index := settled.streamCount }]).filterMap
      StreamEntry.handle? = _
    rw [List.filterMap_append, hanchored, hcount]
    rfl

end Planner

namespace Run

variable {calls : List Call} {planner : Planner} {ledger : Ledger}

/-- All blobs of a call are placed. -/
theorem placed (h : Run calls planner ledger) {call : Call} (hcall : call ∈ calls) :
    ∀ entry ∈ call.fields.blobs, ∃ offset, ledger.offset? entry.2 = some offset := by
  intro entry hentry
  rcases h.exists_holds hcall with ⟨hempty, -⟩ | ⟨handle, target, hholds⟩
  · rw [FieldSet.blobs_eq_nil_of_isEmpty hempty] at hentry
    cases hentry
  · obtain ⟨offset, hoffset, -⟩ := hholds.blobs entry hentry
    exact ⟨offset, hoffset⟩

/-- The streams of each kind are filed in the order of the calls. -/
theorem map_handle_eq (h : Run calls planner ledger) :
    (inlineCalls calls).map Call.handle = planner.inlineOnly.map some ∧
      (outOfLineCalls calls).map Call.handle =
        (planner.anchored.filterMap StreamEntry.handle?).map some := by
  induction h using outcome_induction with
  | new grid ledger hvalid hrun =>
      exact ⟨rfl, rfl⟩
  | meanwhile calls planner ledger later hbefore hledger hrun ih =>
      exact ih
  | skipped calls planner ledger fields hbefore hempty call hrun ih =>
      rw [inlineCalls_append_of_isEmpty hempty,
        outOfLineCalls_append_of_no_blobs (FieldSet.blobs_eq_nil_of_isEmpty hempty)]
      exact ih
  | inlineOnly calls planner ledger fields hbefore hsome hblobs next call hrun ih =>
      rw [inlineCalls_append_of_no_blobs hsome hblobs, outOfLineCalls_append_of_no_blobs hblobs]
      refine ⟨?_, ih.2⟩
      show _ = (planner.inlineOnly ++ [Handle.mk planner.streamCount]).map some
      rw [List.map_append, List.map_append, ih.1]
      rfl
  | admitted calls planner ledger fields first rest hbefore hsome hfields hfresh
      placed next call hrun ih =>
      have hblobs := hfields.blobs_ne_nil
      obtain ⟨hinline, hanchored⟩ :=
        planner.handles_admitted fields placed (first :: rest) first.offset
      rw [inlineCalls_append_of_blobs hblobs, outOfLineCalls_append_of_blobs hblobs, hinline,
        hanchored]
      refine ⟨ih.1, ?_⟩
      rw [List.map_append, List.map_append, ih.2]
      rfl

/-- The anchored part of a layout is what the demands of the calls with blobs make of an empty
one. -/
theorem anchorage_eq (h : Run calls planner ledger) :
    planner.anchorage =
      ((outOfLineCalls calls).map fun call => call.fields.demand ledger).foldl Anchorage.take
        { spacing := planner.grid.spacing } := by
  -- Demands of earlier calls stay the same while the ledger grows.
  have hkept : ∀ {calls : List Call} {planner : Planner} {ledger later : Ledger},
      Run calls planner ledger → ledger.Extends later →
      (outOfLineCalls calls).map (fun call => call.fields.demand later) =
        (outOfLineCalls calls).map fun call => call.fields.demand ledger := by
    intro calls planner ledger later hrun hledger
    refine List.map_congr_left ?_
    intro call hcall
    exact FieldSet.demand_of_extends hledger (hrun.placed (mem_outOfLineCalls_iff.mp hcall).1)
  induction h using outcome_induction with
  | new grid ledger hvalid hrun =>
      rfl
  | meanwhile calls planner ledger later hbefore hledger hrun ih =>
      rw [hkept hbefore hledger]
      exact ih
  | skipped calls planner ledger fields hbefore hempty call hrun ih =>
      rw [outOfLineCalls_append_of_no_blobs (FieldSet.blobs_eq_nil_of_isEmpty hempty)]
      exact ih
  | inlineOnly calls planner ledger fields hbefore hsome hblobs next call hrun ih =>
      rw [outOfLineCalls_append_of_no_blobs hblobs,
        hbefore.invariant.anchorage_keepInlineOnly fields]
      exact ih
  | admitted calls planner ledger fields first rest hbefore hsome hfields hfresh
      placed next call hrun ih =>
      have hblobs := hfields.blobs_ne_nil
      have hledger : ledger.Extends placed :=
        Ledger.AllFresh.extends_placeAll (hfields.entries ▸ hfresh)
      have hgrid : next.grid = planner.grid :=
        (hfields.extends_admitted placed first.offset).grid_eq
      rw [outOfLineCalls_append_of_blobs hblobs, List.map_append, hkept hbefore hledger,
        List.foldl_append, hgrid, ← ih, hfields.anchorage_admitted hbefore.invariant placed,
        List.map_singleton, List.foldl_cons, List.foldl_nil, hfields.demand_eq hfresh]

end Run
end AnchoredFields

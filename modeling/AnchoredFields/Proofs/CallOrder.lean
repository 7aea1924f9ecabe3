import AnchoredFields.Proofs.CallStreams

/-!
# The order of the calls of a run

Every call was made on the layout that the calls before it left, and its blobs were placed
behind theirs.  So what one call does to a layout can be told from the calls before it, and
blobs stand in the order of the calls.

* `Run.before`: the first calls of a run are a run;
* `Run.anchorage_after`: what a call does to the anchored part;
* `Run.ascending`: the blobs of the calls stand one behind the other.
-/

namespace AnchoredFields

/-! ### Calls in the order in which they were made -/

/-- The layout that calls on an empty layout left. -/
def layoutAfter (grid : AnchorGrid) (calls : List Call) : Planner :=
  (calls.getLast?.map Call.after).getD { grid := grid }

theorem layoutAfter_append (grid : AnchorGrid) (calls : List Call) (call : Call) :
    layoutAfter grid (calls ++ [call]) = call.after := by
  simp [layoutAfter]

namespace Run

variable {calls : List Call} {planner : Planner} {ledger : Ledger}

/-- The first calls of a run are a run, and its layout continues theirs. -/
theorem before (h : Run calls planner ledger) {first rest : List Call}
    (hcalls : calls = first ++ rest) :
    Run first (layoutAfter planner.grid first) ledger ∧
      (layoutAfter planner.grid first).Extends planner := by
  -- A run ends with its last call, so what is behind the first calls is split at its end.
  induction h generalizing rest with
  | new hnew ledger =>
      obtain ⟨rfl, rfl⟩ := List.nil_eq_append_iff.mp hcalls
      obtain ⟨hvalid, rfl⟩ := Planner.new_eq_ok_iff.mp hnew
      exact ⟨.new hnew ledger, Planner.Extends.refl _⟩
  | meanwhile hbefore hledger ih =>
      obtain ⟨hfirst, hplanner⟩ := ih hcalls
      exact ⟨hfirst.meanwhile hledger, hplanner⟩
  | @call calls planner ledger fields handle next hbefore hmade events hcall ih =>
      obtain ⟨-, hextends⟩ := Work.invariant_encode hbefore.invariant hmade hcall
      obtain ⟨hledger, -⟩ := Work.kept_encode hbefore.invariant hmade hcall
      rcases List.eq_nil_or_concat rest with rfl | ⟨middle, last, rfl⟩
      · rw [List.append_nil] at hcalls
        rw [← hcalls, layoutAfter_append]
        exact ⟨hbefore.call hmade events hcall, Planner.Extends.refl _⟩
      · rw [List.concat_eq_append, ← List.append_assoc] at hcalls
        obtain ⟨hfirst, hplanner⟩ := ih (List.append_inj_left' hcalls rfl)
        rw [hextends.grid_eq]
        exact ⟨hfirst.meanwhile hledger, hplanner.trans hextends⟩

/-- A call without blobs leaves the anchored part as it is, and one with blobs makes its
demand. -/
theorem anchorage_after (h : Run calls planner ledger) {first rest : List Call} {call : Call}
    (hcalls : calls = first ++ call :: rest) :
    call.after.anchorage =
      if call.fields.blobs = [] then (layoutAfter planner.grid first).anchorage
      else (layoutAfter planner.grid first).anchorage.take (call.fields.demand ledger) := by
  obtain ⟨hbefore, hextends⟩ := h.before hcalls
  have hsnoc : calls = (first ++ [call]) ++ rest := by
    rw [hcalls, List.append_assoc, List.singleton_append]
  obtain ⟨hafter, hextends'⟩ := h.before hsnoc
  rw [layoutAfter_append] at hafter hextends'
  have hgrid : call.after.grid = (layoutAfter planner.grid first).grid :=
    hextends'.grid_eq.symm.trans hextends.grid_eq
  rw [hafter.anchorage_eq, hbefore.anchorage_eq, hgrid]
  by_cases hblobs : call.fields.blobs = []
  · rw [if_pos hblobs, outOfLineCalls_append_of_no_blobs hblobs]
  · rw [if_neg hblobs, outOfLineCalls_append_of_blobs hblobs, List.map_append,
      List.foldl_append]
    rfl

end Run

/-! ### Blobs in the order of the calls -/

/-- The first blob of a call stands in front of all blobs of another one. -/
def Call.Precedes (ledger : Ledger) (call later : Call) : Prop :=
  ∀ entry ∈ later.fields.blobs, ∃ offset,
    ledger.offset? entry.2 = some offset ∧ call.fields.firstOffset ledger ≤ offset

/-- The blobs of calls stand one behind the other, in the order of the calls. -/
structure Ascending (ledger : Ledger) (calls : List Call) : Prop where
  exists_first :
    ∀ call ∈ calls, ∃ entry more,
      call.fields.blobs = entry :: more ∧
        ledger.offset? entry.2 = some (call.fields.firstOffset ledger)
  precedes_self : ∀ call ∈ calls, call.Precedes ledger call
  precedes : calls.Pairwise (Call.Precedes ledger)

namespace Run

variable {calls : List Call} {planner : Planner} {ledger : Ledger}

/-- A call with blobs has a first one, which is placed. -/
theorem exists_first (h : Run calls planner ledger) {call : Call}
    (hcall : call ∈ outOfLineCalls calls) :
    ∃ entry more,
      call.fields.blobs = entry :: more ∧
        ledger.offset? entry.2 = some (call.fields.firstOffset ledger) := by
  obtain ⟨hmem, hblobs⟩ := mem_outOfLineCalls_iff.mp hcall
  obtain ⟨entry, more, hsplit⟩ := List.exists_cons_of_ne_nil hblobs
  have hentry : entry ∈ call.fields.blobs := hsplit ▸ List.mem_cons_self
  obtain ⟨offset, hoffset⟩ := h.placed hmem entry hentry
  refine ⟨entry, more, hsplit, ?_⟩
  simp [FieldSet.firstOffset, FieldSet.offsets, hsplit, hoffset]

/-- Blobs are placed in the order of the calls, and within a call in the order of the tags. -/
theorem blobs_ascend (h : Run calls planner ledger) :
    ((outOfLineCalls calls).flatMap fun call => call.fields.offsets ledger).Pairwise
      fun x y => ∀ a ∈ x.2, ∀ b ∈ y.2, a ≤ b := by
  obtain ⟨placements, houtlined⟩ := h.exists_outlined
  rw [List.flatMap_def, houtlined.flatten_offsets, List.pairwise_map]
  refine (houtlined.ordered h).imp ?_
  intro first next hordered a ha b hb
  cases ha
  cases hb
  exact hordered.1

/-- A placed blob is listed with its offset. -/
theorem exists_listed (h : Run calls planner ledger) {call : Call}
    (hcall : call ∈ outOfLineCalls calls)
    {entry : Tag × Blob} (hentry : entry ∈ call.fields.blobs) :
    ∃ offset,
      ledger.offset? entry.2 = some offset ∧
        (entry.1, some offset) ∈ call.fields.offsets ledger := by
  obtain ⟨offset, hoffset⟩ := h.placed (mem_outOfLineCalls_iff.mp hcall).1 entry hentry
  exact ⟨offset, hoffset, (FieldSet.mem_offsets_iff hentry).mpr hoffset⟩

/-- The blobs of the calls of a run stand one behind the other. -/
theorem ascending (h : Run calls planner ledger) : Ascending ledger (outOfLineCalls calls) := by
  have hascend := h.blobs_ascend
  rw [List.pairwise_flatMap] at hascend
  refine ⟨fun call hcall => h.exists_first hcall, ?_, ?_⟩
  · intro call hcall entry hentry
    obtain ⟨first, more, hsplit, hfirst⟩ := h.exists_first hcall
    obtain ⟨offset, hoffset, hlisted⟩ := h.exists_listed hcall hentry
    refine ⟨offset, hoffset, ?_⟩
    rcases List.mem_cons.mp (hsplit ▸ hentry) with rfl | hlater
    · rw [hfirst, Option.some.injEq] at hoffset
      exact UInt32.le_of_eq hoffset
    · have hown := hascend.1 call hcall
      rw [FieldSet.offsets, hsplit, List.map_cons, List.pairwise_cons] at hown
      have hbehind : (entry.1, some offset) ∈ more.map fun e => (e.1, ledger.offset? e.2) :=
        List.mem_map.mpr ⟨entry, hlater, by rw [hoffset]⟩
      exact hown.1 _ hbehind _ hfirst _ rfl
  · refine hascend.2.imp_of_mem ?_
    intro call later hcall hlater hordered entry hentry
    obtain ⟨first, more, hsplit, hfirst⟩ := h.exists_first hcall
    obtain ⟨offset, hoffset, hlisted⟩ := h.exists_listed hlater hentry
    have hmem : first ∈ call.fields.blobs := hsplit ▸ List.mem_cons_self
    have hfront := (FieldSet.mem_offsets_iff hmem).mpr hfirst
    exact ⟨offset, hoffset, hordered _ hfront _ hlisted _ rfl _ rfl⟩

end Run

end AnchoredFields

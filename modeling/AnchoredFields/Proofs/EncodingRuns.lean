import AnchoredFields.Layout.Placing
import AnchoredFields.Proofs.EncodingOutcome

/-!
# Runs of calls

A layout is built by calls of `Work.encode` that return, one after the other; other
layouts may place blobs of their own in between.  What a call did is kept: the
layout at the end of the run still has the stream of every field set, behind the
anchor it was written for, and every blob at the offset that the ledger names.

* `Run`: the calls, with the layout and the ledger they lead to;
* `Run.invariant`: the invariant of the layout;
* `Run.handles_eq`: handles are given out in order;
* `Run.exists_holds`: what is kept of a call with fields.
-/

namespace AnchoredFields

namespace Ledger

/-- A ledger that has all entries of another one. -/
def Extends (earlier later : Ledger) : Prop :=
  ∀ blob offset, earlier.offset? blob = some offset → later.offset? blob = some offset

theorem Extends.refl (ledger : Ledger) : ledger.Extends ledger :=
  fun _ _ h => h

theorem Extends.trans {earlier middle later : Ledger}
    (h : earlier.Extends middle) (h' : middle.Extends later) :
    earlier.Extends later :=
  fun blob offset hoffset => h' blob offset (h blob offset hoffset)

/-- Placing fresh blobs leaves the entries there are. -/
theorem AllFresh.extends_placeAll
    {ledger : Ledger} {placements : List Placement}
    (h : ledger.AllFresh (placements.map Placement.entry)) :
    ledger.Extends (ledger.placeAll placements) := by
  intro blob offset hoffset
  rw [offset?_placeAll_of_not_mem]
  · exact hoffset
  · intro placement hmem hid
    have hfresh := h.1 placement.entry (List.mem_map_of_mem hmem)
    have hsame : ledger.offset? placement.blob = ledger.offset? blob :=
      congrArg ledger.placement hid.symm
    rw [Placement.entry, isPlaced, hsame, hoffset] at hfresh
    cases hfresh

end Ledger

/-- Numbers that are stored with all blobs placed do not change any more. -/
theorem FieldSet.stored_of_extends
    {fields : FieldSet} {ledger later : Ledger}
    (hledger : ledger.Extends later)
    (hplaced : ∀ entry ∈ fields.blobs, ∃ offset, ledger.offset? entry.2 = some offset)
    (target : Nat) :
    fields.stored later target = fields.stored ledger target := by
  rw [stored, stored]
  refine List.map_congr_left ?_
  rintro ⟨tag, field⟩ hmem
  cases hvalue : field.value with
  | inline raw =>
      rfl
  | outOfLine blob =>
      have hblob : (tag, blob) ∈ fields.blobs :=
        mem_blobs_iff.mpr ⟨field, mem_present_iff.mp hmem, hvalue⟩
      obtain ⟨offset, hoffset⟩ := hplaced (tag, blob) hblob
      simp only [FieldValue.stored, hoffset, hledger blob offset hoffset]

/-- A call of `encode` that returned. -/
structure Call where
  fields : FieldSet
  handle : Option Handle
  /-- The layout right after the call. -/
  after : Planner

/-- Calls on a layout, and the layout and the ledger that they lead to. -/
inductive Run : List Call → Planner → Ledger → Prop
  | new
      {grid : AnchorGrid} {planner : Planner}
      (hnew : Planner.new grid = .ok planner)
      (ledger : Ledger) :
      Run [] planner ledger
  | meanwhile
      {calls : List Call} {planner : Planner} {ledger later : Ledger}
      (hbefore : Run calls planner ledger)
      (hledger : ledger.Extends later) :
      Run calls planner later
  | call
      {calls : List Call} {planner : Planner} {ledger : Ledger}
      {fields : FieldSet} {handle : Option Handle} {next : Workbench}
      (hbefore : Run calls planner ledger)
      (hmade : fields.Made)
      (events : List Event)
      (hcall :
        Work.encode fields { planner := planner, ledger := ledger, events := events } =
          .ok handle next) :
      Run (calls ++ [{ fields := fields, handle := handle, after := next.planner }])
        next.planner next.ledger

/-- What a layout keeps of a call that returned a handle: the stream, and where everything is
that the stream refers to. -/
structure Planner.Holds (planner : Planner) (ledger : Ledger) (call : Call)
    (handle : Handle) (target : UInt32) : Prop where
  made : call.fields.Made
  some_field : call.fields.isEmpty = false
  handle_eq : call.handle = some handle
  stream_after : call.after.stream handle = some (streamFor call.fields ledger target)
  stream_eq : planner.stream handle = some (streamFor call.fields ledger target)
  /-- The anchor governs the stream, if there is one. -/
  filed :
    (call.fields.blobs = [] ∧ handle ∈ planner.inlineOnly) ∨
      (call.fields.blobs ≠ [] ∧ planner.Governs target handle)
  blobs :
    ∀ entry ∈ call.fields.blobs, ∃ offset,
      ledger.offset? entry.2 = some offset ∧
        target.toNat ≤ offset.toNat ∧
        Placement.alignmentOf entry.1 entry.2 ∣ offset.toNat ∧
        StandsAt entry.2.data offset.toNat planner.outline

namespace Planner

theorem Holds.streamFor_eq
    {planner : Planner} {ledger later : Ledger} {call : Call} {handle : Handle}
    {target : UInt32}
    (h : planner.Holds ledger call handle target)
    (hledger : ledger.Extends later) :
    streamFor call.fields later target = streamFor call.fields ledger target := by
  rw [streamFor, streamFor, FieldSet.stored_of_extends hledger]
  intro entry hentry
  obtain ⟨offset, hoffset, -⟩ := h.blobs entry hentry
  exact ⟨offset, hoffset⟩

/-- What is kept of a call stays, whatever is added to the layout and to the ledger. -/
theorem Holds.extend
    {planner later : Planner} {ledger now : Ledger} {call : Call} {handle : Handle}
    {target : UInt32}
    (h : planner.Holds ledger call handle target)
    (hplanner : planner.Extends later)
    (hledger : ledger.Extends now) :
    later.Holds now call handle target := by
  have hstream := h.streamFor_eq hledger
  refine ⟨h.made, h.some_field, h.handle_eq, ?_, ?_, ?_, ?_⟩
  · rw [hstream]
    exact h.stream_after
  · rw [hstream]
    exact hplanner.stream_eq h.stream_eq
  · rcases h.filed with ⟨hblobs, hmem⟩ | ⟨hblobs, hgoverns⟩
    · exact Or.inl ⟨hblobs, hplanner.inlineOnly.subset hmem⟩
    · exact Or.inr ⟨hblobs, hplanner.governs hgoverns⟩
  · intro entry hentry
    obtain ⟨offset, hoffset, hle, hdvd, hstands⟩ := h.blobs entry hentry
    exact ⟨offset, hledger _ _ hoffset, hle, hdvd, hstands.extend hplanner.outline⟩

theorem holds_keepInlineOnly
    (planner : Planner) (ledger : Ledger) {fields : FieldSet}
    (hmade : fields.Made)
    (hsome : fields.isEmpty = false)
    (hblobs : fields.blobs = []) :
    let later := planner.keepInlineOnly fields (streamFor fields ledger 0)
    let handle : Handle := { index := planner.streamCount }
    later.Holds ledger { fields := fields, handle := some handle, after := later } handle 0 := by
  intro later handle
  have hstream : later.stream handle = some (streamFor fields ledger 0) :=
    stream_addStream planner fields _
  have hfiled : handle ∈ later.inlineOnly :=
    List.mem_append_right planner.inlineOnly List.mem_cons_self
  refine ⟨hmade, hsome, rfl, hstream, hstream, Or.inl ⟨hblobs, hfiled⟩, ?_⟩
  intro entry hentry
  rw [hblobs] at hentry
  cases hentry

theorem Placeable.holds_admitted
    {planner : Planner} {ledger : Ledger} {fields : FieldSet} {first : Placement}
    {rest : List Placement}
    (h : planner.Placeable fields (first :: rest))
    (hinv : planner.Invariant)
    (hsome : fields.isEmpty = false)
    (hfresh : ledger.AllFresh fields.blobs) :
    let placed := ledger.placeAll (first :: rest)
    let later := planner.admitted fields placed (first :: rest) first.offset
    let handle : Handle := { index := planner.streamCount }
    ∃ target,
      later.Holds placed { fields := fields, handle := some handle, after := later } handle
        target := by
  intro placed later handle
  obtain ⟨hsettled, hopen, -⟩ := h.invariant_settled hinv placed
  have hcount := planner.streamCount_settled fields placed (first :: rest) first.offset
  have hcovered :=
    h.covered_settle hinv fun target => (streamFor fields placed target).length
  have hgoverns := hsettled.governs_keepAnchored hopen (fields.locate (first :: rest))
    (streamFor fields placed
      (planner.settled fields placed (first :: rest) first.offset).target)
  have hstream := stream_addStream
    (planner.settled fields placed (first :: rest) first.offset)
    (fields.locate (first :: rest))
    (streamFor fields placed
      (planner.settled fields placed (first :: rest) first.offset).target)
  rw [hcount] at hgoverns hstream
  refine ⟨_, h.made, hsome, rfl, hstream, hstream, Or.inr ⟨h.blobs_ne_nil, hgoverns⟩, ?_⟩
  intro entry hentry
  rw [← h.entries] at hentry
  obtain ⟨placement, hmem, rfl⟩ := List.mem_map.mp hentry
  have houtline : (planner.copied (first :: rest)).outline <+: later.outline :=
    ((extends_settle _ _ _).trans (extends_keepAnchored _ _ _)).outline
  exact
    ⟨placement.offset, h.offset?_placeAll hfresh hmem, hcovered.le placement hmem,
      h.alignment_dvd hmem, (h.standsAt hmem).extend houtline⟩

theorem issued_keepInlineOnly
    (planner : Planner) (fields : FieldSet) (stream : List UInt8) :
    (planner.keepInlineOnly fields stream).issued =
      planner.issued ++ [{ index := planner.streamCount }] :=
  issued_addStream planner fields stream

end Planner

/-- What one call adds to what is kept. -/
theorem Work.kept_encode
    {bench next : Workbench} {fields : FieldSet} {handle : Option Handle}
    (hinv : bench.planner.Invariant)
    (hmade : fields.Made)
    (hencode : encode fields bench = .ok handle next) :
    bench.ledger.Extends next.ledger ∧
      next.planner.issued = bench.planner.issued ++ handle.toList ∧
      ((fields.isEmpty = true ∧ handle = none) ∨
        ∃ given target,
          next.planner.Holds next.ledger
            { fields := fields, handle := handle, after := next.planner } given target) := by
  have houtcome := outcome_encode hinv hmade
  rw [hencode] at houtcome
  cases houtcome with
  | skipped hempty events =>
      exact ⟨Ledger.Extends.refl _, (List.append_nil _).symm, Or.inl ⟨hempty, rfl⟩⟩
  | inlineOnly hsome hblobs events =>
      exact
        ⟨Ledger.Extends.refl _, Planner.issued_keepInlineOnly _ _ _,
          Or.inr ⟨_, _, Planner.holds_keepInlineOnly _ _ hmade hsome hblobs⟩⟩
  | admitted hsome hfields hfresh events =>
      have hholds := hfields.holds_admitted hinv hsome hfresh
      rw [← hfields.entries] at hfresh
      exact ⟨hfresh.extends_placeAll, Planner.issued_admitted _ _ _ _ _, Or.inr ⟨_, hholds⟩⟩

namespace Run

variable {calls : List Call} {planner : Planner} {ledger : Ledger}

theorem reachable (h : Run calls planner ledger) : planner.Reachable := by
  induction h with
  | new hnew ledger =>
      exact .new hnew
  | meanwhile hbefore hledger ih =>
      exact ih
  | @call calls planner ledger fields handle next hbefore hmade events hcall ih =>
      have hbench : (Workbench.mk planner ledger events).planner.Reachable := ih
      exact hbench.returned hmade hcall

theorem invariant (h : Run calls planner ledger) : planner.Invariant :=
  h.reachable.invariant

theorem made (h : Run calls planner ledger) {call : Call} (hmem : call ∈ calls) :
    call.fields.Made := by
  induction h with
  | new hnew ledger =>
      cases hmem
  | meanwhile hbefore hledger ih =>
      exact ih hmem
  | call hbefore hmade events hcall ih =>
      rcases List.mem_append.mp hmem with hearlier | hlast
      · exact ih hearlier
      · rw [List.mem_singleton.mp hlast]
        exact hmade

/-- Handles are given out in the order of the calls, and numbered from zero. -/
theorem handles_eq (h : Run calls planner ledger) :
    calls.filterMap Call.handle = planner.issued := by
  induction h with
  | new hnew ledger =>
      obtain ⟨-, rfl⟩ := Planner.new_eq_ok_iff.mp hnew
      rfl
  | meanwhile hbefore hledger ih =>
      exact ih
  | @call calls planner ledger fields handle next hbefore hmade events hcall ih =>
      obtain ⟨-, hissued, -⟩ := Work.kept_encode hbefore.invariant hmade hcall
      rw [List.filterMap_append, ih, hissued]
      cases handle <;> rfl

/-- At the end of a run, everything is kept of every call. -/
theorem exists_holds (h : Run calls planner ledger) {call : Call} (hmem : call ∈ calls) :
    (call.fields.isEmpty = true ∧ call.handle = none) ∨
      ∃ handle target, planner.Holds ledger call handle target := by
  induction h with
  | new hnew ledger =>
      cases hmem
  | meanwhile hbefore hledger ih =>
      rcases ih hmem with hempty | ⟨handle, target, hholds⟩
      · exact Or.inl hempty
      · exact Or.inr ⟨handle, target, hholds.extend (Planner.Extends.refl _) hledger⟩
  | @call calls planner ledger fields handle next hbefore hmade events hcall ih =>
      have hinv := hbefore.invariant
      obtain ⟨hledger, -, hkept⟩ := Work.kept_encode hinv hmade hcall
      rcases List.mem_append.mp hmem with hearlier | hlast
      · rcases ih hearlier with hempty | ⟨given, target, hholds⟩
        · exact Or.inl hempty
        · have hplanner := (Work.invariant_encode hinv hmade hcall).2
          exact Or.inr ⟨given, target, hholds.extend hplanner hledger⟩
      · rw [List.mem_singleton.mp hlast]
        exact hkept

/-- What holds of an empty layout and is kept by whatever a call comes to holds at the end of
every run. -/
theorem outcome_induction
    {motive : ∀ (calls : List Call) (planner : Planner) (ledger : Ledger),
      Run calls planner ledger → Prop}
    (new : ∀ (grid : AnchorGrid) (ledger : Ledger), grid.Valid →
      ∀ hrun : Run [] { grid := grid } ledger,
      motive [] { grid := grid } ledger hrun)
    (meanwhile : ∀ (calls : List Call) (planner : Planner) (ledger later : Ledger)
      (hbefore : Run calls planner ledger), ledger.Extends later →
      ∀ hrun : Run calls planner later,
      motive calls planner ledger hbefore →
      motive calls planner later hrun)
    (skipped : ∀ (calls : List Call) (planner : Planner) (ledger : Ledger) (fields : FieldSet)
      (hbefore : Run calls planner ledger), fields.isEmpty = true →
      let call : Call := { fields := fields, handle := none, after := planner }
      ∀ hrun : Run (calls ++ [call]) planner ledger,
      motive calls planner ledger hbefore →
      motive (calls ++ [call]) planner ledger hrun)
    (inlineOnly : ∀ (calls : List Call) (planner : Planner) (ledger : Ledger)
      (fields : FieldSet)
      (hbefore : Run calls planner ledger), fields.isEmpty = false → fields.blobs = [] →
      let later := planner.keepInlineOnly fields (Planner.streamFor fields ledger 0)
      let call : Call :=
        { fields := fields, handle := some { index := planner.streamCount }, after := later }
      ∀ hrun : Run (calls ++ [call]) later ledger,
      motive calls planner ledger hbefore →
      motive (calls ++ [call]) later ledger hrun)
    (admitted : ∀ (calls : List Call) (planner : Planner) (ledger : Ledger)
      (fields : FieldSet) (first : Placement) (rest : List Placement)
      (hbefore : Run calls planner ledger), fields.isEmpty = false →
      planner.Placeable fields (first :: rest) → ledger.AllFresh fields.blobs →
      let placed := ledger.placeAll (first :: rest)
      let later := planner.admitted fields placed (first :: rest) first.offset
      let call : Call :=
        { fields := fields, handle := some { index := planner.streamCount }, after := later }
      ∀ hrun : Run (calls ++ [call]) later placed,
      motive calls planner ledger hbefore →
      motive (calls ++ [call]) later placed hrun)
    (h : Run calls planner ledger) :
    motive calls planner ledger h := by
  induction h with
  | new hnew ledger =>
      obtain ⟨hvalid, rfl⟩ := Planner.new_eq_ok_iff.mp hnew
      exact new _ ledger hvalid _
  | meanwhile hbefore hledger ih =>
      exact meanwhile _ _ _ _ hbefore hledger _ ih
  | @call calls planner ledger fields handle next hbefore hmade events hcall ih =>
      have hrun := hbefore.call hmade events hcall
      have hinv : (Workbench.mk planner ledger events).planner.Invariant := hbefore.invariant
      have houtcome := Work.outcome_encode hinv hmade
      rw [hcall] at houtcome
      cases houtcome with
      | skipped hempty events =>
          exact skipped _ _ _ _ hbefore hempty hrun ih
      | inlineOnly hsome hblobs events =>
          exact inlineOnly _ _ _ _ hbefore hsome hblobs hrun ih
      | admitted hsome hfields hfresh events =>
          exact admitted _ _ _ _ _ _ hbefore hsome hfields hfresh hrun ih

end Run
end AnchoredFields

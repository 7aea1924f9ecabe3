import AnchoredFields.Proofs.CallKinds
import AnchoredFields.Proofs.EqualRegions

/-!
# What a layout holds for its calls

Handles tell which stream a call got, and the ledger tells where its blobs are.  Call by
call, in the order of the calls, these are the streams of the layout and the placements
of its blobs.

* `Run.filterMap_streamOf`, `Run.map_streamOf_outOfLineCalls`,
  `Run.map_streamOf_inlineCalls`: the streams of all calls and of each kind;
* `Outlined.flatten_offsets`: the offsets of the blobs;
* `Run.exists_two_groups`: a run whose layout has two anchors.
-/

namespace AnchoredFields

/-- The stream of a call, if it has one. -/
def Planner.streamOf (planner : Planner) (call : Call) : Option (List UInt8) :=
  call.handle.bind planner.stream

theorem Planner.streamOf_of_none {call : Call} (h : call.handle = none) (planner : Planner) :
    planner.streamOf call = none := by
  rw [streamOf, h, Option.bind_none]

theorem Planner.Holds.streamOf_eq {planner : Planner} {ledger : Ledger} {call : Call}
    {handle : Handle} {target : UInt32} (h : planner.Holds ledger call handle target) :
    planner.streamOf call = some (streamFor call.fields ledger target) := by
  rw [streamOf, h.handle_eq, Option.bind_some, h.stream_eq]

/-- The streams are those of the handles that were given out. -/
theorem Planner.map_stream_issued (planner : Planner) :
    planner.issued.map planner.stream = planner.streams.map some := by
  refine List.ext_getElem ?_ ?_
  · simp [issued, streamCount]
  · intro i hi hi'
    simp [issued, stream]

/-- What is found by handle is found for calls that returned the handles. -/
theorem map_bind_handle {α : Type} {calls : List Call} {handles : List Handle}
    (h : calls.map Call.handle = handles.map some)
    (f : Handle → Option α) :
    calls.map (fun call => call.handle.bind f) = handles.map f := by
  have hbind := congrArg (List.map fun handle => handle.bind f) h
  rw [List.map_map, List.map_map] at hbind
  exact hbind

/-- The offsets of all blobs, call by call, are those of the placements of the run. -/
theorem Outlined.flatten_offsets {calls : List Call} {planner : Planner} {ledger : Ledger}
    {placements : List Placement}
    (h : Outlined calls planner ledger placements) :
    ((outOfLineCalls calls).map fun call => call.fields.offsets ledger).flatten =
      placements.map fun placement => (placement.tag, some placement.offset) := by
  have hflat :
      (outOfLineCalls calls).flatMap (fun call => call.fields.offsets ledger) =
        (calls.flatMap fun call => call.fields.blobs).map
          fun entry => (entry.1, ledger.offset? entry.2) := by
    rw [← flatMap_blobs_outOfLineCalls, List.map_flatMap]
    rfl
  rw [← List.flatMap_def, hflat, ← h.entries_eq, List.map_map]
  refine List.map_congr_left ?_
  intro placement hmem
  exact congrArg (Prod.mk placement.tag) (h.offset_eq placement hmem)

namespace Run

variable {calls : List Call} {planner : Planner} {ledger : Ledger}

/-- The streams of the calls with blobs are those behind the anchors. -/
theorem map_streamOf_outOfLineCalls (h : Run calls planner ledger) :
    (outOfLineCalls calls).map planner.streamOf =
      (planner.anchorage.blocks.filterMap Block.stream?).map some := by
  refine (map_bind_handle h.map_handle_eq.2 planner.stream).trans ?_
  exact h.invariant.map_stream_handles fun _ hmem => Planner.Invariant.mem_filed_of_anchored hmem

/-- The streams of the calls without blobs are those in front of the anchors. -/
theorem map_streamOf_inlineCalls (h : Run calls planner ledger) :
    (inlineCalls calls).map planner.streamOf = planner.inlineOnly.map planner.stream :=
  map_bind_handle h.map_handle_eq.1 planner.stream

/-- The streams of a layout are those of its calls, in the order of the calls. -/
theorem filterMap_streamOf (h : Run calls planner ledger) :
    calls.filterMap planner.streamOf = planner.streams := by
  have hstreams := congrArg (List.filterMap id) planner.map_stream_issued
  rw [List.filterMap_map, List.filterMap_map, Function.id_comp, Function.id_comp,
    List.filterMap_some, ← h.handles_eq, List.filterMap_filterMap] at hstreams
  exact hstreams

/-- There is a stream for every call that returned a handle. -/
theorem exists_streamOf (h : Run calls planner ledger) {call : Call} (hcall : call ∈ calls)
    (hsome : call.handle ≠ none) :
    ∃ stream, planner.streamOf call = some stream := by
  rcases h.exists_holds hcall with ⟨-, hnone⟩ | ⟨handle, target, hholds⟩
  · exact absurd hnone hsome
  · exact ⟨_, hholds.streamOf_eq⟩

/-- Streams without blobs are made of the numbers in the field sets. -/
theorem streamOf_eq_of_no_blobs (h : Run calls planner ledger) {call : Call}
    (hcall : call ∈ inlineCalls calls) :
    planner.streamOf call = some (Planner.streamFor call.fields {} 0) := by
  obtain ⟨hmem, hsome, hblobs⟩ := mem_inlineCalls_iff.mp hcall
  rcases h.exists_holds hmem with ⟨hempty, -⟩ | ⟨handle, target, hholds⟩
  · rw [hsome] at hempty
    cases hempty
  · rw [hholds.streamOf_eq, Planner.streamFor_of_no_blobs hblobs]

/-- A run of three streams: the group of the first one has no room for the second one, and the
third one needs no anchor. -/
theorem exists_two_groups :
    ∃ calls planner ledger,
      Run calls planner ledger ∧
        planner.grid = { shift := 6 } ∧
          planner.statistics.anchors = 2 ∧
            planner.statistics.paddingBytes = 24 ∧
              planner.statistics.outlineBytes = 21 ∧
                calls.map (fun call => call.after.target) = [0, 16, 16] ∧
                  (inlineCalls calls).map (fun call => ((planner.streamOf call).getD []).length) =
                      [3] ∧
                    (outOfLineCalls calls).map
                        (fun call => ((planner.streamOf call).getD []).length) =
                      [32, 32] := by
  have hnew : Planner.new { shift := 6 } = .ok { grid := { shift := 6 } } := rfl
  have hfirst :
      FieldSet.empty.write
          (Write.crowded .sealedVirtualSlots
            { id := 0, payload := .fill 1 20, alignment := 4 }) = .ok _ :=
    rfl
  have hsecond :
      FieldSet.empty.write
          (Write.crowded .sealedVirtualSlots
            { id := 1, payload := .bytes [2], alignment := 4 }) = .ok _ :=
    rfl
  have hthird :
      FieldSet.empty.write [⟨{}, .nullableValueOffset, .inline 260⟩] = .ok _ :=
    rfl
  have hone := (Run.new hnew {}).call ⟨_, hfirst⟩ [] rfl
  have htwo := hone.call ⟨_, hsecond⟩ [] rfl
  have hthree := htwo.call ⟨_, hthird⟩ [] rfl
  exact ⟨_, _, _, hthree, rfl, rfl, rfl, rfl, rfl, rfl, rfl⟩

end Run
end AnchoredFields

import AnchoredFields.Proofs.CallKinds

/-!
# What the statistics count

The counters of streams, tags and sizes are those of the streams that the layout
holds, and of the field sets that they were made from.  They do not depend on the
order of the calls.

* `Counted.addStream`: one more stream;
* `Run.counted`: the counters at the end of a run.
-/

namespace AnchoredFields

attribute [ext] Statistics

/-- A tag is listed if its field is set. -/
theorem FieldSet.mem_tags_iff {fields : FieldSet} {tag : Tag} :
    tag ∈ fields.present.map Prod.fst ↔ (fields.get tag).isSome = true := by
  rw [List.mem_map, Option.isSome_iff_exists]
  constructor
  · rintro ⟨⟨t, field⟩, hmem, rfl⟩
    exact ⟨field, mem_present_iff.mp hmem⟩
  · rintro ⟨field, hfield⟩
    exact ⟨(tag, field), mem_present_iff.mpr hfield, rfl⟩

/-- The counters of streams, tags and sizes agree with the calls and with the streams. -/
structure Counted (calls : List Call) (planner : Planner) : Prop where
  streams_eq : planner.statistics.streams = planner.streamCount
  tagCount_eq :
    ∀ tag,
      planner.statistics.tagCount tag =
        calls.countP fun call => (call.fields.get tag).isSome
  sizeCount_eq :
    ∀ b,
      planner.statistics.sizeCount b =
        planner.streams.countP fun stream => Statistics.bucket stream.length = b

namespace Counted

variable {calls : List Call} {planner : Planner}

/-- A call without fields is not counted. -/
theorem skip (h : Counted calls planner) {call : Call} (hempty : call.fields.isEmpty = true) :
    Counted (calls ++ [call]) planner := by
  refine ⟨h.streams_eq, ?_, h.sizeCount_eq⟩
  intro tag
  have hnone : ¬(call.fields.get tag).isSome = true := by
    rw [← FieldSet.mem_tags_iff, FieldSet.isEmpty_iff.mp hempty]
    exact List.not_mem_nil
  rw [List.countP_append, List.countP_singleton, if_neg hnone]
  exact h.tagCount_eq tag

/-- One more stream is counted under its tags and its size. -/
theorem addStream (h : Counted calls planner) {call : Call} {fields : FieldSet}
    (htags : fields.present.map Prod.fst = call.fields.present.map Prod.fst)
    (stream : List UInt8) :
    Counted (calls ++ [call]) (planner.addStream fields stream) := by
  refine ⟨?_, ?_, ?_⟩
  · show planner.statistics.streams + 1 = (planner.streams ++ [stream]).length
    rw [h.streams_eq, List.length_append]
    rfl
  · intro tag
    show (if tag ∈ fields.present.map Prod.fst then _ else _) = _
    rw [htags, List.countP_append, List.countP_singleton, ← h.tagCount_eq tag]
    by_cases hsome : (call.fields.get tag).isSome = true
    · rw [if_pos (FieldSet.mem_tags_iff.mpr hsome), if_pos hsome]
    · rw [if_neg (fun hmem => hsome (FieldSet.mem_tags_iff.mp hmem)), if_neg hsome]
      rfl
  · intro b
    show (if b = Statistics.bucket stream.length then _ else _) =
      (planner.streams ++ [stream]).countP _
    rw [List.countP_append, List.countP_singleton, ← h.sizeCount_eq b]
    by_cases hbucket : b = Statistics.bucket stream.length
    · rw [if_pos hbucket, if_pos (decide_eq_true hbucket.symm)]
    · rw [if_neg hbucket, if_neg (by simpa using fun heq => hbucket heq.symm)]
      rfl

/-- Copying blobs and settling on a group leave the counters as they are. -/
theorem settled (h : Counted calls planner) (fields : FieldSet) (ledger : Ledger)
    (placements : List Placement) (offset : UInt32) :
    Counted calls (planner.settled fields ledger placements offset) := by
  rw [Planner.settled, Planner.settle_eq, Planner.copied_eq]
  exact ⟨h.streams_eq, h.tagCount_eq, h.sizeCount_eq⟩

end Counted

/-- The statistics of a run count its streams, their tags and their sizes. -/
theorem Run.counted {calls : List Call} {planner : Planner} {ledger : Ledger}
    (h : Run calls planner ledger) :
    Counted calls planner := by
  induction h using outcome_induction with
  | new grid ledger hvalid hrun =>
      exact ⟨rfl, fun _ => rfl, fun _ => rfl⟩
  | meanwhile calls planner ledger later hbefore hledger hrun ih =>
      exact ih
  | skipped calls planner ledger fields hbefore hempty call hrun ih =>
      exact ih.skip hempty
  | inlineOnly calls planner ledger fields hbefore hsome hblobs next call hrun ih =>
      have hnext :
          Counted (calls ++ [call])
            (planner.addStream fields (Planner.streamFor fields ledger 0)) :=
        ih.addStream rfl _
      exact ⟨hnext.streams_eq, hnext.tagCount_eq, hnext.sizeCount_eq⟩
  | admitted calls planner ledger fields first rest hbefore hsome hfields hfresh
      placed next call hrun ih =>
      let settled := planner.settled fields placed (first :: rest) first.offset
      have hsettled : Counted calls settled := ih.settled _ _ _ _
      have hnext :
          Counted (calls ++ [call])
            (settled.addStream (fields.locate (first :: rest))
              (Planner.streamFor fields placed settled.target)) :=
        hsettled.addStream (FieldSet.tags_locate fields (first :: rest)) _
      exact ⟨hnext.streams_eq, hnext.tagCount_eq, hnext.sizeCount_eq⟩

end AnchoredFields

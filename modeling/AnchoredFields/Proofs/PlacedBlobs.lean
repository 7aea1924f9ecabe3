import AnchoredFields.Proofs.EncodingOutcome

/-!
# Which blobs a call can place

A call of `Work.encode` changes the ledger and the records of what was copied for the blobs of
its own field set only, also if it ends in a failure on the way.  This needs no invariant of
the layout: it is a property of every step, and it is kept when steps follow one another.

* `Work.Within.bind`: steps that follow one another;
* `Work.encode_within`: the whole call.
-/

namespace AnchoredFields

/-- Between two states of a workbench, only blobs of a list were placed. -/
structure Workbench.PlacedWithin (blobs : List Blob) (bench next : Workbench) : Prop where
  entries :
    ∀ blob, (∀ other ∈ blobs, other.id ≠ blob.id) →
      next.ledger.offset? blob = bench.ledger.offset? blob
  records :
    ∃ more,
      next.planner.records = bench.planner.records ++ more ∧
        ∀ record ∈ more, record.blob ∈ blobs

namespace Workbench.PlacedWithin

variable {blobs : List Blob} {bench middle next : Workbench}

/-- Nothing is placed while the ledger and the records stay as they are. -/
theorem of_eq (hledger : next.ledger = bench.ledger)
    (hrecords : next.planner.records = bench.planner.records) :
    PlacedWithin blobs bench next where
  entries := fun blob _ => by rw [hledger]
  records := ⟨[], by rw [hrecords, List.append_nil], fun record hrecord => nomatch hrecord⟩

theorem trans (h : PlacedWithin blobs bench middle) (h' : PlacedWithin blobs middle next) :
    PlacedWithin blobs bench next := by
  obtain ⟨more, hmore, hfirst⟩ := h.records
  obtain ⟨later, hlater, hsecond⟩ := h'.records
  constructor
  · intro blob hblob
    rw [h'.entries blob hblob, h.entries blob hblob]
  · refine ⟨more ++ later, by rw [hlater, hmore, List.append_assoc], ?_⟩
    intro record hrecord
    rcases List.mem_append.mp hrecord with hold | hnew
    · exact hfirst record hold
    · exact hsecond record hnew

end Workbench.PlacedWithin

/-- The blobs that are given places are those of the field set. -/
theorem FieldSet.blob_mem_of_placements
    {fields : FieldSet} {start : Nat} {placements : List Placement}
    (h : fields.placements start = .ok placements) :
    ∀ placement ∈ placements, placement.blob ∈ fields.blobs.map Prod.snd := by
  rw [placements_eq, Placement.ofBlobs] at h
  cases hoffsets : Placement.offsetsFrom start fields.blobs with
  | error failure =>
      rw [hoffsets] at h
      cases h
  | ok offsets =>
      rw [hoffsets] at h
      cases h
      intro placement hmem
      rw [Placement.pair, List.mem_iff_getElem] at hmem
      obtain ⟨i, hi, rfl⟩ := hmem
      rw [List.getElem_zipWith]
      exact List.mem_map_of_mem (List.getElem_mem _)

namespace Work

/-- The state in which work ends, whether it returns or fails. -/
def lastBench {α : Type} : EStateM.Result Failure Workbench α → Workbench
  | .ok _ bench => bench
  | .error _ bench => bench

/-- Work that places no blobs but those of a list, however it ends. -/
def Within {α : Type} (blobs : List Blob) (work : Work α) : Prop :=
  ∀ bench, Workbench.PlacedWithin blobs bench (lastBench (work bench))

namespace Within

variable {blobs : List Blob} {α β : Type}

/-- Work that leaves the ledger and the records alone places nothing. -/
theorem of_eq {work : Work α}
    (h : ∀ bench,
      (lastBench (work bench)).ledger = bench.ledger ∧
        (lastBench (work bench)).planner.records = bench.planner.records) :
    Within blobs work :=
  fun bench => .of_eq (h bench).1 (h bench).2

/-- What is kept by each of two steps is kept by both of them together, also if the first one
fails. -/
theorem bind {work : Work α} {next : α → Work β}
    (hwork : Within blobs work)
    (hnext : ∀ a, Within blobs (next a)) :
    Within blobs (work >>= next) := by
  intro bench
  have hfirst := hwork bench
  rw [bind_apply]
  cases hresult : work bench with
  | ok a middle =>
      rw [hresult] at hfirst
      exact hfirst.trans (hnext a middle)
  | error failure middle =>
      rw [hresult] at hfirst
      exact hfirst

theorem pure (a : α) : Within blobs (pure a) :=
  of_eq fun _ => ⟨rfl, rfl⟩

theorem throw (failure : Failure) : Within blobs (throw failure : Work α) :=
  of_eq fun _ => ⟨rfl, rfl⟩

theorem lift (result : Except Failure α) : Within blobs (lift result) := by
  refine of_eq fun bench => ?_
  cases result <;> exact ⟨rfl, rfl⟩

theorem planner : Within blobs planner :=
  of_eq fun _ => ⟨rfl, rfl⟩

theorem report (event : Event) : Within blobs (report event) :=
  of_eq fun _ => ⟨rfl, rfl⟩

theorem change (f : Planner → Planner) (hf : ∀ planner, (f planner).records = planner.records) :
    Within blobs (change f) :=
  of_eq fun bench => ⟨rfl, hf bench.planner⟩

theorem openGroup (offset : UInt32) : Within blobs (openGroup offset) :=
  (change (fun planner => planner.openGroup offset) fun _ => rfl).bind fun _ =>
    planner.bind fun _ => report _

theorem plan (fields : FieldSet) : Within blobs (plan fields) :=
  planner.bind fun _ => lift _

theorem writeStream (fields : FieldSet) (plan : Plan) : Within blobs (writeStream fields plan) :=
  planner.bind fun _ => (lift _).bind fun stream =>
    (change (fun planner => planner.addStream fields stream) fun _ => rfl).bind fun _ =>
      (report _).bind fun _ => pure _

theorem encodeInlineOnly (fields : FieldSet) : Within blobs (encodeInlineOnly fields) :=
  (plan fields).bind fun plan => (writeStream fields plan).bind fun handle =>
    (change (fun planner => planner.fileInlineOnly handle) fun _ => rfl).bind fun _ => pure _

theorem planInGroup (fields : FieldSet) (offset : UInt32) :
    Within blobs (planInGroup fields offset) := by
  refine planner.bind fun before => ?_
  have hsecond : Within blobs (planOrReopen fields offset) := by
    refine (plan fields).bind fun first => planner.bind fun now => ?_
    by_cases hroom : now.room < first.size
    · rw [if_pos hroom]
      exact
        (change Planner.abandonRoom fun _ => rfl).bind fun _ =>
          (openGroup offset).bind fun _ => plan fields
    · rw [if_neg hroom]
      exact pure first
  by_cases hnone : before.group.isNone = true
  · rw [if_pos hnone]
    exact (openGroup offset).bind fun _ => hsecond
  · rw [if_neg hnone]
    exact hsecond

theorem encodeAnchored (fields : FieldSet) (offset : UInt32) :
    Within blobs (encodeAnchored fields offset) := by
  refine (planInGroup fields offset).bind fun plan => planner.bind fun now => ?_
  by_cases hroom : now.room < plan.size
  · rw [if_pos hroom]
    exact throw _
  · rw [if_neg hroom]
    exact
      (writeStream fields plan).bind fun handle =>
        (change (fun planner => planner.fileAnchored handle plan.size) fun _ => rfl).bind
          fun _ => pure _

/-- A blob is placed by the one step that records it, unless it is placed already. -/
theorem placeBlob {placement : Placement} (hblob : placement.blob ∈ blobs) :
    Within blobs (placeBlob placement) := by
  intro bench
  cases hplaced : bench.ledger.isPlaced placement.blob with
  | true =>
      rw [placeBlob_placed hplaced]
      exact .of_eq rfl rfl
  | false =>
      rw [placeBlob_fresh hplaced]
      constructor
      · intro blob hother
        exact if_neg (hother placement.blob hblob).symm
      · refine ⟨[{ blob := placement.blob, offset := placement.offset }], rfl, ?_⟩
        intro record hrecord
        rw [List.mem_singleton.mp hrecord]
        exact hblob

theorem placeBlobs {placements : List Placement}
    (hblobs : ∀ placement ∈ placements, placement.blob ∈ blobs) :
    Within blobs (placeBlobs placements) := by
  induction placements with
  | nil =>
      exact change Planner.closeOutline fun _ => rfl
  | cons first rest ih =>
      refine (placeBlob (hblobs first List.mem_cons_self)).bind fun _ => ih ?_
      exact fun placement hmem => hblobs placement (List.mem_cons_of_mem _ hmem)

end Within

/-- However a call ends, it placed no blobs but those of its field set. -/
theorem encode_within (fields : FieldSet) :
    Within (fields.blobs.map Prod.snd) (encode fields) := by
  intro bench
  cases hempty : fields.isEmpty with
  | true =>
      obtain ⟨events, hencode⟩ := encode_of_isEmpty bench hempty
      rw [hencode]
      exact .of_eq rfl rfl
  | false =>
      cases hplaced : fields.placements bench.planner.outline.length with
      | error failure =>
          rw [encode_refused hempty hplaced]
          exact .of_eq rfl rfl
      | ok placements =>
          have hblobs := FieldSet.blob_mem_of_placements hplaced
          cases placements with
          | nil =>
              have hencode :
                  encode fields bench =
                    (encodeInlineOnly fields >>= fun handle => pure (some handle)) bench := by
                simp only [encode, hempty, Bool.false_eq_true, if_false, bind_apply,
                  planner_apply, hplaced, lift_ok]
              rw [hencode]
              exact (Within.encodeInlineOnly fields).bind (fun _ => .pure _) bench
          | cons first rest =>
              have hencode :
                  encode fields bench =
                    (placeBlobs (first :: rest) >>= fun _ =>
                      encodeAnchored (fields.locate (first :: rest)) first.offset >>= fun handle =>
                        pure (some handle)) bench := by
                simp only [encode, hempty, Bool.false_eq_true, if_false, bind_apply,
                  planner_apply, hplaced, lift_ok]
              rw [hencode]
              exact
                (Within.placeBlobs hblobs).bind
                  (fun _ => (Within.encodeAnchored _ _).bind fun _ => .pure _) bench

end Work
end AnchoredFields

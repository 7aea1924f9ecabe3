import AnchoredFields.Proofs.CallKinds

/-!
# Planning ahead of encoding

A plan tells the size of a stream before the stream is encoded.  Encoding plans a field set
after it has placed the blobs and filled in their offsets.  A field set that comes from
setters has no offsets yet, so planning it ahead works only without blobs; with blobs, it
faults and names the first of them, although encoding might take the field set.

* `Planner.storedValues_of_unplaced`: the fault, by induction on the fields;
* `Planner.Reachable.plans_ahead`: what planning ahead comes to in every layout.
-/

namespace AnchoredFields

namespace Planner

variable {planner : Planner} {fields : FieldSet}

/-- A blob without an offset is taken to stand at the target and in front of it at once. -/
theorem delta_none (planner : Planner) (tag : Tag) :
    planner.delta tag none =
      .error (.precedesAnchor tag planner.target.toNat planner.target.toNat) := by
  simp [delta]

/-- Fields without offsets cannot be stored if there is a blob among them. -/
theorem storedValues_of_unplaced {fields : List (Tag × OptionalField)}
    (hoffset : ∀ entry ∈ fields, entry.2.offset = none)
    {tag : Tag} {blob : Blob} {rest : List (Tag × Blob)}
    (hblobs : FieldSet.blobsOf fields = (tag, blob) :: rest) :
    planner.storedValues fields =
      .error (.precedesAnchor tag planner.target.toNat planner.target.toNat) := by
  induction fields with
  | nil =>
      cases hblobs
  | cons entry later ih =>
      obtain ⟨first, field⟩ := entry
      have hfirst := hoffset (first, field) List.mem_cons_self
      have hlater := fun next hnext => hoffset next (List.mem_cons_of_mem _ hnext)
      rw [storedValues, storedValue]
      cases hvalue : field.value with
      | inline value =>
          have htail : FieldSet.blobsOf later = (tag, blob) :: rest := by
            simpa only [FieldSet.blobsOf, List.filterMap_cons, hvalue] using hblobs
          rw [ih hlater htail]
          rfl
      | outOfLine other =>
          have hhead : first = tag := by
            simp only [FieldSet.blobsOf, List.filterMap_cons, hvalue, List.cons.injEq,
              Prod.mk.injEq] at hblobs
            exact hblobs.1.1
          rw [hfirst, delta_none, hhead]
          rfl

/-- Planning a field set with blobs faults at the first of them. -/
theorem plan_of_blobs (hmade : fields.Made)
    {tag : Tag} {blob : Blob} {rest : List (Tag × Blob)}
    (hblobs : fields.blobs = (tag, blob) :: rest) :
    planner.plan fields =
      .error (.precedesAnchor tag planner.target.toNat planner.target.toNat) := by
  have hoffset : ∀ entry ∈ fields.present, entry.2.offset = none :=
    fun entry hentry => (hmade.suits (FieldSet.mem_present_iff.mp hentry)).2
  rw [plan, storedValues_of_unplaced hoffset hblobs]
  rfl

/-- A field set without blobs is planned in the size of its stream. -/
theorem plan_of_no_blobs (planner : Planner) (hblobs : fields.blobs = []) :
    planner.plan fields =
      .ok
        { size := (streamFor fields {} 0).length
          generation := planner.generation } :=
  plan_eq (FieldSet.storedValues_of_no_blobs planner hblobs {} 0)

/-- Planning a field set ahead tells the size of its stream, unless encoding starts another group
for it. -/
def Predicts (planner : Planner) (fields : FieldSet) : Prop :=
  ∃ plan,
    planner.plan fields = .ok plan ∧
      ∀ ledger events handle next,
        Work.encode fields { planner := planner, ledger := ledger, events := events } =
            .ok (some handle) next →
          next.planner.statistics.anchors = planner.statistics.anchors →
            ∃ stream, next.planner.stream handle = some stream ∧ stream.length = plan.size

/-- What planning a field set ahead of encoding comes to. -/
structure PlansAhead (planner : Planner) (fields : FieldSet) : Prop where
  plans_iff : (∃ plan, planner.plan fields = .ok plan) ↔ fields.blobs = []
  /-- The fault names the first blob, and the target of the open group in place of its offset. -/
  fault_eq :
    ∀ tag blob rest, fields.blobs = (tag, blob) :: rest →
      planner.plan fields =
        .error (.precedesAnchor tag planner.target.toNat planner.target.toNat)
  /-- A planned field set is encoded in the planned size, and starts no group. -/
  size_eq :
    ∀ plan, planner.plan fields = .ok plan →
      ∀ ledger events handle next,
        Work.encode fields { planner := planner, ledger := ledger, events := events } =
            .ok (some handle) next →
          next.planner.anchored = planner.anchored ∧
            ∃ stream, next.planner.stream handle = some stream ∧ stream.length = plan.size
  /-- Planning ahead keeps its promise for field sets without blobs only. -/
  predicts_iff : planner.Predicts fields ↔ fields.blobs = []

/-- A field set that was planned has no blobs, and is encoded in the planned size. -/
theorem Invariant.encode_planned (h : planner.Invariant) (hmade : fields.Made)
    (hblobs : fields.blobs = []) {ledger : Ledger} {events : List Event} {handle : Handle}
    {next : Workbench}
    (hcall :
      Work.encode fields { planner := planner, ledger := ledger, events := events } =
        .ok (some handle) next) :
    next.planner.anchored = planner.anchored ∧
      ∃ stream,
        next.planner.stream handle = some stream ∧
          stream.length = (streamFor fields {} 0).length := by
  have hinv : (Workbench.mk planner ledger events).planner.Invariant := h
  have houtcome := Work.outcome_encode hinv hmade
  rw [hcall] at houtcome
  cases houtcome with
  | inlineOnly hsome hnone events =>
      refine ⟨rfl, _, stream_addStream planner fields _, ?_⟩
      rw [streamFor_of_no_blobs hblobs]
  | admitted hsome hfields hfresh events =>
      exact absurd hblobs hfields.blobs_ne_nil

/-- In every layout, planning ahead tells the size of every field set without blobs, and faults
for all others. -/
theorem Reachable.plans_ahead (h : planner.Reachable) (hmade : fields.Made) :
    planner.PlansAhead fields := by
  have hplans : (∃ plan, planner.plan fields = .ok plan) ↔ fields.blobs = [] := by
    constructor
    · rintro ⟨plan, hplan⟩
      cases hblobs : fields.blobs with
      | nil =>
          rfl
      | cons first rest =>
          rw [plan_of_blobs hmade hblobs] at hplan
          cases hplan
    · intro hblobs
      exact ⟨_, planner.plan_of_no_blobs hblobs⟩
  have hsize :
      ∀ plan, planner.plan fields = .ok plan →
        ∀ ledger events handle next,
          Work.encode fields { planner := planner, ledger := ledger, events := events } =
              .ok (some handle) next →
            next.planner.anchored = planner.anchored ∧
              ∃ stream,
                next.planner.stream handle = some stream ∧ stream.length = plan.size := by
    intro plan hplan ledger events handle next hcall
    have hblobs := hplans.mp ⟨plan, hplan⟩
    rw [planner.plan_of_no_blobs hblobs] at hplan
    cases hplan
    exact h.invariant.encode_planned hmade hblobs hcall
  refine
    { plans_iff := hplans
      fault_eq := fun _ _ _ hblobs => plan_of_blobs hmade hblobs
      size_eq := hsize
      predicts_iff := ?_ }
  constructor
  · rintro ⟨plan, hplan, -⟩
    exact hplans.mp ⟨plan, hplan⟩
  · intro hblobs
    obtain ⟨plan, hplan⟩ := hplans.mpr hblobs
    exact
      ⟨plan, hplan, fun ledger events handle next hcall _ =>
        (hsize plan hplan ledger events handle next hcall).2⟩

/-- A number of two bytes is planned with its header. -/
theorem Reachable.plans_ahead_of_number :
    ∃ (planner : Planner) (fields : FieldSet) (plan : Plan),
      planner.Reachable ∧ fields.Made ∧ planner.plan fields = .ok plan ∧ plan.size = 3 ∧
        planner.Predicts fields := by
  have hnew : Planner.new { shift := 6 } = .ok { grid := { shift := 6 } } := rfl
  have hwrite : FieldSet.empty.write [⟨{}, .nullableValueOffset, .inline 260⟩] = .ok _ := rfl
  have hahead := (Reachable.new hnew).plans_ahead ⟨_, hwrite⟩
  exact
    ⟨_, _, _, .new hnew, ⟨_, hwrite⟩, plan_of_no_blobs _ rfl, rfl, hahead.predicts_iff.mpr rfl⟩

/-- A blob that encoding takes into the open group cannot be planned ahead. -/
theorem unplanned_of_second_blob :
    ∃ (calls : List Call) (planner : Planner) (ledger : Ledger) (fields : FieldSet)
      (handle : Handle) (next : Workbench),
      Run calls planner ledger ∧ fields.Made ∧
        planner.plan fields = .error (.precedesAnchor .sealedVirtualSlots 0 0) ∧
          Work.encode fields { planner := planner, ledger := ledger } = .ok (some handle) next ∧
            next.planner.statistics.anchors = planner.statistics.anchors := by
  have hnew : Planner.new { shift := 6 } = .ok { grid := { shift := 6 } } := rfl
  have hfirst :
      FieldSet.empty.write
          [⟨{}, .sealedVirtualSlots,
            .outOfLine { id := 0, payload := .bytes [1], alignment := 4 }⟩] =
        .ok _ :=
    rfl
  have hsecond :
      FieldSet.empty.write
          [⟨{}, .sealedVirtualSlots,
            .outOfLine { id := 1, payload := .bytes [2], alignment := 4 }⟩] =
        .ok _ :=
    rfl
  have hone := (Run.new hnew {}).call ⟨_, hfirst⟩ [] rfl
  exact ⟨_, _, _, _, _, _, hone, ⟨_, hsecond⟩, rfl, rfl, rfl⟩

end Planner
end AnchoredFields

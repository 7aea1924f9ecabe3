import AnchoredFields.Proofs.FreshBlobs
import AnchoredFields.Proofs.PlannerInvariant
import AnchoredFields.Proofs.StoredNumbers
import AnchoredFields.Proofs.StreamRoundTrip

/-!
# Writing one stream

The steps that write the stream of a field set are followed one after the other on a
workbench, and their effect on the layout is said by functions that cannot fail.
Each lemma has the condition under which its step succeeds.

* `Planner.settle`, `Planner.Invariant.settle`: the group that a stream joins, which
  always has room for it;
* `Work.planInGroup_eq`: planning settles on that group;
* `Work.encodeInlineOnly_eq`, `Work.encodeAnchored_eq`: what is kept of a stream.
-/

namespace AnchoredFields

namespace Planner

/-- The bytes of the stream of a field set behind an anchor to `target`. -/
def streamFor (fields : FieldSet) (ledger : Ledger) (target : UInt32) : List UInt8 :=
  FieldStream.encode Varint.encode (fields.stored ledger target.toNat)

/-- A layout with a group that is open, at least a new one for the blob at an offset. -/
def opened (planner : Planner) (offset : UInt32) : Planner :=
  if planner.group.isNone then planner.openGroup offset else planner

/-- A layout with a group open that has room for a stream, whose size depends on the target
of the anchor. -/
def settle (planner : Planner) (offset : UInt32) (size : UInt32 → Nat) : Planner :=
  let first := planner.opened offset
  if first.room < size first.target then first.abandonRoom.openGroup offset else first

theorem length_streamFor_le (fields : FieldSet) (ledger : Ledger) (target : UInt32) :
    (streamFor fields ledger target).length ≤ FieldStream.maxSize :=
  FieldStream.length_encode_le (fields.length_stored_le ledger target.toNat)

theorem plan_eq {planner : Planner} {fields : FieldSet} {stored : List (Tag × UInt32)}
    (h : planner.storedValues fields.present = .ok stored) :
    planner.plan fields =
      .ok
        { size := (FieldStream.encode Varint.encode stored).length
          generation := planner.generation } := by
  rw [plan, h, FieldStream.length_encode]
  rfl

/-- A stream is written as it was planned, if nothing changed in between. -/
theorem encodeStream_eq {planner : Planner} {fields : FieldSet} {stored : List (Tag × UInt32)}
    (h : planner.storedValues fields.present = .ok stored) :
    planner.encodeStream fields
        { size := (FieldStream.encode Varint.encode stored).length
          generation := planner.generation } =
      .ok (FieldStream.encode Varint.encode stored) := by
  rw [encodeStream, if_pos rfl, h]
  show (if _ = _ then _ else _) = _
  rw [if_pos rfl]
  rfl

theorem extends_opened (planner : Planner) (offset : UInt32) :
    planner.Extends (planner.opened offset) := by
  rw [opened]
  by_cases hnone : planner.group.isNone = true
  · rw [if_pos hnone]
    exact planner.extends_openGroup offset
  · rw [if_neg hnone]
    exact Extends.refl planner

theorem extends_settle (planner : Planner) (offset : UInt32) (size : UInt32 → Nat) :
    planner.Extends (planner.settle offset size) := by
  have hopened := planner.extends_opened offset
  rw [settle]
  by_cases hroom : (planner.opened offset).room < size (planner.opened offset).target
  · rw [if_pos hroom]
    exact (hopened.trans (extends_abandonRoom _)).trans (extends_openGroup _ offset)
  · rw [if_neg hroom]
    exact hopened

/-- Settling on a group changes the anchors and their counters only. -/
theorem settle_eq (planner : Planner) (offset : UInt32) (size : UInt32 → Nat) :
    planner.settle offset size =
      { planner with
        anchored := (planner.settle offset size).anchored
        group := (planner.settle offset size).group
        generation := (planner.settle offset size).generation
        statistics :=
          { planner.statistics with
            anchors := (planner.settle offset size).statistics.anchors
            paddingBytes := (planner.settle offset size).statistics.paddingBytes } } := by
  have hopened :
      planner.opened offset =
        { planner with
          anchored := (planner.opened offset).anchored
          group := (planner.opened offset).group
          generation := (planner.opened offset).generation
          statistics :=
            { planner.statistics with
              anchors := (planner.opened offset).statistics.anchors
              paddingBytes := (planner.opened offset).statistics.paddingBytes } } := by
    rw [opened]
    by_cases hnone : planner.group.isNone = true
    · rw [if_pos hnone]
      rfl
    · rw [if_neg hnone]
  rw [settle]
  by_cases hroom : (planner.opened offset).room < size (planner.opened offset).target
  · rw [if_pos hroom, hopened]
    rfl
  · rw [if_neg hroom]
    exact hopened

theorem streamCount_settle (planner : Planner) (offset : UInt32) (size : UInt32 → Nat) :
    (planner.settle offset size).streamCount = planner.streamCount := by
  rw [settle_eq]
  rfl

namespace Invariant

variable {planner : Planner}

theorem opened (h : planner.Invariant) {offset : UInt32}
    (hoffset : offset.toNat ≤ planner.outline.length) :
    (planner.opened offset).Invariant ∧ (planner.opened offset).group.isSome = true := by
  rw [Planner.opened]
  by_cases hnone : planner.group.isNone = true
  · rw [if_pos hnone]
    exact ⟨h.openGroup hoffset, rfl⟩
  · rw [if_neg hnone]
    refine ⟨h, ?_⟩
    rwa [← Option.not_isNone, Bool.not_eq_true', Bool.eq_false_iff]

theorem abandonRoom (h : planner.Invariant) : planner.abandonRoom.Invariant :=
  h.grow (Nat.le_refl _) h.outline_le planner.records planner.generation _

/-- Some group always takes a stream of a size that the grid provides for. -/
theorem settle (h : planner.Invariant) {offset : UInt32} {size : UInt32 → Nat}
    (hoffset : offset.toNat ≤ planner.outline.length)
    (hsize : ∀ target, size target ≤ FieldStream.maxSize) :
    (planner.settle offset size).Invariant ∧
      (planner.settle offset size).group.isSome = true ∧
      size (planner.settle offset size).target ≤ (planner.settle offset size).room := by
  obtain ⟨hinv, hopen⟩ := h.opened hoffset
  have houtline : (planner.opened offset).outline = planner.outline := by
    rw [Planner.opened]
    by_cases hnone : planner.group.isNone = true
    · rw [if_pos hnone]
      rfl
    · rw [if_neg hnone]
  have hfits := hinv.grid_valid.stream_fits
  rw [Planner.settle]
  by_cases hroom : (planner.opened offset).room < size (planner.opened offset).target
  · rw [if_pos hroom]
    refine ⟨hinv.abandonRoom.openGroup (houtline ▸ hoffset), rfl, ?_⟩
    have hstream := hsize (anchorTarget offset)
    show size (anchorTarget offset) ≤
      (planner.opened offset).grid.spacing - AnchorGrid.anchorSize
    omega
  · rw [if_neg hroom]
    exact ⟨hinv, hopen, Nat.not_lt.mp hroom⟩

end Invariant
end Planner

namespace Work

/-- A stream that was planned in the present state is written and kept. -/
theorem writeStream_eq
    (bench : Workbench) {fields : FieldSet} {stored : List (Tag × UInt32)}
    (h : bench.planner.storedValues fields.present = .ok stored) :
    ∃ events,
      writeStream fields
          { size := (FieldStream.encode Varint.encode stored).length
            generation := bench.planner.generation } bench =
        .ok { index := bench.planner.streamCount }
          { bench with
            planner := bench.planner.addStream fields (FieldStream.encode Varint.encode stored)
            events := events } := by
  refine
    ⟨bench.events ++
      [.streamEncoded bench.planner.streamCount fields.size
        (FieldStream.encode Varint.encode stored).length], ?_⟩
  simp only [writeStream, bind_apply, planner_apply, Planner.encodeStream_eq h, guarded_ok,
    change_apply, report_apply, pure_apply]

theorem plan_apply
    (bench : Workbench) {fields : FieldSet} {stored : List (Tag × UInt32)}
    (h : bench.planner.storedValues fields.present = .ok stored) :
    plan fields bench =
      .ok
        { size := (FieldStream.encode Varint.encode stored).length
          generation := bench.planner.generation }
        bench := by
  simp only [plan, bind_apply, planner_apply, Planner.plan_eq h, guarded_ok]

/-- A field set without blobs is encoded whatever the state is. -/
theorem encodeInlineOnly_eq
    (bench : Workbench) {fields : FieldSet}
    (hblobs : fields.blobs = [])
    (ledger : Ledger) (target : UInt32) :
    ∃ events,
      encodeInlineOnly fields bench =
        .ok { index := bench.planner.streamCount }
          { bench with
            planner :=
              bench.planner.keepInlineOnly fields (Planner.streamFor fields ledger target)
            events := events } := by
  have hstored :=
    FieldSet.storedValues_of_no_blobs bench.planner hblobs ledger target.toNat
  obtain ⟨events, hwrite⟩ := writeStream_eq bench hstored
  refine ⟨events, ?_⟩
  simp only [encodeInlineOnly, bind_apply, plan_apply bench hstored, hwrite, change_apply,
    pure_apply]
  rfl

theorem openGroup_apply (offset : UInt32) (bench : Workbench) :
    ∃ events,
      openGroup offset bench =
        .ok () { bench with planner := bench.planner.openGroup offset, events := events } :=
  ⟨_, rfl⟩

/-- Plans a stream in the open group, or in a new one if it does not fit there. -/
def planOrReopen (fields : FieldSet) (offset : UInt32) : Work Plan := do
  let first ← plan fields
  if (← planner).room < first.size then
    change Planner.abandonRoom
    openGroup offset
    plan fields
  else
    return first

theorem planInGroup_opened (fields : FieldSet) (offset : UInt32) (bench : Workbench) :
    ∃ events,
      planInGroup fields offset bench =
        planOrReopen fields offset
          { bench with planner := bench.planner.opened offset, events := events } := by
  rw [Planner.opened]
  by_cases hnone : bench.planner.group.isNone = true
  · obtain ⟨events, hopen⟩ := openGroup_apply offset bench
    refine ⟨events, ?_⟩
    simp only [planInGroup, planOrReopen, bind_apply, planner_apply, if_pos hnone, hopen]
  · refine ⟨bench.events, ?_⟩
    simp only [planInGroup, planOrReopen, bind_apply, planner_apply, if_neg hnone]

/-- Planning settles on a group, and plans the stream against the anchor of that group. -/
theorem planInGroup_eq
    {bench : Workbench} {fields : FieldSet} {offset : UInt32}
    {stored : UInt32 → List (Tag × UInt32)} {size : UInt32 → Nat}
    (hsize : ∀ target, size target = (FieldStream.encode Varint.encode (stored target)).length)
    (hfirst :
      (bench.planner.opened offset).storedValues fields.present =
        .ok (stored (bench.planner.opened offset).target))
    (hsecond :
      ((bench.planner.opened offset).abandonRoom.openGroup offset).storedValues fields.present =
        .ok (stored (Planner.anchorTarget offset))) :
    ∃ events,
      planInGroup fields offset bench =
        .ok
          { size := size (bench.planner.settle offset size).target
            generation := (bench.planner.settle offset size).generation }
          { bench with planner := bench.planner.settle offset size, events := events } := by
  obtain ⟨events, hopened⟩ := planInGroup_opened fields offset bench
  have hplan :=
    plan_apply { bench with planner := bench.planner.opened offset, events := events } hfirst
  simp only [← hsize] at hplan
  rw [hopened, planOrReopen, bind_apply, hplan, Planner.settle]
  by_cases hroom :
      (bench.planner.opened offset).room < size (bench.planner.opened offset).target
  · obtain ⟨events', hreopened⟩ :=
      openGroup_apply offset
        { bench with planner := (bench.planner.opened offset).abandonRoom, events := events }
    have hreplan :=
      plan_apply
        { bench with
          planner := (bench.planner.opened offset).abandonRoom.openGroup offset
          events := events' }
        hsecond
    simp only [← hsize] at hreplan
    refine ⟨events', ?_⟩
    simp only [bind_apply, planner_apply, if_pos hroom, change_apply, hreopened, hreplan]
    rfl
  · refine ⟨events, ?_⟩
    simp only [bind_apply, planner_apply, if_neg hroom, pure_apply]

/-- The stream of a field set whose blobs were copied is written behind the anchor of the group
that was settled on. -/
theorem encodeAnchored_eq
    (bench : Workbench) (fields : FieldSet) {offset : UInt32}
    (stored : UInt32 → List (Tag × UInt32)) {size : UInt32 → Nat}
    (hinv : bench.planner.Invariant)
    (hoffset : offset.toNat ≤ bench.planner.outline.length)
    (hsize : ∀ target, size target = (FieldStream.encode Varint.encode (stored target)).length)
    (hmax : ∀ target, size target ≤ FieldStream.maxSize)
    (hfirst :
      (bench.planner.opened offset).storedValues fields.present =
        .ok (stored (bench.planner.opened offset).target))
    (hsecond :
      ((bench.planner.opened offset).abandonRoom.openGroup offset).storedValues fields.present =
        .ok (stored (Planner.anchorTarget offset))) :
    ∃ events,
      encodeAnchored fields offset bench =
        .ok { index := bench.planner.streamCount }
          { bench with
            planner :=
              (bench.planner.settle offset size).keepAnchored fields
                (FieldStream.encode Varint.encode
                  (stored (bench.planner.settle offset size).target))
            events := events } := by
  obtain ⟨events, hplan⟩ := planInGroup_eq hsize hfirst hsecond
  obtain ⟨-, -, hroom⟩ := hinv.settle hoffset hmax
  have hstored :
      (bench.planner.settle offset size).storedValues fields.present =
        .ok (stored (bench.planner.settle offset size).target) := by
    rw [Planner.settle]
    by_cases hlittle :
        (bench.planner.opened offset).room < size (bench.planner.opened offset).target
    · rw [if_pos hlittle]
      exact hsecond
    · rw [if_neg hlittle]
      exact hfirst
  obtain ⟨events', hwrite⟩ :=
    writeStream_eq { bench with planner := bench.planner.settle offset size, events := events }
      hstored
  have hcount := Planner.streamCount_settle bench.planner offset size
  refine ⟨events', ?_⟩
  simp only [← hsize] at hwrite
  simp only [encodeAnchored, bind_apply, hplan, planner_apply, if_neg (Nat.not_lt.mpr hroom),
    hwrite, change_apply, pure_apply]
  rw [Planner.keepAnchored, ← hsize, hcount]

end Work

end AnchoredFields

import AnchoredFields.Layout.Placing
import AnchoredFields.Proofs.EncodingOutcome

/-!
# Calls that are refused

The places of all blobs are worked out before the first of them is copied.  A field
set that does not fit is therefore refused while the workbench is untouched: neither
the layout nor the ledger can tell that the call was made, also if some of the blobs
would have fitted.

* `Placement.ofBlobs_error_eq`: there is one reason to refuse blobs;
* `Work.encode_error_eq`: a refused call returns the workbench it was given;
* `Work.attemptAll_accepted`, `Work.layOut_accepted`: a run leads to where it leads
  without its refused calls, and so does its image;
* `Planner.Reachable.encode_returns_iff`, `Planner.Reachable.encode_spent`: what another
  layout with room makes of a field set that was refused;
* `Planner.Reachable.refused_without_trace`: all that follows a refused call.
-/

namespace AnchoredFields

namespace Placement

/-- Blobs are refused for one reason only. -/
theorem ofBlobs_error_eq
    {blobs : List (Tag × Blob)} {start : Nat} {error : Error}
    (halign : Alignable blobs)
    (h : ofBlobs start blobs = .error (.error error)) :
    error = .layoutOverflow limit := by
  induction blobs generalizing start with
  | nil =>
      cases h
  | cons first rest ih =>
      obtain ⟨tag, blob⟩ := first
      have hfirst : 0 < alignmentOf tag blob := halign (tag, blob) List.mem_cons_self
      rw [ofBlobs_cons hfirst] at h
      simp only at h
      split at h
      · cases h
      split at h
      · cases h
        rfl
      cases hrest : ofBlobs (alignUp (alignmentOf tag blob) start + blob.size) rest with
      | ok later =>
          rw [hrest] at h
          cases h
      | error failure =>
          rw [hrest] at h
          cases h
          exact ih halign.tail hrest

/-- No blob is larger than the end of the blobs that it is placed among. -/
theorem size_le_stopOf
    {blobs : List (Tag × Blob)} (halign : Alignable blobs) (start : Nat)
    {entry : Tag × Blob} (hmem : entry ∈ blobs) :
    entry.2.size ≤ stopOf start blobs := by
  induction blobs generalizing start with
  | nil =>
      cases hmem
  | cons first rest ih =>
      obtain ⟨tag, blob⟩ := first
      rw [stopOf]
      rcases List.mem_cons.mp hmem with rfl | hrest
      · have hlater :=
          le_stopOf halign.tail (alignUp (alignmentOf tag blob) start + blob.size)
        exact Nat.le_trans (Nat.le_add_left _ _) hlater
      · exact ih halign.tail _ hrest

end Placement

namespace Work

/-- A refused call returns the workbench it was given. -/
theorem encode_error_eq
    {bench next : Workbench} {fields : FieldSet} {error : Error}
    (hinv : bench.planner.Invariant)
    (hmade : fields.Made)
    (hcall : encode fields bench = .error (.error error) next) :
    error = .layoutOverflow Placement.limit ∧ next = bench := by
  have houtcome := outcome_encode hinv hmade
  rw [hcall] at houtcome
  cases houtcome with
  | refused hsome hplaced =>
      rw [FieldSet.placements_eq] at hplaced
      exact ⟨Placement.ofBlobs_error_eq hmade.alignable hplaced, rfl⟩

/-- Encodes a field set, and goes on if it is refused. -/
def attempt (fields : FieldSet) : Work (Except Error (Option Handle)) :=
  fun bench =>
    match encode fields bench with
    | .ok handle next => .ok (.ok handle) next
    | .error (.error error) next => .ok (.error error) next
    | .error (.fault fault) next => .error (.fault fault) next

/-- Encodes field sets one after the other, whether or not some are refused. -/
def attemptAll : List FieldSet → Work (List (Except Error (Option Handle)))
  | [] => return []
  | fields :: rest => do
      let answer ← attempt fields
      let answers ← attemptAll rest
      return answer :: answers

/-- Encodes field sets one after the other and places the layout into an image. -/
def layOut (sets : List FieldSet) : Work (List (Except Error (Option Handle)) × Image) := do
  let answers ← attemptAll sets
  let image ← place
  return (answers, image)

/-- Whether a call returned. -/
def returned (answer : Except Error (Option Handle)) : Bool :=
  match answer with
  | .ok _ => true
  | .error _ => false

/-- The field sets that were not refused. -/
def accepted (sets : List FieldSet) (answers : List (Except Error (Option Handle))) :
    List FieldSet :=
  ((sets.zip answers).filter fun entry => returned entry.2).map Prod.fst

theorem attempt_eq_ok_iff
    {bench next : Workbench} {fields : FieldSet} {answer : Except Error (Option Handle)} :
    attempt fields bench = .ok answer next ↔
      (∃ handle, answer = .ok handle ∧ encode fields bench = .ok handle next) ∨
        ∃ error, answer = .error error ∧ encode fields bench = .error (.error error) next := by
  unfold attempt
  cases encode fields bench with
  | ok handle after =>
      simp [eq_comm]
  | error failure after =>
      cases failure <;> simp [eq_comm]

theorem attemptAll_cons (fields : FieldSet) (rest : List FieldSet) (bench : Workbench) :
    attemptAll (fields :: rest) bench =
      match attempt fields bench with
      | .ok answer next =>
          match attemptAll rest next with
          | .ok answers last => .ok (answer :: answers) last
          | .error failure last => .error failure last
      | .error failure next => .error failure next := by
  simp only [attemptAll, bind_apply]
  cases attempt fields bench with
  | error failure next =>
      rfl
  | ok answer next =>
      simp only
      cases attemptAll rest next <;> rfl

/-- All field sets are encoded exactly if the first one is attempted and the others are encoded
after it. -/
theorem attemptAll_cons_eq_ok_iff
    {fields : FieldSet} {rest : List FieldSet} {bench last : Workbench}
    {answers : List (Except Error (Option Handle))} :
    attemptAll (fields :: rest) bench = .ok answers last ↔
      ∃ answer later next,
        attempt fields bench = .ok answer next ∧
          attemptAll rest next = .ok later last ∧ answers = answer :: later := by
  rw [attemptAll_cons]
  cases attempt fields bench with
  | error failure next =>
      simp
  | ok answer next =>
      simp only
      cases hrest : attemptAll rest next with
      | error failure after =>
          simp [hrest]
      | ok later after =>
          constructor
          · intro h
            cases h
            exact ⟨answer, later, next, rfl, hrest, rfl⟩
          · rintro ⟨answer', later', next', hfirst, hlater, rfl⟩
            cases hfirst
            rw [hrest] at hlater
            cases hlater
            rfl

theorem accepted_cons
    (fields : FieldSet) (sets : List FieldSet)
    (answer : Except Error (Option Handle)) (answers : List (Except Error (Option Handle))) :
    accepted (fields :: sets) (answer :: answers) =
      if returned answer then fields :: accepted sets answers else accepted sets answers := by
  simp only [accepted, List.zip_cons_cons, List.filter_cons]
  split <;> rfl

/-- An attempt keeps the invariant, and changes nothing at all if it is refused. -/
theorem attempt_eq_ok
    {bench next : Workbench} {fields : FieldSet} {answer : Except Error (Option Handle)}
    (hinv : bench.planner.Invariant)
    (hmade : fields.Made)
    (h : attempt fields bench = .ok answer next) :
    next.planner.Invariant ∧
      ((∃ handle, answer = .ok handle ∧ encode fields bench = .ok handle next) ∨
        answer = .error (.layoutOverflow Placement.limit) ∧ next = bench) := by
  rcases attempt_eq_ok_iff.mp h with ⟨handle, rfl, hcall⟩ | ⟨error, rfl, hcall⟩
  · exact ⟨(invariant_encode hinv hmade hcall).1, Or.inl ⟨handle, rfl, hcall⟩⟩
  · obtain ⟨rfl, rfl⟩ := encode_error_eq hinv hmade hcall
    exact ⟨hinv, Or.inr ⟨rfl, rfl⟩⟩

/-- A field set that would go beyond the limit is refused. -/
theorem encode_of_limit_lt
    {bench : Workbench} {fields : FieldSet}
    (hinv : bench.planner.Invariant)
    (hmade : fields.Made)
    (hmemory : fields.InMemory)
    (hstop : Placement.limit < bench.planner.stopWith fields) :
    encode fields bench = .error (.error (.layoutOverflow Placement.limit)) bench := by
  have hdecides := Planner.Invariant.decides bench hinv hmade hmemory
  obtain ⟨error, next, hcall⟩ := hdecides.refused.mpr hstop
  obtain ⟨rfl, rfl⟩ := encode_error_eq hinv hmade hcall
  exact hcall

theorem attempt_of_limit_lt
    {bench : Workbench} {fields : FieldSet}
    (hinv : bench.planner.Invariant)
    (hmade : fields.Made)
    (hmemory : fields.InMemory)
    (hstop : Placement.limit < bench.planner.stopWith fields) :
    attempt fields bench = .ok (.error (.layoutOverflow Placement.limit)) bench :=
  attempt_eq_ok_iff.mpr (Or.inr ⟨_, rfl, encode_of_limit_lt hinv hmade hmemory hstop⟩)

/-- A run leads to where it leads without its refused calls, and the other calls are answered
in the same way. -/
theorem attemptAll_accepted
    {sets : List FieldSet} {bench last : Workbench}
    {answers : List (Except Error (Option Handle))}
    (hinv : bench.planner.Invariant)
    (hmade : ∀ fields ∈ sets, fields.Made)
    (h : attemptAll sets bench = .ok answers last) :
    attemptAll (accepted sets answers) bench = .ok (answers.filter returned) last := by
  induction sets generalizing bench answers with
  | nil =>
      cases h
      rfl
  | cons fields rest ih =>
      obtain ⟨answer, later, next, hfirst, hrest, rfl⟩ := attemptAll_cons_eq_ok_iff.mp h
      obtain ⟨hnext, hanswer⟩ :=
        attempt_eq_ok hinv (hmade fields List.mem_cons_self) hfirst
      have hothers := ih hnext (fun f hf => hmade f (List.mem_cons_of_mem _ hf)) hrest
      rw [accepted_cons, List.filter_cons]
      rcases hanswer with ⟨handle, rfl, -⟩ | ⟨rfl, rfl⟩
      · exact attemptAll_cons_eq_ok_iff.mpr ⟨_, _, next, hfirst, hothers, rfl⟩
      · exact hothers

/-- A layout comes out as it does without all calls that are refused. -/
theorem layOut_accepted
    {sets : List FieldSet} {bench last : Workbench}
    {answers : List (Except Error (Option Handle))} {image : Image}
    (hinv : bench.planner.Invariant)
    (hmade : ∀ fields ∈ sets, fields.Made)
    (h : layOut sets bench = .ok (answers, image) last) :
    layOut (accepted sets answers) bench = .ok (answers.filter returned, image) last := by
  simp only [layOut, bind_apply] at h ⊢
  cases hall : attemptAll sets bench with
  | error failure next =>
      rw [hall] at h
      cases h
  | ok all next =>
      simp only [hall] at h
      cases hplace : place next with
      | error failure after =>
          rw [hplace] at h
          cases h
      | ok picture after =>
          rw [hplace] at h
          cases h
          rw [attemptAll_accepted hinv hmade hall]
          simp only [hplace]
          rfl

end Work

namespace Planner

/-- A field set with a blob that cannot be placed ends with a fault that names the first one, if
there is room for all of them. -/
theorem Reachable.encode_spent
    {planner : Planner} (h : planner.Reachable)
    {fields : FieldSet} {ledger : Ledger} {tag : Tag}
    (hmade : fields.Made)
    (hroom : planner.stopWith fields ≤ Placement.limit)
    (hspent : ledger.FirstSpent fields.blobs tag)
    (events : List Event) :
    ∃ next,
      Work.encode fields { planner := planner, ledger := ledger, events := events } =
        .error (.fault (.placedTwice tag)) next := by
  obtain ⟨placements, hplaced⟩ := Placement.exists_ofBlobs hmade.alignable hroom
  rw [← FieldSet.placements_eq] at hplaced
  have hsome : fields.isEmpty = false := by
    obtain ⟨before, blob, after, hsplit, -⟩ := hspent
    refine FieldSet.isEmpty_eq_false_of_blobs ?_
    rw [hsplit]
    exact List.append_ne_nil_of_right_ne_nil _ (List.cons_ne_nil _ _)
  exact
    Work.encode_spent hsome hplaced (Placeable.of_placements h.invariant hmade hplaced).entries
      hspent

/-- A layout with room for the blobs of a field set takes it, unless one of them would be
placed twice. -/
theorem Reachable.encode_returns_iff
    {planner : Planner} (h : planner.Reachable)
    {fields : FieldSet}
    (hmade : fields.Made)
    (hsome : fields.isEmpty = false)
    (hroom : planner.stopWith fields ≤ Placement.limit)
    (ledger : Ledger) (events : List Event) :
    (∃ handle next,
      Work.encode fields { planner := planner, ledger := ledger, events := events } =
        .ok (some handle) next) ↔
      ¬ ledger.Reuses fields.blobs := by
  have hmemory : fields.InMemory := by
    intro entry hentry
    have hsize := Placement.size_le_stopOf hmade.alignable planner.outline.length hentry
    exact Nat.lt_of_le_of_lt (Nat.le_trans hsize hroom) (by decide)
  rw [(h.decides_encode hmade hmemory ledger events).admitted]
  exact ⟨fun hall => hall.2.2, fun hfresh => ⟨hsome, hroom, hfresh⟩⟩

/-- A refused call leaves no trace.  The workbench is the one from before the call, so no blob
became placed, and whatever is encoded and placed later comes out as it would have without the
call, or without any call that is refused.  Whatever is placed by then, the field set that was
refused is taken by any layout that has room for it, unless one of its blobs would be placed
twice; the first such blob is then named by a fault. -/
theorem Reachable.refused_without_trace
    {bench next : Workbench} {fields : FieldSet} {error : Error}
    (h : bench.planner.Reachable)
    (hmade : fields.Made)
    (hcall : Work.encode fields bench = .error (.error error) next) :
    error = .layoutOverflow Placement.limit ∧
      next = bench ∧
      (∀ later : List FieldSet,
        Work.layOut (fields :: later) bench =
          (Work.layOut later >>= fun (answers, image) =>
            return (Except.error error :: answers, image)) bench) ∧
      (∀ (later : List FieldSet) (answers : List (Except Error (Option Handle)))
          (image : Image) (last : Workbench),
        (∀ set ∈ later, set.Made) →
        Work.layOut (fields :: later) bench = .ok (answers, image) last →
        Work.layOut (Work.accepted (fields :: later) answers) bench =
          .ok (answers.filter Work.returned, image) last) ∧
      ∀ (other : Planner) (ledger : Ledger) (events : List Event),
        other.Reachable →
        other.stopWith fields ≤ Placement.limit →
        ((∃ handle last,
          Work.encode fields { planner := other, ledger := ledger, events := events } =
            .ok (some handle) last) ↔
          ¬ ledger.Reuses fields.blobs) ∧
        (ledger.Reuses fields.blobs →
          ∃ tag last,
            ledger.FirstSpent fields.blobs tag ∧
              Work.encode fields { planner := other, ledger := ledger, events := events } =
                .error (.fault (.placedTwice tag)) last) := by
  obtain ⟨rfl, rfl⟩ := Work.encode_error_eq h.invariant hmade hcall
  have hattempt :
      Work.attempt fields next = .ok (.error (.layoutOverflow Placement.limit)) next :=
    Work.attempt_eq_ok_iff.mpr (Or.inr ⟨_, rfl, hcall⟩)
  have hsome : fields.isEmpty = false := by
    refine Bool.eq_false_iff.mpr ?_
    intro hempty
    obtain ⟨events, hskipped⟩ := Work.encode_of_isEmpty next hempty
    rw [hskipped] at hcall
    cases hcall
  refine ⟨rfl, rfl, ?_, ?_, ?_⟩
  · intro later
    simp only [Work.layOut, Work.bind_apply, Work.attemptAll_cons, hattempt]
    cases Work.attemptAll later next with
    | error failure last =>
        rfl
    | ok answers last =>
        simp only
        cases Work.place last <;> rfl
  · intro later answers image last hlater hlaid
    exact Work.layOut_accepted h.invariant (List.forall_mem_cons.mpr ⟨hmade, hlater⟩) hlaid
  · intro other ledger events hother hroom
    refine ⟨hother.encode_returns_iff hmade hsome hroom ledger events, ?_⟩
    intro hreuses
    rcases ledger.allFresh_or_firstSpent fields.blobs with hfresh | ⟨tag, hspent⟩
    · exact absurd hreuses hfresh.not_reuses
    · obtain ⟨last, hfault⟩ := hother.encode_spent hmade hroom hspent events
      exact ⟨tag, last, hspent, hfault⟩

/-- A new layout takes a blob of 32 bytes, which is the only one that is placed then.  A field set
without blobs can follow, and the layout be placed. -/
theorem Reachable.exists_after_blob :
    let held : Blob := { id := 0, payload := .fill 1 32, alignment := 4 }
    let first : FieldSet :=
      { slots := Slots.empty.set .sealedVirtualSlots { value := .outOfLine held } }
    let flags : FieldSet := { slots := Slots.empty.set .rareFlags { value := .inline 7 } }
    ∃ bench,
      Work.encode first { planner := { grid := { shift := 6 } }, ledger := {} } =
          .ok (some { index := 0 }) bench ∧
        bench.planner.Reachable ∧
        bench.planner.outline.length = 32 ∧
        (∀ blob, bench.ledger.isPlaced blob = decide (blob.id = 0)) ∧
        ∃ image last,
          Work.layOut [flags] bench = .ok ([.ok (some { index := 1 })], image) last := by
  intro held first flags
  have hnew : Planner.new { shift := 6 } = .ok { grid := { shift := 6 } } := rfl
  have hmade : first.Made := by
    refine ⟨[⟨{}, .sealedVirtualSlots, .outOfLine held⟩], ?_⟩
    unfold first held
    rfl
  obtain ⟨bench, hcall, hlength, hplaced, hlaid⟩ :
      ∃ bench,
        Work.encode first { planner := { grid := { shift := 6 } }, ledger := {} } =
            .ok (some { index := 0 }) bench ∧
          bench.planner.outline.length = 32 ∧
          bench.ledger = Ledger.place {} held 0 ∧
          ∃ image last,
            Work.layOut [flags] bench = .ok ([.ok (some { index := 1 })], image) last := by
    unfold first held flags
    exact ⟨_, rfl, rfl, rfl, _, _, rfl⟩
  refine ⟨bench, hcall, (Reachable.new hnew).returned hmade hcall, hlength, ?_, hlaid⟩
  intro blob
  rw [hplaced, Ledger.isPlaced_place]
  exact Bool.or_false _

/-- Behind 32 bytes a field set is refused although one of its blobs has room there.  The next
field set is laid out as if nothing had happened, and a new layout takes the one that was
refused. -/
theorem Reachable.refused_without_trace_of_large_blob :
    let held : Blob := { id := 0, payload := .fill 1 32, alignment := 4 }
    let small : Blob := { id := 1, payload := .fill 2 16, alignment := 4 }
    let large : Blob := { id := 2, payload := .fill 0 4294967256, alignment := 16 }
    let first : FieldSet :=
      { slots := Slots.empty.set .sealedVirtualSlots { value := .outOfLine held } }
    let fields : FieldSet :=
      { slots :=
          (Slots.empty.set .sealedVirtualSlots { value := .outOfLine small }).set
            .threadStaticInfo { value := .outOfLine large } }
    let flags : FieldSet := { slots := Slots.empty.set .rareFlags { value := .inline 7 } }
    let empty : Planner := { grid := { shift := 6 } }
    ∃ bench next image last,
      Work.encode first { planner := empty, ledger := {} } = .ok (some { index := 0 }) bench ∧
        Work.encode fields bench =
          .error (.error (.layoutOverflow Placement.limit)) next ∧
        next = bench ∧
        next.ledger.isPlaced small = false ∧
        Work.layOut [fields, flags] bench =
          .ok
            ([.error (.layoutOverflow Placement.limit), .ok (some { index := 1 })], image)
            last ∧
        Work.layOut [flags] bench = .ok ([.ok (some { index := 1 })], image) last ∧
        ∃ handle after,
          Work.encode fields { planner := empty, ledger := next.ledger, events := [] } =
            .ok (some handle) after := by
  intro held small large first fields flags empty
  have hnew : Planner.new { shift := 6 } = .ok empty := rfl
  have hmade : fields.Made := by
    refine
      ⟨[⟨{}, .sealedVirtualSlots, .outOfLine small⟩,
        ⟨{}, .threadStaticInfo, .outOfLine large⟩], ?_⟩
    unfold fields small large
    rfl
  have hflags : flags.Made := ⟨[⟨{}, .rareFlags, .inline 7⟩], rfl⟩
  have hblobs :
      fields.blobs = [(.sealedVirtualSlots, small), (.threadStaticInfo, large)] := rfl
  have hmemory : fields.InMemory := by
    rw [FieldSet.InMemory, hblobs]
    decide
  obtain ⟨bench, hfirst, hreached, hlength, hplaced, image, last, hlaid⟩ :=
    Reachable.exists_after_blob
  have hstop : Placement.limit < bench.planner.stopWith fields := by
    rw [stopWith, hlength]
    decide
  have hcall := Work.encode_of_limit_lt hreached.invariant hmade hmemory hstop
  obtain ⟨-, hnext, hlater, haccepted, htaken⟩ :=
    hreached.refused_without_trace hmade hcall
  have hboth :
      Work.layOut [fields, flags] bench =
        .ok
          ([.error (.layoutOverflow Placement.limit), .ok (some { index := 1 })], image)
          last := by
    rw [hlater, Work.bind_apply, hlaid]
    rfl
  have hfresh : bench.ledger.AllFresh fields.blobs := by
    rw [hblobs]
    refine ⟨?_, by decide⟩
    rw [List.forall_mem_cons, List.forall_mem_singleton, hplaced, hplaced]
    decide
  exact
    ⟨bench, bench, image, last, hfirst, hcall, hnext, hplaced small, hboth,
      haccepted [flags] _ image last (List.forall_mem_singleton.mpr hflags) hboth,
      (htaken empty bench.ledger [] (Reachable.new hnew) (by decide)).1.mpr
        hfresh.not_reuses⟩

/-- Room is not all that a refused field set needs.  Behind 32 bytes, both a field set with the
blob that stands there and one with a blob under two tags are refused; a layout that is new has
room for either of them, and faults. -/
theorem Reachable.refused_of_reused_blobs :
    let held : Blob := { id := 0, payload := .fill 1 32, alignment := 4 }
    let shared : Blob := { id := 1, payload := .fill 2 16, alignment := 4 }
    let large : Blob := { id := 2, payload := .fill 0 4294967256, alignment := 16 }
    let first : FieldSet :=
      { slots := Slots.empty.set .sealedVirtualSlots { value := .outOfLine held } }
    let again : FieldSet :=
      { slots :=
          (Slots.empty.set .sealedVirtualSlots { value := .outOfLine held }).set
            .threadStaticInfo { value := .outOfLine large } }
    let twice : FieldSet :=
      { slots :=
          ((Slots.empty.set .sealedVirtualSlots { value := .outOfLine shared }).set
            .genericComposition { value := .outOfLine shared }).set
            .threadStaticInfo { value := .outOfLine large } }
    let empty : Planner := { grid := { shift := 6 } }
    again.Made ∧ twice.Made ∧ empty.Reachable ∧
      ∃ bench,
        bench.planner.Reachable ∧
        Work.encode first { planner := empty, ledger := {} } =
          .ok (some { index := 0 }) bench ∧
        (Work.encode again bench =
            .error (.error (.layoutOverflow Placement.limit)) bench ∧
          empty.stopWith again ≤ Placement.limit ∧
          ∃ last,
            Work.encode again { planner := empty, ledger := bench.ledger, events := [] } =
              .error (.fault (.placedTwice .sealedVirtualSlots)) last) ∧
        Work.encode twice bench =
            .error (.error (.layoutOverflow Placement.limit)) bench ∧
          empty.stopWith twice ≤ Placement.limit ∧
          ∃ last,
            Work.encode twice { planner := empty, ledger := bench.ledger, events := [] } =
              .error (.fault (.placedTwice .genericComposition)) last := by
  intro held shared large first again twice empty
  have hnew : Planner.new { shift := 6 } = .ok empty := rfl
  have hempty := Reachable.new hnew
  have hagain : again.Made := by
    refine
      ⟨[⟨{}, .sealedVirtualSlots, .outOfLine held⟩,
        ⟨{}, .threadStaticInfo, .outOfLine large⟩], ?_⟩
    unfold again held large
    rfl
  have htwice : twice.Made := by
    refine
      ⟨[⟨{}, .sealedVirtualSlots, .outOfLine shared⟩,
        ⟨{}, .genericComposition, .outOfLine shared⟩,
        ⟨{}, .threadStaticInfo, .outOfLine large⟩], ?_⟩
    unfold twice shared large
    rfl
  have hblobs :
      again.blobs = [(.sealedVirtualSlots, held), (.threadStaticInfo, large)] := rfl
  have hblobs' :
      twice.blobs =
        [(.sealedVirtualSlots, shared), (.genericComposition, shared),
          (.threadStaticInfo, large)] := rfl
  obtain ⟨bench, hfirst, hreached, hlength, hplaced, -⟩ := Reachable.exists_after_blob
  have hspent : bench.ledger.FirstSpent again.blobs .sealedVirtualSlots :=
    ⟨[], held, _, hblobs, Or.inl (hplaced held), by simp [Ledger.AllFresh]⟩
  have hspent' : bench.ledger.FirstSpent twice.blobs .genericComposition :=
    ⟨[(.sealedVirtualSlots, shared)], shared, _, hblobs',
      Or.inr ⟨_, List.mem_cons_self, rfl⟩, by simp [Ledger.AllFresh, hplaced, shared]⟩
  have hcall :
      Work.encode again bench = .error (.error (.layoutOverflow Placement.limit)) bench := by
    refine Work.encode_of_limit_lt hreached.invariant hagain ?_ ?_
    · rw [FieldSet.InMemory, hblobs]
      decide
    · rw [stopWith, hlength]
      decide
  have hcall' :
      Work.encode twice bench = .error (.error (.layoutOverflow Placement.limit)) bench := by
    refine Work.encode_of_limit_lt hreached.invariant htwice ?_ ?_
    · rw [FieldSet.InMemory, hblobs']
      decide
    · rw [stopWith, hlength]
      decide
  exact
    ⟨hagain, htwice, hempty, bench, hreached, hfirst,
      ⟨hcall, by decide, hempty.encode_spent hagain (by decide) hspent []⟩,
      hcall', by decide, hempty.encode_spent htwice (by decide) hspent' []⟩

end Planner
end AnchoredFields

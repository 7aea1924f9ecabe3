import AnchoredFields.Proofs.Admission

/-!
# What a call of `Work.encode` comes to

A field set is skipped, refused, faulty or admitted, and which of these it is can
be told beforehand from the field set, the size of the out-of-line data and the
ledger.  The only fault there is names a blob that would be placed twice: the
other checks of the planner can never fail, because the layout keeps its invariant.

* `Work.encode_of_isEmpty`, `Work.encode_refused`, `Work.encode_inlineOnly`,
  `Work.encode_spent`, `Work.encode_fresh`: one statement for each outcome;
* `Planner.Reachable.invariant`: the invariant holds of every layout that calls of
  `Work.encode` lead to;
* `Planner.Invariant.decides`: which call comes to what.
-/

namespace AnchoredFields

namespace Work

theorem lift_ok {α : Type} (a : α) (bench : Workbench) :
    lift (.ok a : Except Failure α) bench = .ok a bench :=
  rfl

theorem lift_error {α : Type} (failure : Failure) (bench : Workbench) :
    lift (.error failure : Except Failure α) bench = .error failure bench :=
  rfl

theorem encode_of_isEmpty
    (bench : Workbench) {fields : FieldSet}
    (hempty : fields.isEmpty = true) :
    ∃ events, encode fields bench = .ok none { bench with events := events } := by
  refine ⟨bench.events ++ [.skipped], ?_⟩
  simp only [encode, if_pos hempty, bind_apply, report_apply, pure_apply]

/-- A field set whose blobs have no places leaves everything as it was. -/
theorem encode_refused
    {bench : Workbench} {fields : FieldSet} {failure : Failure}
    (hsome : fields.isEmpty = false)
    (hplaced : fields.placements bench.planner.outline.length = .error failure) :
    encode fields bench = .error failure bench := by
  simp only [encode, hsome, Bool.false_eq_true, if_false, bind_apply, planner_apply, hplaced,
    lift_error]

theorem encode_inlineOnly
    (bench : Workbench) {fields : FieldSet}
    (hsome : fields.isEmpty = false)
    (hblobs : fields.blobs = [])
    (ledger : Ledger) (target : UInt32) :
    ∃ events,
      encode fields bench =
        .ok (some { index := bench.planner.streamCount })
          { bench with
            planner :=
              bench.planner.keepInlineOnly fields (Planner.streamFor fields ledger target)
            events := events } := by
  have hplaced : fields.placements bench.planner.outline.length = .ok [] := by
    rw [FieldSet.placements_eq, hblobs]
    rfl
  obtain ⟨events, hencode⟩ := encodeInlineOnly_eq bench hblobs ledger target
  refine ⟨events, ?_⟩
  simp only [encode, hsome, Bool.false_eq_true, if_false, bind_apply, planner_apply, hplaced,
    lift_ok, hencode, pure_apply]

/-- The first blob that cannot be placed is the one that a fault names. -/
theorem encode_spent
    {bench : Workbench} {fields : FieldSet} {placements : List Placement} {tag : Tag}
    (hsome : fields.isEmpty = false)
    (hplaced : fields.placements bench.planner.outline.length = .ok placements)
    (hentries : placements.map Placement.entry = fields.blobs)
    (hspent : bench.ledger.FirstSpent fields.blobs tag) :
    ∃ next, encode fields bench = .error (.fault (.placedTwice tag)) next := by
  rw [← hentries] at hspent
  obtain ⟨next, hnext⟩ := placeBlobs_spent hspent
  cases placements with
  | nil =>
      obtain ⟨before, blob, after, hsplit, -⟩ := hspent
      simp at hsplit
  | cons first rest =>
      refine ⟨next, ?_⟩
      simp only [encode, hsome, Bool.false_eq_true, if_false, bind_apply, planner_apply,
        hplaced, lift_ok, hnext]

/-- A field set whose blobs can all be placed is admitted. -/
theorem encode_fresh
    {bench : Workbench} {fields : FieldSet} {first : Placement} {rest : List Placement}
    (hinv : bench.planner.Invariant)
    (hplaced : fields.placements bench.planner.outline.length = .ok (first :: rest))
    (hfields : bench.planner.Placeable fields (first :: rest))
    (hfresh : bench.ledger.AllFresh fields.blobs) :
    ∃ events,
      encode fields bench =
        .ok (some { index := bench.planner.streamCount })
          { planner :=
              bench.planner.admitted fields (bench.ledger.placeAll (first :: rest))
                (first :: rest) first.offset
            ledger := bench.ledger.placeAll (first :: rest)
            events := events } := by
  have hsome := FieldSet.isEmpty_eq_false_of_blobs hfields.blobs_ne_nil
  have hcopied := hfields.invariant_copied hinv
  have hopened := hfields.covered_opened hinv
  obtain ⟨events, hblobs⟩ := placeBlobs_eq bench (hfields.entries ▸ hfresh)
  obtain ⟨events', hencode⟩ :=
    encodeAnchored_eq
      { planner := bench.planner.copied (first :: rest)
        ledger := bench.ledger.placeAll (first :: rest)
        events := events }
      (fields.locate (first :: rest))
      (fun target => fields.stored (bench.ledger.placeAll (first :: rest)) target.toNat)
      hcopied (hfields.offset_le List.mem_cons_self) (fun _ => rfl)
      (fun target => Planner.length_streamFor_le fields _ target)
      (hfields.storedValues_locate hfresh hopened)
      (hfields.storedValues_locate hfresh hfields.covered_anchorTarget)
  have hcount :
      (bench.planner.copied (first :: rest)).streamCount = bench.planner.streamCount := by
    rw [Planner.copied_eq]
    rfl
  rw [hcount] at hencode
  refine ⟨events', ?_⟩
  simp only [encode, hsome, Bool.false_eq_true, if_false, bind_apply, planner_apply, hplaced,
    lift_ok, hblobs, pure_apply]
  rw [show (bench.planner.addBlobs (first :: rest)).closeOutline =
    bench.planner.copied (first :: rest) from rfl, hencode]
  rfl

/-- What a call of `encode` for a field set comes to. -/
inductive Outcome (bench : Workbench) (fields : FieldSet) :
    EStateM.Result Failure Workbench (Option Handle) → Prop
  | skipped
      (hempty : fields.isEmpty = true)
      (events : List Event) :
      Outcome bench fields (.ok none { bench with events := events })
  | refused
      (hsome : fields.isEmpty = false)
      {failure : Failure}
      (hplaced : fields.placements bench.planner.outline.length = .error failure) :
      Outcome bench fields (.error failure bench)
  | inlineOnly
      (hsome : fields.isEmpty = false)
      (hblobs : fields.blobs = [])
      (events : List Event) :
      Outcome bench fields
        (.ok (some { index := bench.planner.streamCount })
          { bench with
            planner :=
              bench.planner.keepInlineOnly fields (Planner.streamFor fields bench.ledger 0)
            events := events })
  | spent
      {placements : List Placement} {tag : Tag}
      (hsome : fields.isEmpty = false)
      (hfields : bench.planner.Placeable fields placements)
      (hspent : bench.ledger.FirstSpent fields.blobs tag)
      (next : Workbench) :
      Outcome bench fields (.error (.fault (.placedTwice tag)) next)
  | admitted
      {first : Placement} {rest : List Placement}
      (hsome : fields.isEmpty = false)
      (hfields : bench.planner.Placeable fields (first :: rest))
      (hfresh : bench.ledger.AllFresh fields.blobs)
      (events : List Event) :
      Outcome bench fields
        (.ok (some { index := bench.planner.streamCount })
          { planner :=
              bench.planner.admitted fields (bench.ledger.placeAll (first :: rest))
                (first :: rest) first.offset
            ledger := bench.ledger.placeAll (first :: rest)
            events := events })

/-- A layout with its invariant takes a made field set in one of five ways. -/
theorem outcome_encode
    {bench : Workbench} {fields : FieldSet}
    (hinv : bench.planner.Invariant)
    (hmade : fields.Made) :
    Outcome bench fields (encode fields bench) := by
  cases hempty : fields.isEmpty with
  | true =>
      obtain ⟨events, hencode⟩ := encode_of_isEmpty bench hempty
      rw [hencode]
      exact .skipped hempty events
  | false =>
      cases hplaced : fields.placements bench.planner.outline.length with
      | error failure =>
          rw [encode_refused hempty hplaced]
          exact .refused hempty hplaced
      | ok placements =>
          have hfields := Planner.Placeable.of_placements hinv hmade hplaced
          rcases bench.ledger.allFresh_or_firstSpent fields.blobs with hfresh | ⟨tag, hspent⟩
          · cases placements with
            | nil =>
                have hblobs : fields.blobs = [] := hfields.entries.symm
                obtain ⟨events, hencode⟩ :=
                  encode_inlineOnly bench hempty hblobs bench.ledger 0
                rw [hencode]
                exact .inlineOnly hempty hblobs events
            | cons first rest =>
                obtain ⟨events, hencode⟩ := encode_fresh hinv hplaced hfields hfresh
                rw [hencode]
                exact .admitted hempty hfields hfresh events
          · obtain ⟨next, hencode⟩ := encode_spent hempty hplaced hfields.entries hspent
            rw [hencode]
            exact .spent hempty hfields hspent next

/-- Encoding that does not fault keeps the invariant of the layout and takes nothing back. -/
theorem invariant_encode
    {bench next : Workbench} {fields : FieldSet} {handle : Option Handle}
    (hinv : bench.planner.Invariant)
    (hmade : fields.Made)
    (hencode : encode fields bench = .ok handle next) :
    next.planner.Invariant ∧ bench.planner.Extends next.planner := by
  have houtcome := outcome_encode hinv hmade
  rw [hencode] at houtcome
  cases houtcome with
  | skipped hempty events =>
      exact ⟨hinv, Planner.Extends.refl _⟩
  | inlineOnly hsome hblobs events =>
      exact ⟨hinv.keepInlineOnly _ _, Planner.extends_keepInlineOnly _ _ _⟩
  | admitted hsome hfields hfresh events =>
      exact ⟨hfields.invariant_admitted hinv _, hfields.extends_admitted _ _⟩

end Work

namespace Planner

/-- The layouts that calls of `encode` without a fault lead to, wherever else blobs may be
placed between the calls. -/
inductive Reachable : Planner → Prop
  | new
      {grid : AnchorGrid} {planner : Planner}
      (hnew : Planner.new grid = .ok planner) :
      Reachable planner
  | returned
      {bench next : Workbench} {fields : FieldSet} {handle : Option Handle}
      (hbefore : Reachable bench.planner)
      (hmade : fields.Made)
      (hcall : Work.encode fields bench = .ok handle next) :
      Reachable next.planner
  | refused
      {bench next : Workbench} {fields : FieldSet} {error : Error}
      (hbefore : Reachable bench.planner)
      (hmade : fields.Made)
      (hcall : Work.encode fields bench = .error (.error error) next) :
      Reachable next.planner

theorem Reachable.invariant {planner : Planner} (h : planner.Reachable) :
    planner.Invariant := by
  induction h with
  | new hnew =>
      exact Invariant.new hnew
  | returned hbefore hmade hcall ih =>
      exact (Work.invariant_encode ih hmade hcall).1
  | refused hbefore hmade hcall ih =>
      have houtcome := Work.outcome_encode ih hmade
      rw [hcall] at houtcome
      cases houtcome with
      | refused hsome hplaced =>
          exact ih

end Planner

/-- The blobs are byte strings in memory, of fewer than `2 ^ 63` bytes each. -/
def FieldSet.InMemory (fields : FieldSet) : Prop :=
  ∀ entry ∈ fields.blobs, entry.2.size < 2 ^ 63

/-- Some blob is placed already, or stands under two tags. -/
def Ledger.Reuses (ledger : Ledger) (blobs : List (Tag × Blob)) : Prop :=
  (∃ entry ∈ blobs, ledger.isPlaced entry.2 = true) ∨
    ∃ entry ∈ blobs, ∃ other ∈ blobs, entry.1 ≠ other.1 ∧ entry.2.id = other.2.id

theorem Ledger.AllFresh.not_reuses
    {ledger : Ledger} {blobs : List (Tag × Blob)}
    (h : ledger.AllFresh blobs) :
    ¬ ledger.Reuses blobs := by
  obtain ⟨hplaced, hnodup⟩ := h
  rintro (⟨entry, hentry, hspent⟩ | ⟨entry, hentry, other, hother, htag, hid⟩)
  · rw [hplaced entry hentry] at hspent
    cases hspent
  · exact htag (congrArg Prod.fst (List.inj_on_of_nodup_map hnodup hentry hother hid))

theorem Ledger.FirstSpent.reuses
    {ledger : Ledger} {blobs : List (Tag × Blob)} {tag : Tag}
    (h : ledger.FirstSpent blobs tag)
    (hkeys : (blobs.map Prod.fst).Nodup) :
    ledger.Reuses blobs := by
  obtain ⟨before, blob, after, rfl, hspent, -⟩ := h
  have hlast : (tag, blob) ∈ before ++ (tag, blob) :: after :=
    List.mem_append_right _ List.mem_cons_self
  rcases hspent with hplaced | ⟨entry, hentry, hid⟩
  · exact Or.inl ⟨(tag, blob), hlast, hplaced⟩
  · rw [List.map_append, List.nodup_append] at hkeys
    have htag : entry.1 ≠ tag :=
      hkeys.2.2 _ (List.mem_map_of_mem hentry) _ List.mem_cons_self
    exact Or.inr
      ⟨entry, List.mem_append_left _ hentry, (tag, blob), hlast, htag, hid⟩

namespace Planner

/-- Where the out-of-line data would end with the blobs of a field set behind it. -/
def stopWith (planner : Planner) (fields : FieldSet) : Nat :=
  Placement.stopOf planner.outline.length fields.blobs

/-- Every call of `encode` on a reachable layout, by the one of four conditions that holds:
the field set is empty, its blobs end beyond the limit, one of them would be placed twice, or
none of these.  The fault always names the first blob that would be placed twice, so that no
other check of the planner can fail. -/
structure Decides (planner : Planner) (fields : FieldSet) (ledger : Ledger)
    (result : EStateM.Result Failure Workbench (Option Handle)) : Prop where
  skipped : (∃ next, result = .ok none next) ↔ fields.isEmpty = true
  refused :
    (∃ error next, result = .error (.error error) next) ↔
      Placement.limit < planner.stopWith fields
  refused_eq :
    ∀ error next, result = .error (.error error) next →
      error = .layoutOverflow Placement.limit
  faulty :
    (∃ fault next, result = .error (.fault fault) next) ↔
      planner.stopWith fields ≤ Placement.limit ∧ ledger.Reuses fields.blobs
  faulty_eq :
    ∀ fault next, result = .error (.fault fault) next →
      ∃ tag, ledger.FirstSpent fields.blobs tag ∧ fault = .placedTwice tag ∧
        fault.message? = some (tag.name ++ " blob was placed twice")
  admitted :
    (∃ handle next, result = .ok (some handle) next) ↔
      fields.isEmpty = false ∧ planner.stopWith fields ≤ Placement.limit ∧
        ¬ ledger.Reuses fields.blobs

theorem Invariant.stopWith_le {planner : Planner} (hinv : planner.Invariant)
    {fields : FieldSet} (hblobs : fields.blobs = []) :
    planner.stopWith fields ≤ Placement.limit := by
  rw [stopWith, hblobs]
  exact hinv.outline_le

theorem Invariant.decides
    (bench : Workbench) {fields : FieldSet}
    (hinv : bench.planner.Invariant)
    (hmade : fields.Made)
    (hmemory : fields.InMemory) :
    bench.planner.Decides fields bench.ledger (Work.encode fields bench) := by
  have houtcome := Work.outcome_encode hinv hmade
  generalize Work.encode fields bench = result at houtcome ⊢
  cases houtcome with
  | skipped hempty events =>
      have hblobs := FieldSet.blobs_eq_nil_of_isEmpty hempty
      have hstop := hinv.stopWith_le hblobs
      have hreuses : ¬ bench.ledger.Reuses fields.blobs := by simp [Ledger.Reuses, hblobs]
      constructor <;> simp [hempty, hreuses, Nat.not_lt.mpr hstop]
  | refused hsome hplaced =>
      rename_i failure
      have hstop : Placement.limit < bench.planner.stopWith fields := by
        refine Nat.not_le.mp ?_
        intro hle
        obtain ⟨placements, hok⟩ := Placement.exists_ofBlobs hmade.alignable hle
        rw [FieldSet.placements_eq, hok] at hplaced
        cases hplaced
      rw [FieldSet.placements_eq,
        Placement.ofBlobs_eq_overflow hmade.exists_alignment hmemory hinv.outline_le hstop]
        at hplaced
      cases hplaced
      constructor <;> simp [hsome, hstop, Nat.not_le.mpr hstop]
  | inlineOnly hsome hblobs events =>
      have hstop := hinv.stopWith_le hblobs
      have hreuses : ¬ bench.ledger.Reuses fields.blobs := by simp [Ledger.Reuses, hblobs]
      constructor <;> simp [hsome, hreuses, hstop, Nat.not_lt.mpr hstop]
  | spent hsome hfields hspent next =>
      have hstop : bench.planner.stopWith fields ≤ Placement.limit := hfields.stop_le
      have hreuses := hspent.reuses fields.blobs_keys_nodup
      refine ⟨?_, ?_, ?_, ?_, ?_, ?_⟩
      · simp [hsome]
      · simp [Nat.not_lt.mpr hstop]
      · simp
      · simp [hstop, hreuses]
      · intro fault later hresult
        cases hresult
        exact ⟨_, hspent, rfl, rfl⟩
      · simp [hreuses]
  | admitted hsome hfields hfresh events =>
      have hstop : bench.planner.stopWith fields ≤ Placement.limit := hfields.stop_le
      have hreuses := hfresh.not_reuses
      constructor <;> simp [hsome, hreuses, hstop, Nat.not_lt.mpr hstop]

/-- Whichever calls led to a layout, the next one is decided by its field set, the size of the
out-of-line data and the ledger. -/
theorem Reachable.decides_encode
    {planner : Planner} (h : planner.Reachable)
    {fields : FieldSet}
    (hmade : fields.Made)
    (hmemory : fields.InMemory)
    (ledger : Ledger) (events : List Event) :
    planner.Decides fields ledger
      (Work.encode fields { planner := planner, ledger := ledger, events := events }) :=
  Invariant.decides { planner := planner, ledger := ledger, events := events } h.invariant
    hmade hmemory

/-- A blob that stands under two tags is named by a fault. -/
theorem Reachable.decides_encode_shared :
    let blob : Blob := { id := 0, payload := .bytes [7, 7, 7, 7], alignment := 4 }
    let field : OptionalField := { value := .outOfLine blob }
    let fields : FieldSet :=
      { slots := (Slots.empty.set .sealedVirtualSlots field).set .genericComposition field }
    ∃ fault next,
      Work.encode fields { planner := { grid := {} }, ledger := {}, events := [] } =
        .error (.fault fault) next := by
  intro blob field fields
  have hnew : Planner.new {} = .ok { grid := {} } := rfl
  have hmade : fields.Made := by
    refine
      ⟨[⟨{}, .sealedVirtualSlots, .outOfLine blob⟩,
        ⟨{}, .genericComposition, .outOfLine blob⟩], ?_⟩
    unfold fields field blob
    rfl
  have hblobs : fields.blobs = [(.sealedVirtualSlots, blob), (.genericComposition, blob)] :=
    rfl
  have hmemory : fields.InMemory := by
    rw [FieldSet.InMemory, hblobs]
    decide
  have hreuses : Ledger.Reuses {} fields.blobs := by
    rw [hblobs]
    exact Or.inr ⟨_, List.mem_cons_self, _, List.mem_cons_of_mem _ List.mem_cons_self,
      by decide, rfl⟩
  exact ((Reachable.new hnew).decides_encode hmade hmemory {} []).faulty.mpr ⟨by decide, hreuses⟩

end Planner
end AnchoredFields

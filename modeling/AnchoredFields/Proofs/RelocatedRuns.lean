import AnchoredFields.Proofs.FieldContents
import AnchoredFields.Proofs.RefusedCalls

/-!
# The same calls on grids with different bases

A layout never looks at the base of its grid while it is built.  Two layouts that take
field sets with equal content on grids with equal spacing stay the same but for the
grid and for which blobs they copied.

* `Planner.Relocates`: two layouts that are the same in this sense;
* `Work.attempt_relocates`: one call on each of them, refused or not;
* `Work.attemptAll_relocates`: a whole run on each of them.
-/

namespace AnchoredFields

theorem AnchorGrid.spacing_congr {grid other : AnchorGrid} (h : other.shift = grid.shift) :
    other.spacing = grid.spacing := by
  rw [spacing, spacing, h]

namespace Planner

/-- The same layout on another grid, with records of other blobs. -/
def moved (planner : Planner) (grid : AnchorGrid) (records : List OutlineRecord) : Planner :=
  { planner with
    grid := grid
    records := records }

/-- Two layouts that differ only in the bases of their grids and in the blobs they copied. -/
def Relocates (planner other : Planner) : Prop :=
  ∃ grid records, grid.shift = planner.grid.shift ∧ other = planner.moved grid records

section

variable {planner : Planner} {grid : AnchorGrid}

theorem openGroup_moved (hshift : grid.shift = planner.grid.shift)
    (records : List OutlineRecord) (offset : UInt32) :
    (planner.moved grid records).openGroup offset =
      (planner.openGroup offset).moved grid records := by
  have hspacing := AnchorGrid.spacing_congr hshift
  simp only [openGroup, moved, hspacing]

theorem opened_moved (hshift : grid.shift = planner.grid.shift)
    (records : List OutlineRecord) (offset : UInt32) :
    (planner.moved grid records).opened offset =
      (planner.opened offset).moved grid records := by
  rw [opened, opened]
  by_cases hnone : planner.group.isNone = true
  · rw [if_pos hnone, if_pos (show (planner.moved grid records).group.isNone = true from hnone)]
    exact openGroup_moved hshift records offset
  · rw [if_neg hnone, if_neg (show ¬(planner.moved grid records).group.isNone = true from hnone)]

/-- The group that a stream joins does not depend on the base. -/
theorem settle_moved (hshift : grid.shift = planner.grid.shift)
    (records : List OutlineRecord) (offset : UInt32) (size : UInt32 → Nat) :
    (planner.moved grid records).settle offset size =
      (planner.settle offset size).moved grid records := by
  have hopened := opened_moved hshift records offset
  have hgrid : (planner.opened offset).abandonRoom.grid = planner.grid :=
    (planner.extends_opened offset).grid_eq
  rw [settle, settle]
  simp only [hopened]
  by_cases hroom : (planner.opened offset).room < size (planner.opened offset).target
  · rw [if_pos hroom, if_pos (by exact hroom)]
    exact openGroup_moved (hgrid ▸ hshift) records offset
  · rw [if_neg hroom, if_neg (by exact hroom)]

theorem keepInlineOnly_moved {fields others : FieldSet}
    (htags : fields.present.map Prod.fst = others.present.map Prod.fst)
    (records : List OutlineRecord) (stream : List UInt8) :
    (planner.moved grid records).keepInlineOnly others stream =
      (planner.keepInlineOnly fields stream).moved grid records := by
  simp only [keepInlineOnly, addStream, moved, htags]
  rfl

theorem keepAnchored_moved {fields others : FieldSet}
    (htags : fields.present.map Prod.fst = others.present.map Prod.fst)
    (records : List OutlineRecord) (stream : List UInt8) :
    (planner.moved grid records).keepAnchored others stream =
      (planner.keepAnchored fields stream).moved grid records := by
  simp only [keepAnchored, addStream, moved, htags]
  rfl

end

namespace Placeable

variable {planner : Planner} {grid : AnchorGrid} {records : List OutlineRecord}
  {fields others : FieldSet} {placements twins : List Placement}

/-- Blobs with equal bytes that are placed at equal offsets make the same out-of-line data. -/
theorem exists_copied_moved
    (h : planner.Placeable fields placements)
    (htwin : (planner.moved grid records).Placeable others twins)
    (hpayload : placements.map Placement.payload = twins.map Placement.payload) :
    ∃ more,
      (planner.moved grid records).copied twins = (planner.copied placements).moved grid more := by
  obtain ⟨houtline, -⟩ := addBlobs_chain h.chain h.alignable rfl
  obtain ⟨hother, -⟩ := addBlobs_chain htwin.chain htwin.alignable rfl
  have hsame :
      ((planner.moved grid records).addBlobs twins).outline =
        (planner.addBlobs placements).outline := by
    rw [houtline, Placement.bytesFrom_congr hpayload]
    exact hother
  refine ⟨((planner.moved grid records).addBlobs twins).records, ?_⟩
  rw [copied_eq, copied_eq, hsame]
  rfl

/-- Blobs whose placements say the same come to stand at the same offsets. -/
theorem offsets_congr {other : Planner}
    (h : planner.Placeable fields placements)
    (htwin : other.Placeable others twins)
    (hpayload : placements.map Placement.payload = twins.map Placement.payload)
    {ledger book : Ledger}
    (hfresh : ledger.AllFresh fields.blobs)
    (hfresh' : book.AllFresh others.blobs) :
    fields.offsets (ledger.placeAll placements) = others.offsets (book.placeAll twins) := by
  rw [FieldSet.offsets_eq h.entries fun _ hmem => h.offset?_placeAll hfresh hmem,
    FieldSet.offsets_eq htwin.entries fun _ hmem => htwin.offset?_placeAll hfresh' hmem]
  exact Placement.offsets_congr hpayload

/-- Field sets with equal content are admitted in the same way. -/
theorem exists_admitted_moved {first twin : Placement} {rest others' : List Placement}
    (hshift : grid.shift = planner.grid.shift)
    (h : planner.Placeable fields (first :: rest))
    (htwin : (planner.moved grid records).Placeable others (twin :: others'))
    (hpayload :
      (first :: rest).map Placement.payload = (twin :: others').map Placement.payload)
    (htags : fields.present.map Prod.fst = others.present.map Prod.fst)
    {ledger book : Ledger} (hstream : streamFor fields ledger = streamFor others book) :
    ∃ more,
      (planner.moved grid records).admitted others book (twin :: others') twin.offset =
        (planner.admitted fields ledger (first :: rest) first.offset).moved grid more := by
  obtain ⟨more, hcopied⟩ := h.exists_copied_moved htwin hpayload
  have hoffset : twin.offset = first.offset := by
    rw [List.map_cons, List.map_cons, List.cons.injEq] at hpayload
    exact congrArg (fun payload => payload.2.2) hpayload.1.symm
  have hgrid : (planner.copied (first :: rest)).grid = planner.grid :=
    h.extends_copied.grid_eq
  have hsettled :
      (planner.moved grid records).settled others book (twin :: others') twin.offset =
        (planner.settled fields ledger (first :: rest) first.offset).moved grid more := by
    rw [settled, settled, hcopied, hoffset, ← hstream]
    exact settle_moved (hgrid ▸ hshift) more first.offset _
  refine ⟨more, ?_⟩
  rw [admitted, admitted, hsettled, ← hstream]
  refine keepAnchored_moved ?_ more _
  rw [FieldSet.tags_locate, FieldSet.tags_locate, htags]

end Placeable
end Planner

namespace Work

/-- What a call that returned placed stays where it is. -/
theorem offsets_of_returned
    {bench next : Workbench} {fields : FieldSet} {handle : Option Handle}
    (hinv : bench.planner.Invariant)
    (hmade : fields.Made)
    (hcall : encode fields bench = .ok handle next)
    {later : Ledger} (hledger : next.ledger.Extends later) :
    fields.offsets later = fields.offsets next.ledger := by
  refine FieldSet.offsets_of_extends hledger ?_
  intro entry hentry
  obtain ⟨-, -, ⟨hempty, -⟩ | ⟨given, target, hholds⟩⟩ := kept_encode hinv hmade hcall
  · rw [FieldSet.blobs_eq_nil_of_isEmpty hempty] at hentry
    cases hentry
  · obtain ⟨offset, hoffset, -⟩ := hholds.blobs entry hentry
    exact ⟨offset, hoffset⟩

/-- A field set is admitted by a layout on another grid if one with equal content is, unless a
blob of it would be placed twice. -/
theorem attempt_admitted_moved
    {bench next' : Workbench} {fields others : FieldSet} {first : Placement}
    {rest : List Placement} {answer' : Except Error (Option Handle)}
    {grid : AnchorGrid} {records : List OutlineRecord} {book : Ledger} {events : List Event}
    (hshift : grid.shift = bench.planner.grid.shift)
    (hinv : bench.planner.Invariant)
    (hinv' : (bench.planner.moved grid records).Invariant)
    (hmade' : others.Made)
    (hsome' : others.isEmpty = false)
    (hcontents : fields.contents = others.contents)
    (hfields : bench.planner.Placeable fields (first :: rest))
    (hfresh : bench.ledger.AllFresh fields.blobs)
    (hcall' : attempt others ⟨bench.planner.moved grid records, book, events⟩ =
      .ok answer' next') :
    let placed := bench.ledger.placeAll (first :: rest)
    answer' = .ok (some { index := bench.planner.streamCount }) ∧
      (bench.planner.admitted fields placed (first :: rest) first.offset).Relocates
        next'.planner ∧
      fields.offsets placed = others.offsets next'.ledger := by
  intro placed
  have hplaced : fields.placements bench.planner.outline.length = .ok (first :: rest) :=
    hfields.placements_eq hinv
  obtain ⟨twins, hother, hpayload⟩ :=
    FieldSet.exists_placements_congr hfields.made hcontents hplaced
  have htwins : (bench.planner.moved grid records).Placeable others twins :=
    Planner.Placeable.of_placements hinv' hmade' hother
  rcases book.allFresh_or_firstSpent others.blobs with hfresh' | ⟨tag, hspent⟩
  · have hoffsets := hfields.offsets_congr htwins hpayload hfresh hfresh'
    cases twins with
    | nil =>
        cases hpayload
    | cons twin twins =>
        obtain ⟨later, hencode⟩ :
            ∃ later,
              encode others ⟨bench.planner.moved grid records, book, events⟩ =
                .ok (some { index := bench.planner.streamCount })
                  ⟨(bench.planner.moved grid records).admitted others
                      (book.placeAll (twin :: twins)) (twin :: twins) twin.offset,
                    book.placeAll (twin :: twins), later⟩ :=
          encode_fresh hinv' hother htwins hfresh'
        obtain ⟨more, hadmitted⟩ :=
          hfields.exists_admitted_moved hshift htwins hpayload (FieldSet.tags_congr hcontents)
            (Planner.streamFor_congr hcontents hoffsets)
        have hgrid := (hfields.extends_admitted placed first.offset).grid_eq
        rw [attempt, hencode] at hcall'
        cases hcall'
        exact ⟨rfl, ⟨grid, more, hgrid ▸ hshift, hadmitted⟩, hoffsets⟩
  · obtain ⟨last, hencode⟩ :
        ∃ last,
          encode others ⟨bench.planner.moved grid records, book, events⟩ =
            .error (.fault (.placedTwice tag)) last :=
      encode_spent hsome' hother htwins.entries hspent
    rw [attempt, hencode] at hcall'
    cases hcall'

/-- Field sets with equal content are answered in the same way by layouts on grids with
different bases. -/
theorem attempt_relocates
    {bench twin next next' : Workbench} {fields others : FieldSet}
    {answer answer' : Except Error (Option Handle)}
    (hinv : bench.planner.Invariant)
    (hinv' : twin.planner.Invariant)
    (hmade : fields.Made)
    (hmade' : others.Made)
    (hcontents : fields.contents = others.contents)
    (hplanner : bench.planner.Relocates twin.planner)
    (hcall : attempt fields bench = .ok answer next)
    (hcall' : attempt others twin = .ok answer' next') :
    answer' = answer ∧
      next.planner.Relocates next'.planner ∧
      (returned answer = true → fields.offsets next.ledger = others.offsets next'.ledger) := by
  obtain ⟨planner, book, twinEvents⟩ := twin
  obtain ⟨grid, records, hshift, hmoved⟩ := hplanner
  change planner = _ at hmoved
  subst hmoved
  have hempty := FieldSet.isEmpty_congr hcontents
  have houtcome := outcome_encode hinv hmade
  rw [attempt] at hcall
  generalize encode fields bench = result at houtcome hcall
  cases houtcome with
  | skipped hnone events =>
      obtain ⟨later, hskipped⟩ :=
        encode_of_isEmpty ⟨bench.planner.moved grid records, book, twinEvents⟩ (hempty ▸ hnone)
      have hoffsets :=
        FieldSet.offsets_congr_of_no_blobs hcontents (FieldSet.blobs_eq_nil_of_isEmpty hnone)
          bench.ledger book
      rw [attempt, hskipped] at hcall'
      cases hcall
      cases hcall'
      exact ⟨rfl, ⟨grid, records, hshift, rfl⟩, fun _ => hoffsets⟩
  | refused hsome hplaced =>
      rename_i failure
      have hrefused :
          encode others ⟨bench.planner.moved grid records, book, twinEvents⟩ =
            .error failure ⟨bench.planner.moved grid records, book, twinEvents⟩ :=
        encode_refused (hempty ▸ hsome)
          (FieldSet.placements_error_congr hmade hcontents hplaced)
      rw [attempt, hrefused] at hcall'
      cases failure with
      | fault fault =>
          cases hcall
      | error error =>
          cases hcall
          cases hcall'
          refine ⟨rfl, ⟨grid, records, hshift, rfl⟩, ?_⟩
          intro hreturned
          cases hreturned
  | inlineOnly hsome hnone events =>
      have hothers := FieldSet.blobs_eq_nil_congr hcontents hnone
      have hoffsets := FieldSet.offsets_congr_of_no_blobs hcontents hnone bench.ledger book
      obtain ⟨later, hencode⟩ :=
        encode_inlineOnly ⟨bench.planner.moved grid records, book, twinEvents⟩
          (hempty ▸ hsome) hothers book 0
      rw [attempt, hencode] at hcall'
      cases hcall
      cases hcall'
      refine ⟨rfl, ⟨grid, records, hshift, ?_⟩, fun _ => hoffsets⟩
      rw [Planner.streamFor_congr hcontents hoffsets]
      exact Planner.keepInlineOnly_moved (FieldSet.tags_congr hcontents) records _
  | spent hsome hfields hspent last =>
      cases hcall
  | admitted hsome hfields hfresh events =>
      obtain ⟨hanswer, hplanner, hoffsets⟩ :=
        attempt_admitted_moved hshift hinv hinv' hmade' (hempty ▸ hsome) hcontents hfields hfresh
          hcall'
      cases hcall
      exact ⟨hanswer, hplanner, fun _ => hoffsets⟩

/-- A call takes nothing back, refused or not. -/
theorem kept_attempt
    {bench next : Workbench} {fields : FieldSet} {answer : Except Error (Option Handle)}
    (hreach : bench.planner.Reachable)
    (hmade : fields.Made)
    (h : attempt fields bench = .ok answer next) :
    next.planner.Reachable ∧
      bench.planner.Extends next.planner ∧ bench.ledger.Extends next.ledger := by
  have hinv := hreach.invariant
  rcases attempt_eq_ok_iff.mp h with ⟨handle, -, hcall⟩ | ⟨error, -, hcall⟩
  · exact
      ⟨hreach.returned hmade hcall, (invariant_encode hinv hmade hcall).2,
        (kept_encode hinv hmade hcall).1⟩
  · obtain ⟨-, rfl⟩ := encode_error_eq hinv hmade hcall
    exact ⟨hreach, Planner.Extends.refl _, Ledger.Extends.refl _⟩

theorem kept_attemptAll
    {sets : List FieldSet} {bench last : Workbench}
    {answers : List (Except Error (Option Handle))}
    (hreach : bench.planner.Reachable)
    (hmade : ∀ fields ∈ sets, fields.Made)
    (h : attemptAll sets bench = .ok answers last) :
    last.planner.Reachable ∧
      bench.planner.Extends last.planner ∧ bench.ledger.Extends last.ledger := by
  induction sets generalizing bench answers with
  | nil =>
      cases h
      exact ⟨hreach, Planner.Extends.refl _, Ledger.Extends.refl _⟩
  | cons fields rest ih =>
      obtain ⟨answer, later, next, hfirst, hrest, rfl⟩ := attemptAll_cons_eq_ok_iff.mp h
      obtain ⟨hnext, hplanner, hledger⟩ :=
        kept_attempt hreach (hmade fields List.mem_cons_self) hfirst
      obtain ⟨hlast, hplanner', hledger'⟩ :=
        ih hnext (fun f hf => hmade f (List.mem_cons_of_mem _ hf)) hrest
      exact ⟨hlast, hplanner.trans hplanner', hledger.trans hledger'⟩

/-- Field sets with equal content are answered in the same way throughout a run, and the blobs
of those that are accepted come to stand at the same offsets. -/
theorem attemptAll_relocates
    {sets copies : List FieldSet} {bench twin last last' : Workbench}
    {answers answers' : List (Except Error (Option Handle))}
    (hreach : bench.planner.Reachable)
    (hreach' : twin.planner.Reachable)
    (hmade : ∀ fields ∈ sets, fields.Made)
    (hmade' : ∀ fields ∈ copies, fields.Made)
    (hcontents : sets.map FieldSet.contents = copies.map FieldSet.contents)
    (hplanner : bench.planner.Relocates twin.planner)
    (h : attemptAll sets bench = .ok answers last)
    (h' : attemptAll copies twin = .ok answers' last') :
    answers' = answers ∧
      last.planner.Relocates last'.planner ∧
      (accepted copies answers').map (fun fields => fields.offsets last'.ledger) =
        (accepted sets answers).map fun fields => fields.offsets last.ledger := by
  induction sets generalizing copies bench twin answers answers' with
  | nil =>
      rw [List.map_nil, eq_comm, List.map_eq_nil_iff] at hcontents
      subst hcontents
      cases h
      cases h'
      exact ⟨rfl, hplanner, rfl⟩
  | cons fields rest ih =>
      rw [List.map_cons, eq_comm, List.map_eq_cons_iff] at hcontents
      obtain ⟨other, copies, rfl, hfirst, hrest⟩ := hcontents
      obtain ⟨answer, later, next, hcall, hcalls, rfl⟩ := attemptAll_cons_eq_ok_iff.mp h
      obtain ⟨answer', later', next', hcall', hcalls', rfl⟩ := attemptAll_cons_eq_ok_iff.mp h'
      have hfields := hmade fields List.mem_cons_self
      have hother := hmade' other List.mem_cons_self
      have hmore : ∀ f ∈ rest, f.Made := fun f hf => hmade f (List.mem_cons_of_mem _ hf)
      have hmore' : ∀ f ∈ copies, f.Made := fun f hf => hmade' f (List.mem_cons_of_mem _ hf)
      have hinv := hreach.invariant
      have hinv' := hreach'.invariant
      obtain ⟨hnext, -⟩ := kept_attempt hreach hfields hcall
      obtain ⟨hnext', -⟩ := kept_attempt hreach' hother hcall'
      obtain ⟨rfl, hmoved, hoffsets⟩ :=
        attempt_relocates hinv hinv' hfields hother hfirst.symm hplanner hcall hcall'
      obtain ⟨rfl, hlast, hlater⟩ :=
        ih hnext hnext' hmore hmore' hrest.symm hmoved hcalls hcalls'
      refine ⟨rfl, hlast, ?_⟩
      rw [accepted_cons, accepted_cons]
      rcases (attempt_eq_ok hinv hfields hcall).2 with ⟨handle, rfl, hencode⟩ | ⟨rfl, -⟩
      · rcases (attempt_eq_ok hinv' hother hcall').2 with ⟨handle', heq, hencode'⟩ | ⟨heq, -⟩
        · have hyes : returned (.ok handle) = true := rfl
          have hkept :=
            offsets_of_returned hinv hfields hencode (kept_attemptAll hnext hmore hcalls).2.2
          have hkept' :=
            offsets_of_returned hinv' hother hencode' (kept_attemptAll hnext' hmore' hcalls').2.2
          rw [if_pos hyes, if_pos hyes, List.map_cons, List.map_cons, hkept, hkept', hoffsets hyes,
            hlater]
        · cases heq
      · exact hlater

end Work
end AnchoredFields

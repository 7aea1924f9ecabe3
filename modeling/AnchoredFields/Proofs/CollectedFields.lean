import AnchoredFields.Proofs.LastWrites
import AnchoredFields.Proofs.PlacedBlobs
import AnchoredFields.Proofs.RelocatedRuns

/-!
# Collected fields in a layout

Two collectors whose tags were given the same last values are equal.  If only the contents of
the last values are the same, because the blobs are copies of one another, then a layout
encodes both to the same stream, and places the blobs of both at the same offsets.  Blobs that
were overwritten are in no layout at all.

* `Work.exists_attempt`: a field set whose blobs can all be placed is answered;
* `FieldSet.encodeAlike_of_contents`: field sets with equal content come to the same;
* `FieldSet.spares_of_not_mem`: blobs outside of a field set are not placed with it;
* `Collector.last_write_wins`: all of this for collectors.
-/

namespace AnchoredFields

/-- A field set whose blobs can all be placed is accepted or refused, without a fault. -/
theorem Work.exists_attempt
    (bench : Workbench) {fields : FieldSet}
    (hinv : bench.planner.Invariant)
    (hmade : fields.Made)
    (hmemory : fields.InMemory)
    (hfresh : bench.ledger.AllFresh fields.blobs) :
    ∃ answer next, attempt fields bench = .ok answer next := by
  have hdecides := Planner.Invariant.decides bench hinv hmade hmemory
  cases hencode : encode fields bench with
  | ok handle next =>
      exact ⟨.ok handle, next, attempt_eq_ok_iff.mpr (Or.inl ⟨handle, rfl, hencode⟩)⟩
  | error failure next =>
      cases failure with
      | error error =>
          exact ⟨.error error, next, attempt_eq_ok_iff.mpr (Or.inr ⟨error, rfl, hencode⟩)⟩
      | fault fault =>
          have hreuses := (hdecides.faulty.mp ⟨fault, next, hencode⟩).2
          exact absurd hreuses hfresh.not_reuses

namespace FieldSet

/-- Field sets that any layout encodes alike, whichever blobs are placed already, as long as
theirs are not: they get the same answer, the layouts differ in which blobs were copied only,
and the blobs of both come to stand at the same offsets. -/
def EncodeAlike (fields others : FieldSet) : Prop :=
  ∀ (planner : Planner) (ledger book : Ledger) (events : List Event),
    planner.Reachable → ledger.AllFresh fields.blobs → book.AllFresh others.blobs →
      ∃ answer next next',
        Work.attempt fields { planner := planner, ledger := ledger, events := events } =
            .ok answer next ∧
          Work.attempt others { planner := planner, ledger := book, events := events } =
            .ok answer next' ∧
          next'.planner = { next.planner with records := next'.planner.records } ∧
          (Work.returned answer = true →
            others.offsets next'.ledger = fields.offsets next.ledger)

/-- A blob that encoding a field set does not place, however the call ends. -/
def Spares (fields : FieldSet) (blob : Blob) : Prop :=
  ∀ bench,
    let last := Work.lastBench (Work.encode fields bench)
    last.ledger.offset? blob = bench.ledger.offset? blob ∧
      ∃ more,
        last.planner.records = bench.planner.records ++ more ∧
          ∀ record ∈ more, record.blob.id ≠ blob.id

variable {fields others : FieldSet}

theorem InMemory.congr (hmemory : fields.InMemory) (h : fields.contents = others.contents) :
    others.InMemory := by
  intro entry hentry
  have hdata := List.mem_map_of_mem (f := fun e : Tag × Blob => (e.1, e.2.data)) hentry
  rw [← blobs_congr h, List.mem_map] at hdata
  obtain ⟨twin, htwin, heq⟩ := hdata
  rw [← Blob.size_congr (Prod.mk.inj heq).2]
  exact hmemory twin htwin

/-- Field sets with equal content are encoded alike. -/
theorem encodeAlike_of_contents
    (hmade : fields.Made) (hmade' : others.Made)
    (h : fields.contents = others.contents)
    (hmemory : fields.InMemory) :
    fields.EncodeAlike others := by
  intro planner ledger book events hreach hfresh hfresh'
  have hinv := hreach.invariant
  obtain ⟨answer, next, hcall⟩ :=
    Work.exists_attempt { planner := planner, ledger := ledger, events := events } hinv hmade
      hmemory hfresh
  obtain ⟨answer', next', hcall'⟩ :=
    Work.exists_attempt { planner := planner, ledger := book, events := events } hinv hmade'
      (hmemory.congr h) hfresh'
  have hself : planner.Relocates planner := ⟨planner.grid, planner.records, rfl, rfl⟩
  obtain ⟨rfl, ⟨grid, records, -, hmoved⟩, hoffsets⟩ :=
    Work.attempt_relocates hinv hinv hmade hmade' h hself hcall hcall'
  refine ⟨answer', next, next', hcall, hcall', ?_, fun hyes => (hoffsets hyes).symm⟩
  -- Neither call changes the grid, so the grid is the same after both of them.
  have hgrid := (Work.kept_attempt hreach hmade hcall).2.1.grid_eq
  have hgrid' := (Work.kept_attempt hreach hmade' hcall').2.1.grid_eq
  rw [hmoved] at hgrid'
  have hsame : grid = next.planner.grid := hgrid'.trans hgrid.symm
  rw [hmoved, hsame]
  rfl

/-- A blob that a field set does not refer to is not placed with it. -/
theorem spares_of_not_mem {blob : Blob} (h : ∀ entry ∈ fields.blobs, entry.2.id ≠ blob.id) :
    fields.Spares blob := by
  intro bench
  have hother : ∀ other ∈ fields.blobs.map Prod.snd, other.id ≠ blob.id :=
    List.forall_mem_map.mpr h
  obtain ⟨hentries, more, hmore, hblobs⟩ := Work.encode_within fields bench
  exact
    ⟨hentries blob hother, more, hmore, fun record hrecord => hother _ (hblobs record hrecord)⟩

end FieldSet

namespace Collector

/-- Collectors that a layout cannot tell apart, whichever blobs hold the bytes. -/
structure Alike (collector twin : Collector) : Prop where
  contents : collector.fields.contents = twin.fields.contents
  tags : collector.fields.present.map Prod.fst = twin.fields.present.map Prod.fst
  size : collector.fields.size = twin.fields.size
  flag : collector.containsOutOfLine = twin.containsOutOfLine
  encoded : collector.fields.InMemory → collector.fields.EncodeAlike twin.fields

variable {uses others : List (Ledger × Setter)} {collector twin : Collector}

/-- The kind of a value is told by its content. -/
theorem isOutOfLine_eq_content (value : FieldValue) :
    value.isOutOfLine = value.content.bytes?.isSome := by
  cases value <;> rfl

theorem contents_congr
    (huses : empty.useAll uses = .ok collector)
    (hothers : empty.useAll others = .ok twin)
    (hlast : ∀ tag,
      (lastValue tag uses).map FieldValue.content =
        (lastValue tag others).map FieldValue.content) :
    collector.fields.contents = twin.fields.contents := by
  ext1 tag
  have htag := hlast tag
  simp only [FieldSet.contents, get_useAll huses, get_useAll hothers, Option.map_map]
  exact htag

/-- Collectors whose last values have equal content are alike. -/
theorem alike_of_content
    (huses : empty.useAll uses = .ok collector)
    (hothers : empty.useAll others = .ok twin)
    (hlast : ∀ tag,
      (lastValue tag uses).map FieldValue.content =
        (lastValue tag others).map FieldValue.content) :
    collector.Alike twin := by
  have hcontents := contents_congr huses hothers hlast
  have htags := FieldSet.tags_congr hcontents
  have hlength := congrArg List.length htags
  rw [List.length_map, List.length_map] at hlength
  refine
    { contents := hcontents
      tags := htags
      size := ?_
      flag := ?_
      encoded := ?_ }
  · rw [FieldSet.size, FieldSet.size, Slots.size_eq, Slots.size_eq]
    exact hlength
  · refine (Invariant.empty.useAll huses).flag_congr (Invariant.empty.useAll hothers) ?_
    intro tag
    have hslot :=
      congrArg (fun slots => (slots.get tag).map fun content => content.bytes?.isSome) hcontents
    simp only [FieldSet.contents, Option.map_map, Function.comp_def] at hslot
    simp only [isOutOfLine_eq_content]
    exact hslot
  · exact
      FieldSet.encodeAlike_of_contents (made_of_useAll huses) (made_of_useAll hothers) hcontents

/-- What setters lead to is told by the last value of each tag: the collectors are equal if
these are, and alike if their contents are.  Whatever is encoded, a blob that is not among them
is not placed. -/
theorem last_write_wins
    (huses : empty.useAll uses = .ok collector)
    (hothers : empty.useAll others = .ok twin) :
    collector.Sound ∧
      (∀ tag,
        collector.fields.get tag =
          (lastValue tag uses).map fun value => { value := value }) ∧
      ((∀ tag, lastValue tag uses = lastValue tag others) → collector = twin) ∧
      ((∀ tag,
          (lastValue tag uses).map FieldValue.content =
            (lastValue tag others).map FieldValue.content) →
        collector.Alike twin) ∧
      ∀ blob,
        (∀ tag kept, lastValue tag uses = some (.outOfLine kept) → kept.id ≠ blob.id) →
          collector.fields.Spares blob := by
  refine
    ⟨(Invariant.empty.useAll huses).sound, get_useAll huses, eq_of_lastValue_eq huses hothers,
      alike_of_content huses hothers, ?_⟩
  intro blob hblob
  refine FieldSet.spares_of_not_mem ?_
  rintro ⟨tag, kept⟩ hentry
  exact hblob tag kept ((mem_blobs_useAll_iff huses).mp hentry)

/-- A number and a blob are overwritten; another order without them leads to the same collector,
and the overwritten blob is not placed. -/
theorem last_write_wins_overwritten :
    let old : Blob := { id := 0, payload := .bytes [1, 2, 3, 4], alignment := 4 }
    let new : Blob := { id := 1, payload := .bytes [5, 6], alignment := 2 }
    let uses : List (Ledger × Setter) :=
      [({}, .dispatchMap 1), ({}, .genericComposition old), ({}, .dispatchMap 2),
        ({}, .set .genericComposition (.outOfLine new))]
    let others : List (Ledger × Setter) :=
      [({}, .genericComposition new), ({}, .set .dispatchMap (.inline 2))]
    ∃ collector,
      empty.useAll uses = .ok collector ∧ empty.useAll others = .ok collector ∧
        collector.fields.Spares old := by
  intro old new uses others
  obtain ⟨collector, huses⟩ : ∃ collector, empty.useAll uses = .ok collector := by
    constructor
    unfold uses old new
    rfl
  obtain ⟨twin, hothers⟩ : ∃ twin, empty.useAll others = .ok twin := by
    constructor
    unfold others new
    rfl
  obtain ⟨-, -, hequal, -, hspares⟩ := last_write_wins huses hothers
  have hlast : ∀ tag, lastValue tag uses = lastValue tag others := by
    intro tag
    cases tag <;> rfl
  have hkept :
      ∀ tag kept, lastValue tag uses = some (.outOfLine kept) → kept.id ≠ old.id := by
    intro tag kept hkept
    cases tag <;> cases hkept
    decide
  exact ⟨collector, huses, hequal hlast ▸ hothers, hspares old hkept⟩

end Collector
end AnchoredFields

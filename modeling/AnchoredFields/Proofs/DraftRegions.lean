import AnchoredFields.Proofs.DraftRuns

/-!
# Regions of an image that is written step by step

A region is entered into the draft without a size when it is begun, and gets its size when the
next region is begun or the image is finished.  The padding in front of a region is written
while no region is open, any other padding belongs to the region that is open.

* `Draft.regions_afterAll_of_closed`, `Draft.regions_afterAll_of_open`: what steps do to the
  extent of a region;
* `Draft.Orderly.written`: the image that orderly steps lead to.
-/

namespace AnchoredFields

/-- An extent whose end is a 64-bit number contains the offsets from its start to its end. -/
theorem Extent.contains_eq {extent : Extent} (h : extent.start + extent.size < UInt64.size)
    (offset : Nat) :
    extent.contains offset =
      .ok (decide (extent.start ≤ offset ∧ offset < extent.start + extent.size)) := by
  have hstop : extent.stop = .ok (extent.start + extent.size) :=
    sum64_eq_ok_iff.mpr ⟨rfl, h⟩
  rw [contains, hstop]
  by_cases hle : extent.start ≤ offset
  · rw [if_pos hle]
    simp only [hle, true_and]
    rfl
  · rw [if_neg hle]
    simp only [hle, false_and, decide_false]
    rfl

namespace Draft

/-- The steps up to the next one that begins a region. -/
def upToRegion (steps : List Step) : List Step :=
  steps.takeWhile fun step => step.region?.isNone

theorem upToRegion_cons_of_none {step : Step} (h : step.region? = none) (rest : List Step) :
    upToRegion (step :: rest) = step :: upToRegion rest := by
  rw [upToRegion, List.takeWhile_cons_of_pos (by rw [h]; rfl), upToRegion]

/-- Steps up to a region are a prefix of any steps in front of one. -/
theorem prefix_upToRegion (middle : List Step) (region : Region) (alignment : Nat)
    (rest : List Step) :
    upToRegion (middle ++ .beginRegion region alignment :: rest) <+: middle := by
  induction middle with
  | nil =>
      exact List.prefix_rfl
  | cons step middle ih =>
      cases hregion : step.region? with
      | none =>
          rw [List.cons_append, upToRegion_cons_of_none hregion]
          exact List.prefix_cons_inj step |>.mpr ih
      | some r =>
          rw [List.cons_append, upToRegion, List.takeWhile_cons_of_neg (by rw [hregion]; simp)]
          exact List.nil_prefix

theorem prefix_writtenFrom {part steps : List Step} (h : part <+: steps) (size : Nat) :
    writtenFrom size part <+: writtenFrom size steps := by
  obtain ⟨more, rfl⟩ := h
  rw [writtenFrom_append]
  exact List.prefix_append _ _

/-! ### One region -/

theorem regions_endRegion_of_current_ne {draft : Draft} {region : Region}
    (h : draft.current ≠ some region) :
    draft.endRegion.regions region = draft.regions region := by
  cases hcurrent : draft.current with
  | none =>
      simp only [endRegion, hcurrent]
  | some other =>
      refine regions_endRegion_of_ne hcurrent ?_
      rintro rfl
      exact h hcurrent

/-- Steps that do not begin a region leave regions alone. -/
theorem after_of_region?_eq_none {step : Step} (h : step.region? = none) (draft : Draft) :
    (draft.after step).regions = draft.regions ∧ (draft.after step).current = draft.current := by
  cases step with
  | append bytes =>
      exact ⟨rfl, rfl⟩
  | pad alignment =>
      exact ⟨rfl, rfl⟩
  | beginRegion region alignment =>
      cases h

/-- A step that begins another region leaves a region as closing it does, and not open. -/
theorem regions_after_of_ne {step : Step} {other region : Region}
    (h : step.region? = some other) (hne : region ≠ other) (draft : Draft) :
    (draft.after step).regions region = draft.endRegion.regions region ∧
      (draft.after step).current ≠ some region := by
  cases step with
  | append bytes =>
      cases h
  | pad alignment =>
      cases h
  | beginRegion r alignment =>
      cases h
      exact ⟨if_neg hne, fun hsame => hne (Option.some.inj hsame).symm⟩

/-- A region that is not open stays as it is. -/
theorem regions_afterAll_of_closed {draft : Draft} {steps : List Step} {region : Region}
    (hcurrent : draft.current ≠ some region)
    (hnot : region ∉ begun steps) :
    (draft.afterAll steps).endRegion.regions region = draft.regions region := by
  induction steps generalizing draft with
  | nil =>
      exact regions_endRegion_of_current_ne hcurrent
  | cons step rest ih =>
      cases hregion : step.region? with
      | none =>
          rw [begun, List.filterMap_cons_none hregion] at hnot
          obtain ⟨hregions, hopen⟩ := after_of_region?_eq_none hregion draft
          rw [afterAll_cons, ih (hopen ▸ hcurrent) hnot, hregions]
      | some other =>
          rw [begun, List.filterMap_cons_some hregion, List.mem_cons, not_or] at hnot
          obtain ⟨hregions, hlater⟩ := regions_after_of_ne hregion hnot.1 draft
          rw [afterAll_cons, ih hlater hnot.2, hregions,
            regions_endRegion_of_current_ne hcurrent]

/-- The region that is open ends where the next one is begun, in front of the padding for it,
or with the last step. -/
theorem regions_afterAll_of_open {draft : Draft} {steps : List Step} {region : Region}
    {extent : Extent}
    (hcurrent : draft.current = some region)
    (hextent : draft.regions region = some extent)
    (hnot : region ∉ begun steps) :
    (draft.afterAll steps).endRegion.regions region =
      some
        { start := extent.start
          size :=
            draft.size + (writtenFrom draft.size (upToRegion steps)).length - extent.start } := by
  induction steps generalizing draft with
  | nil =>
      exact regions_endRegion draft hcurrent hextent
  | cons step rest ih =>
      cases hregion : step.region? with
      | none =>
          rw [begun, List.filterMap_cons_none hregion] at hnot
          obtain ⟨hregions, hopen⟩ := after_of_region?_eq_none hregion draft
          rw [afterAll_cons, ih (hopen.trans hcurrent) (hregions ▸ hextent) hnot,
            upToRegion_cons_of_none hregion, writtenFrom, List.length_append, size_after,
            Nat.add_assoc]
      | some other =>
          rw [begun, List.filterMap_cons_some hregion, List.mem_cons, not_or] at hnot
          -- The region is closed here and not begun again, so the steps behind do not matter.
          obtain ⟨hregions, hlater⟩ := regions_after_of_ne hregion hnot.1 draft
          have hnone : upToRegion (step :: rest) = [] :=
            List.takeWhile_cons_of_neg (by rw [hregion]; simp)
          rw [afterAll_cons, regions_afterAll_of_closed hlater hnot.2, hregions,
            regions_endRegion draft hcurrent hextent, hnone]
          rfl

/-! ### All regions -/

/-- What orderly steps lead to: their answers, and the image that they are finished with. -/
structure Written (steps : List Step) (answers : List Nat) (image : Image) : Prop where
  bytes_eq : image.bytes = writtenFrom 0 steps
  answered : answers.length = steps.length
  append :
    ∀ before bytes later, steps = before ++ .append bytes :: later →
      ∃ offset,
        answers[before.length]? = some offset ∧
          offset = sizeAfter before ∧ StandsAt bytes offset image.bytes
  pad :
    ∀ before alignment later, steps = before ++ .pad alignment :: later →
      ∃ padding,
        answers[before.length]? = some padding ∧
          IsLeast { n | alignment ∣ sizeAfter before + n } padding ∧
          StandsAt (List.replicate padding 0) (sizeAfter before) image.bytes
  beginRegion :
    ∀ before region alignment later, steps = before ++ .beginRegion region alignment :: later →
      ∃ padding start,
        answers[before.length]? = some start ∧
          start = sizeAfter before + padding ∧
          IsLeast { n | alignment ∣ sizeAfter before + n } padding ∧
          StandsAt (List.replicate padding 0) (sizeAfter before) image.bytes ∧
          image.regions region =
            some { start := start, size := (writtenFrom start (upToRegion later)).length } ∧
          StandsAt (writtenFrom start (upToRegion later)) start image.bytes
  absent : ∀ region, region ∉ begun steps → image.regions region = none
  inside :
    ∀ region extent, image.regions region = some extent →
      extent.start + extent.size ≤ image.size
  contains :
    ∀ region extent, image.regions region = some extent → ∀ offset,
      extent.contains offset =
        .ok (decide (extent.start ≤ offset ∧ offset < extent.start + extent.size))
  disjoint :
    ∀ region other extent next,
      region ≠ other → image.regions region = some extent → image.regions other = some next →
        extent.start + extent.size ≤ next.start ∨ next.start + next.size ≤ extent.start

theorem mem_begun_iff {steps : List Step} {region : Region} :
    region ∈ begun steps ↔
      ∃ before alignment later, steps = before ++ .beginRegion region alignment :: later := by
  constructor
  · intro hmem
    obtain ⟨step, hstep, hregion⟩ := List.mem_filterMap.mp hmem
    obtain ⟨before, later, rfl⟩ := List.append_of_mem hstep
    cases step with
    | append bytes =>
        cases hregion
    | pad alignment =>
        cases hregion
    | beginRegion r alignment =>
        cases hregion
        exact ⟨before, alignment, later, rfl⟩
  · rintro ⟨before, alignment, later, rfl⟩
    exact List.mem_filterMap.mpr ⟨_, List.mem_append_right _ List.mem_cons_self, rfl⟩

theorem begun_beginRegion (before : List Step) (region : Region) (alignment : Nat)
    (later : List Step) :
    begun (before ++ .beginRegion region alignment :: later) =
      begun before ++ region :: begun later :=
  List.filterMap_append

/-- A region is not begun again behind the step that begins it. -/
theorem Orderly.not_mem_begun
    {before later : List Step} {region : Region} {alignment : Nat}
    (h : Orderly (before ++ .beginRegion region alignment :: later)) :
    region ∉ begun later := by
  have hnodup := h.nodup
  rw [begun_beginRegion, List.nodup_append, List.nodup_cons] at hnodup
  exact hnodup.2.1.1

theorem Orderly.alignment_pos
    {steps : List Step} {step : Step} {alignment : Nat}
    (h : Orderly steps) (hmem : step ∈ steps) (halign : step.alignment? = some alignment) :
    0 < alignment :=
  pos_of_isPowerOfTwo (h.power step hmem alignment halign)

theorem Orderly.boundary_pos
    {before later : List Step} {region : Region} {alignment : Nat}
    (h : Orderly (before ++ .beginRegion region alignment :: later)) :
    0 < alignment := by
  have hmem :
      Step.beginRegion region alignment ∈ before ++ .beginRegion region alignment :: later :=
    List.mem_append_right _ List.mem_cons_self
  exact h.alignment_pos hmem rfl

/-- Where a region starts: behind what was written before it and the padding for it. -/
theorem sizeAfter_concat_beginRegion (before : List Step) (region : Region) {alignment : Nat}
    (halign : 0 < alignment) :
    sizeAfter (before ++ [.beginRegion region alignment]) =
      alignUp alignment (sizeAfter before) := by
  have hup := le_alignUp halign (sizeAfter before)
  rw [sizeAfter_concat, Step.written, List.length_replicate]
  omega

/-- The extent of a region that orderly steps begin. -/
theorem Orderly.regions_eq
    {before later : List Step} {region : Region} {alignment : Nat}
    (h : Orderly (before ++ .beginRegion region alignment :: later))
    (base : Address) :
    let start := alignUp alignment (sizeAfter before)
    (afterAll { base := base }
        (before ++ .beginRegion region alignment :: later)).endRegion.regions region =
      some { start := start, size := (writtenFrom start (upToRegion later)).length } := by
  intro start
  have halign := h.boundary_pos
  have hsize :
      ((afterAll { base := base } before).after (.beginRegion region alignment)).size =
        start := by
    have hstart := size_afterAll base (before ++ [.beginRegion region alignment])
    rw [sizeAfter_concat_beginRegion before region halign, afterAll_append] at hstart
    exact hstart
  have hopen :
      ((afterAll { base := base } before).after (.beginRegion region alignment)).regions
          region =
        some { start := start, size := 0 } := by
    rw [← hsize]
    exact if_pos rfl
  rw [afterAll_append, afterAll_cons, regions_afterAll_of_open rfl hopen h.not_mem_begun, hsize]
  simp only [Nat.add_sub_cancel_left]

/-- What a region covers stands where the region starts. -/
theorem standsAt_region (before : List Step) (region : Region) {alignment : Nat}
    (halign : 0 < alignment) (later : List Step) :
    let start := alignUp alignment (sizeAfter before)
    StandsAt (writtenFrom start (upToRegion later)) start
      (writtenFrom 0 (before ++ .beginRegion region alignment :: later)) := by
  intro start
  have hstart := sizeAfter_concat_beginRegion before region halign
  have hpart : writtenFrom start (upToRegion later) <+: writtenFrom start later :=
    prefix_writtenFrom (List.takeWhile_prefix _) start
  have hstands := standsAt_writtenFrom (before ++ [.beginRegion region alignment]) later
  rw [hstart, List.append_assoc, List.singleton_append] at hstands
  exact hstands.shorten hpart

/-- A region ends in front of the regions that are begun after it. -/
theorem stop_le_of_later
    {before middle later : List Step} {region other : Region} {alignment boundary : Nat}
    (halign : 0 < alignment) (hboundary : 0 < boundary) :
    let start := alignUp alignment (sizeAfter before)
    start +
        (writtenFrom start (upToRegion (middle ++ .beginRegion other boundary :: later))).length ≤
      alignUp boundary (sizeAfter (before ++ .beginRegion region alignment :: middle)) := by
  intro start
  have hstart := sizeAfter_concat_beginRegion before region halign
  have hmiddle :
      sizeAfter (before ++ .beginRegion region alignment :: middle) =
        start + (writtenFrom start middle).length := by
    rw [← List.singleton_append, ← List.append_assoc, sizeAfter, writtenFrom_append,
      List.length_append, Nat.zero_add]
    change sizeAfter _ + (writtenFrom (sizeAfter _) middle).length = _
    rw [hstart]
  have hlength :=
    (prefix_writtenFrom (prefix_upToRegion middle other boundary later) start).length_le
  have hup :=
    le_alignUp hboundary (sizeAfter (before ++ .beginRegion region alignment :: middle))
  omega

namespace Orderly

variable {steps : List Step}

/-- A region that has an extent was begun by some step, which tells the extent. -/
theorem exists_begun (h : Orderly steps) {base : Address} {region : Region} {extent : Extent}
    (hextent : (afterAll { base := base } steps).endRegion.regions region = some extent) :
    ∃ before alignment later,
      steps = before ++ .beginRegion region alignment :: later ∧ 0 < alignment ∧
        extent =
          { start := alignUp alignment (sizeAfter before)
            size :=
              (writtenFrom (alignUp alignment (sizeAfter before)) (upToRegion later)).length } := by
  have hmem : region ∈ begun steps := by
    by_contra hnot
    rw [regions_afterAll_of_closed (by simp) hnot] at hextent
    cases hextent
  obtain ⟨before, alignment, later, rfl⟩ := mem_begun_iff.mp hmem
  have halign := h.boundary_pos
  rw [h.regions_eq base] at hextent
  exact ⟨before, alignment, later, rfl, halign, (Option.some.inj hextent).symm⟩

/-- The extents of two regions follow one another in the order in which they were begun. -/
theorem stop_le_start
    {before middle later : List Step} {region other : Region} {alignment boundary : Nat}
    (h : Orderly
      (before ++ .beginRegion region alignment :: (middle ++ .beginRegion other boundary :: later)))
    {base : Address} {extent next : Extent}
    (hextent :
      (afterAll { base := base }
        (before ++ .beginRegion region alignment ::
          (middle ++ .beginRegion other boundary :: later))).endRegion.regions region =
        some extent)
    (hnext :
      (afterAll { base := base }
        (before ++ .beginRegion region alignment ::
          (middle ++ .beginRegion other boundary :: later))).endRegion.regions other =
        some next) :
    extent.start + extent.size ≤ next.start := by
  have halign := h.boundary_pos
  have hsplit :
      before ++ .beginRegion region alignment :: (middle ++ .beginRegion other boundary :: later) =
        (before ++ .beginRegion region alignment :: middle) ++
          .beginRegion other boundary :: later := by
    rw [List.append_assoc, List.cons_append]
  rw [h.regions_eq base] at hextent
  rw [hsplit] at h hnext
  have hboundary := h.boundary_pos
  rw [h.regions_eq base] at hnext
  cases hextent
  cases hnext
  exact stop_le_of_later halign hboundary

theorem disjoint (h : Orderly steps) {base : Address} {region other : Region}
    {extent next : Extent}
    (hne : region ≠ other)
    (hextent : (afterAll { base := base } steps).endRegion.regions region = some extent)
    (hnext : (afterAll { base := base } steps).endRegion.regions other = some next) :
    extent.start + extent.size ≤ next.start ∨ next.start + next.size ≤ extent.start := by
  obtain ⟨before, alignment, later, rfl, -, -⟩ := h.exists_begun hextent
  obtain ⟨before', boundary, later', heq, -, -⟩ := h.exists_begun hnext
  have hother : other ∈ begun before ++ region :: begun later := by
    rw [← begun_beginRegion before region alignment later]
    exact mem_begun_iff.mpr ⟨before', boundary, later', heq⟩
  rcases List.mem_append.mp hother with hbefore | hlater
  · obtain ⟨front, edge, middle, rfl⟩ := mem_begun_iff.mp hbefore
    rw [List.append_assoc, List.cons_append] at h hextent hnext
    exact Or.inr (h.stop_le_start hnext hextent)
  · rcases List.mem_cons.mp hlater with heq | hbehind
    · exact absurd heq.symm hne
    · obtain ⟨middle, edge, rest, rfl⟩ := mem_begun_iff.mp hbehind
      exact Or.inl (h.stop_le_start hextent hnext)

/-- The image that orderly steps are finished with. -/
theorem written (h : Orderly steps) (base : Address) (anchorAlignment : UInt64)
    (streams : List Nat) :
    Written steps (answersFrom 0 steps)
      ((afterAll { base := base } steps).finish anchorAlignment streams) := by
  have hbytes : (afterAll { base := base } steps).bytes = writtenFrom 0 steps :=
    bytes_afterAll { base := base } steps
  have hstands (before : List Step) (step : Step) (later : List Step)
      (heq : steps = before ++ step :: later) :
      StandsAt (step.written (sizeAfter before)) (sizeAfter before) (writtenFrom 0 steps) :=
    heq ▸ standsAt_written before step later
  have hanswer (before : List Step) (step : Step) (later : List Step)
      (heq : steps = before ++ step :: later) :
      (answersFrom 0 steps)[before.length]? = some (step.answer (sizeAfter before)) := by
    rw [heq, getElem?_answersFrom, Nat.zero_add]
    rfl
  have hpos (before : List Step) (step : Step) (later : List Step)
      (heq : steps = before ++ step :: later) (alignment : Nat)
      (halign : step.alignment? = some alignment) :
      0 < alignment :=
    h.alignment_pos (heq ▸ List.mem_append_right _ List.mem_cons_self) halign
  have hinside (region : Region) (extent : Extent)
      (hextent : (afterAll { base := base } steps).endRegion.regions region = some extent) :
      extent.start + extent.size ≤ (writtenFrom 0 steps).length := by
    obtain ⟨before, alignment, later, rfl, halign, rfl⟩ := h.exists_begun hextent
    exact (standsAt_region before region halign later).stop_le
  refine
    { bytes_eq := by rw [bytes_finish, hbytes]
      answered := length_answersFrom 0 steps
      append := ?_
      pad := ?_
      beginRegion := ?_
      absent := fun region hnot => regions_afterAll_of_closed (by simp) hnot
      inside := ?_
      contains := ?_
      disjoint := fun region other extent next hne => h.disjoint hne }
  · intro before bytes later heq
    rw [bytes_finish, hbytes]
    exact ⟨_, hanswer _ _ _ heq, rfl, hstands _ _ _ heq⟩
  · intro before alignment later heq
    have halign := hpos _ _ _ heq alignment rfl
    rw [bytes_finish, hbytes]
    exact ⟨_, hanswer _ _ _ heq, isLeast_padding halign _, hstands _ _ _ heq⟩
  · intro before region alignment later heq
    have halign := hpos _ _ _ heq alignment rfl
    have hup := le_alignUp halign (sizeAfter before)
    refine ⟨_, _, hanswer _ _ _ heq, ?_, isLeast_padding halign _, ?_, ?_, ?_⟩
    · show alignUp alignment (sizeAfter before) = _
      omega
    · rw [bytes_finish, hbytes]
      exact hstands _ _ _ heq
    · subst heq
      exact h.regions_eq base
    · rw [bytes_finish, hbytes, heq]
      exact standsAt_region before region halign later
  · intro region extent hextent
    rw [Image.size, bytes_finish, hbytes]
    exact hinside region extent hextent
  · intro region extent hextent offset
    refine Extent.contains_eq ?_ offset
    have hle := hinside region extent hextent
    have hsmall : (writtenFrom 0 steps).length < 2 ^ 63 := h.small
    have hwords : UInt64.size = 2 ^ 64 := rfl
    omega

/-- Orderly steps succeed, and their answers and extents are those of the finished image.  A
region that was begun cannot be begun again. -/
theorem image_of_steps (h : Orderly steps) (base : Address) (anchorAlignment : UInt64)
    (streams : List Nat) :
    ∃ answers last,
      performAll { base := base } steps = .ok (answers, last) ∧
        Written steps answers (last.finish anchorAlignment streams) ∧
        ∀ region ∈ begun steps, ∀ alignment,
          last.perform (.beginRegion region alignment) = .error (.regionTwice region) := by
  refine ⟨_, _, h.performAll_eq base, h.written base anchorAlignment streams, ?_⟩
  intro region hregion alignment
  obtain ⟨before, boundary, later, rfl⟩ := mem_begun_iff.mp hregion
  have hsome := congrArg Option.isSome (h.regions_eq base)
  rw [isSome_regions_endRegion, Option.isSome_some] at hsome
  rw [perform, Draft.beginRegion, if_pos hsome]

/-- The padding behind three bytes belongs to the region they are in, the padding in front of the
next region does not. -/
theorem image_of_steps_two_regions :
    let steps : List Step :=
      [.beginRegion .outOfLineData 16, .append [1, 2, 3], .pad 8, .append [4],
        .beginRegion .fieldStreams 32, .append [170, 170, 170, 170]]
    ∃ last,
      performAll { base := 4096 } steps = .ok ([0, 0, 5, 8, 32, 32], last) ∧
        (last.finish 32 [32]).regions .outOfLineData = some { start := 0, size := 9 } ∧
        last.perform (.beginRegion .outOfLineData 8) = .error (.regionTwice .outOfLineData) := by
  intro steps
  have horderly : Orderly steps := by
    refine ⟨?_, by decide, by decide⟩
    intro step hstep alignment halign
    have hall :
        ∀ step ∈ steps, step.alignment?.all isPowerOfTwo = true := by
      decide
    have hpower := hall step hstep
    rwa [halign] at hpower
  obtain ⟨answers, last, hrun, hwritten, htwice⟩ := horderly.image_of_steps 4096 32 [32]
  cases hrun
  refine ⟨_, rfl, ?_, htwice .outOfLineData (by decide) 8⟩
  obtain ⟨padding, start, hstart, -, -, -, hregion, -⟩ :=
    hwritten.beginRegion [] .outOfLineData 16 _ rfl
  cases hstart
  exact hregion

end Orderly
end Draft
end AnchoredFields

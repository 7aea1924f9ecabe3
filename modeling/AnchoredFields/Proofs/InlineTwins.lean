import AnchoredFields.Proofs.DetachedRoundTrip
import AnchoredFields.Proofs.ReadBack
import AnchoredFields.Proofs.RefusedCalls

/-!
# Numbers alone make one stream

Numbers under inline tags refer to nothing outside their stream, so it makes no difference
whether a layout stores them or whether they are detached: the bytes are the same, and each of
the two readers finds in the bytes of the other what its own bytes hold.

* `Work.extends_attemptAll`: calls leave in a layout what was there before;
* `InlineTwins`: a field set and detached fields with the same numbers;
* `InlineTwins.streamFor_eq`, `InlineTwins.encode_eq`: both have the same stream;
* `InlineTwins.reads_of_standsAt`: both readers, where the stream stands in an image;
* `InlineTwins.flavours_coincide`: what a layout makes of numbers is what is made of them
  without a layout.
-/

namespace AnchoredFields

/-- Values that are changed before they are stored make a stream as they are. -/
theorem FieldStream.encode_map {α β : Type} (store : β → List UInt8) (change : α → β)
    (fields : List (Tag × α)) :
    encode store (fields.map fun field => (field.1, change field.2)) =
      encode (fun value => store (change value)) fields := by
  induction fields with
  | nil =>
      rfl
  | cons field rest ih =>
      cases rest with
      | nil =>
          rfl
      | cons next rest =>
          simp only [List.map_cons, encode] at ih ⊢
          rw [ih]

/-- Setting inline tags to numbers, one after the other. -/
theorem FieldSet.write_numbers {entries : List (Tag × UInt32)}
    (hinline : ∀ entry ∈ entries, entry.1.isInline = true) (fields : FieldSet) :
    fields.write (entries.map fun entry => ⟨{}, entry.1, .inline entry.2⟩) =
      .ok
        { slots :=
            (entries.map fun entry => (entry.1, OptionalField.mk (.inline entry.2) none)).foldl
              (fun slots field => slots.set field.1 field.2) fields.slots } := by
  induction entries generalizing fields with
  | nil =>
      rfl
  | cons entry rest ih =>
      have hfirst := hinline entry List.mem_cons_self
      have hrest := ih fun next hnext => hinline next (List.mem_cons_of_mem _ hnext)
      simp only [List.map_cons, write, set, setInline, if_pos hfirst, List.foldl_cons]
      exact hrest _

/-- Calls that follow leave a layout what it was, and maybe add to it. -/
theorem Work.extends_attemptAll {sets : List FieldSet} {bench last : Workbench}
    {answers : List (Except Error (Option Handle))}
    (h : bench.planner.Reachable)
    (hmade : ∀ fields ∈ sets, fields.Made)
    (hcalls : attemptAll sets bench = .ok answers last) :
    last.planner.Reachable ∧ bench.planner.Extends last.planner := by
  induction sets generalizing bench answers with
  | nil =>
      cases hcalls
      exact ⟨h, Planner.Extends.refl _⟩
  | cons fields rest ih =>
      obtain ⟨answer, later, next, hfirst, hrest, rfl⟩ := attemptAll_cons_eq_ok_iff.mp hcalls
      have hfields := hmade fields List.mem_cons_self
      have hothers := fun other hother => hmade other (List.mem_cons_of_mem _ hother)
      rcases attempt_eq_ok_iff.mp hfirst with ⟨handle, rfl, hcall⟩ | ⟨error, rfl, hcall⟩
      · obtain ⟨hlast, hextends⟩ := ih (h.returned hfields hcall) hothers hrest
        exact ⟨hlast, (invariant_encode h.invariant hfields hcall).2.trans hextends⟩
      · obtain ⟨-, rfl⟩ := encode_error_eq h.invariant hfields hcall
        exact ih h hothers hrest

/-- A field set and detached fields that hold the same numbers under inline tags, and no other
field. -/
structure InlineTwins (numbers : Slots UInt32) (fields : FieldSet) (detached : DetachedFields) :
    Prop where
  inline : ∀ tag number, numbers.get tag = some number → tag.isInline = true
  fields_get :
    ∀ tag, fields.get tag = (numbers.get tag).map fun number => { value := .inline number }
  detached_get : ∀ tag, detached.get tag = (numbers.get tag).map .inline

namespace InlineTwins

variable {numbers : Slots UInt32} {fields : FieldSet} {detached : DetachedFields}

theorem present_fields (h : InlineTwins numbers fields detached) :
    fields.present =
      numbers.present.map fun entry => (entry.1, { value := .inline entry.2 }) := by
  have hslots :
      fields.slots =
        { get := fun tag => (numbers.get tag).map fun number => { value := .inline number } } :=
    Slots.ext_get h.fields_get
  rw [FieldSet.present, hslots]
  exact Slots.present_map numbers fun _ number => OptionalField.mk (.inline number) none

theorem present_detached (h : InlineTwins numbers fields detached) :
    detached.present = numbers.present.map fun entry => (entry.1, .inline entry.2) := by
  have hslots :
      detached.slots = { get := fun tag => (numbers.get tag).map DetachedValue.inline } :=
    Slots.ext_get h.detached_get
  rw [DetachedFields.present, hslots]
  exact Slots.present_map numbers fun _ number => DetachedValue.inline number

theorem isEmpty_fields (h : InlineTwins numbers fields detached) :
    fields.isEmpty = numbers.isEmpty := by
  rw [FieldSet.isEmpty, Slots.isEmpty_eq, Slots.isEmpty_eq]
  show fields.present.isEmpty = numbers.present.isEmpty
  rw [h.present_fields, List.isEmpty_map]

theorem isEmpty_detached (h : InlineTwins numbers fields detached) :
    detached.isEmpty = numbers.isEmpty := by
  rw [DetachedFields.isEmpty, Slots.isEmpty_eq, Slots.isEmpty_eq]
  show detached.present.isEmpty = numbers.present.isEmpty
  rw [h.present_detached, List.isEmpty_map]

/-- There is no blob among the numbers. -/
theorem blobs_eq_nil (h : InlineTwins numbers fields detached) : fields.blobs = [] := by
  refine List.eq_nil_iff_forall_not_mem.mpr ?_
  rintro ⟨tag, blob⟩ hmem
  obtain ⟨field, hget, hvalue⟩ := FieldSet.mem_blobs_iff.mp hmem
  rw [h.fields_get, Option.map_eq_some_iff] at hget
  obtain ⟨number, -, rfl⟩ := hget
  cases hvalue

/-- The field set is one that setters make. -/
theorem made (h : InlineTwins numbers fields detached) : fields.Made := by
  have hinline : ∀ entry ∈ numbers.present, entry.1.isInline = true :=
    fun entry hmem => h.inline entry.1 entry.2 (Slots.mem_present_iff.mp hmem)
  refine ⟨_, (FieldSet.write_numbers hinline .empty).trans ?_⟩
  -- Filling the slots as they are listed gives them back, each tag being listed once.
  rw [← h.present_fields]
  refine congrArg (fun slots => Except.ok (FieldSet.mk slots)) (Slots.ext_get ?_)
  intro tag
  rw [Slots.get_foldl_set]
  show (FieldStream.lastValue tag fields.slots.present).or none = _
  rw [Option.or_none, Slots.lastValue_present]

/-- The detached fields hold numbers under inline tags only. -/
theorem wellKinded (h : InlineTwins numbers fields detached) : detached.WellKinded := by
  intro tag value hget
  rw [h.detached_get, Option.map_eq_some_iff] at hget
  obtain ⟨number, hnumber, rfl⟩ := hget
  exact (h.inline tag number hnumber).symm

/-- A layout stores the numbers themselves, whatever else it holds. -/
theorem streamFor_eq (h : InlineTwins numbers fields detached) (ledger : Ledger)
    (target : UInt32) :
    Planner.streamFor fields ledger target =
      FieldStream.encode Varint.encode numbers.present := by
  rw [Planner.streamFor, FieldSet.stored, h.present_fields, List.map_map]
  exact congrArg _ (List.map_id numbers.present)

/-- Without a layout, the numbers are stored in the same way. -/
theorem encode_eq (h : InlineTwins numbers fields detached) :
    detached.encode = FieldStream.encode Varint.encode numbers.present := by
  rw [DetachedFields.encode, h.present_detached]
  exact FieldStream.encode_map DetachedValue.encode DetachedValue.inline numbers.present

theorem inline_eq (h : InlineTwins numbers fields detached) (tag : Tag) (default : UInt32) :
    detached.inline tag default = (numbers.get tag).getD default := by
  rw [DetachedFields.inline, h.detached_get]
  cases numbers.get tag <;> rfl

/-- Where the common stream stands in an image, the numbers are read back in both ways, whatever
follows the stream. -/
theorem reads_of_standsAt (h : InlineTwins numbers fields detached)
    (hsome : numbers.isEmpty = false)
    {image : Image} {address : Address} {start : Nat}
    (hstands :
      StandsAt (FieldStream.encode Varint.encode numbers.present) start image.bytes)
    (haddress : address.toNat = image.base.toNat + start)
    (hlt : start < image.size) :
    (∃ source,
      image.sliceFrom address = .ok source ∧
        DetachedFields.ofStream (some source) = .ok detached) ∧
      ∀ tag, tag.isInline = true → ∀ default,
        View.inlineField { image := image, address := some address } tag default =
          .ok (detached.inline tag default) := by
  constructor
  · obtain ⟨after, hafter⟩ := hstands.drop_eq
    refine ⟨_, Image.sliceFrom_eq haddress hlt, ?_⟩
    rw [hafter, ← h.encode_eq]
    exact h.wellKinded.ofStream_encode (h.isEmpty_detached.trans hsome) after
  · intro tag hinline default
    have hstored : Planner.streamFor fields {} 0 = _ := h.streamFor_eq {} 0
    rw [← hstored] at hstands
    have hreads :=
      View.Reads.of_standsAt (h.isEmpty_fields.trans hsome) hstands haddress hlt
    rw [hreads.inlineField_eq hinline, h.inline_eq, h.fields_get, Option.map_map]
    exact congrArg (fun number? => Except.ok (Option.getD number? default)) Option.map_id'

/-- Numbers under inline tags are encoded into the stream that they have as detached fields,
whatever the layout holds already.  In every image of a layout that has this stream, the stream
is decoded as those detached fields, and a view of it answers for every inline tag as they do. -/
theorem flavours_coincide (h : InlineTwins numbers fields detached)
    (hsome : numbers.isEmpty = false) (bench : Workbench) :
    ∃ handle next stream,
      Work.encode fields bench = .ok (some handle) next ∧
        next.planner.stream handle = some stream ∧
          detached.toStream = some stream ∧
            ∀ (later : Planner) (ledger : Ledger) (image : Image) (event : Event),
              later.Reachable → next.planner.Extends later →
                later.place ledger = .ok (image, event) → image.Fits →
                  ∃ address source,
                    image.resolve (some handle) = .ok (some address) ∧
                      image.sliceFrom address = .ok source ∧
                        DetachedFields.ofStream (some source) = .ok detached ∧
                          ∀ tag, tag.isInline = true → ∀ default,
                            View.inlineField { image := image, address := some address } tag
                                default =
                              .ok (detached.inline tag default) := by
  have hfields : fields.isEmpty = false := h.isEmpty_fields.trans hsome
  have hdetached : detached.isEmpty = false := h.isEmpty_detached.trans hsome
  -- Without blobs any ledger and any target tell the same numbers, so the simplest will do.
  have hstream := h.streamFor_eq {} 0
  have hkept := bench.planner.holds_keepInlineOnly {} h.made hfields h.blobs_eq_nil
  obtain ⟨events, hencode⟩ := Work.encode_inlineOnly bench hfields h.blobs_eq_nil {} 0
  refine ⟨_, _, _, hencode, hkept.stream_eq, ?_, ?_⟩
  · rw [DetachedFields.toStream_of_present hdetached, h.encode_eq, hstream]
  · intro later ledger image event hlater hextends hplace hfits
    have hholds := hkept.extend hextends (Ledger.Extends.refl _)
    obtain ⟨start, address, -, hresolve, hnumber, hstop, hstands⟩ :=
      (Planner.shows_place hplace).exists_stream hlater.invariant hfits hholds
    have hlt : start < image.size :=
      Nat.lt_of_lt_of_le (Nat.lt_add_of_pos_right hholds.stream_pos) hstop
    rw [hstream] at hstands
    obtain ⟨⟨source, hslice, hsource⟩, hinline⟩ :=
      h.reads_of_standsAt hsome hstands hnumber hlt
    exact ⟨address, source, hresolve, hslice, hsource, hinline⟩

-- Evaluating the image takes one step for each of its bytes.
set_option maxRecDepth 2000 in
/-- A blob is encoded after the numbers, so an anchor follows their stream in the image. -/
theorem flavours_coincide_of_two_numbers :
    ∃ (detached : DetachedFields) (image : Image) (address : Address) (source : List UInt8),
      detached.toStream = some [0x00, 0x08, 0x83, 0x21, 0x08] ∧
        image.resolve (some { index := 0 }) = .ok (some address) ∧
          image.sliceFrom address = .ok source ∧
            DetachedFields.ofStream (some source) = .ok detached ∧
              View.inlineField { image := image, address := some address }
                  .nullableValueOffset 7 = .ok 260 ∧
                View.inlineField { image := image, address := some address } .dispatchMap 7 =
                  .ok 7 := by
  have htwins :
      InlineTwins ((Slots.empty.set .nullableValueOffset 260).set .rareFlags 1)
        { slots :=
            (Slots.empty.set .nullableValueOffset { value := .inline 260 }).set .rareFlags
              { value := .inline 1 } }
        { slots :=
            (Slots.empty.set .nullableValueOffset (.inline 260)).set .rareFlags (.inline 1) } := by
    refine ⟨?_, ?_, ?_⟩
    · intro tag number hnumber
      cases tag <;> first | rfl | cases hnumber
    · intro tag
      cases tag <;> rfl
    · intro tag
      cases tag <;> rfl
  have hblob :
      FieldSet.empty.write
          [⟨{}, .genericComposition,
            .outOfLine { id := 0, payload := .bytes [1, 2, 3], alignment := 2 }⟩] = .ok _ :=
    rfl
  have hnew : Planner.new { shift := 6 } = .ok { grid := { shift := 6 } } := rfl
  obtain ⟨handle, next, stream, hencode, -, -, himages⟩ :=
    htwins.flavours_coincide rfl { planner := { grid := { shift := 6 } }, ledger := {} }
  have hnext := (Planner.Reachable.new hnew).returned htwins.made hencode
  cases hencode
  have hlater := Work.extends_attemptAll hnext (List.forall_mem_singleton.mpr ⟨_, hblob⟩) rfl
  have hplaced :=
    himages _ (Ledger.place {} { id := 0, payload := .bytes [1, 2, 3], alignment := 2 } 0) _ _
      hlater.1 hlater.2 rfl
  obtain ⟨address, source, hresolve, hslice, hsource, hinline⟩ :=
    hplaced (by rw [Image.Fits]; decide)
  exact
    ⟨_, _, address, source, rfl, hresolve, hslice, hsource,
      hinline .nullableValueOffset rfl 7, hinline .dispatchMap rfl 7⟩

end InlineTwins
end AnchoredFields

import AnchoredFields.Proofs.DetachedStreams

/-!
# Reading detached fields from arbitrary bytes

Any bytes may be offered as the stream of a set of detached fields.  They are accepted
exactly if they start with one, where a tag may occur several times and a number may take
more bytes than it needs.  What is left is the last value of every tag that occurs; it is
written without repetition and in the shortest way, and reading that gives the same set.
Bytes that are refused are refused for the first defect in them, and leave no field.

* `DetachedFields.collects_of_spells`: what an accepted stream leaves;
* `DetachedFields.decode_decides`: which bytes are accepted, what they leave, and why the
  others are refused.
-/

namespace AnchoredFields
namespace DetachedFields

/-- What a set of fields is after the fields of a stream have been collected in it. -/
structure Collects (next : DetachedFields) (fields : List (Tag × DetachedValue)) : Prop where
  get_eq : ∀ tag, next.get tag = FieldStream.lastValue tag fields
  kinds : next.WellKinded
  present : ∃ tag value, next.get tag = some value
  /-- What is written from the set is read as the same set, whatever follows it. -/
  idempotent :
    ∀ trailing held, decode (some (next.encode ++ trailing)) held = .ok () next

/-- A set with a field is not empty. -/
theorem isEmpty_eq_false_iff {fields : DetachedFields} :
    fields.isEmpty = false ↔ ∃ tag value, fields.get tag = some value := by
  rw [← Bool.not_eq_true, isEmpty_iff, not_forall]
  simp only [← ne_eq, Option.ne_none_iff_exists']

/-- A stream is collected: the last value of a tag is the one that is held. -/
theorem collects_of_spells {stream : List UInt8} {fields : List (Tag × DetachedValue)}
    (h : FieldStream.Spells DetachedValue.Spells stream fields) :
    (ofList fields).Collects fields where
  get_eq := get_ofList fields
  kinds := wellKinded_of_spells h
  present := isEmpty_eq_false_iff.mp (isEmpty_of_spells h)
  idempotent := by
    intro trailing held
    have hread := (wellKinded_of_spells h).ofStream_encode (isEmpty_of_spells h) trailing
    exact decode_eq_ok_iff.mpr hread

/-- Reading decides on any bytes whether they start with a stream. -/
theorem decode_decides (source : List UInt8) (held : DetachedFields) :
    ((∃ next, decode (some source) held = .ok () next) ↔
        ∃ stream rest fields,
          source = stream ++ rest ∧ FieldStream.Spells DetachedValue.Spells stream fields) ∧
      (∀ stream rest fields,
        source = stream ++ rest → FieldStream.Spells DetachedValue.Spells stream fields →
          ∃ next, decode (some source) held = .ok () next ∧ next.Collects fields) ∧
        ∀ e next,
          decode (some source) held = .error e next ↔
            next = empty ∧
              ∃ found,
                FieldStream.Defective DetachedValue.Spells DetachedValue.Flawed source found e := by
  have haccepts :
      ∀ stream rest fields,
        source = stream ++ rest → FieldStream.Spells DetachedValue.Spells stream fields →
          ∃ next, decode (some source) held = .ok () next ∧ next.Collects fields := by
    intro stream rest fields hsource hstream
    have hread := ofStream_eq_ok_iff.mpr ⟨stream, rest, fields, hsource, hstream, rfl⟩
    exact ⟨ofList fields, decode_eq_ok_iff.mpr hread, collects_of_spells hstream⟩
  refine ⟨⟨?_, ?_⟩, haccepts, ?_⟩
  · rintro ⟨next, hdecode⟩
    obtain ⟨stream, rest, fields, hsource, hstream, -⟩ :=
      ofStream_eq_ok_iff.mp (decode_eq_ok_iff.mp hdecode)
    exact ⟨stream, rest, fields, hsource, hstream⟩
  · rintro ⟨stream, rest, fields, hsource, hstream⟩
    obtain ⟨next, hdecode, -⟩ := haccepts stream rest fields hsource hstream
    exact ⟨next, hdecode⟩
  · intro e next
    rw [decode_eq_error_iff, ofStream_eq_error_iff]
    exact and_comm

/-- A tag occurs twice, the second time with a number in more bytes than it needs, and behind the
stream there is a byte that belongs to no stream. -/
theorem decode_decides_of_repeated_tag :
    ∀ held, ∃ next, decode (some [0x00, 0x28, 0x80, 0x11, 0x00, 0xFF]) held = .ok () next ∧
      next.get .rareFlags = some (.inline 2) ∧ next.get .dispatchMap = none ∧
        ∀ trailing other, decode (some (next.encode ++ trailing)) other = .ok () next := by
  intro held
  have hfirst : DetachedValue.Spells .rareFlags [0x28] (.inline 5) :=
    DetachedValue.Spells.inline rfl (.mk rfl (by decide) rfl)
  have hsecond : DetachedValue.Spells .rareFlags [0x11, 0x00] (.inline 2) :=
    DetachedValue.Spells.inline rfl (.mk rfl (by decide) rfl)
  have hstream :
      FieldStream.Spells DetachedValue.Spells (0x00 :: ([0x28] ++ 0x80 :: [0x11, 0x00]))
        [(.rareFlags, .inline 5), (.rareFlags, .inline 2)] :=
    .more ⟨rfl, rfl⟩ hfirst (.last ⟨rfl, rfl⟩ hsecond)
  obtain ⟨next, hdecode, hcollects⟩ :=
    (decode_decides _ held).2.1 _ [0xFF] _ rfl hstream
  exact
    ⟨next, hdecode, hcollects.get_eq .rareFlags, hcollects.get_eq .dispatchMap,
      hcollects.idempotent⟩

end DetachedFields
end AnchoredFields

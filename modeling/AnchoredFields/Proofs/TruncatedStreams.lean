import AnchoredFields.Proofs.DetachedRoundTrip
import AnchoredFields.Proofs.NumberSizes

/-!
# Streams that are cut off

A stream may be cut off in a header, in a number or in a pointer, or between two of them.
Wherever that is, the mark is behind the cut, and the first element that is not whole lacks
bytes.  So a part of a stream is never taken for a stream, and never for anything worse
than a part.

* `FieldStream.Spells.defective_of_cut`: a part of a stream lacks bytes, if this is so for
  the values in it;
* `DetachedFields.WellKinded.truncation_detected`: no part of a stream of detached fields
  is accepted, and a set of fields into which it is read is left empty.
-/

namespace AnchoredFields

namespace FieldStream

variable {α : Type} {spells : Tag → List UInt8 → α → Prop}
  {flawed : Tag → List UInt8 → Error → Prop}

/-- A stream that is cut off before its end lacks bytes, if the values in it do when cut off. -/
theorem Spells.defective_of_cut {stream part : List UInt8} {fields : List (Tag × α)}
    (h : Spells spells stream fields)
    (hvalues :
      ∀ {tag stored part a},
        spells tag stored a → part <+: stored → part.length < stored.length →
          flawed tag part .outOfBounds)
    (hpart : part <+: stream) (hshort : part.length < stream.length) :
    ∃ found, Defective spells flawed part found .outOfBounds := by
  induction h generalizing part with
  | last hheader hvalue =>
      cases part with
      | nil =>
          exact ⟨_, .missing⟩
      | cons c behind =>
          obtain ⟨rfl, hbehind⟩ := List.cons_prefix_cons.mp hpart
          exact ⟨_, .value hheader (hvalues hvalue hbehind (Nat.lt_of_succ_lt_succ hshort))⟩
  | @more b tag stored rest a fields hheader hvalue hrest ih =>
      cases part with
      | nil =>
          exact ⟨_, .missing⟩
      | cons c behind =>
          obtain ⟨rfl, hbehind⟩ := List.cons_prefix_cons.mp hpart
          have hlength := Nat.lt_of_succ_lt_succ hshort
          rw [List.length_append] at hlength
          -- The cut is in the value of the first field, or not before the fields after it.
          by_cases hinside : behind.length < stored.length
          · have hcut : behind <+: stored :=
              List.prefix_of_prefix_length_le hbehind (List.prefix_append stored rest)
                (Nat.le_of_lt hinside)
            exact ⟨_, .value hheader (hvalues hvalue hcut hinside)⟩
          · obtain ⟨later, rfl⟩ :=
              List.prefix_of_prefix_length_le (List.prefix_append stored rest) hbehind
                (Nat.not_lt.mp hinside)
            have hlater : later <+: rest := (List.prefix_append_right_inj stored).mp hbehind
            rw [List.length_append] at hlength
            obtain ⟨found, hdefect⟩ := ih hlater (Nat.lt_of_add_lt_add_left hlength)
            exact ⟨_, .later hheader hvalue hdefect⟩

end FieldStream

/-- A value that is cut off before its end lacks bytes. -/
theorem DetachedValue.Spells.flawed_of_cut {tag : Tag} {stored part : List UInt8}
    {value : DetachedValue}
    (h : Spells tag stored value) (hpart : part <+: stored) (hshort : part.length < stored.length) :
    Flawed tag part .outOfBounds := by
  cases h with
  | inline htag hnumber =>
      exact .inline htag (hnumber.flawed_of_cut hpart hshort)
  | pointer htag hlength haddress =>
      exact .pointer htag (hlength ▸ hshort)

namespace DetachedFields.WellKinded

variable {fields : DetachedFields}

/-- Fields are spelled by what is written from them. -/
theorem spells_encode (h : fields.WellKinded) (hsome : fields.isEmpty = false) :
    FieldStream.Spells DetachedValue.Spells fields.encode fields.present :=
  (h.readsBack.spells (present_ne_nil hsome)).mono
    (FieldStream.spells_of_reads DetachedValue.exact_decode)

/-- What is written from some fields and is cut off before its end is refused for bytes that it
lacks, and nothing is left of the fields in whose place it was read. -/
theorem truncation_detected (h : fields.WellKinded) (hsome : fields.isEmpty = false) :
    ∃ stream,
      fields.toStream = some stream ∧
        ∀ part, part <+: stream → part ≠ stream →
          (∀ target, decode (some part) target = .error .outOfBounds empty) ∧
            ofStream (some part) = .error .outOfBounds := by
  refine ⟨fields.encode, toStream_of_present hsome, ?_⟩
  intro part hpart hne
  have hshort : part.length < fields.encode.length :=
    Nat.lt_of_le_of_ne hpart.length_le fun hsame => hne (hpart.eq_of_length hsame)
  have hdefect :=
    (h.spells_encode hsome).defective_of_cut DetachedValue.Spells.flawed_of_cut hpart hshort
  have hread := ofStream_eq_error_iff.mpr hdefect
  exact ⟨fun target => decode_eq_error_iff.mpr ⟨hread, rfl⟩, hread⟩

/-- A number and a pointer, cut off before the number, between the two, behind the header of the
pointer and in the pointer. -/
theorem truncation_detected_of_number_and_pointer :
    ∃ fields : DetachedFields,
      fields.WellKinded ∧
        fields.toStream = some [0x01, 0x41, 0x1F, 0x87, 0x34, 0x12, 0, 0, 0, 0, 0, 0] ∧
          ∀ target,
            decode (some []) target = .error .outOfBounds empty ∧
              decode (some [0x01, 0x41, 0x1F]) target = .error .outOfBounds empty ∧
                decode (some [0x01, 0x41, 0x1F, 0x87]) target = .error .outOfBounds empty ∧
                  decode (some [0x01, 0x41, 0x1F, 0x87, 0x34, 0x12]) target =
                    .error .outOfBounds empty := by
  have hnumber : empty.set .dispatchMap (.inline 1000) = .ok _ := rfl
  have hkinds := wellKinded_empty.set hnumber
  have hpointer :
      DetachedFields.set ⟨empty.slots.set .dispatchMap (.inline 1000)⟩ .genericComposition
        (.pointer 0x1234) = .ok _ := rfl
  have hboth := WellKinded.set hkinds hpointer
  obtain ⟨stream, hstream, hcut⟩ := hboth.truncation_detected rfl
  have hbytes : stream = [0x01, 0x41, 0x1F, 0x87, 0x34, 0x12, 0, 0, 0, 0, 0, 0] :=
    Option.some.inj (hstream.symm.trans (by decide))
  subst hbytes
  refine ⟨_, hboth, hstream, fun target => ⟨?_, ?_, ?_, ?_⟩⟩
  · exact (hcut [] (by decide) (by decide)).1 target
  · exact (hcut [0x01, 0x41, 0x1F] (by decide) (by decide)).1 target
  · exact (hcut [0x01, 0x41, 0x1F, 0x87] (by decide) (by decide)).1 target
  · exact (hcut [0x01, 0x41, 0x1F, 0x87, 0x34, 0x12] (by decide) (by decide)).1 target

end DetachedFields.WellKinded
end AnchoredFields

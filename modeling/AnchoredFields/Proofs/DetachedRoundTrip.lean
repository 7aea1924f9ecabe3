import AnchoredFields.Proofs.DetachedStreams

/-!
# Detached fields round trip

A set of detached fields comes from setting fields, from removing them and from reading
streams, in any order.  None of these steps lets in a value that is not of the kind of its
tag, and that is all that reading back needs.

* `DetachedFields.Built`: the sets of fields that such steps lead to;
* `DetachedFields.Built.wellKinded`: the kind of every value is the one of its tag;
* `DetachedFields.Built.round_trip`: the stream is appended in full, is as long as
  announced, and is read back whatever follows it.
-/

namespace AnchoredFields
namespace DetachedFields

/-! ## What every set of fields writes -/

/-- Appending a stream leaves the bytes in front of it as they are. -/
theorem appendTo_eq_encode (fields : DetachedFields) (destination : List UInt8) :
    fields.appendTo destination = (fields.encodingSize, destination ++ fields.encode) := by
  simp only [appendTo, FieldStream.appendTo_eq, List.length_append, Nat.add_sub_cancel_left]
  exact congrArg (·, destination ++ fields.encode) fields.length_encode

theorem toStream_of_isEmpty {fields : DetachedFields} (h : fields.isEmpty = true) :
    fields.toStream = none := by
  rw [toStream, if_pos h]

theorem toStream_of_present {fields : DetachedFields} (h : fields.isEmpty = false) :
    fields.toStream = some fields.encode := by
  rw [toStream, h, if_neg Bool.false_ne_true]

/-- There is no stream exactly if there is no field. -/
theorem toStream_eq_none_iff {fields : DetachedFields} :
    fields.toStream = none ↔ ∀ tag, fields.get tag = none := by
  rw [← isEmpty_iff]
  cases hempty : fields.isEmpty with
  | true =>
      simp [toStream_of_isEmpty hempty]
  | false =>
      simp [toStream_of_present hempty]

/-! ## Kinds are kept by every step -/

theorem eq_empty_of_isEmpty {fields : DetachedFields} (h : fields.isEmpty = true) :
    fields = empty := by
  obtain ⟨slots⟩ := fields
  exact congrArg DetachedFields.mk (Slots.ext_get (isEmpty_iff.mp h))

theorem wellKinded_empty : empty.WellKinded := by
  intro tag value hget
  cases hget

theorem wellKinded_of_ofStream {source : Option (List UInt8)} {fields : DetachedFields}
    (h : ofStream source = .ok fields) :
    fields.WellKinded := by
  cases source with
  | none =>
      rw [← Except.ok.inj h]
      exact wellKinded_empty
  | some source =>
      obtain ⟨stream, rest, found, -, hstream, rfl⟩ := ofStream_eq_ok_iff.mp h
      exact wellKinded_of_spells hstream

namespace WellKinded

variable {fields next : DetachedFields}

theorem set (h : fields.WellKinded) {tag : Tag} {value : DetachedValue}
    (hset : fields.set tag value = .ok next) :
    next.WellKinded := by
  intro t held hget
  rw [DetachedFields.set] at hset
  split at hset
  · rename_i hkind
    cases hset
    rw [DetachedFields.get, Slots.get_set] at hget
    split at hget
    · rename_i htag
      cases hget
      rw [htag]
      exact hkind.symm
    · exact h t held hget
  · cases hset

theorem clear (h : fields.WellKinded) (tag : Tag) : (fields.clear tag).WellKinded := by
  intro t held hget
  rw [DetachedFields.clear, DetachedFields.get, Slots.get_clear] at hget
  split at hget
  · cases hget
  · exact h t held hget

/-- What there is to a stream, if there is one, is read back. -/
theorem ofStream_toStream (h : fields.WellKinded) : ofStream fields.toStream = .ok fields := by
  cases hempty : fields.isEmpty with
  | true =>
      rw [toStream_of_isEmpty hempty, eq_empty_of_isEmpty hempty]
      rfl
  | false =>
      have hread := h.ofStream_encode hempty []
      rwa [List.append_nil, ← toStream_of_present hempty] at hread

end WellKinded

/-! ## Sets of fields that come about -/

/-- The sets of fields that setting, removing and reading lead to. -/
inductive Built : DetachedFields → Prop
  | fresh :
      Built empty
  | read
      {source : Option (List UInt8)} {fields : DetachedFields}
      (hread : ofStream source = .ok fields) :
      Built fields
  | set
      {fields next : DetachedFields} {tag : Tag} {value : DetachedValue}
      (hfields : Built fields)
      (hset : fields.set tag value = .ok next) :
      Built next
  | clear
      {fields : DetachedFields}
      (hfields : Built fields)
      (tag : Tag) :
      Built (fields.clear tag)
  | replaced
      {source : Option (List UInt8)} {held next : DetachedFields}
      (hheld : Built held)
      (hdecode : decode source held = .ok () next) :
      Built next
  | refused
      {source : Option (List UInt8)} {held next : DetachedFields} {e : Error}
      (hheld : Built held)
      (hdecode : decode source held = .error e next) :
      Built next

namespace Built

variable {fields : DetachedFields}

/-- Every value is of the kind of its tag, however the fields came about. -/
theorem wellKinded (h : fields.Built) : fields.WellKinded := by
  induction h with
  | fresh =>
      exact wellKinded_empty
  | read hread =>
      exact wellKinded_of_ofStream hread
  | set _ hset ih =>
      exact ih.set hset
  | clear _ tag ih =>
      exact ih.clear tag
  | replaced _ hdecode _ =>
      exact wellKinded_of_ofStream (decode_eq_ok_iff.mp hdecode)
  | refused _ hdecode _ =>
      rw [(decode_eq_error_iff.mp hdecode).2]
      exact wellKinded_empty

/-- Fields that came about by setting, removing and reading round trip. -/
theorem round_trip (h : fields.Built) (destination trailing : List UInt8) :
    (∃ written,
      fields.appendTo destination = (fields.encodingSize, destination ++ written) ∧
        written.length = fields.encodingSize ∧
          (fields.isEmpty = false →
            ∀ held, decode (some (written ++ trailing)) held = .ok () fields)) ∧
      (fields.toStream = none ↔ ∀ tag, fields.get tag = none) ∧
        ofStream fields.toStream = .ok fields := by
  have hread :
      fields.isEmpty = false →
        ∀ held, decode (some (fields.encode ++ trailing)) held = .ok () fields := by
    intro hsome held
    exact decode_eq_ok_iff.mpr (h.wellKinded.ofStream_encode hsome trailing)
  exact
    ⟨⟨fields.encode, fields.appendTo_eq_encode destination, fields.length_encode, hread⟩,
      toStream_eq_none_iff, h.wellKinded.ofStream_toStream⟩

/-- A number is read from a stream that gives it twice, and a pointer is set next to it. -/
theorem round_trip_of_number_and_pointer :
    ∃ fields : DetachedFields,
      fields.get .rareFlags = some (.inline 0x22) ∧
        fields.get .threadStaticInfo = some (.pointer 0xFFFF_FFFF_FFFF_FFFF) ∧
          (∃ written,
            fields.appendTo [7] = (12, [7] ++ written) ∧
              ∀ held, decode (some (written ++ [0x80])) held = .ok () fields) ∧
            fields.toStream ≠ none ∧ ofStream fields.toStream = .ok fields := by
  have hfirst : DetachedValue.Spells .rareFlags [41, 2] (.inline 0x45) :=
    DetachedValue.Spells.inline rfl (.mk rfl (by decide) rfl)
  have hsecond : DetachedValue.Spells .rareFlags [17, 1] (.inline 0x22) :=
    DetachedValue.Spells.inline rfl (.mk rfl (by decide) rfl)
  have hstream :
      FieldStream.Spells DetachedValue.Spells (0x00 :: ([41, 2] ++ 0x80 :: [17, 1]))
        [(.rareFlags, .inline 0x45), (.rareFlags, .inline 0x22)] :=
    .more ⟨rfl, rfl⟩ hfirst (.last ⟨rfl, rfl⟩ hsecond)
  have hread :
      ofStream (some [0x00, 41, 2, 0x80, 17, 1]) =
        .ok (ofList [(.rareFlags, .inline 0x45), (.rareFlags, .inline 0x22)]) :=
    ofStream_eq_ok_iff.mpr ⟨_, [], _, rfl, hstream, rfl⟩
  have hset :
      (ofList [(.rareFlags, .inline 0x45), (.rareFlags, .inline 0x22)]).set .threadStaticInfo
          (.pointer 0xFFFF_FFFF_FFFF_FFFF) = .ok _ :=
    rfl
  have hbuilt := (Built.read hread).set hset
  obtain ⟨⟨written, happend, -, hdecode⟩, hnone, hstream⟩ := hbuilt.round_trip [7] [0x80]
  refine ⟨_, rfl, rfl, ⟨written, happend, hdecode rfl⟩, ?_, hstream⟩
  intro habsent
  cases hnone.mp habsent .rareFlags

end Built
end DetachedFields
end AnchoredFields

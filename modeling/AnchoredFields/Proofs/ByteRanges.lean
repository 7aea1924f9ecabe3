/-!
# Bytes that stand at an offset

Regions and images are written by appending only, so bytes keep their offset once
they stand somewhere.

* `StandsAt.append_right`, `StandsAt.extend`: bytes stay where they are;
* `StandsAt.getElem?_eq`, `StandsAt.drop_eq`, `StandsAt.take_drop_eq`: reading at the
  offset gives them back;
* `standsAt_iff_getElem?`: bytes stand at an offset if each of them does.
-/

namespace AnchoredFields

/-- Some bytes stand at an offset among others. -/
def StandsAt (data : List UInt8) (offset : Nat) (bytes : List UInt8) : Prop :=
  ∃ before after, bytes = before ++ (data ++ after) ∧ before.length = offset

namespace StandsAt

variable {data bytes : List UInt8} {offset : Nat}

theorem append_right (h : StandsAt data offset bytes) (more : List UInt8) :
    StandsAt data offset (bytes ++ more) := by
  obtain ⟨before, after, rfl, hlength⟩ := h
  exact ⟨before, after ++ more, by simp only [List.append_assoc], hlength⟩

theorem extend (h : StandsAt data offset bytes) {longer : List UInt8}
    (hlonger : bytes <+: longer) :
    StandsAt data offset longer := by
  obtain ⟨more, rfl⟩ := hlonger
  exact h.append_right more

theorem shorten (h : StandsAt data offset bytes) {part : List UInt8} (hpart : part <+: data) :
    StandsAt part offset bytes := by
  obtain ⟨before, after, rfl, hlength⟩ := h
  obtain ⟨more, rfl⟩ := hpart
  exact ⟨before, more ++ after, by simp only [List.append_assoc], hlength⟩

theorem behind (front data after : List UInt8) :
    StandsAt data front.length (front ++ (data ++ after)) :=
  ⟨front, after, rfl, rfl⟩

theorem stop_le (h : StandsAt data offset bytes) : offset + data.length ≤ bytes.length := by
  obtain ⟨before, after, rfl, rfl⟩ := h
  simp only [List.length_append]
  omega

theorem getElem?_eq (h : StandsAt data offset bytes) {i : Nat}
    (hle : offset ≤ i) (hlt : i < offset + data.length) :
    bytes[i]? = data[i - offset]? := by
  obtain ⟨before, after, rfl, rfl⟩ := h
  rw [List.getElem?_append_right hle, List.getElem?_append_left (by omega)]

/-- What is read from the offset on begins with the bytes. -/
theorem drop_eq (h : StandsAt data offset bytes) :
    ∃ after, bytes.drop offset = data ++ after := by
  obtain ⟨before, after, rfl, rfl⟩ := h
  exact ⟨after, List.drop_left⟩

theorem take_drop_eq (h : StandsAt data offset bytes) :
    (bytes.drop offset).take data.length = data := by
  obtain ⟨after, hafter⟩ := h.drop_eq
  rw [hafter, List.take_left]

end StandsAt

/-- Bytes stand at an offset exactly if each of them stands where it should. -/
theorem standsAt_iff_getElem? {data bytes : List UInt8} {offset : Nat} :
    StandsAt data offset bytes ↔
      offset + data.length ≤ bytes.length ∧
        ∀ i, i < data.length → bytes[offset + i]? = data[i]? := by
  constructor
  · intro h
    refine ⟨h.stop_le, ?_⟩
    intro i hi
    rw [h.getElem?_eq (Nat.le_add_right offset i) (Nat.add_lt_add_left hi offset),
      Nat.add_sub_cancel_left]
  · rintro ⟨hstop, heach⟩
    have hdata : (bytes.drop offset).take data.length = data := by
      apply List.ext_getElem?
      intro i
      rw [List.getElem?_take, List.getElem?_drop]
      split
      · exact heach i ‹_›
      · exact (List.getElem?_eq_none (Nat.not_lt.mp ‹_›)).symm
    refine ⟨bytes.take offset, (bytes.drop offset).drop data.length, ?_, ?_⟩
    · calc
        bytes = bytes.take offset ++ bytes.drop offset := (List.take_append_drop _ _).symm
        _ = _ := by
          rw [← List.take_append_drop data.length (bytes.drop offset), hdata]
          simp only [List.drop_left]
    · rw [List.length_take]
      omega

end AnchoredFields

import AnchoredFields.Field.Detached
import AnchoredFields.Proofs.Setters
import AnchoredFields.Proofs.StreamRoundTrip

/-!
# Streams of detached fields

A value of a detached field is a number under an inline tag, and a pointer of eight
bytes under any other.  Fields whose values are of the kind of their tag are read back
from their stream, and whatever is read is of that kind.

* `DetachedValue.exact_decode`: values are read exactly as they are spelled;
* `DetachedFields.get_ofList`: the last occurrence of a tag counts;
* `DetachedFields.WellKinded.ofStream_encode`: fields are read back from their stream.
-/

namespace AnchoredFields

namespace FieldStream

variable {α : Type}

/-- The value of the last field with a tag. -/
def lastValue (tag : Tag) (fields : List (Tag × α)) : Option α :=
  (fields.reverse.find? fun field => field.1 = tag).map Prod.snd

theorem lastValue_cons (tag : Tag) (field : Tag × α) (rest : List (Tag × α)) :
    lastValue tag (field :: rest) =
      (lastValue tag rest).or (if field.1 = tag then some field.2 else none) := by
  rw [lastValue, lastValue, List.reverse_cons, List.find?_append, Option.map_or]
  by_cases htag : field.1 = tag
  · simp [htag]
  · simp [htag]

theorem mem_of_lastValue {tag : Tag} {fields : List (Tag × α)} {a : α}
    (h : lastValue tag fields = some a) :
    (tag, a) ∈ fields := by
  obtain ⟨⟨t, b⟩, hfind, rfl⟩ := Option.map_eq_some_iff.mp h
  have htag : t = tag := by simpa using List.find?_some hfind
  exact htag ▸ List.mem_reverse.mp (List.mem_of_find?_eq_some hfind)

end FieldStream

namespace Slots

variable {α : Type}

/-- Slots that are filled one after the other hold the last value of their tag. -/
theorem get_foldl_set (fields : List (Tag × α)) (s : Slots α) (tag : Tag) :
    (fields.foldl (fun slots field => slots.set field.1 field.2) s).get tag =
      (FieldStream.lastValue tag fields).or (s.get tag) := by
  induction fields generalizing s with
  | nil =>
      rfl
  | cons field rest ih =>
      rw [List.foldl_cons, ih, FieldStream.lastValue_cons, Option.or_assoc, get_set]
      by_cases htag : field.1 = tag
      · simp [htag]
      · simp [htag, Ne.symm htag]

/-- Every filled slot is listed once, so the last value listed for a tag is the one in its slot. -/
theorem lastValue_present (s : Slots α) (tag : Tag) :
    FieldStream.lastValue tag s.present = s.get tag := by
  have hnodup : (s.present.reverse.map Prod.fst).Nodup := by
    rw [List.map_reverse]
    exact List.nodup_reverse.mpr s.present_keys_nodup
  rw [FieldStream.lastValue]
  cases hget : s.get tag with
  | some a =>
      have hmem := List.mem_reverse.mpr (mem_present_iff.mpr hget)
      rw [find?_of_nodup_keys hnodup hmem, Option.map_some]
  | none =>
      rw [Option.map_eq_none_iff, List.find?_eq_none]
      rintro ⟨t, a⟩ hmem htag
      have ht : t = tag := by simpa using htag
      rw [List.mem_reverse, mem_present_iff, ht, hget] at hmem
      cases hmem

end Slots

namespace DetachedValue

/-- Bytes that spell a value under a tag: a number, or the eight bytes of a pointer. -/
inductive Spells (tag : Tag) : List UInt8 → DetachedValue → Prop
  | inline
      {stored : List UInt8} {number : UInt32}
      (htag : tag.isInline = true)
      (hnumber : Varint.Spells stored number) :
      Spells tag stored (.inline number)
  | pointer
      {stored : List UInt8} {address : Address}
      (htag : tag.isInline = false)
      (hlength : stored.length = 8)
      (haddress : address.toNat = LittleEndian.decode stored) :
      Spells tag stored (.pointer address)

/-- Why bytes do not start with a value under a tag. -/
inductive Flawed (tag : Tag) : List UInt8 → Error → Prop
  | inline
      {bytes : List UInt8} {e : Error}
      (htag : tag.isInline = true)
      (hnumber : Varint.Flawed bytes e) :
      Flawed tag bytes e
  | pointer
      {bytes : List UInt8}
      (htag : tag.isInline = false)
      (hshort : bytes.length < 8) :
      Flawed tag bytes .outOfBounds

/-- Values are read exactly as they are spelled. -/
theorem exact_decode (tag : Tag) : (decode tag).Exact (Spells tag) (Flawed tag) := by
  rw [decode]
  cases htag : tag.isInline with
  | true =>
      rw [if_pos rfl]
      have hexact := Varint.exact_decode.map inline
      refine ⟨?_, ?_, ?_⟩
      · intro stored value hspells rest
        cases hspells with
        | inline _ hnumber =>
            exact hexact.accepts ⟨_, hnumber, rfl⟩ rest
        | pointer hpointer _ _ =>
            rw [htag] at hpointer
            cases hpointer
      · intro bytes e hflawed
        cases hflawed with
        | inline _ hnumber =>
            exact hexact.refuses hnumber
        | pointer hpointer _ =>
            rw [htag] at hpointer
            cases hpointer
      · intro bytes
        rcases hexact.decided bytes with ⟨stored, rest, _, rfl, number, hnumber, rfl⟩ | ⟨e, he⟩
        · exact Or.inl ⟨stored, rest, _, rfl, .inline htag hnumber⟩
        · exact Or.inr ⟨e, .inline htag he⟩
  | false =>
      rw [if_neg Bool.false_ne_true]
      have hexact :=
        (Word.exact_decode (w := .eight)).map fun word => pointer (UInt64.ofBitVec word)
      refine ⟨?_, ?_, ?_⟩
      · intro stored value hspells rest
        cases hspells with
        | inline hinline _ =>
            rw [htag] at hinline
            cases hinline
        | pointer _ hlength haddress =>
            exact hexact.accepts ⟨_, ⟨hlength, haddress⟩, rfl⟩ rest
      · intro bytes e hflawed
        cases hflawed with
        | inline hinline _ =>
            rw [htag] at hinline
            cases hinline
        | pointer _ hshort =>
            exact hexact.refuses ⟨hshort, rfl⟩
      · intro bytes
        rcases hexact.decided bytes with ⟨stored, rest, _, rfl, word, hword, rfl⟩ | ⟨e, hshort, rfl⟩
        · exact Or.inl ⟨stored, rest, _, rfl, .pointer htag hword.length_eq hword.toNat_eq⟩
        · exact Or.inr ⟨_, .pointer htag hshort⟩

/-- A value is of the kind of the tag that it is spelled for. -/
theorem Spells.isInline_eq {tag : Tag} {stored : List UInt8} {value : DetachedValue}
    (h : Spells tag stored value) :
    value.isInline = tag.isInline := by
  cases h with
  | inline htag _ =>
      exact htag.symm
  | pointer htag _ _ =>
      exact htag.symm

/-- A value of the kind of its tag is read back. -/
theorem decode_encode_append {tag : Tag} {value : DetachedValue}
    (h : value.isInline = tag.isInline) (rest : List UInt8) :
    decode tag (encode value ++ rest) = .ok (value, (encode value).length) := by
  cases value with
  | inline number =>
      have htag : tag.isInline = true := h.symm
      rw [decode, if_pos htag, encode, Varint.length_encode]
      exact Decoder.map_eq_ok_iff.mpr ⟨number, Varint.decode_encode_append number rest, rfl⟩
  | pointer address =>
      have htag : ¬ tag.isInline = true := by
        rw [← h]
        exact Bool.false_ne_true
      rw [decode, if_neg htag, encode, LittleEndian.length_encode]
      exact
        Decoder.map_eq_ok_iff.mpr
          ⟨_, Word.decode_encode (w := .eight) address.toBitVec rest, rfl⟩

theorem fieldSize_eq (value : DetachedValue) : value.fieldSize = 1 + (encode value).length := by
  cases value with
  | inline number =>
      rw [encode, Varint.length_encode]
      rfl
  | pointer address =>
      rw [encode, LittleEndian.length_encode]
      rfl

end DetachedValue

namespace DetachedFields

/-- Every value is of the kind of its tag. -/
def WellKinded (fields : DetachedFields) : Prop :=
  ∀ tag value, fields.get tag = some value → value.isInline = tag.isInline

theorem get_ofList (fields : List (Tag × DetachedValue)) (tag : Tag) :
    (ofList fields).get tag = FieldStream.lastValue tag fields := by
  rw [get, ofList, Slots.get_foldl_set, Slots.get_empty, Option.or_none]

theorem ofList_present (fields : DetachedFields) : ofList fields.present = fields := by
  obtain ⟨slots⟩ := fields
  refine congrArg DetachedFields.mk (Slots.ext_get ?_)
  intro tag
  rw [Slots.get_foldl_set, Slots.get_empty, Option.or_none]
  exact slots.lastValue_present tag

theorem isEmpty_iff {fields : DetachedFields} :
    fields.isEmpty = true ↔ ∀ tag, fields.get tag = none :=
  fields.slots.isEmpty_iff

theorem isEmpty_iff_present {fields : DetachedFields} :
    fields.isEmpty = true ↔ fields.present = [] := by
  rw [isEmpty, Slots.isEmpty_eq]
  exact List.isEmpty_iff

theorem present_ne_nil {fields : DetachedFields} (hsome : fields.isEmpty = false) :
    fields.present ≠ [] := by
  intro hnil
  rw [isEmpty_iff_present.mpr hnil] at hsome
  cases hsome

/-- What a stream holds is of the kind of its tags. -/
theorem wellKinded_of_spells {stream : List UInt8} {fields : List (Tag × DetachedValue)}
    (h : FieldStream.Spells DetachedValue.Spells stream fields) :
    (ofList fields).WellKinded := by
  intro tag value hget
  rw [get_ofList] at hget
  obtain ⟨stored, hspells⟩ := h.exists_value (FieldStream.mem_of_lastValue hget)
  exact hspells.isInline_eq

/-- A stream holds at least one field. -/
theorem isEmpty_of_spells {stream : List UInt8} {fields : List (Tag × DetachedValue)}
    (h : FieldStream.Spells DetachedValue.Spells stream fields) :
    (ofList fields).isEmpty = false := by
  obtain ⟨field, rest, rfl⟩ := List.exists_cons_of_ne_nil h.ne_nil
  rw [Bool.eq_false_iff]
  intro hempty
  have hnone := isEmpty_iff.mp hempty field.1
  rw [get_ofList, FieldStream.lastValue_cons, if_pos rfl, Option.or_eq_none_iff] at hnone
  cases hnone.2

/-- A source is accepted exactly if it starts with a stream. -/
theorem ofStream_eq_ok_iff {source : List UInt8} {fields : DetachedFields} :
    ofStream (some source) = .ok fields ↔
      ∃ stream rest found,
        source = stream ++ rest ∧
          FieldStream.Spells DetachedValue.Spells stream found ∧ fields = ofList found := by
  have hdecode :=
    @FieldStream.decode_eq_ok_iff _ _ _ _ DetachedValue.exact_decode source
  rw [ofStream]
  cases hfound : FieldStream.decode DetachedValue.decode source with
  | error e =>
      simp only [hfound, reduceCtorEq, false_iff] at hdecode
      simp only [bind, Except.bind, reduceCtorEq, false_iff]
      rintro ⟨stream, rest, found, hsource, hstream, -⟩
      exact hdecode ⟨stream, rest, hsource, hstream⟩
  | ok found =>
      simp only [bind, Except.bind, pure, Except.pure, Except.ok.injEq]
      constructor
      · rintro rfl
        obtain ⟨stream, rest, hsource, hstream⟩ := hdecode.mp hfound
        exact ⟨stream, rest, found, hsource, hstream, rfl⟩
      · rintro ⟨stream, rest, other, hsource, hstream, rfl⟩
        have hsame := hdecode.mpr ⟨stream, rest, hsource, hstream⟩
        rw [hfound] at hsame
        rw [Except.ok.inj hsame]

/-- A source is refused exactly if it has a first defect, and for that defect. -/
theorem ofStream_eq_error_iff {source : List UInt8} {e : Error} :
    ofStream (some source) = .error e ↔
      ∃ found,
        FieldStream.Defective DetachedValue.Spells DetachedValue.Flawed source found e := by
  rw [← FieldStream.decode_eq_error_iff DetachedValue.exact_decode, ofStream]
  cases FieldStream.decode DetachedValue.decode source <;>
    simp [bind, Except.bind, pure, Except.pure]

namespace WellKinded

variable {fields : DetachedFields}

theorem readsBack (h : fields.WellKinded) :
    FieldStream.ReadsBack DetachedValue.encode DetachedValue.decode fields.present := by
  intro field hmem rest
  obtain ⟨tag, value⟩ := field
  exact DetachedValue.decode_encode_append (h tag value (Slots.mem_present_iff.mp hmem)) rest

/-- Fields are read back from their stream, whatever follows it. -/
theorem ofStream_encode (h : fields.WellKinded) (hsome : fields.isEmpty = false)
    (trailing : List UInt8) :
    ofStream (some (fields.encode ++ trailing)) = .ok fields := by
  have hdecode := FieldStream.decode_encode_append h.readsBack (present_ne_nil hsome) trailing
  rw [ofStream, encode, hdecode]
  exact congrArg Except.ok fields.ofList_present

end WellKinded

/-- A stream is as long as its size says. -/
theorem length_encode (fields : DetachedFields) : fields.encode.length = fields.encodingSize := by
  rw [encode, FieldStream.length_encode_eq, encodingSize]
  simp only [DetachedValue.fieldSize_eq]

/-- A source is read the same way whatever is replaced. -/
theorem decode_eq_ok_iff {source : Option (List UInt8)} {held next : DetachedFields} :
    decode source held = .ok () next ↔ ofStream source = .ok next := by
  rw [decode]
  cases ofStream source with
  | ok fields =>
      simp
  | error e =>
      simp

/-- A source that is refused leaves no field, whatever was held. -/
theorem decode_eq_error_iff {source : Option (List UInt8)} {held next : DetachedFields}
    {e : Error} :
    decode source held = .error e next ↔ ofStream source = .error e ∧ next = empty := by
  rw [decode]
  cases ofStream source with
  | ok fields =>
      simp
  | error failure =>
      simp [eq_comm]

end DetachedFields
end AnchoredFields

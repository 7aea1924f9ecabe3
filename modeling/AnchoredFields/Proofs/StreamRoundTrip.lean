import AnchoredFields.Proofs.StreamGrammar

/-!
# Field streams are read back

A stream says itself where it ends, so it is read back whatever bytes follow it.
The results hold for every way to store values whose reader takes exactly the
bytes that were stored; streams of numbers are the instance that laid out images
use.

* `FieldStream.ReadsBack.spells`: fields are spelled by their stream;
* `FieldStream.scan_encode_append`: a scan sees the fields of the stream and stops
  behind its last one;
* `FieldStream.find_encode_append`: a look-up finds the first field of a tag;
* `FieldStream.length_encode`: the number of bytes of a stream of numbers.
-/

namespace AnchoredFields
namespace FieldStream

variable {α : Type}

/-- The values of some fields are read back from where they are stored. -/
def ReadsBack (store : α → List UInt8) (value : Tag → Decoder α)
    (fields : List (Tag × α)) : Prop :=
  ∀ field ∈ fields, ∀ rest,
    value field.1 (store field.2 ++ rest) = .ok (field.2, (store field.2).length)

theorem ReadsBack.head {store : α → List UInt8} {value : Tag → Decoder α}
    {tag : Tag} {a : α} {fields : List (Tag × α)}
    (h : ReadsBack store value ((tag, a) :: fields)) (rest : List UInt8) :
    value tag (store a ++ rest) = .ok (a, (store a).length) :=
  h (tag, a) List.mem_cons_self rest

theorem ReadsBack.tail {store : α → List UInt8} {value : Tag → Decoder α}
    {field : Tag × α} {fields : List (Tag × α)}
    (h : ReadsBack store value (field :: fields)) :
    ReadsBack store value fields :=
  fun next hnext => h next (List.mem_cons_of_mem field hnext)

/-- Some fields are spelled by their stream. -/
theorem ReadsBack.spells {store : α → List UInt8} {value : Tag → Decoder α}
    {fields : List (Tag × α)}
    (h : ReadsBack store value fields)
    (hne : fields ≠ []) :
    Spells (Reads value) (encode store fields) fields := by
  induction fields with
  | nil =>
      exact absurd rfl hne
  | cons field later ih =>
      obtain ⟨tag, a⟩ := field
      cases later with
      | nil =>
          exact .last (Header.spells_toByte _) h.head
      | cons next later =>
          exact .more (Header.spells_toByte _) h.head (ih h.tail (List.cons_ne_nil next later))

/-- A scan sees exactly the fields of a stream and stops behind the last one. -/
theorem scan_encode_append {store : α → List UInt8} {value : Tag → Decoder α}
    {fields : List (Tag × α)}
    (hread : ReadsBack store value fields)
    (hne : fields ≠ [])
    (rest : List UInt8) :
    scan value (encode store fields ++ rest) = { fields := fields, outcome := .ok rest } :=
  scan_of_spells id (hread.spells hne) rest

theorem decode_encode_append {store : α → List UInt8} {value : Tag → Decoder α}
    {fields : List (Tag × α)}
    (hread : ReadsBack store value fields)
    (hne : fields ≠ [])
    (rest : List UInt8) :
    decode value (encode store fields ++ rest) = .ok fields := by
  simp only [decode, scan_encode_append hread hne rest]

/-- A look-up in a stored field decides on its tag, then on the mark. -/
theorem find_field {store : α → List UInt8} {value : Tag → Decoder α}
    {header : Header} {tag : Tag} {a : α} {rest : List UInt8}
    (hvalue : value header.tag (store a ++ rest) = .ok (a, (store a).length)) :
    find value tag (header.toByte :: (store a ++ rest)) =
      if header.tag = tag then .ok (some a)
      else if header.last then .ok none
      else find value tag rest := by
  rw [find, Header.ofByte_toByte]
  simp only [hvalue, List.drop_left]

/-- A look-up gives the value of the first field of a tag, or none if there is no such field. -/
theorem find_encode_append {store : α → List UInt8} {value : Tag → Decoder α}
    {fields : List (Tag × α)}
    (hread : ReadsBack store value fields)
    (hne : fields ≠ [])
    (tag : Tag)
    (rest : List UInt8) :
    find value tag (encode store fields ++ rest) =
      .ok ((fields.find? fun field => field.1 = tag).map Prod.snd) := by
  induction fields with
  | nil =>
      exact absurd rfl hne
  | cons field later ih =>
      obtain ⟨current, a⟩ := field
      cases later with
      | nil =>
          rw [encode, List.cons_append, find_field (hread.head rest)]
          by_cases htag : current = tag
          · simp [htag]
          · simp [htag]
      | cons next later =>
          have htail := ih hread.tail (List.cons_ne_nil next later)
          rw [encode, List.cons_append, List.append_assoc,
            find_field (hread.head (encode store (next :: later) ++ rest)), htail]
          by_cases htag : current = tag
          · simp [htag]
          · simp [htag]

/-- Numbers are read back whatever their tag. -/
theorem readsBack_numbers (fields : List (Tag × UInt32)) :
    ReadsBack Varint.encode (fun _ => Varint.decode) fields := by
  intro field _ rest
  rw [Varint.length_encode]
  exact Varint.decode_encode_append field.2 rest

/-- The number of bytes of a stream is the sum over its fields, with one byte for each header. -/
theorem length_encode_eq (store : α → List UInt8) (fields : List (Tag × α)) :
    (encode store fields).length =
      fields.foldr (fun field size => 1 + (store field.2).length + size) 0 := by
  induction fields with
  | nil =>
      rfl
  | cons field later ih =>
      obtain ⟨tag, value⟩ := field
      cases later with
      | nil =>
          simp only [encode, List.length_cons, List.foldr_cons, List.foldr_nil]
          omega
      | cons next later =>
          rw [encode, List.length_cons, List.length_append, ih, Nat.add_comm, ← Nat.add_assoc]
          rfl

/-- The number of bytes of a stream of numbers is the sum over its fields. -/
theorem length_encode (fields : List (Tag × UInt32)) :
    (encode Varint.encode fields).length =
      fields.foldr (fun field size => fieldSize field.2 + size) 0 := by
  rw [length_encode_eq]
  simp only [Varint.length_encode, fieldSize]

theorem fieldSize_le (value : UInt32) : fieldSize value ≤ 1 + Varint.maxSize :=
  Nat.add_le_add_left (Varint.size_le_maxSize value) 1

theorem sum_fieldSize_le (fields : List (Tag × UInt32)) :
    fields.foldr (fun field size => fieldSize field.2 + size) 0 ≤
      fields.length * (1 + Varint.maxSize) := by
  induction fields with
  | nil =>
      simp
  | cons field later ih =>
      have hfield := fieldSize_le field.2
      rw [List.foldr_cons, List.length_cons, Nat.succ_mul]
      omega

/-- A stream of numbers with at most one field for each tag is not larger than accounted for. -/
theorem length_encode_le {fields : List (Tag × UInt32)} (h : fields.length ≤ Tag.count) :
    (encode Varint.encode fields).length ≤ maxSize := by
  rw [length_encode]
  exact Nat.le_trans (sum_fieldSize_le fields) (Nat.mul_le_mul_right _ h)

theorem encode_numbers_ne_nil {fields : List (Tag × UInt32)} (h : fields ≠ []) :
    encode Varint.encode fields ≠ [] := by
  obtain ⟨field, later, rfl⟩ := List.exists_cons_of_ne_nil h
  obtain ⟨tag, value⟩ := field
  cases later with
  | nil =>
      simp [encode]
  | cons next later =>
      simp [encode]

end FieldStream
end AnchoredFields

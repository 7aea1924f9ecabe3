import AnchoredFields.Bytes.Varint
import AnchoredFields.Field.Header

/-!
# Field streams

A field stream is a sequence of fields, each a header byte and a value.  The
header of the final field, and of no other, carries the last-field mark, so that
a stream says itself where it ends.  How a value is stored is a parameter: the
streams of a laid out image hold one number per field, other streams may hold
wider values.

Two readers are kept apart:

* `FieldStream.scan` decodes field after field until it meets the mark or a
  defect, and keeps what was decoded before a defect;
* `FieldStream.find` looks for one tag and stops at its first occurrence, so a
  defect after it is never seen.

`FieldStream.scan_cons` unfolds one field of a scan.
-/

namespace AnchoredFields

/-- What a scan of a stream saw. -/
structure Scan (α : Type) where
  /-- The fields decoded completely, in stream order. -/
  fields : List (Tag × α)
  /-- The bytes after the final field, or the defect that stopped the scan. -/
  outcome : Except Error (List UInt8)

namespace FieldStream

variable {α : Type}

/-- The most bytes that a stream of numbers takes with every tag present once. -/
def maxSize : Nat :=
  Tag.count * (1 + Varint.maxSize)

/-- The bytes of one field that holds a number. -/
def encodeField (header : Header) (value : UInt32) : List UInt8 :=
  header.toByte :: Varint.encode value

/-- The number of bytes of a field that holds a number. -/
def fieldSize (value : UInt32) : Nat :=
  1 + Varint.size value

/-- Appends one field that holds a number to some bytes, and tells how many were appended. -/
def appendField (buffer : List UInt8) (header : Header) (value : UInt32) : Nat × List UInt8 :=
  let (count, bytes) := Varint.appendTo (buffer ++ [header.toByte]) value
  (1 + count, bytes)

/-- Appends fields one after the other, and tells for each how many bytes were appended. -/
def appendFields (buffer : List UInt8) : List (Header × UInt32) → List Nat × List UInt8
  | [] => ([], buffer)
  | (header, value) :: rest =>
      let (count, bytes) := appendField buffer header value
      let (counts, whole) := appendFields bytes rest
      (count :: counts, whole)

/-- The headers of some fields, the mark on the last one and on no other. -/
def marked : List (Tag × α) → List (Header × α)
  | [] => []
  | (tag, value) :: rest => ({ tag := tag, last := rest.isEmpty }, value) :: marked rest

/-- The bytes of a stream, the mark on its final field. -/
def encode (store : α → List UInt8) : List (Tag × α) → List UInt8
  | [] => []
  | [(tag, value)] => Header.toByte { tag := tag, last := true } :: store value
  | (tag, value) :: next :: rest =>
      Header.toByte { tag := tag, last := false } ::
        (store value ++ encode store (next :: rest))

/-- Appends a stream to some bytes field by field, the mark on its final field. -/
def appendTo (store : α → List UInt8) (destination : List UInt8) : List (Tag × α) → List UInt8
  | [] => destination
  | (tag, value) :: rest =>
      let header : Header := { tag := tag, last := rest.isEmpty }
      appendTo store (destination ++ header.toByte :: store value) rest

/-- Continues a scan that has decoded `done`, the latest field first. -/
def scanFrom (value : Tag → Decoder α) (done : List (Tag × α)) : List UInt8 → Scan α
  | [] => { fields := done.reverse, outcome := .error .outOfBounds }
  | b :: rest =>
      match Header.ofByte b with
      | .error e => { fields := done.reverse, outcome := .error e }
      | .ok header =>
          match value header.tag rest with
          | .error e => { fields := done.reverse, outcome := .error e }
          | .ok (a, taken) =>
              if header.last then
                { fields := ((header.tag, a) :: done).reverse, outcome := .ok (rest.drop taken) }
              else
                scanFrom value ((header.tag, a) :: done) (rest.drop taken)
termination_by bytes => bytes.length
decreasing_by
  simp only [List.length_drop, List.length_cons]
  omega

/-- Decodes fields up to the mark or the first defect. -/
def scan (value : Tag → Decoder α) (bytes : List UInt8) : Scan α :=
  scanFrom value [] bytes

/-- The fields of a stream, if it has no defect. -/
def decode (value : Tag → Decoder α) (bytes : List UInt8) : Except Error (List (Tag × α)) :=
  let seen := scan value bytes
  match seen.outcome with
  | .ok _ => .ok seen.fields
  | .error e => .error e

/-- The value of the first field with a tag, if it comes before any defect. -/
def find (value : Tag → Decoder α) (tag : Tag) : List UInt8 → Except Error (Option α)
  | [] => .error .outOfBounds
  | b :: rest =>
      match Header.ofByte b with
      | .error e => .error e
      | .ok header =>
          match value header.tag rest with
          | .error e => .error e
          | .ok (a, taken) =>
              if header.tag = tag then .ok (some a)
              else if header.last then .ok none
              else find value tag (rest.drop taken)
termination_by bytes => bytes.length
decreasing_by
  simp only [List.length_drop, List.length_cons]
  omega

/-- Appending a stream leaves the bytes in front of it as they are. -/
theorem appendTo_eq (store : α → List UInt8) (destination : List UInt8)
    (fields : List (Tag × α)) :
    appendTo store destination fields = destination ++ encode store fields := by
  induction fields generalizing destination with
  | nil =>
      rw [appendTo, encode, List.append_nil]
  | cons field rest ih =>
      obtain ⟨tag, value⟩ := field
      rw [appendTo, ih]
      cases rest with
      | nil =>
          simp [encode]
      | cons next rest =>
          simp [encode]

/-- Puts fields in front of what a scan saw. -/
def prepend (done : List (Tag × α)) (seen : Scan α) : Scan α :=
  { seen with fields := done ++ seen.fields }

theorem scanFrom_eq
    (value : Tag → Decoder α)
    (done : List (Tag × α))
    (bytes : List UInt8) :
    scanFrom value done bytes = prepend done.reverse (scan value bytes) := by
  unfold scan
  induction hn : bytes.length using Nat.strongRecOn generalizing done bytes with
  | ind n ih =>
      cases bytes with
      | nil =>
          simp [scanFrom, prepend]
      | cons b rest =>
          rw [scanFrom, scanFrom]
          split
          · simp [prepend]
          · rename_i header hheader
            split
            · simp [prepend]
            · rename_i a taken hvalue
              split
              · simp [prepend]
              · have hlt : (rest.drop taken).length < n := by
                  rw [← hn]
                  simp only [List.length_drop, List.length_cons]
                  omega
                rw [ih _ hlt ((header.tag, a) :: done) _ rfl, ih _ hlt [(header.tag, a)] _ rfl]
                simp [prepend]

@[simp] theorem scan_nil (value : Tag → Decoder α) :
    scan value [] = { fields := [], outcome := .error .outOfBounds } := by
  simp [scan, scanFrom]

/-- A scan decodes one field and goes on with the bytes after it. -/
theorem scan_cons (value : Tag → Decoder α) (b : UInt8) (rest : List UInt8) :
    scan value (b :: rest) =
      match Header.ofByte b with
      | .error e => { fields := [], outcome := .error e }
      | .ok header =>
          match value header.tag rest with
          | .error e => { fields := [], outcome := .error e }
          | .ok (a, taken) =>
              if header.last then
                { fields := [(header.tag, a)], outcome := .ok (rest.drop taken) }
              else
                prepend [(header.tag, a)] (scan value (rest.drop taken)) := by
  rw [scan, scanFrom]
  split
  · rfl
  · split
    · rfl
    · split
      · rfl
      · rw [scanFrom_eq]
        rfl

@[simp] theorem find_nil (value : Tag → Decoder α) (tag : Tag) :
    find value tag [] = .error .outOfBounds := by
  simp [find]

end FieldStream
end AnchoredFields

import AnchoredFields.Proofs.CursorRuns
import AnchoredFields.Proofs.NumberSizes
import AnchoredFields.Proofs.StreamRoundTrip

/-!
# Fields are written and read one at a time

Fields are appended to a buffer one after the other, each with the header that its writer
gives it.  If the mark is on the last header and on no other, a stream has been appended,
and reading field after field from its start gives the fields again and ends behind the
last one.  What follows is not looked at, so no stream begins with another one.

* `FieldStream.appendFields_marked`: what is appended is the stream of the fields;
* `FieldStream.ReadsBack.eq_of_begins`: a stream that begins with another one is that one;
* `Cursor.fieldRun_stream_iff`: there is one run over a stream, and it ends behind it;
* `FieldStream.fields_round_trip`: the results together.
-/

namespace AnchoredFields

namespace FieldStream

variable {α : Type}

/-! ## Appending -/

/-- Appending a field leaves the bytes in front of it as they are. -/
theorem appendField_eq (buffer : List UInt8) (header : Header) (value : UInt32) :
    appendField buffer header value = (fieldSize value, buffer ++ encodeField header value) := by
  rw [appendField, Varint.appendTo_eq, encodeField, fieldSize, List.append_assoc,
    List.singleton_append]

/-- Fields of which the last one is marked are appended as their stream. -/
theorem appendFields_marked (buffer : List UInt8) (fields : List (Tag × UInt32)) :
    appendFields buffer (marked fields) =
      (fields.map fun field => fieldSize field.2, buffer ++ encode Varint.encode fields) := by
  induction fields generalizing buffer with
  | nil =>
      rw [marked, appendFields, encode, List.append_nil, List.map_nil]
  | cons field rest ih =>
      obtain ⟨tag, value⟩ := field
      rw [marked, appendFields, appendField_eq]
      simp only [ih, List.map_cons, List.append_assoc]
      cases rest with
      | nil =>
          rw [encode, encode, encodeField, List.append_nil]
          rfl
      | cons next rest =>
          rw [encode, encodeField, List.cons_append]
          rfl

/-- As many bytes are appended as the counts of the fields add up to. -/
theorem length_encode_eq_sum (fields : List (Tag × UInt32)) :
    (encode Varint.encode fields).length = (fields.map fun field => fieldSize field.2).sum := by
  rw [length_encode, List.sum, List.foldr_map]

/-! ## No stream begins with another one -/

/-- A stream that begins with another one has the same fields. -/
theorem ReadsBack.eq_of_begins {store : α → List UInt8} {value : Tag → Decoder α}
    {fields other : List (Tag × α)}
    (hfields : ReadsBack store value fields) (hother : ReadsBack store value other)
    (hne : fields ≠ []) (hothers : other ≠ [])
    (h : encode store other <+: encode store fields) :
    other = fields := by
  obtain ⟨rest, hrest⟩ := h
  have hlong := decode_encode_append hfields hne []
  have hshort := decode_encode_append hother hothers rest
  rw [hrest, ← List.append_nil (encode store fields), hlong] at hshort
  exact (Except.ok.inj hshort).symm

end FieldStream

/-! ## Reading at a cursor -/

/-- If the bytes ahead start with a stream, reading field after field gives its fields and ends
behind it, and there is no other way to read. -/
theorem Cursor.fieldRun_iff_of_scan {c : Cursor} (hwithin : c.Within)
    {fields : List (Tag × UInt32)} {rest : List UInt8}
    (hscan : FieldStream.scan (fun _ => Varint.decode) c.ahead =
      { fields := fields, outcome := .ok rest })
    {read : List (Tag × UInt32)} {stop : Except Error Unit} {last : Cursor} :
    FieldRun (fun _ => False) c read stop last ↔
      read = fields ∧
        stop = .ok () ∧ last = { c with position := c.bytes.length - rest.length } := by
  have hrun :
      ∀ {read stop last},
        FieldRun (fun _ => False) c read stop last →
          read = fields ∧
            stop = .ok () ∧ last = { c with position := c.bytes.length - rest.length } := by
    intro read stop last h
    have hseen := h.scan_eq fun _ => id
    rw [hscan] at hseen
    obtain ⟨hfields, houtcome⟩ := Scan.mk.inj hseen
    cases stop with
    | error e =>
        cases houtcome
    | ok =>
        obtain ⟨hbytes, -, hbehind⟩ := h.bounds
        have hahead : last.ahead.length = rest.length :=
          congrArg List.length (Except.ok.inj houtcome).symm
        have hposition : last.position = c.bytes.length - rest.length := by
          rw [length_ahead, hbytes] at hahead
          rw [Within, hbytes] at hbehind
          omega
        refine ⟨hfields.symm, rfl, ?_⟩
        rw [← hposition, ← hbytes]
  refine ⟨hrun, ?_⟩
  rintro ⟨rfl, rfl, rfl⟩
  obtain ⟨found, outcome, final, h⟩ := exists_fieldRun (fun _ => False) c hwithin
  obtain ⟨rfl, rfl, rfl⟩ := hrun h
  exact h

/-- Reading field after field from the start of a stream of numbers, wherever it stands, gives the
fields of the stream and ends behind it. -/
theorem Cursor.fieldRun_stream_iff {fields : List (Tag × UInt32)} (hne : fields ≠ [])
    (front rest : List UInt8)
    {read : List (Tag × UInt32)} {stop : Except Error Unit} {last : Cursor} :
    let stream := FieldStream.encode Varint.encode fields
    FieldRun (fun _ => False)
        { bytes := front ++ stream ++ rest, position := front.length } read stop last ↔
      read = fields ∧
        stop = .ok () ∧
          last =
            { bytes := front ++ stream ++ rest, position := front.length + stream.length } := by
  intro stream
  let start : Cursor := { bytes := front ++ stream ++ rest, position := front.length }
  have hlength : start.bytes.length = front.length + stream.length + rest.length := by
    rw [List.length_append, List.length_append]
  have hahead : start.ahead = stream ++ rest := by
    show (front ++ stream ++ rest).drop front.length = _
    rw [List.append_assoc, List.drop_left]
  have hwithin : start.Within := by
    rw [Within, hlength, Nat.add_assoc]
    exact Nat.le_add_right _ _
  have hscan :=
    FieldStream.scan_encode_append (FieldStream.readsBack_numbers fields) hne rest
  have hposition : start.bytes.length - rest.length = front.length + stream.length := by
    rw [hlength, Nat.add_sub_cancel]
  rw [← hposition]
  rw [← hahead] at hscan
  exact fieldRun_iff_of_scan hwithin hscan

namespace FieldStream

/-- Fields of which the last one is marked are appended in full, are read back one after the
other whatever follows, and are told apart from any other fields. -/
theorem fields_round_trip {fields : List (Tag × UInt32)} (hne : fields ≠ [])
    (buffer trailing : List UInt8) :
    ∃ counts written,
      appendFields buffer (marked fields) = (counts, buffer ++ written) ∧
        written.length = counts.sum ∧
          written.length = (fields.map fun field => fieldSize field.2).sum ∧
            (∀ read stop last,
              Cursor.FieldRun (fun _ => False)
                  { bytes := buffer ++ written ++ trailing, position := buffer.length }
                  read stop last ↔
                read = fields ∧
                  stop = .ok () ∧
                    last =
                      { bytes := buffer ++ written ++ trailing,
                        position := buffer.length + written.length }) ∧
              ∀ other, other ≠ [] →
                ∀ before otherCounts otherWritten,
                  appendFields before (marked other) = (otherCounts, before ++ otherWritten) →
                    otherWritten <+: written → other = fields := by
  have hlength := length_encode_eq_sum fields
  refine
    ⟨_, encode Varint.encode fields, appendFields_marked buffer fields, hlength, hlength, ?_, ?_⟩
  · intro read stop last
    exact Cursor.fieldRun_stream_iff hne buffer trailing
  · intro other hother before otherCounts otherWritten happend hprefix
    rw [appendFields_marked] at happend
    obtain rfl := List.append_cancel_left (Prod.mk.inj happend).2
    exact (readsBack_numbers fields).eq_of_begins (readsBack_numbers other) hne hother hprefix

/-- Tags in any order and with repetitions, numbers of one and of five bytes, and behind the
stream a byte that is no header. -/
theorem fields_round_trip_of_repeated_tag :
    Cursor.FieldRun (fun _ => False)
        { bytes := [7, 0x01, 0x28, 0x00, 0xFC, 0xFF, 0xFF, 0xFF, 0x07, 0x81, 0x28, 0x7F],
          position := 1 }
        [(.dispatchMap, 5), (.rareFlags, 0xFFFF_FFFF), (.dispatchMap, 5)] (.ok ())
        { bytes := [7, 0x01, 0x28, 0x00, 0xFC, 0xFF, 0xFF, 0xFF, 0x07, 0x81, 0x28, 0x7F],
          position := 11 } := by
  have hne : [(Tag.dispatchMap, (5 : UInt32)), (.rareFlags, 0xFFFF_FFFF), (.dispatchMap, 5)] ≠ [] :=
    List.cons_ne_nil _ _
  have hwritten :
      appendFields [7]
          (marked [(.dispatchMap, 5), (.rareFlags, 0xFFFF_FFFF), (.dispatchMap, 5)]) =
        ([2, 6, 2], [7] ++ [0x01, 0x28, 0x00, 0xFC, 0xFF, 0xFF, 0xFF, 0x07, 0x81, 0x28]) := by
    decide
  obtain ⟨counts, written, happend, -, -, hread, -⟩ := fields_round_trip hne [7] [0x7F]
  rw [hwritten] at happend
  obtain rfl := List.append_cancel_left (Prod.mk.inj happend).2
  exact (hread _ _ _).mpr ⟨rfl, rfl, rfl⟩

end FieldStream
end AnchoredFields

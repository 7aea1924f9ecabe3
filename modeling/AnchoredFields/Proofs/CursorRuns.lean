import AnchoredFields.Field.Reading
import AnchoredFields.Proofs.LazyLookup

/-!
# Reading fields at a cursor

Fields are read in a loop: a header, then a value, and again from the position behind the
value.  The loop has no counter; what ends it is that every field takes at least two bytes
and that no step leaves the bytes.  The steps of the loop are kept here as a relation, in
which every step is made at a position within the bytes.

* `Cursor.Steps.within_readHeader`, `Cursor.Steps.within_readVarint`: no step leaves the bytes;
* `Cursor.FieldRun`: the steps of the loop, up to a mark, a tag that is looked for, or a
  failed step;
* `Cursor.exists_fieldRun`: the loop ends, on any bytes;
* `Cursor.FieldRun.bounds`: every field that was read took at least two bytes;
* `Cursor.FieldRun.scan_eq`, `Cursor.FieldRun.find_eq`: decoding and looking up are runs of
  the loop.
-/

namespace AnchoredFields

/-- A number is read from at least one byte, and from no more bytes than there are. -/
theorem Varint.taken_bounds {bytes : List UInt8} {number : UInt32} {taken : Nat}
    (h : decode bytes = .ok (number, taken)) :
    0 < taken ∧ taken ≤ bytes.length := by
  obtain ⟨stored, rest, rfl, rfl, hspells⟩ := exact_decode.exists_stored h
  cases hspells with
  | mk hcode hcount hvalue =>
      simp only [List.length_append, List.length_cons]
      omega

namespace Cursor

/-- The position is within the bytes, or right behind them. -/
def Within (c : Cursor) : Prop :=
  c.position ≤ c.bytes.length

/-- A step that is made at a position within the bytes, and its result. -/
structure Steps {α : Type} (step : EStateM Error Cursor α) (c : Cursor)
    (result : EStateM.Result Error Cursor α) : Prop where
  within : c.Within
  eq_result : step c = result

theorem ahead_advance (c : Cursor) (count : Nat) :
    (c.advance count).ahead = c.ahead.drop count :=
  List.drop_drop.symm

theorem length_ahead (c : Cursor) : c.ahead.length = c.bytes.length - c.position :=
  List.length_drop

variable {c d : Cursor} {header : Header} {number : UInt32} {e : Error}

/-- A header is read from one byte. -/
theorem readHeader_eq_ok (h : readHeader c = .ok header d) :
    d = c.advance 1 ∧ ∃ b, c.ahead = b :: d.ahead ∧ Header.ofByte b = .ok header := by
  unfold readHeader at h
  split at h
  · cases h
  · rename_i b rest hahead
    split at h
    · rename_i found hfound
      cases h
      refine ⟨rfl, b, ?_, hfound⟩
      rw [ahead_advance, hahead, List.drop_succ_cons, List.drop_zero]
    · cases h

/-- A header is missing, or its byte has no tag; the byte has been moved over in that case. -/
theorem readHeader_eq_error (h : readHeader c = .error e d) :
    (c.ahead = [] ∧ d = c ∧ e = .outOfBounds) ∨
      ∃ b rest, c.ahead = b :: rest ∧ d = c.advance 1 ∧ Header.ofByte b = .error e := by
  unfold readHeader at h
  split at h
  · rename_i hahead
    cases h
    exact Or.inl ⟨hahead, rfl, rfl⟩
  · rename_i b rest hahead
    split at h
    · cases h
    · rename_i cause hcause
      cases h
      exact Or.inr ⟨b, rest, hahead, rfl, hcause⟩

theorem within_advance {count : Nat} (h : c.Within) (hcount : count ≤ c.ahead.length) :
    (c.advance count).Within := by
  rw [length_ahead] at hcount
  show c.position + count ≤ c.bytes.length
  rw [Within] at h
  omega

namespace Steps

/-- Reading a header never leaves the bytes. -/
theorem within_readHeader (h : Steps readHeader c (.ok header d)) : d.Within := by
  obtain ⟨rfl, b, hahead, -⟩ := readHeader_eq_ok h.eq_result
  refine within_advance h.within ?_
  rw [hahead]
  exact Nat.succ_pos _

/-- Reading a header never leaves the bytes, also if there is none. -/
theorem within_readHeader_error (h : Steps readHeader c (.error e d)) :
    d.bytes = c.bytes ∧ c.position ≤ d.position ∧ d.Within := by
  rcases readHeader_eq_error h.eq_result with ⟨-, rfl, -⟩ | ⟨b, rest, hahead, rfl, -⟩
  · exact ⟨rfl, Nat.le_refl _, h.within⟩
  · refine ⟨rfl, Nat.le_add_right _ _, within_advance h.within ?_⟩
    rw [hahead]
    exact Nat.succ_pos _

/-- Reading a value takes at least one byte and never leaves the bytes. -/
theorem within_readVarint (h : Steps readVarint c (.ok number d)) :
    ∃ taken,
      Varint.decode c.ahead = .ok (number, taken) ∧
        0 < taken ∧ d = c.advance taken ∧ d.Within := by
  obtain ⟨taken, hdecode, rfl⟩ := read_eq_ok_iff.mp h.eq_result
  obtain ⟨hpos, hle⟩ := Varint.taken_bounds hdecode
  exact ⟨taken, hdecode, hpos, rfl, within_advance h.within hle⟩

theorem readVarint_error (h : Steps readVarint c (.error e d)) :
    Varint.decode c.ahead = .error e ∧ d = c :=
  read_eq_error_iff.mp h.eq_result

end Steps

/-- The steps of reading fields one after the other: the fields that were read completely, why
reading ended, and where.  It ends behind a field with the mark or with a tag that is looked
for, and at a step that fails. -/
inductive FieldRun (wanted : Tag → Prop) :
    Cursor → List (Tag × UInt32) → Except Error Unit → Cursor → Prop
  | noHeader
      {c d : Cursor} {e : Error}
      (hheader : Steps readHeader c (.error e d)) :
      FieldRun wanted c [] (.error e) d
  | noValue
      {c d last : Cursor} {header : Header} {e : Error}
      (hheader : Steps readHeader c (.ok header d))
      (hvalue : Steps readVarint d (.error e last)) :
      FieldRun wanted c [] (.error e) last
  | stop
      {c d last : Cursor} {header : Header} {number : UInt32}
      (hheader : Steps readHeader c (.ok header d))
      (hvalue : Steps readVarint d (.ok number last))
      (hstop : header.last = true ∨ wanted header.tag) :
      FieldRun wanted c [(header.tag, number)] (.ok ()) last
  | next
      {c d behind last : Cursor} {header : Header} {number : UInt32}
      {fields : List (Tag × UInt32)} {stop : Except Error Unit}
      (hheader : Steps readHeader c (.ok header d))
      (hvalue : Steps readVarint d (.ok number behind))
      (hgo : header.last = false ∧ ¬ wanted header.tag)
      (hrest : FieldRun wanted behind fields stop last) :
      FieldRun wanted c ((header.tag, number) :: fields) stop last

/-- Reading fields ends, whatever the bytes are and whatever is looked for. -/
theorem exists_fieldRun (wanted : Tag → Prop) (c : Cursor) (hwithin : c.Within) :
    ∃ fields stop last, FieldRun wanted c fields stop last := by
  -- A field that was read leaves fewer bytes ahead.
  induction hn : c.bytes.length - c.position using Nat.strongRecOn generalizing c with
  | ind n ih =>
      cases hheader : readHeader c with
      | error e d =>
          exact ⟨_, _, _, .noHeader ⟨hwithin, hheader⟩⟩
      | ok header d =>
          have hfirst : Steps readHeader c (.ok header d) := ⟨hwithin, hheader⟩
          have hmiddle := hfirst.within_readHeader
          cases hvalue : readVarint d with
          | error e last =>
              exact ⟨_, _, _, .noValue hfirst ⟨hmiddle, hvalue⟩⟩
          | ok number behind =>
              have hsecond : Steps readVarint d (.ok number behind) := ⟨hmiddle, hvalue⟩
              obtain ⟨taken, -, hpos, hbehind, hafter⟩ := hsecond.within_readVarint
              by_cases hstop : header.last = true ∨ wanted header.tag
              · exact ⟨_, _, _, .stop hfirst hsecond hstop⟩
              · obtain ⟨hmark, htag⟩ := not_or.mp hstop
                obtain ⟨rfl, -⟩ := readHeader_eq_ok hheader
                have hless : behind.bytes.length - behind.position < n := by
                  rw [Within, hbehind] at hafter
                  simp only [advance] at hafter
                  simp only [hbehind, advance, ← hn]
                  omega
                obtain ⟨fields, stop, last, hrest⟩ := ih _ hless behind hafter rfl
                exact
                  ⟨_, _, _, .next hfirst hsecond ⟨Bool.eq_false_iff.mpr hmark, htag⟩ hrest⟩

namespace FieldRun

variable {wanted : Tag → Prop} {fields : List (Tag × UInt32)} {stop : Except Error Unit}
  {last : Cursor}

/-- Reading ends within the same bytes, at least two bytes further for every field. -/
theorem bounds (h : FieldRun wanted c fields stop last) :
    last.bytes = c.bytes ∧ c.position + 2 * fields.length ≤ last.position ∧ last.Within := by
  induction h with
  | noHeader hheader =>
      exact hheader.within_readHeader_error
  | noValue hheader hvalue =>
      obtain ⟨rfl, -⟩ := readHeader_eq_ok hheader.eq_result
      obtain ⟨-, rfl⟩ := hvalue.readVarint_error
      exact ⟨rfl, Nat.le_add_right _ _, hvalue.within⟩
  | stop hheader hvalue hstop =>
      obtain ⟨rfl, -⟩ := readHeader_eq_ok hheader.eq_result
      obtain ⟨taken, -, hpos, rfl, hwithin⟩ := hvalue.within_readVarint
      refine ⟨rfl, ?_, hwithin⟩
      simp only [List.length_singleton, advance]
      omega
  | next hheader hvalue hgo hrest ih =>
      obtain ⟨rfl, -⟩ := readHeader_eq_ok hheader.eq_result
      obtain ⟨taken, -, hpos, rfl, -⟩ := hvalue.within_readVarint
      obtain ⟨hbytes, hposition, hwithin⟩ := ih
      refine ⟨hbytes, ?_, hwithin⟩
      simp only [advance] at hposition
      simp only [List.length_cons]
      omega

/-- At most half as many fields are read as there are bytes. -/
theorem length_le {bytes : List UInt8}
    (h : FieldRun wanted { bytes := bytes } fields stop last) :
    fields.length ≤ bytes.length / 2 := by
  obtain ⟨hbytes, hposition, hwithin⟩ := h.bounds
  rw [Within, hbytes] at hwithin
  simp only at hposition hwithin
  omega

/-- Reading all fields is what decoding does. -/
theorem scan_eq (h : FieldRun wanted c fields stop last) (hwanted : ∀ tag, ¬ wanted tag) :
    FieldStream.scan (fun _ => Varint.decode) c.ahead =
      { fields := fields, outcome := stop.map fun _ => last.ahead } := by
  induction h with
  | noHeader hheader =>
      rcases readHeader_eq_error hheader.eq_result with ⟨hnil, -, rfl⟩ | ⟨b, rest, hcons, -, hbyte⟩
      · rw [hnil, FieldStream.scan_nil]
        rfl
      · rw [hcons, FieldStream.scan_cons, hbyte]
        rfl
  | noValue hheader hvalue =>
      obtain ⟨-, b, hcons, hbyte⟩ := readHeader_eq_ok hheader.eq_result
      rw [hcons, FieldStream.scan_cons, hbyte]
      simp only [hvalue.readVarint_error.1]
      rfl
  | stop hheader hvalue hstop =>
      obtain ⟨-, b, hcons, hbyte⟩ := readHeader_eq_ok hheader.eq_result
      obtain ⟨taken, hdecode, -, rfl, -⟩ := hvalue.within_readVarint
      have hmark := hstop.resolve_right (hwanted _)
      rw [hcons, FieldStream.scan_cons, hbyte, ahead_advance]
      simp only [hdecode, if_pos hmark]
      rfl
  | next hheader hvalue hgo hrest ih =>
      obtain ⟨-, b, hcons, hbyte⟩ := readHeader_eq_ok hheader.eq_result
      obtain ⟨taken, hdecode, -, rfl, -⟩ := hvalue.within_readVarint
      rw [ahead_advance] at ih
      rw [hcons, FieldStream.scan_cons, hbyte]
      simp only [hdecode, hgo.1, Bool.false_eq_true, if_false, ih]
      rfl

/-- Reading up to a field with a tag is what looking up the tag does. -/
theorem find_eq {tag : Tag} (h : FieldRun (fun t => t = tag) c fields stop last) :
    FieldStream.find (fun _ => Varint.decode) tag c.ahead =
      stop.map fun _ => FieldStream.firstValue tag fields := by
  induction h with
  | noHeader hheader =>
      rcases readHeader_eq_error hheader.eq_result with ⟨hnil, -, rfl⟩ | ⟨b, rest, hcons, -, hbyte⟩
      · rw [hnil, FieldStream.find_nil]
        rfl
      · rw [hcons, FieldStream.find, hbyte]
        rfl
  | noValue hheader hvalue =>
      obtain ⟨-, b, hcons, hbyte⟩ := readHeader_eq_ok hheader.eq_result
      rw [hcons, FieldStream.find, hbyte]
      simp only [hvalue.readVarint_error.1]
      rfl
  | @stop c d last header number hheader hvalue hstop =>
      obtain ⟨-, b, hcons, hbyte⟩ := readHeader_eq_ok hheader.eq_result
      obtain ⟨taken, hdecode, -, -, -⟩ := hvalue.within_readVarint
      rw [hcons, FieldStream.find, hbyte, FieldStream.firstValue_cons]
      simp only [hdecode]
      by_cases htag : header.tag = tag
      · rw [if_pos htag, if_pos htag]
        rfl
      · rw [if_neg htag, if_neg htag, if_pos (hstop.resolve_right htag)]
        rfl
  | next hheader hvalue hgo hrest ih =>
      obtain ⟨-, b, hcons, hbyte⟩ := readHeader_eq_ok hheader.eq_result
      obtain ⟨taken, hdecode, -, rfl, -⟩ := hvalue.within_readVarint
      rw [ahead_advance] at ih
      rw [hcons, FieldStream.find, hbyte, FieldStream.firstValue_cons]
      simp only [hdecode, if_neg hgo.2, hgo.1, Bool.false_eq_true, if_false, ih]

end FieldRun
end Cursor
end AnchoredFields

import AnchoredFields.Proofs.CursorRuns
import AnchoredFields.Proofs.WordTransfers

/-!
# Any steps of a reader

A reader moves over some bytes by four kinds of steps: it reads a machine word, a number, the
header of a field, or its value.  The steps are made here in any order, and go on from
wherever a failed one has left the reader.  One step keeps the position within the bytes and
never moves it back, so every sequence of steps does.

A number is cut out of the bytes from the position on, and the position is a sum that may
leave the 64-bit numbers.  Because the position is always within the bytes, both can be done
at every point of every sequence of steps.

* `Cursor.ReadsFrom`: what a successful step moves over, and that nothing else counts;
* `Cursor.ReadStep.fails_iff`: when a step fails, and where that leaves the reader;
* `Cursor.ReadStep.performChecked_eq`: no part of a step leaves its range;
* `Cursor.performAll_forward`: any sequence of steps;
* `Cursor.reader_laws`: the results together.
-/

namespace AnchoredFields
namespace Cursor

/-! ## Steps -/

/-- A step of reading. -/
inductive ReadStep
  | word (w : Width)
  | number
  | header
  | value
  deriving DecidableEq, Repr

/-- The number of bytes of a number, by the first of them. -/
def announcedBytes : List UInt8 → Nat
  | [] => 0
  | first :: _ => 1 + Varint.announced first

namespace ReadStep

/-- What a step answers with. -/
def Answer : ReadStep → Type
  | word w => Word w
  | number => UInt32
  | header => Header
  | value => UInt32

/-- Makes a step.  The value of a field is read as any number is. -/
def perform : (step : ReadStep) → EStateM Error Cursor step.Answer
  | word w => readWord w
  | number => readVarint
  | header => readHeader
  | value => readVarint

/-- The number of bytes that a step interprets. -/
def count (c : Cursor) : ReadStep → Nat
  | word w => w.bytes
  | number => announcedBytes c.ahead
  | header => 1
  | value => announcedBytes c.ahead

/-- When a step fails, for which cause, and where it leaves the cursor: where it was, but a header
that names no tag has been moved over. -/
def Fails (c : Cursor) (e : Error) (d : Cursor) : ReadStep → Prop
  | word w => c.bytes.length < c.position + w.bytes ∧ e = .outOfBounds ∧ d = c
  | number => Varint.Flawed c.ahead e ∧ d = c
  | header =>
      (c.ahead = [] ∧ e = .outOfBounds ∧ d = c) ∨
        ∃ b rest,
          c.ahead = b :: rest ∧
            Tag.ofIndex? (b &&& Header.tagMask).toNat = none ∧
              e = .unknownTag (b &&& Header.tagMask).toNat ∧ d = c.advance 1
  | value => Varint.Flawed c.ahead e ∧ d = c

end ReadStep

/-- The cursor that steps leave which are made one after the other, failed ones included. -/
def performAll (steps : List ReadStep) (c : Cursor) : Cursor :=
  steps.foldl (fun left step => afterStep (step.perform left)) c

/-! ## What one step comes to -/

/-- A step reads its answer from some bytes ahead: it moves over them, and gives the same answer
wherever they are ahead. -/
structure ReadsFrom {α : Type} (step : EStateM Error Cursor α) (count : Nat) (c : Cursor)
    (answer : α) (d : Cursor) : Prop where
  count_le : count ≤ c.ahead.length
  moved : d = c.advance count
  depends :
    ∀ other : Cursor, other.ahead.take count = c.ahead.take count →
      step other = .ok answer (other.advance count)

section Reading

variable {α : Type} {decode : Decoder α} {spells : List UInt8 → α → Prop}
  {flawed : List UInt8 → Error → Prop} {c d : Cursor}

/-- What an exact decoder has taken is what the step has read from. -/
theorem readsFrom_of_exact (h : decode.Exact spells flawed) {a : α}
    (hread : read decode c = .ok a d) :
    ∃ taken, decode c.ahead = .ok (a, taken) ∧ ReadsFrom (read decode) taken c a d := by
  obtain ⟨taken, hdecode, rfl⟩ := read_eq_ok_iff.mp hread
  refine ⟨taken, hdecode, ?_, rfl, ?_⟩
  · obtain ⟨stored, rest, hahead, rfl, -⟩ := h.exists_stored hdecode
    rw [hahead, List.length_append]
    exact Nat.le_add_right _ _
  · intro other hsame
    exact read_eq_ok_iff.mpr ⟨taken, h.read_congr hdecode hsame, rfl⟩

theorem readsFrom_readWord {w : Width} {value : Word w} (h : readWord w c = .ok value d) :
    ReadsFrom (readWord w) w.bytes c value d := by
  obtain ⟨taken, hdecode, hreads⟩ := readsFrom_of_exact Word.exact_decode h
  obtain ⟨stored, rest, -, rfl, hspells⟩ := Word.exact_decode.exists_stored hdecode
  rwa [hspells.length_eq] at hreads

theorem readsFrom_readVarint {number : UInt32} (h : readVarint c = .ok number d) :
    ReadsFrom readVarint (announcedBytes c.ahead) c number d := by
  obtain ⟨taken, hdecode, hreads⟩ := readsFrom_of_exact Varint.exact_decode h
  cases hahead : c.ahead with
  | nil =>
      rw [hahead] at hdecode
      cases hdecode
  | cons first rest =>
      rw [hahead] at hdecode
      obtain ⟨-, -, -, rfl⟩ := Varint.decode_eq_ok_iff.mp hdecode
      rw [announcedBytes, Nat.add_comm]
      exact hreads

theorem readsFrom_readHeader {header : Header} (h : readHeader c = .ok header d) :
    ReadsFrom readHeader 1 c header d := by
  obtain ⟨hmoved, b, hahead, hbyte⟩ := readHeader_eq_ok h
  refine ⟨?_, hmoved, ?_⟩
  · rw [hahead]
    exact Nat.succ_pos _
  · intro other hsame
    rw [hahead, List.take_succ_cons, List.take_zero] at hsame
    cases hother : other.ahead with
    | nil =>
        rw [hother] at hsame
        cases hsame
    | cons b' rest =>
        rw [hother, List.take_succ_cons, List.take_zero] at hsame
        obtain rfl := (List.cons.inj hsame).1
        rw [readHeader, hother]
        simp only [hbyte]

variable {e : Error}

theorem readVarint_eq_error_iff :
    readVarint c = .error e d ↔ Varint.Flawed c.ahead e ∧ d = c := by
  rw [readVarint, read_eq_error_iff, Varint.exact_decode.eq_error_iff]

/-- A header fails only if no byte is there or if the byte names no tag. -/
theorem readHeader_eq_error_iff :
    readHeader c = .error e d ↔
      (c.ahead = [] ∧ e = .outOfBounds ∧ d = c) ∨
        ∃ b rest,
          c.ahead = b :: rest ∧
            Tag.ofIndex? (b &&& Header.tagMask).toNat = none ∧
              e = .unknownTag (b &&& Header.tagMask).toNat ∧ d = c.advance 1 := by
  constructor
  · intro h
    rcases readHeader_eq_error h with ⟨hnil, hstays, hmissing⟩ | ⟨b, rest, hcons, hmoved, hbyte⟩
    · exact Or.inl ⟨hnil, hmissing, hstays⟩
    · obtain ⟨hnone, hcause⟩ := Header.ofByte_eq_error_iff.mp hbyte
      exact Or.inr ⟨b, rest, hcons, hnone, hcause, hmoved⟩
  · rintro (⟨hnil, rfl, rfl⟩ | ⟨b, rest, hcons, hnone, rfl, rfl⟩)
    · rw [readHeader, hnil]
    · have hbyte := Header.ofByte_eq_error_iff.mpr ⟨hnone, rfl⟩
      rw [readHeader, hcons]
      simp only [hbyte]

end Reading

namespace ReadStep

variable {c d : Cursor} {e : Error}

theorem readsFrom (step : ReadStep) {answer : step.Answer} (h : step.perform c = .ok answer d) :
    ReadsFrom step.perform (step.count c) c answer d := by
  cases step with
  | word w =>
      exact readsFrom_readWord h
  | number =>
      exact readsFrom_readVarint h
  | header =>
      exact readsFrom_readHeader h
  | value =>
      exact readsFrom_readVarint h

theorem fails_iff (step : ReadStep) : step.perform c = .error e d ↔ step.Fails c e d := by
  cases step with
  | word w =>
      exact readWord_eq_error_iff
  | number =>
      exact readVarint_eq_error_iff
  | header =>
      exact readHeader_eq_error_iff
  | value =>
      exact readVarint_eq_error_iff

end ReadStep

/-- A cursor that was moved forward, or not at all, and is within the same bytes. -/
structure Forward (c d : Cursor) : Prop where
  bytes_eq : d.bytes = c.bytes
  position_le : c.position ≤ d.position
  within : d.Within

namespace Forward

variable {c d last : Cursor}

theorem refl (h : c.Within) : Forward c c :=
  ⟨rfl, Nat.le_refl _, h⟩

theorem trans (h : Forward c d) (hlast : Forward d last) : Forward c last :=
  ⟨hlast.bytes_eq.trans h.bytes_eq, Nat.le_trans h.position_le hlast.position_le, hlast.within⟩

end Forward

theorem ReadsFrom.forward {α : Type} {step : EStateM Error Cursor α} {count : Nat}
    {c d : Cursor} {answer : α} (h : ReadsFrom step count c answer d) (hwithin : c.Within) :
    Forward c d := by
  obtain ⟨hcount, rfl, -⟩ := h
  exact ⟨rfl, Nat.le_add_right _ _, within_advance hwithin hcount⟩

namespace ReadStep

variable {c : Cursor}

/-- A step keeps the position within the bytes and never moves it back. -/
theorem forward (step : ReadStep) (hwithin : c.Within) :
    Forward c (afterStep (step.perform c)) := by
  cases hperform : step.perform c with
  | ok answer d =>
      exact (step.readsFrom hperform).forward hwithin
  | error e d =>
      cases step with
      | word w =>
          obtain ⟨-, -, rfl⟩ := (fails_iff (.word w)).mp hperform
          exact .refl hwithin
      | number =>
          obtain ⟨-, rfl⟩ := (fails_iff .number).mp hperform
          exact .refl hwithin
      | header =>
          -- The byte of a header that names no tag was there.
          have hsteps : Steps readHeader c (.error e d) := ⟨hwithin, hperform⟩
          obtain ⟨hbytes, hposition, hafter⟩ := hsteps.within_readHeader_error
          exact ⟨hbytes, hposition, hafter⟩
      | value =>
          obtain ⟨-, rfl⟩ := (fails_iff .value).mp hperform
          exact .refl hwithin

end ReadStep

/-! ## Steps whose parts have a range -/

/-- Reads a number, if the bytes from the position on can be cut out and the position behind the
number is a 64-bit number. -/
def readVarintChecked (c : Cursor) : Option (EStateM.Result Error Cursor UInt32) := do
  let ahead ← Checked.slice c.bytes c.position c.bytes.length
  match ← Varint.decodeChecked ahead with
  | .error e => return .error e c
  | .ok (number, taken) =>
      let position ← (sum64 c.position taken).toOption
      return .ok number { c with position := position }

/-- Reads a header as a byte, and then takes the byte apart. -/
def readHeaderChecked (c : Cursor) : Option (EStateM.Result Error Cursor Header) := do
  match ← readWordChecked .one c with
  | .error e d => return .error e d
  | .ok byte d =>
      match Header.ofByte (UInt8.ofBitVec byte) with
      | .ok header => return .ok header d
      | .error e => return .error e d

/-- Makes a step, if none of its parts leaves its range. -/
def ReadStep.performChecked :
    (step : ReadStep) → Cursor → Option (EStateM.Result Error Cursor step.Answer)
  | word w => readWordChecked w
  | number => readVarintChecked
  | header => readHeaderChecked
  | value => readVarintChecked

section Checks

variable {c : Cursor}

/-- The bytes from a position within the bytes on can be cut out. -/
theorem slice_ahead (hwithin : c.Within) :
    Checked.slice c.bytes c.position c.bytes.length = some c.ahead := by
  rw [Checked.slice, if_pos ⟨hwithin, Nat.le_refl _⟩, List.take_length]
  rfl

theorem readVarintChecked_eq (hwithin : c.Within) (hlength : c.bytes.length < UInt64.size) :
    readVarintChecked c = some (readVarint c) := by
  rw [readVarintChecked, slice_ahead hwithin, readVarint, read]
  simp only [bind, Option.bind, Varint.decodeChecked_eq]
  cases hdecode : Varint.decode c.ahead with
  | error e =>
      rfl
  | ok found =>
      obtain ⟨number, taken⟩ := found
      have hafter := within_advance hwithin (Varint.taken_bounds hdecode).2
      have hsum : sum64 c.position taken = .ok (c.position + taken) :=
        if_pos (Nat.lt_of_le_of_lt hafter hlength)
      simp only [hsum]
      rfl

/-- A header is a word of one byte that is taken apart. -/
theorem readHeader_eq_of_word (c : Cursor) :
    readHeader c =
      match readWord .one c with
      | .error e d => .error e d
      | .ok byte d =>
          match Header.ofByte (UInt8.ofBitVec byte) with
          | .ok header => .ok header d
          | .error e => .error e d := by
  cases hahead : c.ahead with
  | nil =>
      rw [readHeader, readWord, read, hahead]
      rfl
  | cons b rest =>
      have hdecode : Word.decode .one c.ahead = .ok (b.toBitVec, 1) := by
        have hspells : Word.Spells (w := .one) [b] b.toBitVec := ⟨rfl, rfl⟩
        rw [hahead]
        exact Word.decode_of_spells hspells rest
      have hword : readWord .one c = .ok b.toBitVec (c.advance 1) :=
        read_eq_ok_iff.mpr ⟨1, hdecode, rfl⟩
      cases hbyte : Header.ofByte b with
      | ok header =>
          simp only [readHeader, hahead, hword, UInt8.ofBitVec_toBitVec, hbyte]
      | error e =>
          simp only [readHeader, hahead, hword, UInt8.ofBitVec_toBitVec, hbyte]

theorem readHeaderChecked_eq (hlength : c.bytes.length < UInt64.size) :
    readHeaderChecked c = some (readHeader c) := by
  rw [readHeaderChecked, readWordChecked_eq hlength, readHeader_eq_of_word]
  simp only [bind, Option.bind]
  cases readWord .one c with
  | error e d =>
      rfl
  | ok byte d =>
      dsimp only
      cases Header.ofByte (UInt8.ofBitVec byte) <;> rfl

end Checks

namespace ReadStep

variable {c : Cursor}

/-- At a position within the bytes no part of a step leaves its range. -/
theorem performChecked_eq (step : ReadStep) (hwithin : c.Within)
    (hlength : c.bytes.length < UInt64.size) :
    step.performChecked c = some (step.perform c) := by
  cases step with
  | word w =>
      exact readWordChecked_eq hlength
  | number =>
      exact readVarintChecked_eq hwithin hlength
  | header =>
      exact readHeaderChecked_eq hlength
  | value =>
      exact readVarintChecked_eq hwithin hlength

/-- What a step at a cursor comes to. -/
structure Law (step : ReadStep) (c : Cursor) : Prop where
  reads :
    ∀ answer d, step.perform c = .ok answer d →
      ReadsFrom step.perform (step.count c) c answer d
  fails : ∀ e d, step.perform c = .error e d ↔ step.Fails c e d
  forward : Forward c (afterStep (step.perform c))
  checked :
    c.bytes.length < UInt64.size → step.performChecked c = some (step.perform c)

theorem law (step : ReadStep) (hwithin : c.Within) : step.Law c where
  reads _ _ := step.readsFrom
  fails _ _ := step.fails_iff
  forward := step.forward hwithin
  checked := step.performChecked_eq hwithin

end ReadStep

/-! ## Any sequence of steps -/

theorem performAll_append (steps more : List ReadStep) (c : Cursor) :
    performAll (steps ++ more) c = performAll more (performAll steps c) :=
  List.foldl_append

/-- Steps keep the position within the bytes and never move it back. -/
theorem performAll_forward (steps : List ReadStep) {c : Cursor} (hwithin : c.Within) :
    Forward c (performAll steps c) := by
  induction steps generalizing c with
  | nil =>
      exact .refl hwithin
  | cons step rest ih =>
      have hstep := step.forward hwithin
      exact hstep.trans (ih hstep.within)

/-- Whatever steps a reader has made, successful and failed ones in any order: it is within its
bytes, so what is ahead can be cut out of them, and it never goes back.  Any step that it makes
next reads just the bytes it moves over, or fails for a cause that tells where it is left. -/
theorem reader_laws (bytes : List UInt8) (steps : List ReadStep) :
    let c := performAll steps { bytes := bytes }
    Forward { bytes := bytes } c ∧
      Checked.slice bytes c.position bytes.length = some c.ahead ∧
        (∀ more, Forward c (performAll (steps ++ more) { bytes := bytes })) ∧
          ∀ step : ReadStep, step.Law c := by
  intro c
  have hstart : Within { bytes := bytes } := Nat.zero_le _
  have hforward := performAll_forward steps hstart
  have hslice := slice_ahead hforward.within
  rw [hforward.bytes_eq] at hslice
  refine ⟨hforward, hslice, ?_, ?_⟩
  · intro more
    rw [performAll_append]
    exact performAll_forward more hforward.within
  · intro step
    exact step.law hforward.within

/-- A header that names no tag, a number with a count beyond four and a word that is too long are
tried before the bytes are read; behind the last one there is no header.  The number is the
same in front of other bytes. -/
theorem reader_laws_of_failed_steps :
    performAll [.header, .number, .word .eight, .word .two, .header]
        { bytes := [0x7F, 0x05, 0x06, 0x85, 0x41, 0x1F] } =
      { bytes := [0x7F, 0x05, 0x06, 0x85, 0x41, 0x1F], position := 4 } ∧
      performAll [.header, .number, .word .eight, .word .two, .header, .value, .header]
          { bytes := [0x7F, 0x05, 0x06, 0x85, 0x41, 0x1F] } =
        { bytes := [0x7F, 0x05, 0x06, 0x85, 0x41, 0x1F], position := 6 } ∧
      readVarint { bytes := [0x41, 0x1F, 0xFF] } =
        .ok 1000 { bytes := [0x41, 0x1F, 0xFF], position := 2 } ∧
      readVarintChecked { bytes := [0x7F, 0x05, 0x06, 0x85, 0x41, 0x1F], position := 4 } =
        some
          (.ok 1000 { bytes := [0x7F, 0x05, 0x06, 0x85, 0x41, 0x1F], position := 6 }) := by
  have hreached :
      performAll [.header, .number, .word .eight, .word .two, .header]
          { bytes := [0x7F, 0x05, 0x06, 0x85, 0x41, 0x1F] } =
        { bytes := [0x7F, 0x05, 0x06, 0x85, 0x41, 0x1F], position := 4 } := by
    decide
  have hvalue :
      readVarint { bytes := [0x7F, 0x05, 0x06, 0x85, 0x41, 0x1F], position := 4 } =
        .ok 1000 { bytes := [0x7F, 0x05, 0x06, 0x85, 0x41, 0x1F], position := 6 } := by
    rfl
  obtain ⟨-, -, -, hlaw⟩ :=
    reader_laws [0x7F, 0x05, 0x06, 0x85, 0x41, 0x1F]
      [.header, .number, .word .eight, .word .two, .header]
  rw [hreached] at hlaw
  refine ⟨hreached, by decide, ?_, ?_⟩
  · exact ((hlaw .value).reads (1000 : UInt32) _ hvalue).depends _ rfl
  · rw [← hvalue]
    exact (hlaw .value).checked (by decide)

end Cursor
end AnchoredFields

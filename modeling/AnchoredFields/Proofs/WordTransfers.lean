import AnchoredFields.Bytes.Address
import AnchoredFields.Bytes.Cursor
import AnchoredFields.Proofs.ByteRanges
import AnchoredFields.Proofs.NumberDecoding
import AnchoredFields.Proofs.NumberGrammar

/-!
# Words written and read at an offset

A word is written over the bytes at a cursor, or read from them, exactly if all of its bytes
are there.  What was written is read back, writing back what was read changes nothing, and a
transfer that fails changes neither the bytes nor the position.  Bytes outside of the word
keep their values.

On a machine the end of the range is a sum that may leave the 64-bit numbers, a range is cut
out of the bytes only if its ends are in order and within them, and bytes are copied only to
a range of their own length.  The transfers are said in such steps as well, and no step
leaves its range.

* `Cursor.writeWord_eq_ok_iff`, `Cursor.readWord_eq_ok_iff`: when a word is transferred, and
  what that comes to;
* `Cursor.readWordChecked_eq`, `Cursor.writeWordChecked_eq`: transfers in steps with a range;
* `Cursor.transfers`: what transferring words at a cursor comes to.
-/

namespace AnchoredFields

theorem Width.bytes_pos (w : Width) : 0 < w.bytes := by
  cases w <;> decide

/-- The bytes of a number are those of its shifts by whole bytes. -/
theorem LittleEndian.getElem?_encode {width i : Nat} (n : Nat) (hi : i < width) :
    (encode width n)[i]? = some (UInt8.ofNat (n >>> (8 * i))) := by
  induction width generalizing n i with
  | zero =>
      exact absurd hi (Nat.not_lt_zero i)
  | succ width ih =>
      cases i with
      | zero =>
          rfl
      | succ i =>
          have hshift : (n / 256) >>> (8 * i) = n >>> (8 * (i + 1)) := by
            rw [Nat.mul_succ, Nat.add_comm, Nat.shiftRight_add]
            exact congrArg (· >>> (8 * i)) (Nat.shiftRight_eq_div_pow n 8).symm
          rw [encode, List.getElem?_cons_succ, ih _ (Nat.lt_of_succ_lt_succ hi), hshift]

/-! ## Replacing bytes -/

/-- The bytes with some of them replaced, from an offset on. -/
def overwrite (bytes : List UInt8) (offset : Nat) (data : List UInt8) : List UInt8 :=
  bytes.take offset ++ data ++ bytes.drop (offset + data.length)

section Overwrite

variable {bytes data : List UInt8} {offset : Nat}

/-- The new bytes stand where the old ones stood, which keep their values everywhere else. -/
theorem getElem?_overwrite (h : offset + data.length ≤ bytes.length) (i : Nat) :
    (overwrite bytes offset data)[i]? =
      if offset ≤ i ∧ i < offset + data.length then data[i - offset]? else bytes[i]? := by
  have htake : (bytes.take offset).length = offset := by
    rw [List.length_take]
    omega
  rw [overwrite, List.append_assoc]
  by_cases hbefore : i < offset
  · rw [List.getElem?_append_left (by omega), List.getElem?_take_of_lt hbefore,
      if_neg (by omega)]
  rw [List.getElem?_append_right (by omega), htake]
  by_cases hinside : i < offset + data.length
  · rw [List.getElem?_append_left (by omega), if_pos ⟨by omega, hinside⟩]
  · rw [List.getElem?_append_right (by omega), List.getElem?_drop, if_neg (by omega)]
    congr 1
    omega

theorem length_overwrite (h : offset + data.length ≤ bytes.length) :
    (overwrite bytes offset data).length = bytes.length := by
  simp only [overwrite, List.length_append, List.length_take, List.length_drop]
  omega

theorem standsAt_overwrite (h : offset + data.length ≤ bytes.length) :
    StandsAt data offset (overwrite bytes offset data) := by
  refine ⟨bytes.take offset, bytes.drop (offset + data.length), List.append_assoc .., ?_⟩
  rw [List.length_take]
  omega

/-- Bytes that stand there already are replaced by themselves. -/
theorem StandsAt.overwrite_eq (h : StandsAt data offset bytes) :
    overwrite bytes offset data = bytes := by
  apply List.ext_getElem?
  intro i
  rw [getElem?_overwrite h.stop_le]
  split
  · rename_i hi
    exact (h.getElem?_eq hi.1 hi.2).symm
  · rfl

end Overwrite

namespace Cursor

/-! ## One transfer -/

/-- The cursor that a step leaves, whether it succeeds or fails. -/
def afterStep {α : Type} : EStateM.Result Error Cursor α → Cursor
  | .ok _ d => d
  | .error _ d => d

variable {w : Width} {c d : Cursor} {value : Word w} {e : Error}

/-- A word is written exactly if all of its bytes are there to be replaced. -/
theorem writeWord_eq_ok_iff {u : Unit} :
    writeWord value c = .ok u d ↔
      c.position + w.bytes ≤ c.bytes.length ∧
        d =
          { bytes := overwrite c.bytes c.position value.encode
            position := c.position + w.bytes } := by
  rw [writeWord, overwrite, Word.length_encode]
  split
  · rename_i hroom
    simp only [EStateM.Result.ok.injEq, true_and, hroom]
    exact eq_comm
  · rename_i hroom
    simp only [reduceCtorEq, hroom, false_and]

theorem writeWord_eq_error_iff :
    writeWord value c = .error e d ↔
      c.bytes.length < c.position + w.bytes ∧ e = .outOfBounds ∧ d = c := by
  rw [writeWord]
  split
  · rename_i hroom
    simp only [reduceCtorEq, Nat.not_lt.mpr hroom, false_and]
  · rename_i hroom
    simp only [EStateM.Result.error.injEq, Nat.not_le.mp hroom, true_and]
    exact and_congr eq_comm eq_comm

/-- A word is read exactly if its bytes stand at the position. -/
theorem readWord_eq_ok_iff :
    readWord w c = .ok value d ↔
      StandsAt value.encode c.position c.bytes ∧ d = c.advance w.bytes := by
  rw [readWord, read_eq_ok_iff]
  constructor
  · rintro ⟨taken, hdecode, rfl⟩
    obtain ⟨stored, rest, hahead, rfl, hspells⟩ := Word.exact_decode.exists_stored hdecode
    have hstored : value.encode = stored := by
      rw [Word.encode, hspells.toNat_eq, ← hspells.length_eq, LittleEndian.encode_decode]
    -- The word has at least one byte, so the position is within the bytes.
    have hwithin : c.position ≤ c.bytes.length := by
      have hlength := congrArg List.length hahead
      rw [ahead, List.length_drop, List.length_append, hspells.length_eq] at hlength
      have hpos := w.bytes_pos
      omega
    refine ⟨⟨c.bytes.take c.position, rest, ?_, ?_⟩, ?_⟩
    · rw [hstored, ← hahead]
      exact (List.take_append_drop _ _).symm
    · rw [List.length_take, Nat.min_eq_left hwithin]
    · rw [hspells.length_eq]
  · rintro ⟨hstands, rfl⟩
    obtain ⟨rest, hrest⟩ := hstands.drop_eq
    refine ⟨w.bytes, ?_, rfl⟩
    rw [ahead, hrest, Word.decode_encode]

theorem readWord_eq_error_iff :
    readWord w c = .error e d ↔
      c.bytes.length < c.position + w.bytes ∧ e = .outOfBounds ∧ d = c := by
  have hpos := w.bytes_pos
  have hshort : c.ahead.length < w.bytes ↔ c.bytes.length < c.position + w.bytes := by
    rw [ahead, List.length_drop]
    omega
  rw [readWord, read_eq_error_iff, Word.decode_eq_error_iff, hshort, and_assoc]

/-- If all of its bytes are there, some word is read. -/
theorem exists_readWord (h : c.position + w.bytes ≤ c.bytes.length) :
    ∃ value, readWord w c = .ok value (c.advance w.bytes) := by
  cases hread : readWord w c with
  | ok value d =>
      obtain ⟨-, rfl⟩ := readWord_eq_ok_iff.mp hread
      exact ⟨value, rfl⟩
  | error e d =>
      exact absurd (readWord_eq_error_iff.mp hread).1 (Nat.not_lt.mpr h)

end Cursor

/-! ## Transfers in steps with a range -/

namespace Checked

/-- Some bytes with those from one position up to another replaced, if these are positions in
the right order and there are as many new bytes as old ones. -/
def replace (bytes source : List UInt8) (start stop : Nat) : Option (List UInt8) :=
  if start ≤ stop ∧ stop ≤ bytes.length ∧ source.length = stop - start then
    some (overwrite bytes start source)
  else
    none

end Checked

namespace Cursor

variable {w : Width} {c : Cursor}

/-- Where some bytes from the position on end, if that is a 64-bit number and within the bytes. -/
def stop? (c : Cursor) (count : Nat) : Option Nat :=
  match sum64 c.position count with
  | .error _ => none
  | .ok stop => if c.bytes.length < stop then none else some stop

/-- Reads a word at the position, if no step leaves its range. -/
def readWordChecked (w : Width) (c : Cursor) : Option (EStateM.Result Error Cursor (Word w)) :=
  match c.stop? w.bytes with
  | none => some (.error .outOfBounds c)
  | some stop => do
      let stored ← Checked.slice c.bytes c.position stop
      if stored.length = w.bytes then
        let value := BitVec.ofNat (8 * w.bytes) (LittleEndian.decode stored)
        return .ok value { c with position := stop }
      else
        return .error .outOfBounds c

/-- Writes a word at the position, if no step leaves its range. -/
def writeWordChecked (value : Word w) (c : Cursor) :
    Option (EStateM.Result Error Cursor Unit) :=
  match c.stop? w.bytes with
  | none => some (.error .outOfBounds c)
  | some stop => do
      let written ← Checked.replace c.bytes value.encode c.position stop
      return .ok () { bytes := written, position := stop }

/-- An end that is no 64-bit number is not within the bytes. -/
theorem stop?_eq (hlength : c.bytes.length < UInt64.size) (count : Nat) :
    c.stop? count =
      if c.position + count ≤ c.bytes.length then some (c.position + count) else none := by
  rw [stop?, sum64]
  by_cases hroom : c.position + count ≤ c.bytes.length
  · simp only [if_pos (Nat.lt_of_le_of_lt hroom hlength), if_neg (Nat.not_lt.mpr hroom),
      if_pos hroom]
  · rw [if_neg hroom]
    split
    · rfl
    · rename_i stop hstop
      obtain ⟨rfl, -⟩ := sum64_eq_ok_iff.mp hstop
      exact if_pos (Nat.not_le.mp hroom)

/-- No step of reading leaves its range, and the same word is read, also at positions whose word
would end behind the 64-bit numbers. -/
theorem readWordChecked_eq (hlength : c.bytes.length < UInt64.size) :
    readWordChecked w c = some (readWord w c) := by
  rw [readWordChecked, stop?_eq hlength]
  by_cases hroom : c.position + w.bytes ≤ c.bytes.length
  · have hslice :
        Checked.slice c.bytes c.position (c.position + w.bytes) = some (c.ahead.take w.bytes) := by
      rw [Checked.slice, if_pos ⟨Nat.le_add_right _ _, hroom⟩, List.drop_take,
        Nat.add_sub_cancel_left]
      rfl
    have hstored : (c.ahead.take w.bytes).length = w.bytes := by
      rw [List.length_take, ahead, List.length_drop]
      omega
    rw [if_pos hroom, readWord, read, Word.decode]
    simp only [hslice, hstored, Nat.lt_irrefl, if_true, if_false, bind, Option.bind, pure]
    rfl
  · have hread := readWord_eq_error_iff.mpr ⟨Nat.not_le.mp hroom, rfl, rfl⟩
    rw [if_neg hroom, hread]

/-- No step of writing leaves its range, and the same bytes are written. -/
theorem writeWordChecked_eq (value : Word w) (hlength : c.bytes.length < UInt64.size) :
    writeWordChecked value c = some (writeWord value c) := by
  rw [writeWordChecked, stop?_eq hlength]
  by_cases hroom : c.position + w.bytes ≤ c.bytes.length
  · have hencode : value.encode.length = c.position + w.bytes - c.position := by
      rw [Word.length_encode, Nat.add_sub_cancel_left]
    have hreplace :
        Checked.replace c.bytes value.encode c.position (c.position + w.bytes) =
          some (overwrite c.bytes c.position value.encode) :=
      if_pos ⟨Nat.le_add_right _ _, hroom, hencode⟩
    have hwrite : writeWord value c = .ok () _ := writeWord_eq_ok_iff.mpr ⟨hroom, rfl⟩
    rw [if_pos hroom, hwrite]
    simp only [hreplace, bind, Option.bind, pure]
  · have hwrite : writeWord value c = .error .outOfBounds _ :=
      writeWord_eq_error_iff.mpr ⟨Nat.not_le.mp hroom, rfl, rfl⟩
    rw [if_neg hroom, hwrite]

/-! ## The laws of one transfer -/

/-- What has changed once a word was written at a cursor. -/
structure WordWritten (value : Word w) (c d : Cursor) : Prop where
  position_eq : d.position = c.position + w.bytes
  length_eq : d.bytes.length = c.bytes.length
  /-- The least significant byte stands first. -/
  byte_eq :
    ∀ i, i < w.bytes →
      d.bytes[c.position + i]? = some (UInt8.ofNat (value.toNat >>> (8 * i)))
  frame :
    ∀ i, i < c.position ∨ c.position + w.bytes ≤ i → d.bytes[i]? = c.bytes[i]?
  read_eq : readWord w { d with position := c.position } = .ok value d

theorem wordWritten {value : Word w} {c d : Cursor} (h : writeWord value c = .ok () d) :
    WordWritten value c d := by
  obtain ⟨hroom, rfl⟩ := writeWord_eq_ok_iff.mp h
  rw [← Word.length_encode value] at hroom
  have hstands := standsAt_overwrite hroom
  refine ⟨rfl, length_overwrite hroom, ?_, ?_, readWord_eq_ok_iff.mpr ⟨hstands, rfl⟩⟩
  · intro i hi
    rw [← Word.length_encode value] at hi
    have hbyte := (standsAt_iff_getElem?.mp hstands).2 i hi
    rw [Word.length_encode] at hi
    exact hbyte.trans (LittleEndian.getElem?_encode value.toNat hi)
  · intro i hi
    rw [← Word.length_encode value] at hi
    exact (getElem?_overwrite hroom i).trans (if_neg (by omega))

/-- What transferring words at a cursor comes to. -/
structure Transfers (w : Width) (c : Cursor) : Prop where
  writes_iff :
    ∀ value : Word w,
      (∃ d, writeWord value c = .ok () d) ↔ c.position + w.bytes ≤ c.bytes.length
  reads_iff :
    (∃ (value : Word w) (d : Cursor), readWord w c = .ok value d) ↔
      c.position + w.bytes ≤ c.bytes.length
  written : ∀ (value : Word w) d, writeWord value c = .ok () d → WordWritten value c d
  /-- Writing back what was read leaves the bytes as they are, behind the word. -/
  written_back :
    ∀ (value : Word w) d, readWord w c = .ok value d →
      d = c.advance w.bytes ∧ writeWord value c = .ok () d
  write_fails :
    ∀ (value : Word w) e d, writeWord value c = .error e d → e = .outOfBounds ∧ d = c
  read_fails : ∀ e d, readWord w c = .error e d → e = .outOfBounds ∧ d = c
  checked :
    c.bytes.length < UInt64.size →
      readWordChecked w c = some (readWord w c) ∧
        ∀ value : Word w, writeWordChecked value c = some (writeWord value c)

theorem transfers (w : Width) (c : Cursor) : Transfers w c where
  writes_iff := by
    intro value
    constructor
    · rintro ⟨d, hwrite⟩
      exact (writeWord_eq_ok_iff.mp hwrite).1
    · intro hroom
      exact ⟨_, writeWord_eq_ok_iff.mpr ⟨hroom, rfl⟩⟩
  reads_iff := by
    constructor
    · rintro ⟨value, d, hread⟩
      have hstop := (readWord_eq_ok_iff.mp hread).1.stop_le
      rwa [Word.length_encode] at hstop
    · intro hroom
      obtain ⟨value, hread⟩ := exists_readWord hroom
      exact ⟨value, _, hread⟩
  written _ _ := wordWritten
  written_back := by
    intro value d hread
    obtain ⟨hstands, rfl⟩ := readWord_eq_ok_iff.mp hread
    have hroom := hstands.stop_le
    rw [Word.length_encode] at hroom
    refine ⟨rfl, writeWord_eq_ok_iff.mpr ⟨hroom, ?_⟩⟩
    rw [hstands.overwrite_eq]
    rfl
  write_fails _ _ _ hwrite := (writeWord_eq_error_iff.mp hwrite).2
  read_fails _ _ hread := (readWord_eq_error_iff.mp hread).2
  checked hlength :=
    ⟨readWordChecked_eq hlength, fun value => writeWordChecked_eq value hlength⟩

end Cursor
end AnchoredFields

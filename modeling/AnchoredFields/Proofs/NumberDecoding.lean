import AnchoredFields.Proofs.NumberRoundTrip

/-!
# Reading a number from any bytes

What reading comes to is settled by the first byte and by the bytes after it that its low
three bits announce.  The announced count is judged first, then whether so many bytes are
there, then whether the number fits 32 bits; whatever follows is never looked at.

On a machine the announced bytes are cut out of the source and copied to the start of a
word, the word is shifted, and the high bits of the first byte are put into it.  Each of
these steps has a range.  They are kept here as steps that give nothing outside of it, so
reading in this way gives an answer exactly if no step leaves its range.

* `Varint.decodeAfter_eq`: the order in which the causes of a failure are judged;
* `Varint.decodeChecked_eq`: no step of reading on words leaves its range, and what is
  read is the same;
* `Varint.verdict`: what reading comes to on a first byte and the bytes after it;
* `Varint.decode_of_any_bytes`: the results together.
-/

namespace AnchoredFields

namespace LittleEndian

theorem decode_replicate_zero (count : Nat) : decode (List.replicate count 0) = 0 := by
  induction count with
  | zero =>
      rfl
  | succ count ih =>
      rw [List.replicate_succ, decode, ih]
      rfl

/-- Zeros behind the most significant byte do not change the number. -/
theorem decode_append_zeros (bytes : List UInt8) (count : Nat) :
    decode (bytes ++ List.replicate count 0) = decode bytes := by
  induction bytes with
  | nil =>
      exact decode_replicate_zero count
  | cons b rest ih =>
      rw [List.cons_append, decode, decode, ih]

end LittleEndian

/-! ## Steps with a range -/

namespace Checked

/-- The bytes from one position up to another, if these are positions in the right order. -/
def slice (bytes : List UInt8) (start stop : Nat) : Option (List UInt8) :=
  if start ≤ stop ∧ stop ≤ bytes.length then some ((bytes.take stop).drop start) else none

/-- Some bytes with those up to a position replaced, if there are so many on both sides. -/
def copyOver (bytes source : List UInt8) (stop : Nat) : Option (List UInt8) :=
  if stop ≤ bytes.length ∧ source.length = stop then some (source ++ bytes.drop stop) else none

/-- A word shifted up, if no bit of it is lost. -/
def shiftUp (word : UInt64) (bits : Nat) : Option UInt64 :=
  if bits < 64 ∧ word.toNat * 2 ^ bits < UInt64.size then
    some (word <<< UInt64.ofNat bits)
  else
    none

/-- Bytes are put in front of zeros if there is room for them. -/
theorem copyOver_zeros (width : Nat) {source : List UInt8} {stop : Nat}
    (hlength : source.length = stop) (hstop : stop ≤ width) :
    copyOver (List.replicate width 0) source stop =
      some (source ++ List.replicate (width - stop) 0) := by
  have hroom : stop ≤ (List.replicate width (0 : UInt8)).length := by
    rwa [List.length_replicate]
  rw [copyOver, if_pos ⟨hroom, hlength⟩, List.drop_replicate]

/-- A number of 32 bits can be shifted by five in a word. -/
theorem shiftUp_ofNat {n : Nat} (h : n < 2 ^ 32) :
    shiftUp (UInt64.ofNat n) 5 = some (UInt64.ofNat n <<< 5) := by
  have hword : (UInt64.ofNat n).toNat = n :=
    UInt64.toNat_ofNat_of_lt' (Nat.lt_trans h (by decide))
  refine if_pos ⟨by decide, ?_⟩
  rw [hword]
  show n * 2 ^ 5 < 2 ^ 64
  omega

end Checked

namespace Varint

/-- The number of bytes that a first byte announces behind it. -/
def announced (first : UInt8) : Nat :=
  (first &&& 0x07).toNat

/-- The number that a first byte and the announced bytes behind it make up. -/
def numberOf (first : UInt8) (rest : List UInt8) : Nat :=
  (first >>> 3).toNat + 32 * LittleEndian.decode (rest.take (announced first))

/-- Reads a number on words, if no step leaves its range. -/
def decodeChecked : List UInt8 → Option (Except Error (UInt32 × Nat))
  | [] => some (.error .outOfBounds)
  | first :: rest =>
      let bytes := first :: rest
      let size := announced first + 1
      if maxSize < size then
        some (.error (.lengthCode (announced first)))
      else if bytes.length < size then
        some (.error .outOfBounds)
      else do
        let high ← Checked.slice bytes 1 size
        let wide ← Checked.copyOver (List.replicate 8 0) high (size - 1)
        let shifted ← Checked.shiftUp (UInt64.ofNat (LittleEndian.decode wide)) 5
        let word := shifted ||| (first >>> 3).toUInt64
        if word.toNat < UInt32.size then
          return .ok (word.toUInt32, size)
        else
          return .error (.valueTooWide word.toNat)

theorem announced_eq (first : UInt8) : announced first = first.toNat % 8 := by
  rw [announced, UInt8.toNat_and]
  exact Nat.and_two_pow_sub_one_eq_mod first.toNat 3

theorem toNat_shiftRight_three (first : UInt8) : (first >>> 3).toNat = first.toNat / 8 := by
  rw [UInt8.toNat_shiftRight]
  exact Nat.shiftRight_eq_div_pow first.toNat 3

/-- The causes of a failure are judged one after the other. -/
theorem decodeAfter_eq (first : UInt8) (rest : List UInt8) :
    decodeAfter first rest =
      if 4 < announced first then
        .error (.lengthCode (announced first))
      else if rest.length < announced first then
        .error .outOfBounds
      else if numberOf first rest < 2 ^ 32 then
        .ok (UInt32.ofNat (numberOf first rest), announced first + 1)
      else
        .error (.valueTooWide (numberOf first rest)) := by
  have hshort :
      (rest.take (announced first)).length < announced first ↔ rest.length < announced first := by
    rw [List.length_take]
    omega
  have hcode : maxSize ≤ announced first ↔ 4 < announced first := Iff.rfl
  rw [decodeAfter, numberOf, toNat_shiftRight_three, ← announced_eq]
  simp only [hcode, hshort]
  rfl

/-- The bits that are put together do not overlap. -/
theorem toNat_joined (first : UInt8) {high : Nat} (hhigh : high < 2 ^ 32) :
    (UInt64.ofNat high <<< 5 ||| (first >>> 3).toUInt64).toNat =
      (first >>> 3).toNat + 32 * high := by
  have hword : (UInt64.ofNat high).toNat = high :=
    UInt64.toNat_ofNat_of_lt' (Nat.lt_trans hhigh (by decide))
  have hshifted : (UInt64.ofNat high <<< 5).toNat = high <<< 5 := by
    rw [UInt64.toNat_shiftLeft, hword]
    simp only [UInt64.reduceToNat, Nat.reduceMod, Nat.shiftLeft_eq]
    omega
  have hlow : (first >>> 3).toNat < 2 ^ 5 := by
    have hbyte : first.toNat < 256 := first.toNat_lt
    rw [toNat_shiftRight_three]
    omega
  rw [UInt64.toNat_or, hshifted, UInt8.toNat_toUInt64, ← Nat.shiftLeft_add_eq_or_of_lt hlow,
    Nat.shiftLeft_eq]
  omega

/-- The bytes behind the first one are there to be cut out. -/
theorem slice_announced {first : UInt8} {rest : List UInt8} (h : announced first ≤ rest.length) :
    Checked.slice (first :: rest) 1 (announced first + 1) = some (rest.take (announced first)) :=
  if_pos ⟨Nat.le_add_left 1 _, Nat.succ_le_succ h⟩

/-- The announced bytes make up a number of 32 bits at most. -/
theorem decode_announced_lt {first : UInt8} (rest : List UInt8) (h : announced first ≤ 4) :
    LittleEndian.decode (rest.take (announced first)) < 2 ^ 32 := by
  have hlt := LittleEndian.decode_lt (rest.take (announced first))
  have hbytes : (rest.take (announced first)).length ≤ 4 := by
    rw [List.length_take]
    omega
  rw [Nat.one_shiftLeft] at hlt
  exact Nat.lt_of_lt_of_le hlt (Nat.pow_le_pow_right (by decide) (by omega))

/-- No step of reading on words leaves its range, and what is read is the same. -/
theorem decodeChecked_eq (bytes : List UInt8) : decodeChecked bytes = some (decode bytes) := by
  cases bytes with
  | nil =>
      rfl
  | cons first rest =>
      have hcode : maxSize < announced first + 1 ↔ 4 < announced first := Nat.succ_lt_succ_iff
      have hshort : (first :: rest).length < announced first + 1 ↔ rest.length < announced first :=
        Nat.succ_lt_succ_iff
      rw [decode_cons, decodeAfter_eq, decodeChecked]
      simp only [hcode, hshort]
      by_cases hlarge : 4 < announced first
      · rw [if_pos hlarge, if_pos hlarge]
      by_cases hmissing : rest.length < announced first
      · rw [if_neg hlarge, if_neg hlarge, if_pos hmissing, if_pos hmissing]
      -- The announced bytes are there and are at most four, so every step is made.
      have hlength : (rest.take (announced first)).length = announced first := by
        rw [List.length_take]
        omega
      have hhigh := decode_announced_lt rest (Nat.not_lt.mp hlarge)
      have hslice := slice_announced (Nat.not_lt.mp hmissing)
      have hcopy := Checked.copyOver_zeros 8 hlength (by omega)
      have hshift := Checked.shiftUp_ofNat hhigh
      have hjoined := toNat_joined first hhigh
      have hnumber :
          (UInt64.ofNat (LittleEndian.decode (rest.take (announced first))) <<< 5 |||
              (first >>> 3).toUInt64).toUInt32 =
            UInt32.ofNat (numberOf first rest) := by
        apply UInt32.toNat_inj.mp
        rw [UInt64.toNat_toUInt32, hjoined, UInt32.toNat_ofNat', numberOf]
      simp only [if_neg hlarge, if_neg hmissing, hslice, Nat.add_sub_cancel, hcopy,
        LittleEndian.decode_append_zeros, hshift, hjoined, hnumber, bind, Option.bind, pure]
      show (if numberOf first rest < 2 ^ 32 then _ else _) = some (if _ then _ else _)
      split <;> rfl

/-! ## The verdict on any bytes -/

/-- A count beyond four is refused, however many bytes there are. -/
theorem decode_eq_lengthCode_iff {first : UInt8} {rest : List UInt8} {code : Nat} :
    decode (first :: rest) = .error (.lengthCode code) ↔
      4 < announced first ∧ code = announced first := by
  rw [decode_cons, decodeAfter_eq]
  repeat' split
  all_goals
    simp only [Except.error.injEq, Error.lengthCode.injEq, reduceCtorEq, false_iff]
    omega

/-- Bytes lack exactly if fewer are there than a permitted count says. -/
theorem decode_eq_outOfBounds_iff {first : UInt8} {rest : List UInt8} :
    decode (first :: rest) = .error .outOfBounds ↔
      announced first ≤ 4 ∧ rest.length < announced first := by
  rw [decode_cons, decodeAfter_eq]
  repeat' split
  all_goals
    simp only [Except.error.injEq, reduceCtorEq, false_iff, true_iff]
    omega

/-- A number of more than 32 bits is refused if all of its bytes are there. -/
theorem decode_eq_valueTooWide_iff {first : UInt8} {rest : List UInt8} {n : Nat} :
    decode (first :: rest) = .error (.valueTooWide n) ↔
      announced first ≤ 4 ∧
        announced first ≤ rest.length ∧
          2 ^ 32 ≤ numberOf first rest ∧ n = numberOf first rest := by
  rw [decode_cons, decodeAfter_eq]
  repeat' split
  all_goals
    simp only [Except.error.injEq, Error.valueTooWide.injEq, reduceCtorEq, false_iff]
    omega

/-- Any other number is read, and its bytes are taken. -/
theorem decode_eq_ok_iff {first : UInt8} {rest : List UInt8} {value : UInt32} {taken : Nat} :
    decode (first :: rest) = .ok (value, taken) ↔
      announced first ≤ 4 ∧
        announced first ≤ rest.length ∧
          value.toNat = numberOf first rest ∧ taken = announced first + 1 := by
  have hvalue : value.toNat < 2 ^ 32 := value.toNat_lt
  rw [decode_cons, decodeAfter_eq]
  by_cases hfits : numberOf first rest < 2 ^ 32
  · have hsame :
        UInt32.ofNat (numberOf first rest) = value ↔ value.toNat = numberOf first rest := by
      rw [← UInt32.toNat_inj, UInt32.toNat_ofNat_of_lt' hfits]
      exact eq_comm
    rw [if_pos hfits]
    repeat' split
    all_goals
      simp only [Except.ok.injEq, Prod.mk.injEq, hsame, reduceCtorEq, false_iff]
      omega
  · rw [if_neg hfits]
    repeat' split
    all_goals
      simp only [reduceCtorEq, false_iff]
      omega

/-- What reading comes to on a first byte and the bytes after it. -/
structure Verdict (first : UInt8) (rest : List UInt8) (answer : Except Error (UInt32 × Nat)) :
    Prop where
  lengthCode :
    ∀ code,
      answer = .error (.lengthCode code) ↔ 4 < announced first ∧ code = announced first
  outOfBounds :
    answer = .error .outOfBounds ↔ announced first ≤ 4 ∧ rest.length < announced first
  tooWide :
    ∀ n,
      answer = .error (.valueTooWide n) ↔
        announced first ≤ 4 ∧
          announced first ≤ rest.length ∧ 2 ^ 32 ≤ numberOf first rest ∧ n = numberOf first rest
  number :
    ∀ value taken,
      answer = .ok (value, taken) ↔
        announced first ≤ 4 ∧
          announced first ≤ rest.length ∧
            value.toNat = numberOf first rest ∧ taken = announced first + 1
  taken_le : ∀ value taken, answer = .ok (value, taken) → taken ≤ maxSize

/-- One of the four cases applies, and it excludes the others. -/
theorem verdict (first : UInt8) (rest : List UInt8) :
    Verdict first rest (decode (first :: rest)) where
  lengthCode _ := decode_eq_lengthCode_iff
  outOfBounds := decode_eq_outOfBounds_iff
  tooWide _ := decode_eq_valueTooWide_iff
  number _ _ := decode_eq_ok_iff
  taken_le := by
    intro value taken hread
    obtain ⟨hsmall, -, -, rfl⟩ := decode_eq_ok_iff.mp hread
    exact Nat.succ_le_succ hsmall

/-- Bytes behind the announced ones do not count, nor does it that they end. -/
theorem decode_congr {first : UInt8} {rest other : List UInt8}
    (h : other.take (announced first + 1) = (first :: rest).take (announced first + 1)) :
    decode other = decode (first :: rest) := by
  cases other with
  | nil =>
      cases h
  | cons b behind =>
      rw [List.take_succ_cons, List.take_succ_cons] at h
      obtain ⟨rfl, hsame⟩ := List.cons.inj h
      rw [announced_eq] at hsame
      rw [decode_cons, decode_cons, decodeAfter, decodeAfter, hsame]

/-- Reading is settled on any bytes: there are none, or the first one announces how many count,
and of these the causes of a failure are judged in their order.  No step leaves its range. -/
theorem decode_of_any_bytes :
    decode [] = .error .outOfBounds ∧
      (∀ first rest,
        Verdict first rest (decode (first :: rest)) ∧
          ∀ other,
            other.take (announced first + 1) = (first :: rest).take (announced first + 1) →
              decode other = decode (first :: rest)) ∧
        ∀ bytes, decodeChecked bytes = some (decode bytes) := by
  refine ⟨decode_nil, ?_, decodeChecked_eq⟩
  intro first rest
  refine ⟨verdict first rest, ?_⟩
  intro other hsame
  exact decode_congr hsame

/-- Five bytes hold more than 32 bits; a byte that announces five more is refused alone; a number
may take more bytes than it needs. -/
theorem decode_of_any_bytes_of_wide_payload :
    decode [0x04, 0xFF, 0xFF, 0xFF, 0xFF] = .error (.valueTooWide 0x1F_FFFF_FFE0) ∧
      decode [0x04, 0xFF, 0xFF, 0xFF, 0xFF, 0x07] = .error (.valueTooWide 0x1F_FFFF_FFE0) ∧
        decode [0x05] = .error (.lengthCode 5) ∧
          decode [0x09, 0x00, 0x80] = .ok (1, 2) ∧
            decodeChecked [0x04, 0xFF, 0xFF, 0xFF, 0xFF] =
              some (.error (.valueTooWide 0x1F_FFFF_FFE0)) := by
  obtain ⟨-, hread, hchecked⟩ := decode_of_any_bytes
  have hwide : decode [0x04, 0xFF, 0xFF, 0xFF, 0xFF] = .error (.valueTooWide 0x1F_FFFF_FFE0) :=
    ((hread 0x04 [0xFF, 0xFF, 0xFF, 0xFF]).1.tooWide _).mpr (by decide)
  refine ⟨hwide, ?_, ?_, ?_, ?_⟩
  · rw [← hwide]
    exact (hread 0x04 [0xFF, 0xFF, 0xFF, 0xFF]).2 _ (by decide)
  · exact ((hread 0x05 []).1.lengthCode 5).mpr (by decide)
  · exact ((hread 0x09 [0x00, 0x80]).1.number 1 2).mpr (by decide)
  · rw [hchecked, hwide]

end Varint
end AnchoredFields

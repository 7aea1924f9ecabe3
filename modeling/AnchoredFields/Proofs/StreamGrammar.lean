import Mathlib.Data.Nat.Bitwise
import AnchoredFields.Field.Stream
import AnchoredFields.Proofs.NumberGrammar

/-!
# What is accepted as a field stream

A field stream is spelled by its fields one after the other: a header with the code of a
known tag, and the spelling of a value; the mark is on the last header and on no other.
Any bytes start with such a spelling, or there is a first element in them that is
missing or that nothing can be made of.  What is behind the last field is never looked
at, and neither is what is behind the first defect.

* `Header.ofByte_eq_ok_iff`: which bytes are headers;
* `FieldStream.spells_or_defective`: bytes start with a stream, or have a first defect;
* `FieldStream.scan_of_spells`, `FieldStream.scan_of_defective`: a scan tells which;
* `FieldStream.decode_eq_ok_iff`, `FieldStream.decode_eq_error_iff`: so does a decoder.
-/

namespace AnchoredFields

namespace Header

/-- A byte is a header: its low seven bits are the code of the tag, and its top bit is the mark. -/
structure Spells (b : UInt8) (header : Header) : Prop where
  code_eq : b.toNat % 128 = header.tag.index
  last_eq : header.last = decide (128 ≤ b.toNat)

theorem toNat_and_tagMask (b : UInt8) : (b &&& tagMask).toNat = b.toNat % 128 := by
  rw [UInt8.toNat_and]
  exact Nat.and_two_pow_sub_one_eq_mod b.toNat 7

theorem toNat_and_lastFlag (b : UInt8) : (b &&& lastFlag).toNat = b.toNat / 128 * 128 := by
  have hbyte : b.toNat < 256 := b.toNat_lt
  have hbit : b.toNat / 128 = (b.toNat.testBit 7).toNat := by
    rw [Nat.toNat_testBit]
    omega
  rw [UInt8.toNat_and, hbit]
  exact Nat.and_two_pow b.toNat 7

/-- The top bit is set in the upper half of all bytes. -/
theorem and_lastFlag_ne_zero (b : UInt8) : (b &&& lastFlag != 0) = decide (128 ≤ b.toNat) := by
  have hzero : b &&& lastFlag = 0 ↔ b.toNat / 128 * 128 = 0 := by
    rw [← toNat_and_lastFlag]
    exact UInt8.toNat_inj.symm
  rw [Bool.eq_iff_iff, bne_iff_ne, ne_eq, hzero, decide_eq_true_eq]
  omega

theorem ofByte_eq_ok_iff {b : UInt8} {header : Header} :
    ofByte b = .ok header ↔ Spells b header := by
  obtain ⟨tag, last⟩ := header
  unfold ofByte
  rw [toNat_and_tagMask, and_lastFlag_ne_zero]
  constructor
  · intro h
    split at h
    · rename_i found hfound
      cases h
      exact ⟨Tag.ofIndex?_eq_some_iff.mp hfound, rfl⟩
    · cases h
  · rintro ⟨hcode, hlast⟩
    change last = decide (128 ≤ b.toNat) at hlast
    rw [Tag.ofIndex?_eq_some_iff.mpr hcode, hlast]

theorem spells_toByte (header : Header) : Spells header.toByte header :=
  ofByte_eq_ok_iff.mp header.ofByte_toByte

/-- A byte whose low seven bits are the code of no tag is no header. -/
theorem ofByte_of_unknown {b : UInt8} (h : ∀ tag : Tag, b.toNat % 128 ≠ tag.index) :
    ofByte b = .error (.unknownTag (b.toNat % 128)) := by
  refine ofByte_eq_error_iff.mpr ?_
  rw [toNat_and_tagMask]
  refine ⟨?_, rfl⟩
  rw [Option.eq_none_iff_forall_ne_some]
  intro tag htag
  exact h tag (Tag.ofIndex?_eq_some_iff.mp htag)

/-- A byte is a header, or its low seven bits are the code of no tag. -/
theorem spells_or_unknown (b : UInt8) :
    (∃ header, Spells b header) ∨ ∀ tag : Tag, b.toNat % 128 ≠ tag.index := by
  by_cases hknown : ∃ tag : Tag, b.toNat % 128 = tag.index
  · obtain ⟨tag, htag⟩ := hknown
    exact Or.inl ⟨{ tag := tag, last := decide (128 ≤ b.toNat) }, htag, rfl⟩
  · exact Or.inr (not_exists.mp hknown)

end Header

namespace FieldStream

variable {α : Type}

/-- Bytes that spell fields, the mark on the header of the last one and on no other. -/
inductive Spells (spells : Tag → List UInt8 → α → Prop) :
    List UInt8 → List (Tag × α) → Prop
  | last
      {b : UInt8} {tag : Tag} {stored : List UInt8} {a : α}
      (hheader : Header.Spells b { tag := tag, last := true })
      (hvalue : spells tag stored a) :
      Spells spells (b :: stored) [(tag, a)]
  | more
      {b : UInt8} {tag : Tag} {stored rest : List UInt8} {a : α} {fields : List (Tag × α)}
      (hheader : Header.Spells b { tag := tag, last := false })
      (hvalue : spells tag stored a)
      (hrest : Spells spells rest fields) :
      Spells spells (b :: (stored ++ rest)) ((tag, a) :: fields)

/-- Bytes that do not start with a stream: the fields in front of the first defect, and the error
that it is. -/
inductive Defective (spells : Tag → List UInt8 → α → Prop)
    (flawed : Tag → List UInt8 → Error → Prop) :
    List UInt8 → List (Tag × α) → Error → Prop
  | missing : Defective spells flawed [] [] .outOfBounds
  | unknownTag
      {b : UInt8}
      (hcode : ∀ tag : Tag, b.toNat % 128 ≠ tag.index)
      (rest : List UInt8) :
      Defective spells flawed (b :: rest) [] (.unknownTag (b.toNat % 128))
  | value
      {b : UInt8} {header : Header} {rest : List UInt8} {e : Error}
      (hheader : Header.Spells b header)
      (hvalue : flawed header.tag rest e) :
      Defective spells flawed (b :: rest) [] e
  | later
      {b : UInt8} {tag : Tag} {stored rest : List UInt8} {a : α} {fields : List (Tag × α)}
      {e : Error}
      (hheader : Header.Spells b { tag := tag, last := false })
      (hvalue : spells tag stored a)
      (hrest : Defective spells flawed rest fields e) :
      Defective spells flawed (b :: (stored ++ rest)) ((tag, a) :: fields) e

section

variable {spells : Tag → List UInt8 → α → Prop} {flawed : Tag → List UInt8 → Error → Prop}

/-- A stream has at least one field. -/
theorem Spells.ne_nil {stream : List UInt8} {fields : List (Tag × α)}
    (h : Spells spells stream fields) :
    fields ≠ [] := by
  cases h with
  | last hheader hvalue =>
      exact List.cons_ne_nil _ _
  | more hheader hvalue hrest =>
      exact List.cons_ne_nil _ _

/-- The values of a stream are spelled for their tags. -/
theorem Spells.exists_value {stream : List UInt8} {fields : List (Tag × α)}
    (h : Spells spells stream fields)
    {tag : Tag} {a : α} (hmem : (tag, a) ∈ fields) :
    ∃ stored, spells tag stored a := by
  induction h with
  | last hheader hvalue =>
      cases List.mem_singleton.mp hmem
      exact ⟨_, hvalue⟩
  | more hheader hvalue hrest ih =>
      rcases List.mem_cons.mp hmem with hfirst | hlater
      · cases hfirst
        exact ⟨_, hvalue⟩
      · exact ih hlater

/-- A stream depends on nothing but how its values are spelled. -/
theorem Spells.mono {other : Tag → List UInt8 → α → Prop}
    (hvalues : ∀ {tag stored a}, spells tag stored a → other tag stored a)
    {stream : List UInt8} {fields : List (Tag × α)}
    (h : Spells spells stream fields) :
    Spells other stream fields := by
  induction h with
  | last hheader hvalue =>
      exact .last hheader (hvalues hvalue)
  | more hheader hvalue hrest ih =>
      exact .more hheader (hvalues hvalue) ih

/-- Bytes from which a value is read under a tag, whatever follows them. -/
def Reads (value : Tag → Decoder α) (tag : Tag) (stored : List UInt8) (a : α) : Prop :=
  ∀ rest, value tag (stored ++ rest) = .ok (a, stored.length)

variable {value : Tag → Decoder α}

/-- A scan of a spelled field decodes it and goes on unless it carries the mark. -/
theorem scan_spelled {b : UInt8} {header : Header} {stored : List UInt8} {a : α}
    (hheader : Header.Spells b header) (hvalue : Reads value header.tag stored a)
    (rest : List UInt8) :
    scan value (b :: (stored ++ rest)) =
      if header.last then
        { fields := [(header.tag, a)], outcome := .ok rest }
      else
        prepend [(header.tag, a)] (scan value rest) := by
  rw [scan_cons, Header.ofByte_eq_ok_iff.mpr hheader]
  simp only [hvalue rest, List.drop_left]

/-- A scan sees exactly the fields of a stream and stops behind the last one. -/
theorem scan_of_spells (hreads : ∀ {tag stored a}, spells tag stored a → Reads value tag stored a)
    {stream : List UInt8} {fields : List (Tag × α)}
    (h : Spells spells stream fields) (rest : List UInt8) :
    scan value (stream ++ rest) = { fields := fields, outcome := .ok rest } := by
  induction h with
  | last hheader hvalue =>
      rw [List.cons_append, scan_spelled hheader (hreads hvalue)]
      rfl
  | more hheader hvalue hrest ih =>
      rw [List.cons_append, List.append_assoc, scan_spelled hheader (hreads hvalue), ih]
      rfl

variable (hexact : ∀ tag, (value tag).Exact (spells tag) (flawed tag))
include hexact

theorem reads_of_exact {tag : Tag} {stored : List UInt8} {a : α} (h : spells tag stored a) :
    Reads value tag stored a :=
  (hexact tag).accepts h

theorem spells_of_reads {tag : Tag} {stored : List UInt8} {a : α}
    (h : Reads value tag stored a) :
    spells tag stored a := by
  have hread := h []
  rw [List.append_nil] at hread
  exact (hexact tag).spells_of_read hread

theorem scan_of_defective {bytes : List UInt8} {fields : List (Tag × α)} {e : Error}
    (h : Defective spells flawed bytes fields e) :
    scan value bytes = { fields := fields, outcome := .error e } := by
  induction h with
  | missing =>
      exact scan_nil value
  | unknownTag hcode rest =>
      rw [scan_cons, Header.ofByte_of_unknown hcode]
  | @value b header rest e hheader hvalue =>
      rw [scan_cons, Header.ofByte_eq_ok_iff.mpr hheader]
      simp only [(hexact header.tag).refuses hvalue]
  | later hheader hvalue hrest ih =>
      rw [scan_spelled hheader (reads_of_exact hexact hvalue), ih]
      rfl

/-- Bytes start with a stream, or they have a first defect. -/
theorem spells_or_defective (bytes : List UInt8) :
    (∃ stream rest fields, bytes = stream ++ rest ∧ Spells spells stream fields) ∨
      ∃ fields e, Defective spells flawed bytes fields e := by
  -- The reader of values tells how many bytes are taken, so only their number is known to shrink.
  induction hn : bytes.length using Nat.strongRecOn generalizing bytes with
  | ind n ih =>
      cases bytes with
      | nil =>
          exact Or.inr ⟨_, _, .missing⟩
      | cons b behind =>
          rcases Header.spells_or_unknown b with ⟨⟨tag, last⟩, hheader⟩ | hcode
          · rcases (hexact tag).decided behind with ⟨stored, rest, a, rfl, hvalue⟩ | ⟨e, hflawed⟩
            · cases last with
              | true =>
                  exact Or.inl ⟨_, rest, _, rfl, .last hheader hvalue⟩
              | false =>
                  have hlt : rest.length < n := by
                    rw [← hn, List.length_cons, List.length_append]
                    omega
                  rcases ih _ hlt rest rfl with ⟨stream, after, fields, rfl, hstream⟩ | hdefect
                  · refine Or.inl ⟨_, after, _, ?_, .more hheader hvalue hstream⟩
                    rw [List.cons_append, List.append_assoc]
                  · obtain ⟨fields, e, hdefect⟩ := hdefect
                    exact Or.inr ⟨_, e, .later hheader hvalue hdefect⟩
            · exact Or.inr ⟨_, e, .value hheader hflawed⟩
          · exact Or.inr ⟨_, _, .unknownTag hcode behind⟩

/-- Bytes are decoded exactly if they start with a stream, and to the fields of that stream. -/
theorem decode_eq_ok_iff {bytes : List UInt8} {fields : List (Tag × α)} :
    decode value bytes = .ok fields ↔
      ∃ stream rest, bytes = stream ++ rest ∧ Spells spells stream fields := by
  constructor
  · intro hdecode
    rcases spells_or_defective hexact bytes with
      ⟨stream, rest, found, rfl, hstream⟩ | ⟨found, e, hdefect⟩
    · simp only [decode, scan_of_spells (reads_of_exact hexact) hstream, Except.ok.injEq] at hdecode
      exact ⟨stream, rest, rfl, hdecode ▸ hstream⟩
    · simp only [decode, scan_of_defective hexact hdefect, reduceCtorEq] at hdecode
  · rintro ⟨stream, rest, rfl, hstream⟩
    simp only [decode, scan_of_spells (reads_of_exact hexact) hstream]

/-- Bytes are refused exactly if they have a first defect, and for that defect. -/
theorem decode_eq_error_iff {bytes : List UInt8} {e : Error} :
    decode value bytes = .error e ↔ ∃ fields, Defective spells flawed bytes fields e := by
  constructor
  · intro hdecode
    rcases spells_or_defective hexact bytes with
      ⟨stream, rest, found, rfl, hstream⟩ | ⟨found, other, hdefect⟩
    · simp only [decode, scan_of_spells (reads_of_exact hexact) hstream, reduceCtorEq] at hdecode
    · simp only [decode, scan_of_defective hexact hdefect, Except.error.injEq] at hdecode
      exact ⟨found, hdecode ▸ hdefect⟩
  · rintro ⟨fields, hdefect⟩
    simp only [decode, scan_of_defective hexact hdefect]

end

end FieldStream
end AnchoredFields

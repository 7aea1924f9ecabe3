import AnchoredFields.Failure

/-!
# Field headers

A field of a stream starts with one byte: the low seven bits hold the code of
its tag, the top bit says whether the field is the last one of its stream.

* `Header.ofByte_toByte`: a header is read back;
* `Header.ofByte_eq_error_iff`: a byte is refused exactly if its low seven bits
  are the code of no tag.
-/

namespace AnchoredFields

/-- The first byte of a field, taken apart. -/
structure Header where
  tag : Tag
  last : Bool
  deriving DecidableEq, Repr

namespace Header

/-- The bit of a header byte that marks the last field. -/
def lastFlag : UInt8 := 0x80

/-- The bits of a header byte that hold the tag. -/
def tagMask : UInt8 := 0x7F

/-- The byte of a header. -/
def toByte (header : Header) : UInt8 :=
  if header.last then
    UInt8.ofNat header.tag.index ||| lastFlag
  else
    UInt8.ofNat header.tag.index

/-- Takes a header byte apart. -/
def ofByte (b : UInt8) : Except Error Header :=
  match Tag.ofIndex? (b &&& tagMask).toNat with
  | some tag => .ok { tag := tag, last := b &&& lastFlag != 0 }
  | none => .error (.unknownTag (b &&& tagMask).toNat)

theorem ofByte_toByte (header : Header) : ofByte header.toByte = .ok header := by
  obtain ⟨tag, last⟩ := header
  cases tag <;> cases last <;> rfl

theorem ofByte_eq_error_iff {b : UInt8} {e : Error} :
    ofByte b = .error e ↔
      Tag.ofIndex? (b &&& tagMask).toNat = none ∧ e = .unknownTag (b &&& tagMask).toNat := by
  unfold ofByte
  split
  · rename_i tag h
    simp only [h, reduceCtorEq, false_and]
  · rename_i h
    simp only [h, Except.error.injEq, true_and]
    exact eq_comm

end Header
end AnchoredFields

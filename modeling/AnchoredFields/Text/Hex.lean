/-!
# Hexadecimal numbers in messages

Addresses and region offsets appear in messages as hexadecimal numbers.  The
form is the shortest one: lower-case digits, no leading zeros, behind the mark
`0x`; zero is written `0x0`.
-/

namespace AnchoredFields

/-- The number `n` in lower-case hexadecimal digits behind the mark `0x`. -/
def hexText (n : Nat) : String :=
  "0x" ++ String.ofList (Nat.toDigits 16 n)

end AnchoredFields

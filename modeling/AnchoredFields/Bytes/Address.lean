import AnchoredFields.Failure

/-!
# Addresses

Addresses and the offsets that lead to them are 64-bit numbers.  An address is a
machine word, because addresses are also masked bit by bit; offsets, extents and
sizes are natural numbers, and every sum of them that has to stay a 64-bit
number is formed by `sum64`, which refuses to wrap around.
-/

namespace AnchoredFields

/-- A place in the 64-bit address space. -/
abbrev Address :=
  UInt64

/-- The sum of two 64-bit numbers, if it is one itself. -/
def sum64 (m n : Nat) : Except Fault Nat :=
  if m + n < UInt64.size then .ok (m + n) else .error .overflow

/-- The address `n` bytes after `a`, if there is one. -/
def Address.after? (a : Address) (n : Nat) : Option Address :=
  if a.toNat + n < UInt64.size then some (UInt64.ofNat (a.toNat + n)) else none

/-- The address `n` bytes after `a`, which has to be one. -/
def Address.after (a : Address) (n : Nat) : Except Fault Address :=
  match a.after? n with
  | some b => .ok b
  | none => .error .overflow

theorem sum64_eq_ok_iff {m n k : Nat} :
    sum64 m n = .ok k ↔ m + n = k ∧ k < UInt64.size := by
  unfold sum64
  split
  · simp only [Except.ok.injEq]
    omega
  · simp only [reduceCtorEq, false_iff]
    omega

/-- Moving an address never wraps around. -/
theorem Address.after?_eq_some_iff {a b : Address} {n : Nat} :
    a.after? n = some b ↔ b.toNat = a.toNat + n := by
  have hb := b.toNat_lt_size
  unfold Address.after?
  split
  · rename_i h
    rw [Option.some.injEq]
    constructor
    · rintro rfl
      rw [UInt64.toNat_ofNat', Nat.mod_eq_of_lt h]
    · intro hab
      rw [← hab, UInt64.ofNat_toNat]
  · simp only [reduceCtorEq, false_iff]
    omega

theorem Address.after_eq_ok_iff {a b : Address} {n : Nat} :
    a.after n = .ok b ↔ b.toNat = a.toNat + n := by
  rw [← Address.after?_eq_some_iff]
  unfold Address.after
  cases a.after? n <;> simp

end AnchoredFields

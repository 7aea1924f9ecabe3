/-!
# Alignments

An alignment is a power of two.  A number is moved up or down to a multiple of
an alignment; both moves are the closest ones:

* `le_alignUp`, `dvd_alignUp`, `alignUp_le`: `alignUp a n` is the least multiple
  of `a` that is not below `n`;
* `alignDown_le`, `dvd_alignDown`, `le_alignDown`: `alignDown a n` is the
  greatest multiple of `a` that is not above `n`.
-/

namespace AnchoredFields

/-- Whether a number is a power of two. -/
def isPowerOfTwo (n : Nat) : Bool :=
  n == 1 <<< n.log2

/-- The least multiple of `a` that is not below `n`. -/
def alignUp (a n : Nat) : Nat :=
  (n + (a - 1)) / a * a

/-- The greatest multiple of `a` that is not above `n`. -/
def alignDown (a n : Nat) : Nat :=
  n / a * a

theorem isPowerOfTwo_iff {n : Nat} :
    isPowerOfTwo n = true ↔ ∃ k, n = 1 <<< k := by
  constructor
  · intro h
    exact ⟨n.log2, by simpa [isPowerOfTwo] using h⟩
  · rintro ⟨k, rfl⟩
    simp [isPowerOfTwo, Nat.one_shiftLeft, Nat.log2_two_pow]

theorem dvd_alignUp (a n : Nat) : a ∣ alignUp a n :=
  Nat.dvd_mul_left a _

theorem le_alignUp {a : Nat} (ha : 0 < a) (n : Nat) : n ≤ alignUp a n := by
  have hdiv := Nat.div_add_mod (n + (a - 1)) a
  have hmod := Nat.mod_lt (n + (a - 1)) ha
  rw [Nat.mul_comm] at hdiv
  unfold alignUp
  omega

theorem alignUp_lt {a : Nat} (ha : 0 < a) (n : Nat) : alignUp a n < n + a := by
  have hdiv := Nat.div_add_mod (n + (a - 1)) a
  rw [Nat.mul_comm] at hdiv
  unfold alignUp
  omega

/-- No multiple lies between a number and its aligned successor. -/
theorem alignUp_le {a n m : Nat} (ha : 0 < a) (hm : a ∣ m) (hnm : n ≤ m) :
    alignUp a n ≤ m := by
  obtain ⟨k, rfl⟩ := hm
  have hlt : n + (a - 1) < a * (k + 1) := by
    rw [Nat.mul_add, Nat.mul_one]
    omega
  have hk : (n + (a - 1)) / a < k + 1 :=
    (Nat.div_lt_iff_lt_mul ha).mpr (by rwa [Nat.mul_comm] at hlt)
  unfold alignUp
  rw [Nat.mul_comm a k]
  exact Nat.mul_le_mul_right a (Nat.le_of_lt_succ hk)

theorem alignUp_eq_self {a n : Nat} (ha : 0 < a) (hn : a ∣ n) : alignUp a n = n :=
  Nat.le_antisymm (alignUp_le ha hn (Nat.le_refl n)) (le_alignUp ha n)

/-- At most one step behind a multiple, the next multiple is one step further. -/
theorem alignUp_add {a n m : Nat} (hdvd : a ∣ n) (hpos : 0 < m) (hle : m ≤ a) :
    alignUp a (n + m) = n + a := by
  have ha : 0 < a := Nat.lt_of_lt_of_le hpos hle
  refine Nat.le_antisymm ?_ ?_
  · exact alignUp_le ha (Nat.dvd_add hdvd (Nat.dvd_refl a)) (Nat.add_le_add_left hle n)
  · -- Multiples that differ lie at least `a` apart.
    have hlt : n < alignUp a (n + m) := by
      have hup := le_alignUp ha (n + m)
      omega
    have hgap : a ∣ alignUp a (n + m) - n := Nat.dvd_sub (dvd_alignUp a (n + m)) hdvd
    have hstep := Nat.le_of_dvd (Nat.sub_pos_of_lt hlt) hgap
    omega

theorem dvd_alignDown (a n : Nat) : a ∣ alignDown a n :=
  Nat.dvd_mul_left a _

theorem alignDown_le (a n : Nat) : alignDown a n ≤ n :=
  Nat.div_mul_le_self n a

/-- No multiple lies between a number and its aligned predecessor. -/
theorem le_alignDown {a n m : Nat} (hm : a ∣ m) (hmn : m ≤ n) : m ≤ alignDown a n := by
  obtain ⟨k, rfl⟩ := hm
  rcases Nat.eq_zero_or_pos a with rfl | ha
  · simp
  · have hk : k ≤ n / a :=
      (Nat.le_div_iff_mul_le ha).mpr (by rwa [Nat.mul_comm])
    unfold alignDown
    rw [Nat.mul_comm a k]
    exact Nat.mul_le_mul_right a hk

end AnchoredFields

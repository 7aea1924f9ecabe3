import AnchoredFields.Bytes.Address
import AnchoredFields.Bytes.Alignment
import AnchoredFields.Field.Stream

/-!
# The anchor grid

Anchors stand at multiples of a power of two, so that masking the address of a
field stream finds the anchor in front of it.  For that the grid has to leave
room for the largest stream behind every anchor, and the image has to be loaded
at a multiple of the spacing.

* `AnchorGrid.validate_eq_ok_iff`: what `AnchorGrid.validate` admits, in one
  condition.
-/

namespace AnchoredFields

/-- Where anchors may stand: their spacing as a power of two, and the image base. -/
structure AnchorGrid where
  shift : Nat := 7
  base : Address := 0x10000000
  deriving DecidableEq, Repr

namespace AnchorGrid

/-- The size of an anchor, which holds one address. -/
def anchorSize : Nat := 8

/-- The distance between neighbouring places for anchors. -/
def spacing (grid : AnchorGrid) : Nat :=
  1 <<< grid.shift

/-- The spacing as a 64-bit number. -/
def alignment (grid : AnchorGrid) : Except Fault Nat :=
  if grid.shift < 64 then .ok grid.spacing else .error .overflow

/-- The bits of an address that tell where it lies behind its anchor. -/
def mask (grid : AnchorGrid) : Except Fault Nat :=
  match grid.alignment with
  | .ok alignment => .ok (alignment - 1)
  | .error fault => .error fault

/-- Checks the constraints of the grid; the first one violated is reported. -/
def validate (grid : AnchorGrid) : Except Error Unit :=
  if 32 ≤ grid.shift then
    .error (.configuration (.shiftTooLarge grid.shift))
  else if grid.spacing ≤ anchorSize then
    .error (.configuration (.noMoreThanAnchor grid.spacing anchorSize))
  else if grid.spacing - anchorSize < FieldStream.maxSize then
    .error (.configuration (.noRoomForStream grid.spacing FieldStream.maxSize))
  else if grid.spacing < Tag.maxAlignment then
    .error (.configuration (.belowBlobAlignment grid.spacing Tag.maxAlignment))
  else if grid.base.toNat % grid.spacing ≠ 0 then
    .error (.configuration (.baseNotAligned grid.base.toNat grid.spacing))
  else
    .ok ()

/-- A grid on which every layout works. -/
structure Valid (grid : AnchorGrid) : Prop where
  shift_lt : grid.shift < 32
  stream_fits : anchorSize + FieldStream.maxSize ≤ grid.spacing
  spacing_dvd_base : grid.spacing ∣ grid.base.toNat

theorem spacing_pos (grid : AnchorGrid) : 0 < grid.spacing := by
  rw [spacing, Nat.one_shiftLeft]
  exact Nat.two_pow_pos grid.shift

theorem isPowerOfTwo_spacing (grid : AnchorGrid) : isPowerOfTwo grid.spacing = true :=
  isPowerOfTwo_iff.mpr ⟨grid.shift, rfl⟩

/-- The largest blob alignment is no constraint of its own: streams are larger. -/
theorem maxAlignment_le_maxSize : Tag.maxAlignment ≤ FieldStream.maxSize := by
  decide

theorem validate_eq_ok_iff {grid : AnchorGrid} :
    grid.validate = .ok () ↔ grid.Valid := by
  have hmax := maxAlignment_le_maxSize
  have hanchor : anchorSize = 8 := rfl
  have hpos : 0 < FieldStream.maxSize := by decide
  constructor
  · intro h
    unfold validate at h
    by_cases hshift : 32 ≤ grid.shift
    · rw [if_pos hshift] at h
      cases h
    rw [if_neg hshift] at h
    by_cases hsize : grid.spacing ≤ anchorSize
    · rw [if_pos hsize] at h
      cases h
    rw [if_neg hsize] at h
    by_cases hroom : grid.spacing - anchorSize < FieldStream.maxSize
    · rw [if_pos hroom] at h
      cases h
    rw [if_neg hroom] at h
    by_cases hblob : grid.spacing < Tag.maxAlignment
    · rw [if_pos hblob] at h
      cases h
    rw [if_neg hblob] at h
    by_cases hbase : grid.base.toNat % grid.spacing = 0
    · exact ⟨by omega, by omega, Nat.dvd_of_mod_eq_zero hbase⟩
    · rw [if_pos hbase] at h
      cases h
  · rintro ⟨hshift, hfits, hbase⟩
    have hmod : grid.base.toNat % grid.spacing = 0 := Nat.mod_eq_zero_of_dvd hbase
    unfold validate
    rw [if_neg (by omega), if_neg (by omega), if_neg (by omega), if_neg (by omega),
      if_neg (by omega)]

end AnchorGrid
end AnchoredFields

import AnchoredFields.Proofs.EncodingSteps
import AnchoredFields.Proofs.NumberSizes

/-!
# Sizes of streams behind different anchors

A larger number never takes fewer bytes, and a distance is the smaller the further behind
its target stands.  So a stream that is written behind an anchor with a later target is
never larger than it would be behind one with an earlier target.

* `FieldValue.stored_anti`: the numbers behind two targets;
* `Planner.length_streamFor_anti`: the streams behind two targets.
-/

namespace AnchoredFields

/-- Behind a later target, no larger number is stored for a value. -/
theorem FieldValue.stored_anti (ledger : Ledger) {target later : Nat} (h : target ≤ later)
    (tag : Tag) (value : FieldValue) :
    (value.stored ledger later tag).toNat ≤ (value.stored ledger target tag).toNat := by
  cases value with
  | inline raw =>
      exact Nat.le_refl _
  | outOfLine blob =>
      simp only [stored]
      cases ledger.offset? blob with
      | none =>
          exact Nat.le_refl _
      | some offset =>
          let unit := tag.alignment?.getD 1
          have hsmall : ∀ t, (offset.toNat - t) / unit < UInt32.size := fun t =>
            Nat.lt_of_le_of_lt (Nat.le_trans (Nat.div_le_self _ _) (Nat.sub_le _ _))
              offset.toNat_lt
          show (UInt32.ofNat _).toNat ≤ (UInt32.ofNat _).toNat
          rw [UInt32.toNat_ofNat_of_lt' (hsmall later), UInt32.toNat_ofNat_of_lt' (hsmall target)]
          exact Nat.div_le_div_right (Nat.sub_le_sub_left h _)

namespace Planner

/-- Behind a later target, a stream is no larger. -/
theorem length_streamFor_anti (fields : FieldSet) (ledger : Ledger) {target later : UInt32}
    (h : target ≤ later) :
    (streamFor fields ledger later).length ≤ (streamFor fields ledger target).length := by
  have htargets := UInt32.le_iff_toNat_le.mp h
  rw [streamFor, streamFor, FieldStream.length_encode, FieldStream.length_encode,
    FieldSet.stored, FieldSet.stored]
  induction fields.present with
  | nil =>
      exact Nat.le_refl _
  | cons entry rest ih =>
      have hnumber := FieldValue.stored_anti ledger htargets entry.1 entry.2.value
      have hsize := Varint.size_mono hnumber
      rw [List.map_cons, List.map_cons, List.foldr_cons, List.foldr_cons]
      exact Nat.add_le_add (Nat.add_le_add_left hsize 1) ih

end Planner
end AnchoredFields

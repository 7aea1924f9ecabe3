import Mathlib.Algebra.Order.BigOperators.Group.List
import Mathlib.Algebra.Order.Group.Nat
import AnchoredFields.Proofs.CallGroups
import AnchoredFields.Proofs.CallOrder

/-!
# Anchors of a run

An anchor is emitted for the first call with blobs, and for each later one whose stream,
sized against the anchor that is open, exceeds the room behind it.  Blobs are placed one
behind the other, so targets never decrease, and a stream that was refused is no larger
behind the new anchor.  As no stream is larger than `FieldStream.maxSize`, a group is
closed with less than that left.

* `Greedy.target_le`, `Greedy.targets_ascend`, `Greedy.replanned`: the targets of groups;
* `Call.NeedsAnchor`, `Run.anchors_after`: the calls that an anchor is emitted for;
* `Run.greedy_groups`: the groups of a run.
-/

namespace AnchoredFields

/-! ### Targets -/

namespace Planner

/-- A target lies less than the largest alignment in front of the blob that it is made for. -/
theorem anchorTarget_bounds (offset : UInt32) :
    anchorTarget offset ≤ offset ∧
      offset.toNat < (anchorTarget offset).toNat + Tag.maxAlignment := by
  have hdown := toNat_anchorTarget offset
  rw [alignDown] at hdown
  have hdiv := Nat.lt_div_mul_add (a := offset.toNat) (b := Tag.maxAlignment) (by decide)
  have hle := Nat.div_mul_le_self offset.toNat Tag.maxAlignment
  exact ⟨UInt32.le_iff_toNat_le.mpr (by omega), by omega⟩

theorem anchorTarget_mono {offset later : UInt32} (h : offset ≤ later) :
    anchorTarget offset ≤ anchorTarget later := by
  rw [UInt32.le_iff_toNat_le, toNat_anchorTarget, toNat_anchorTarget]
  exact Nat.mul_le_mul_right _ (Nat.div_le_div_right (UInt32.le_iff_toNat_le.mp h))

end Planner

namespace Greedy

variable {room : Nat} {ledger : Ledger} {calls : List Call} {groups : List CallGroup}

/-- The calls of a group are among the calls that were grouped, in the same order. -/
theorem sublist (h : Greedy room ledger calls groups) {group : CallGroup}
    (hgroup : group ∈ groups) :
    group.calls.Sublist calls := by
  rw [← h.flatMap_calls, List.flatMap_def]
  exact List.sublist_flatten_of_mem (List.mem_map_of_mem (List.mem_reverse.mpr hgroup))

/-- The anchor of a group points to no place behind a blob of the group. -/
theorem target_le (h : Greedy room ledger calls groups) (hascend : Ascending ledger calls)
    {group : CallGroup} (hgroup : group ∈ groups) {call : Call} (hcall : call ∈ group.calls)
    {entry : Tag × Blob} (hentry : entry ∈ call.fields.blobs) :
    ∃ offset, ledger.offset? entry.2 = some offset ∧ group.target ≤ offset := by
  obtain ⟨opener, joined, hcalls, htarget⟩ := h.opener group hgroup
  have hsub := h.sublist hgroup
  have hprecedes : opener.Precedes ledger call := by
    have hpairs := hascend.precedes.sublist hsub
    rw [hcalls, List.pairwise_cons] at hpairs
    rcases List.mem_cons.mp (hcalls ▸ hcall) with rfl | hjoined
    · exact hascend.precedes_self call (hsub.subset hcall)
    · exact hpairs.1 call hjoined
  obtain ⟨offset, hoffset, hle⟩ := hprecedes entry hentry
  have hbounds := (Planner.anchorTarget_bounds (opener.fields.firstOffset ledger)).1
  exact ⟨offset, hoffset, htarget ▸ UInt32.le_trans hbounds hle⟩

/-- Every group was opened with an anchor for the first blob of its first call. -/
theorem exists_first (h : Greedy room ledger calls groups) (hascend : Ascending ledger calls)
    {group : CallGroup} (hgroup : group ∈ groups) :
    ∃ opener joined entry more,
      group.calls = opener :: joined ∧
        opener.fields.blobs = entry :: more ∧
          ledger.offset? entry.2 = some (opener.fields.firstOffset ledger) ∧
            group.target = Planner.anchorTarget (opener.fields.firstOffset ledger) := by
  obtain ⟨opener, joined, hcalls, htarget⟩ := h.opener group hgroup
  have hmem : opener ∈ group.calls := hcalls ▸ List.mem_cons_self
  obtain ⟨entry, more, hblobs, hplaced⟩ :=
    hascend.exists_first opener ((h.sublist hgroup).subset hmem)
  exact ⟨opener, joined, entry, more, hcalls, hblobs, hplaced, htarget⟩

theorem target_dvd (h : Greedy room ledger calls groups) {group : CallGroup}
    (hgroup : group ∈ groups) :
    Tag.maxAlignment ∣ group.target.toNat := by
  obtain ⟨opener, joined, -, htarget⟩ := h.opener group hgroup
  rw [htarget, Planner.toNat_anchorTarget]
  exact dvd_alignDown _ _

/-- The anchor of a group points close to the first blob of the call that opened the group. -/
theorem target_close (h : Greedy room ledger calls groups) (hascend : Ascending ledger calls)
    {group : CallGroup} (hgroup : group ∈ groups) :
    ∃ opener joined entry more offset,
      group.calls = opener :: joined ∧
        opener.fields.blobs = entry :: more ∧
          ledger.offset? entry.2 = some offset ∧
            offset.toNat < group.target.toNat + Tag.maxAlignment := by
  obtain ⟨opener, joined, entry, more, hcalls, hblobs, hplaced, htarget⟩ :=
    h.exists_first hascend hgroup
  have hclose := (Planner.anchorTarget_bounds (opener.fields.firstOffset ledger)).2
  exact ⟨opener, joined, entry, more, _, hcalls, hblobs, hplaced, htarget ▸ hclose⟩

/-- Targets never decrease from one group to a later one. -/
theorem targets_ascend (h : Greedy room ledger calls groups) (hascend : Ascending ledger calls) :
    groups.Pairwise fun later earlier => earlier.target ≤ later.target := by
  have hpairs := hascend.precedes
  rw [← h.flatMap_calls, List.pairwise_flatMap] at hpairs
  refine (List.pairwise_reverse.mp hpairs.2).imp_of_mem ?_
  intro later earlier hlater hearlier hprecedes
  obtain ⟨first, joined, hfirst, htarget⟩ := h.opener earlier hearlier
  obtain ⟨opener, joined', entry, more, hopener, hblobs, hplaced, htarget'⟩ :=
    h.exists_first hascend hlater
  obtain ⟨offset, hoffset, hle⟩ :=
    hprecedes first (hfirst ▸ List.mem_cons_self) opener (hopener ▸ List.mem_cons_self) entry
      (hblobs ▸ List.mem_cons_self)
  rw [hplaced, Option.some.injEq] at hoffset
  rw [htarget, htarget', hoffset]
  exact Planner.anchorTarget_mono hle

/-- The stream that a group had no room for is no larger behind the next anchor. -/
theorem replanned (h : Greedy room ledger calls groups) (hascend : Ascending ledger calls) :
    groups.IsChain fun later earlier =>
      ∃ opener joined,
        later.calls = opener :: joined ∧
          room < earlier.load ledger + opener.sizeBehind ledger earlier.target ∧
          opener.sizeBehind ledger later.target ≤ opener.sizeBehind ledger earlier.target := by
  have hoverflow := h.overflow
  rw [List.isChain_iff_forall_rel_of_append_cons_cons] at hoverflow ⊢
  intro later earlier front back hgroups
  obtain ⟨opener, joined, hcalls, hexceeds⟩ := hoverflow hgroups
  have hascending := h.targets_ascend hascend
  rw [hgroups, List.pairwise_append, List.pairwise_cons] at hascending
  have htargets := hascending.2.1.1 earlier List.mem_cons_self
  exact
    ⟨opener, joined, hcalls, hexceeds,
      Planner.length_streamFor_anti opener.fields ledger htargets⟩

/-- All closed groups together leave less than a largest stream each. -/
theorem sum_waste_le (h : Greedy room ledger calls groups) :
    (groups.tail.map fun group => room - group.load ledger).sum ≤
      (groups.length - 1) * (FieldStream.maxSize - 1) := by
  have hsum :=
    List.sum_le_card_nsmul (groups.tail.map fun group => room - group.load ledger)
      (FieldStream.maxSize - 1) (by
        intro waste hmem
        obtain ⟨group, hgroup, rfl⟩ := List.mem_map.mp hmem
        exact Nat.le_sub_one_of_lt (h.waste_lt group hgroup))
  rwa [List.length_map, List.length_tail, Nat.nsmul_eq_mul] at hsum

end Greedy

/-! ### The groups of a run -/

/-- The function that is mapped over lists, list by list, is known from what all lists become. -/
theorem eq_of_flatMap_map_eq {α β γ : Type} {lists : List α} {f : α → List β} {g k : α → β → γ}
    (h : lists.flatMap (fun a => (f a).map (g a)) = lists.flatMap fun a => (f a).map (k a)) :
    ∀ a ∈ lists, ∀ b ∈ f a, g a b = k a b := by
  induction lists with
  | nil =>
      intro a ha
      cases ha
  | cons first rest ih =>
      rw [List.flatMap_cons, List.flatMap_cons] at h
      obtain ⟨hfirst, hrest⟩ := List.append_inj h (by simp)
      intro a ha
      rcases List.mem_cons.mp ha with rfl | hlater
      · exact List.map_inj_left.mp hfirst
      · exact ih hrest a hlater

theorem CallGroup.streams_blocks (ledger : Ledger) (group : CallGroup) :
    (group.blocks ledger).filterMap Block.stream? =
      group.calls.map fun call => Planner.streamFor call.fields ledger group.target := by
  rw [blocks, List.filterMap_cons_none rfl, List.filterMap_map]
  exact congrFun List.filterMap_eq_map' group.calls

/-- A call needs an anchor of its own: it is the first one with blobs, or its stream, sized against
the anchor that is open, exceeds the room behind it. -/
def Call.NeedsAnchor (grid : AnchorGrid) (ledger : Ledger) (earlier : List Call) (call : Call) :
    Prop :=
  call.fields.blobs ≠ [] ∧
    (outOfLineCalls earlier = [] ∨
      (layoutAfter grid earlier).room <
        call.sizeBehind ledger (layoutAfter grid earlier).target)

/-- The anchors of a run, each with the calls whose streams it governs, the latest one first. -/
structure AnchorGrouping (calls : List Call) (planner : Planner) (ledger : Ledger)
    (groups : List CallGroup) : Prop where
  greedy :
    Greedy (planner.grid.spacing - AnchorGrid.anchorSize) ledger (outOfLineCalls calls) groups
  /-- The groups are what stands behind the streams that need no anchor. -/
  blocks_eq :
    planner.anchored.map planner.block = groups.reverse.flatMap (CallGroup.blocks ledger)
  stream_eq :
    ∀ group ∈ groups, ∀ call ∈ group.calls,
      planner.streamOf call = some (Planner.streamFor call.fields ledger group.target)
  anchors_eq : planner.statistics.anchors = groups.length
  /-- An anchor is emitted for a call exactly if the call needs one. -/
  emitted :
    ∀ earlier call later, calls = earlier ++ call :: later →
      (call.NeedsAnchor planner.grid ledger earlier →
        call.after.statistics.anchors =
          (layoutAfter planner.grid earlier).statistics.anchors + 1) ∧
      (¬ call.NeedsAnchor planner.grid ledger earlier →
        call.after.statistics.anchors = (layoutAfter planner.grid earlier).statistics.anchors)
  filled :
    ∀ group ∈ groups,
      group.calls ≠ [] ∧
        group.load ledger ≤ planner.grid.spacing - AnchorGrid.anchorSize
  target_dvd : ∀ group ∈ groups, 16 ∣ group.target.toNat
  targets_ascend : groups.Pairwise fun later earlier => earlier.target ≤ later.target
  target_le :
    ∀ group ∈ groups, ∀ call ∈ group.calls, ∀ entry ∈ call.fields.blobs, ∃ offset,
      ledger.offset? entry.2 = some offset ∧ group.target ≤ offset
  /-- A target is close to the first blob of the call that opened the group. -/
  target_close :
    ∀ group ∈ groups, ∃ opener joined entry more offset,
      group.calls = opener :: joined ∧
        opener.fields.blobs = entry :: more ∧
          ledger.offset? entry.2 = some offset ∧ offset.toNat < group.target.toNat + 16
  /-- The stream that a group had no room for is no larger behind the next anchor. -/
  replanned :
    groups.IsChain fun later earlier =>
      ∃ opener joined,
        later.calls = opener :: joined ∧
          planner.grid.spacing - AnchorGrid.anchorSize <
            earlier.load ledger + opener.sizeBehind ledger earlier.target ∧
          opener.sizeBehind ledger later.target ≤ opener.sizeBehind ledger earlier.target
  waste_le :
    ∀ group ∈ groups.tail,
      planner.grid.spacing - AnchorGrid.anchorSize - group.load ledger ≤ 53
  padding_le : planner.statistics.paddingBytes ≤ 53 * (planner.statistics.anchors - 1)
  anchors_le : planner.statistics.anchors ≤ (outOfLineCalls calls).length

namespace Run

variable {calls : List Call} {planner : Planner} {ledger : Ledger}

theorem maxSize_le_room (h : Run calls planner ledger) :
    FieldStream.maxSize ≤ planner.grid.spacing - AnchorGrid.anchorSize := by
  have hfits := h.invariant.grid_valid.stream_fits
  omega

/-- The anchored part of the layout of a run consists of the groups that its calls fall into. -/
theorem exists_groups (h : Run calls planner ledger) :
    ∃ groups,
      Greedy (planner.grid.spacing - AnchorGrid.anchorSize) ledger (outOfLineCalls calls) groups ∧
        planner.anchorage = Anchorage.ofGroups planner.grid.spacing ledger groups := by
  rw [h.anchorage_eq]
  exact exists_greedy h.maxSize_le_room ledger (outOfLineCalls calls)

/-- A call adds an anchor exactly if it needs one. -/
theorem anchors_after (h : Run calls planner ledger) {earlier later : List Call} {call : Call}
    (hcalls : calls = earlier ++ call :: later) :
    (call.NeedsAnchor planner.grid ledger earlier →
      call.after.statistics.anchors =
        (layoutAfter planner.grid earlier).statistics.anchors + 1) ∧
    (¬ call.NeedsAnchor planner.grid ledger earlier →
      call.after.statistics.anchors = (layoutAfter planner.grid earlier).statistics.anchors) := by
  obtain ⟨hrun, hextends⟩ := h.before hcalls
  obtain ⟨groups, hgreedy, hgroups⟩ := hrun.exists_groups
  have hafter := h.anchorage_after hcalls
  have hroom := hrun.maxSize_le_room
  by_cases hblobs : call.fields.blobs = []
  · rw [if_pos hblobs] at hafter
    exact
      ⟨fun hneeds => absurd hblobs hneeds.1, fun _ => congrArg Anchorage.anchors hafter⟩
  rw [if_neg hblobs, hgroups] at hafter
  have hanchors : (layoutAfter planner.grid earlier).statistics.anchors = groups.length :=
    congrArg Anchorage.anchors hgroups
  rw [hanchors]
  cases groups with
  | nil =>
      have hnone : outOfLineCalls earlier = [] := hgreedy.eq_nil_iff.mp rfl
      rw [Anchorage.ofGroups_first call hroom] at hafter
      exact
        ⟨fun _ => congrArg Anchorage.anchors hafter,
          fun hneeds => absurd ⟨hblobs, Or.inl hnone⟩ hneeds⟩
  | cons latest older =>
      have hload := hgreedy.load_le hroom latest List.mem_cons_self
      have hsome : outOfLineCalls earlier ≠ [] :=
        mt hgreedy.eq_nil_iff.mpr (List.cons_ne_nil latest older)
      have hleft :
          (layoutAfter planner.grid earlier).room =
            (layoutAfter planner.grid earlier).grid.spacing - AnchorGrid.anchorSize -
              latest.load ledger :=
        congrArg Anchorage.room hgroups
      have htarget : (layoutAfter planner.grid earlier).target = latest.target :=
        congrArg Anchorage.target hgroups
      rw [Call.NeedsAnchor, hleft, htarget]
      by_cases hexceeds :
          (layoutAfter planner.grid earlier).grid.spacing - AnchorGrid.anchorSize <
            latest.load ledger + call.sizeBehind ledger latest.target
      · rw [Anchorage.ofGroups_opens call hload hexceeds] at hafter
        refine ⟨fun _ => congrArg Anchorage.anchors hafter, fun hneeds => ?_⟩
        exact absurd ⟨hblobs, Or.inr (Nat.sub_lt_left_of_lt_add hload hexceeds)⟩ hneeds
      · rw [Anchorage.ofGroups_joins call (Nat.not_lt.mp hexceeds)] at hafter
        refine ⟨?_, fun _ => congrArg Anchorage.anchors hafter⟩
        rintro ⟨-, hnone | hless⟩
        · exact absurd hnone hsome
        · omega

/-- What each stream of a group consists of follows from what the anchored part consists of. -/
theorem streamOf_eq (h : Run calls planner ledger) {groups : List CallGroup}
    (hcalls : groups.reverse.flatMap CallGroup.calls = outOfLineCalls calls)
    (hblocks :
      planner.anchored.map planner.block = groups.reverse.flatMap (CallGroup.blocks ledger))
    {group : CallGroup} (hgroup : group ∈ groups) {call : Call} (hcall : call ∈ group.calls) :
    planner.streamOf call = some (Planner.streamFor call.fields ledger group.target) := by
  have hstreams := h.map_streamOf_outOfLineCalls
  rw [show planner.anchorage.blocks = _ from hblocks, ← hcalls, List.map_flatMap,
    List.filterMap_flatMap, List.map_flatMap] at hstreams
  have hsame :
      groups.reverse.flatMap (fun group => group.calls.map planner.streamOf) =
        groups.reverse.flatMap fun group =>
          group.calls.map fun call => some (Planner.streamFor call.fields ledger group.target) := by
    refine hstreams.trans (List.flatMap_congr ?_)
    intro group _
    rw [CallGroup.streams_blocks, List.map_map]
    rfl
  exact eq_of_flatMap_map_eq hsame group (List.mem_reverse.mpr hgroup) call hcall

/-- The anchors of every run, and the calls behind each of them. -/
theorem greedy_groups (h : Run calls planner ledger) :
    ∃ groups, AnchorGrouping calls planner ledger groups := by
  obtain ⟨groups, hgreedy, hgroups⟩ := h.exists_groups
  have hroom := h.maxSize_le_room
  have hascend := h.ascending
  have hblocks :
      planner.anchored.map planner.block = groups.reverse.flatMap (CallGroup.blocks ledger) :=
    congrArg Anchorage.blocks hgroups
  have hanchors : planner.statistics.anchors = groups.length :=
    congrArg Anchorage.anchors hgroups
  have hpadding :
      planner.statistics.paddingBytes =
        (groups.tail.map fun group =>
          planner.grid.spacing - AnchorGrid.anchorSize - group.load ledger).sum :=
    congrArg Anchorage.padding hgroups
  have hfilled :
      ∀ group ∈ groups,
        group.calls ≠ [] ∧ group.load ledger ≤ planner.grid.spacing - AnchorGrid.anchorSize := by
    intro group hgroup
    obtain ⟨opener, joined, hcalls, -⟩ := hgreedy.opener group hgroup
    exact ⟨hcalls ▸ List.cons_ne_nil _ _, hgreedy.load_le hroom group hgroup⟩
  exact
    ⟨groups,
      { greedy := hgreedy
        blocks_eq := hblocks
        stream_eq := fun group hgroup call hcall =>
          h.streamOf_eq hgreedy.flatMap_calls hblocks hgroup hcall
        anchors_eq := hanchors
        emitted := fun earlier call later hcalls => h.anchors_after hcalls
        filled := hfilled
        target_dvd := fun group hgroup => hgreedy.target_dvd hgroup
        targets_ascend := hgreedy.targets_ascend hascend
        target_le := fun group hgroup call hcall entry hentry =>
          hgreedy.target_le hascend hgroup hcall hentry
        target_close := fun group hgroup => hgreedy.target_close hascend hgroup
        replanned := hgreedy.replanned hascend
        waste_le := fun group hgroup => Nat.le_of_lt_succ (hgreedy.waste_lt group hgroup)
        padding_le := by
          rw [hpadding, hanchors, Nat.mul_comm]
          exact hgreedy.sum_waste_le
        anchors_le := hanchors ▸ hgreedy.length_le }⟩

/-- Of three streams, the first two are behind anchors, each of them behind one of its own. -/
theorem greedy_groups_of_two_groups :
    ∃ calls planner ledger groups,
      AnchorGrouping calls planner ledger groups ∧
        groups.length = 2 ∧
          planner.statistics.paddingBytes = 24 ∧
            calls.map (fun call => call.after.target) = [0, 16, 16] := by
  obtain ⟨calls, planner, ledger, hrun, -, hanchors, hpadding, -, htargets, -⟩ :=
    exists_two_groups
  obtain ⟨groups, hgrouping⟩ := hrun.greedy_groups
  exact
    ⟨calls, planner, ledger, groups, hgrouping, hgrouping.anchors_eq.symm.trans hanchors,
      hpadding, htargets⟩

end Run

end AnchoredFields

import AnchoredFields.Proofs.RefusedCalls
import AnchoredFields.Proofs.StreamRegion

/-!
# Padding between groups

The planner counts as padding the room that it gives up when it closes a group.
Placing pads up to the grid in front of every anchor, and never looks at that count.
A closed group ends that much before the next place of the grid, so the two agree but
for the padding in front of the first anchor.

* `Planner.paddingFrom_groups`: the padding in front of the anchors of groups;
* `Accounted`: what the statistics count of the groups;
* `Planner.Reachable.accounted`: they count it in every layout;
* `Planner.Reachable.paddingBytes_le`: the padding that is placed is at least what they
  count.
-/

namespace AnchoredFields

namespace Planner

/-- The zeros in front of the anchors among entries that follow an offset. -/
def paddingFrom (planner : Planner) (offset : Nat) : List StreamEntry → Nat
  | [] => 0
  | entry :: rest =>
      planner.startAt offset entry - offset +
        planner.paddingFrom (planner.startAt offset entry + planner.entrySize entry) rest

/-- The room that the streams of a group leave. -/
def waste (planner : Planner) (group : AnchorGroup) : Nat :=
  planner.grid.spacing - AnchorGrid.anchorSize - planner.load group

/-- The room that is left in all groups but the latest one. -/
def closedWaste (planner : Planner) : Nat :=
  (planner.groups.tail.map planner.waste).sum

variable (planner : Planner)

theorem paddingFrom_append (offset : Nat) (entries more : List StreamEntry) :
    planner.paddingFrom offset (entries ++ more) =
      planner.paddingFrom offset entries +
        planner.paddingFrom (planner.endOf offset entries) more := by
  induction entries generalizing offset with
  | nil =>
      exact (Nat.zero_add _).symm
  | cons entry rest ih =>
      rw [List.cons_append, paddingFrom, paddingFrom, endOf, ih, Nat.add_assoc]

/-- There is no padding between streams. -/
theorem paddingFrom_streams (offset : Nat) (handles : List Handle) :
    planner.paddingFrom offset (handles.map .stream) = 0 := by
  induction handles generalizing offset with
  | nil =>
      rfl
  | cons handle rest ih =>
      rw [List.map_cons, paddingFrom, ih, startAt, Nat.sub_self]

/-- The padding of a group stands in front of its anchor. -/
theorem paddingFrom_group (offset : Nat) (group : AnchorGroup) :
    planner.paddingFrom offset group.entries =
      alignUp planner.grid.spacing offset - offset := by
  rw [AnchorGroup.entries, paddingFrom, paddingFrom_streams]
  rfl

/-- A group ends with the last of its streams. -/
theorem endOf_group (offset : Nat) (group : AnchorGroup) :
    planner.endOf offset group.entries =
      alignUp planner.grid.spacing offset + AnchorGrid.anchorSize + planner.load group := by
  rw [AnchorGroup.entries, endOf, endOf_streams]
  rfl

/-- The padding in front of the anchors of groups: up to the grid in front of the first one, and
behind every group but the last one the room that its streams leave. -/
theorem paddingFrom_groups (offset : Nat) {first : AnchorGroup} {rest : List AnchorGroup}
    (hload :
      ∀ group ∈ first :: rest,
        AnchorGrid.anchorSize + planner.load group ≤ planner.grid.spacing) :
    planner.paddingFrom offset ((first :: rest).flatMap AnchorGroup.entries) =
      alignUp planner.grid.spacing offset - offset +
        ((first :: rest).dropLast.map planner.waste).sum := by
  induction rest generalizing offset first with
  | nil =>
      rw [List.flatMap_singleton, paddingFrom_group]
      rfl
  | cons next rest ih =>
      have hfirst := hload first List.mem_cons_self
      have hanchor : 0 < AnchorGrid.anchorSize := by decide
      have hnext :
          alignUp planner.grid.spacing (planner.endOf offset first.entries) =
            alignUp planner.grid.spacing offset + planner.grid.spacing := by
        rw [endOf_group, Nat.add_assoc]
        exact alignUp_add (dvd_alignUp _ _) (Nat.lt_of_lt_of_le hanchor (Nat.le_add_right _ _))
          hfirst
      have hlater :=
        ih (planner.endOf offset first.entries)
          (fun group hgroup => hload group (List.mem_cons_of_mem _ hgroup))
      have hend := planner.endOf_group offset first
      rw [List.flatMap_cons, paddingFrom_append, paddingFrom_group, hlater, hnext,
        List.dropLast_cons_cons, List.map_cons, List.sum_cons, waste]
      omega

end Planner

/-- The statistics count the anchors, and as padding the room that closed groups leave. -/
structure Accounted (planner : Planner) : Prop where
  anchors_eq : planner.statistics.anchors = planner.groups.length
  padding_eq : planner.statistics.paddingBytes = planner.closedWaste

namespace Planner

variable {planner : Planner}

/-- A stream that is kept leaves the room that older groups have. -/
theorem Invariant.map_waste_addStream (h : planner.Invariant)
    (fields : FieldSet) (stream : List UInt8)
    {groups : List AnchorGroup} (hgroups : ∀ group ∈ groups, group ∈ planner.groups) :
    groups.map (planner.addStream fields stream).waste = groups.map planner.waste := by
  refine List.map_congr_left ?_
  intro group hgroup
  rw [waste, waste, h.load_addStream fields stream (hgroups group hgroup)]
  rfl

end Planner

namespace Accounted

open Planner

variable {planner : Planner}

/-- A layout without anchors has nothing to count. -/
theorem new (grid : AnchorGrid) : Accounted { grid := grid } :=
  ⟨rfl, rfl⟩

theorem keepInlineOnly (h : Accounted planner) (hinv : planner.Invariant)
    (fields : FieldSet) (stream : List UInt8) :
    Accounted (planner.keepInlineOnly fields stream) where
  anchors_eq := h.anchors_eq
  padding_eq := by
    have hwaste :=
      hinv.map_waste_addStream fields stream fun group hgroup => List.mem_of_mem_tail hgroup
    exact h.padding_eq.trans (congrArg List.sum hwaste).symm

theorem keepAnchored (h : Accounted planner) (hinv : planner.Invariant)
    (hopen : planner.group.isSome = true)
    (fields : FieldSet) (stream : List UInt8) :
    Accounted (planner.keepAnchored fields stream) := by
  obtain ⟨latest, older, hgroups, -, -⟩ := hinv.exists_latest hopen
  have hnext := Invariant.groups_keepAnchored hgroups fields stream
  refine ⟨?_, ?_⟩
  · rw [hnext]
    refine h.anchors_eq.trans ?_
    rw [hgroups]
    rfl
  · have hwaste :=
      hinv.map_waste_addStream fields stream
        fun group (hgroup : group ∈ older) => hgroups ▸ List.mem_cons_of_mem _ hgroup
    rw [closedWaste, hnext]
    refine h.padding_eq.trans ?_
    rw [closedWaste, hgroups]
    exact (congrArg List.sum hwaste).symm

/-- Copying blobs leaves the groups as they are. -/
theorem copied (h : Accounted planner) (placements : List Placement) :
    Accounted (planner.copied placements) := by
  rw [copied_eq]
  exact ⟨h.anchors_eq, h.padding_eq⟩

/-- The first group closes no other one. -/
theorem openGroup_of_isNone (h : Accounted planner) (hinv : planner.Invariant)
    (hnone : planner.group.isNone = true) (offset : UInt32) :
    Accounted (planner.openGroup offset) := by
  have hgroups : planner.groups = [] := by
    have hgroup := hinv.group_eq
    rw [Option.isNone_iff_eq_none.mp hnone, eq_comm, Option.map_eq_none_iff,
      List.head?_eq_none_iff] at hgroup
    exact hgroup
  have hnext := Invariant.groups_openGroup planner offset
  rw [hgroups] at hnext
  refine ⟨?_, ?_⟩
  · rw [hnext]
    show planner.statistics.anchors + 1 = 1
    rw [h.anchors_eq, hgroups]
    rfl
  · rw [closedWaste, hnext]
    refine h.padding_eq.trans ?_
    rw [closedWaste, hgroups]
    rfl

/-- A later group closes the one before it, and the room left there is counted. -/
theorem openGroup_of_isSome (h : Accounted planner) (hinv : planner.Invariant)
    (hopen : planner.group.isSome = true) (offset : UInt32) :
    Accounted (planner.abandonRoom.openGroup offset) := by
  obtain ⟨latest, older, hgroups, -, hroom⟩ := hinv.exists_latest hopen
  have hnext : (planner.abandonRoom.openGroup offset).groups = _ :=
    Invariant.groups_openGroup planner.abandonRoom offset
  have hwaste : planner.waste latest = planner.room := by
    rw [waste]
    omega
  refine ⟨?_, ?_⟩
  · rw [hnext, List.length_cons]
    exact congrArg (· + 1) h.anchors_eq
  · rw [closedWaste, hnext, List.tail_cons]
    show planner.statistics.paddingBytes + planner.room = (planner.groups.map planner.waste).sum
    rw [h.padding_eq, closedWaste, hgroups, List.tail_cons, List.map_cons, List.sum_cons, hwaste,
      Nat.add_comm]

/-- Whichever group a stream joins, the groups stay accounted for. -/
theorem settle (h : Accounted planner) (hinv : planner.Invariant) {offset : UInt32}
    (hoffset : offset.toNat ≤ planner.outline.length) (size : UInt32 → Nat) :
    Accounted (planner.settle offset size) := by
  obtain ⟨hopened, hopen⟩ := hinv.opened hoffset
  have hfirst : Accounted (planner.opened offset) := by
    rw [Planner.opened]
    by_cases hnone : planner.group.isNone = true
    · rw [if_pos hnone]
      exact h.openGroup_of_isNone hinv hnone offset
    · rw [if_neg hnone]
      exact h
  rw [Planner.settle]
  by_cases hroom : (planner.opened offset).room < size (planner.opened offset).target
  · rw [if_pos hroom]
    exact hfirst.openGroup_of_isSome hopened hopen offset
  · rw [if_neg hroom]
    exact hfirst

theorem admitted (h : Accounted planner) (hinv : planner.Invariant)
    {fields : FieldSet} {first : Placement} {rest : List Placement}
    (hfields : planner.Placeable fields (first :: rest)) (ledger : Ledger) :
    Accounted (planner.admitted fields ledger (first :: rest) first.offset) := by
  obtain ⟨hsettled, hopen, -⟩ := hfields.invariant_settled hinv ledger
  have haccounted :=
    (h.copied (first :: rest)).settle (hfields.invariant_copied hinv)
      (hfields.offset_le List.mem_cons_self)
      fun target => (streamFor fields ledger target).length
  exact haccounted.keepAnchored hsettled hopen (fields.locate (first :: rest)) _

/-- Whatever a call comes to, the groups stay accounted for. -/
theorem encode {bench next : Workbench} {fields : FieldSet} {handle : Option Handle}
    (h : Accounted bench.planner)
    (hinv : bench.planner.Invariant)
    (hmade : fields.Made)
    (hcall : Work.encode fields bench = .ok handle next) :
    Accounted next.planner := by
  have houtcome := Work.outcome_encode hinv hmade
  rw [hcall] at houtcome
  cases houtcome with
  | skipped hempty events =>
      exact h
  | inlineOnly hsome hblobs events =>
      exact h.keepInlineOnly hinv fields _
  | admitted hsome hfields hfresh events =>
      exact h.admitted hinv hfields _

end Accounted

/-- The statistics of a layout count its groups and the room that closed ones leave. -/
theorem Planner.Reachable.accounted {planner : Planner} (h : planner.Reachable) :
    Accounted planner := by
  induction h with
  | new hnew =>
      obtain ⟨-, rfl⟩ := Planner.new_eq_ok_iff.mp hnew
      exact Accounted.new _
  | returned hbefore hmade hcall ih =>
      exact ih.encode hbefore.invariant hmade hcall
  | refused hbefore hmade hcall ih =>
      obtain ⟨-, rfl⟩ := Work.encode_error_eq hbefore.invariant hmade hcall
      exact ih

namespace Planner.Reachable

variable {planner : Planner}

/-- The padding in the stream region is what the statistics count, and the padding in front of
the first anchor. -/
theorem paddingFrom_regionEntries (h : planner.Reachable) (offset : Nat) :
    let front := planner.endOf offset (planner.inlineOnly.map .stream)
    planner.paddingFrom offset planner.regionEntries =
      if planner.groups = [] then 0
      else
        alignUp planner.grid.spacing front - front + planner.statistics.paddingBytes := by
  intro front
  have hinv := h.invariant
  rw [Planner.regionEntries, Planner.paddingFrom_append, Planner.paddingFrom_streams,
    Nat.zero_add, hinv.anchored_eq]
  by_cases hgroups : planner.groups = []
  · rw [if_pos hgroups, hgroups]
    rfl
  · rw [if_neg hgroups]
    obtain ⟨first, rest, hreverse⟩ :=
      List.exists_cons_of_ne_nil (mt List.reverse_eq_nil_iff.mp hgroups)
    have hload :
        ∀ group ∈ first :: rest,
          AnchorGrid.anchorSize + planner.load group ≤ planner.grid.spacing := by
      intro group hgroup
      rw [← hreverse] at hgroup
      exact hinv.load_le group (List.mem_reverse.mp hgroup)
    rw [hreverse, planner.paddingFrom_groups front hload, h.accounted.padding_eq,
      Planner.closedWaste, ← hreverse, List.dropLast_reverse, List.map_reverse,
      List.sum_reverse]

/-- The padding in the stream region is at least what the statistics count. -/
theorem paddingBytes_le (h : planner.Reachable) (offset : Nat) :
    planner.statistics.paddingBytes ≤ planner.paddingFrom offset planner.regionEntries := by
  rw [h.paddingFrom_regionEntries]
  by_cases hgroups : planner.groups = []
  · rw [if_pos hgroups, h.accounted.padding_eq, Planner.closedWaste, hgroups]
    rfl
  · rw [if_neg hgroups]
    exact Nat.le_add_left _ _

end Planner.Reachable
end AnchoredFields

import Mathlib.Data.List.Chain
import AnchoredFields.Proofs.CallStreams
import AnchoredFields.Proofs.StreamSizes

/-!
# Calls grouped by their anchors

The calls with blobs fall into groups, one for each anchor.  Grouping is greedy: a call
joins the latest group as long as its stream fits there, sized against the anchor of that
group, and opens a new group otherwise.  Groups are listed with the latest one first.

* `Greedy`: how calls fall into groups;
* `Greedy.load_le`, `Greedy.opener`, `Greedy.overflow`: what holds of every group, and of
  every two neighbours;
* `exists_greedy`: the anchored part of a layout is the one of such groups.
-/

namespace AnchoredFields

/-- The calls whose streams stand behind one anchor. -/
structure CallGroup where
  target : UInt32
  calls : List Call

/-- The size of the stream of a call behind an anchor to a target. -/
def Call.sizeBehind (ledger : Ledger) (target : UInt32) (call : Call) : Nat :=
  (Planner.streamFor call.fields ledger target).length

namespace CallGroup

/-- The bytes that the streams of a group take up. -/
def load (ledger : Ledger) (group : CallGroup) : Nat :=
  (group.calls.map (Call.sizeBehind ledger group.target)).sum

/-- The anchor of a group and the streams behind it. -/
def blocks (ledger : Ledger) (group : CallGroup) : List Block :=
  .anchor group.target ::
    group.calls.map fun call => .stream (Planner.streamFor call.fields ledger group.target)

/-- The group that a call opens, with an anchor for its first blob. -/
def openedBy (ledger : Ledger) (call : Call) : CallGroup where
  target := Planner.anchorTarget (call.fields.firstOffset ledger)
  calls := [call]

/-- Adds a call behind the others. -/
def add (group : CallGroup) (call : Call) : CallGroup :=
  { group with calls := group.calls ++ [call] }

@[simp] theorem target_openedBy (ledger : Ledger) (call : Call) :
    (openedBy ledger call).target = Planner.anchorTarget (call.fields.firstOffset ledger) :=
  rfl

@[simp] theorem target_add (group : CallGroup) (call : Call) :
    (group.add call).target = group.target :=
  rfl

@[simp] theorem blocks_openedBy (ledger : Ledger) (call : Call) :
    (openedBy ledger call).blocks ledger =
      [.anchor (openedBy ledger call).target,
        .stream (Planner.streamFor call.fields ledger (openedBy ledger call).target)] :=
  rfl

@[simp] theorem blocks_add (ledger : Ledger) (group : CallGroup) (call : Call) :
    (group.add call).blocks ledger =
      group.blocks ledger ++ [.stream (Planner.streamFor call.fields ledger group.target)] := by
  simp [blocks, add]

@[simp] theorem load_openedBy (ledger : Ledger) (call : Call) :
    (openedBy ledger call).load ledger =
      call.sizeBehind ledger (Planner.anchorTarget (call.fields.firstOffset ledger)) := by
  simp [load, openedBy]

@[simp] theorem load_add (ledger : Ledger) (group : CallGroup) (call : Call) :
    (group.add call).load ledger = group.load ledger + call.sizeBehind ledger group.target := by
  simp [load, add]

end CallGroup

/-- How calls fall into groups that have room for so many bytes of streams. -/
inductive Greedy (room : Nat) (ledger : Ledger) : List Call → List CallGroup → Prop
  | none : Greedy room ledger [] []
  | first (call : Call) : Greedy room ledger [call] [.openedBy ledger call]
  | joins
      {calls : List Call} {latest : CallGroup} {older : List CallGroup} {call : Call}
      (hcalls : Greedy room ledger calls (latest :: older))
      (hfits : latest.load ledger + call.sizeBehind ledger latest.target ≤ room) :
      Greedy room ledger (calls ++ [call]) (latest.add call :: older)
  | opens
      {calls : List Call} {latest : CallGroup} {older : List CallGroup} {call : Call}
      (hcalls : Greedy room ledger calls (latest :: older))
      (hexceeds : room < latest.load ledger + call.sizeBehind ledger latest.target) :
      Greedy room ledger (calls ++ [call]) (.openedBy ledger call :: latest :: older)

namespace Call

theorem sizeBehind_le (ledger : Ledger) (target : UInt32) (call : Call) :
    call.sizeBehind ledger target ≤ FieldStream.maxSize :=
  Planner.length_streamFor_le call.fields ledger target

end Call

namespace Greedy

variable {room : Nat} {ledger : Ledger} {calls : List Call} {groups : List CallGroup}

/-- The groups hold all calls, in order. -/
theorem flatMap_calls (h : Greedy room ledger calls groups) :
    groups.reverse.flatMap CallGroup.calls = calls := by
  induction h with
  | none =>
      rfl
  | first call =>
      rfl
  | joins hcalls hfits ih =>
      rw [← ih]
      simp [CallGroup.add]
  | opens hcalls hexceeds ih =>
      rw [← ih]
      simp [CallGroup.openedBy]

/-- No group takes more than it has room for. -/
theorem load_le (h : Greedy room ledger calls groups) (hroom : FieldStream.maxSize ≤ room) :
    ∀ group ∈ groups, group.load ledger ≤ room := by
  have hopened : ∀ call, (CallGroup.openedBy ledger call).load ledger ≤ room := by
    intro call
    rw [CallGroup.load_openedBy]
    exact Nat.le_trans (call.sizeBehind_le ledger _) hroom
  induction h with
  | none =>
      intro group hgroup
      cases hgroup
  | first call =>
      intro group hgroup
      rw [List.mem_singleton.mp hgroup]
      exact hopened call
  | joins hcalls hfits ih =>
      intro group hgroup
      rcases List.mem_cons.mp hgroup with rfl | hold
      · rw [CallGroup.load_add]
        exact hfits
      · exact ih group (List.mem_cons_of_mem _ hold)
  | opens hcalls hexceeds ih =>
      intro group hgroup
      rcases List.mem_cons.mp hgroup with rfl | hold
      · exact hopened _
      · exact ih group hold

/-- Every group was opened by its first call, with an anchor for the first blob of that call. -/
theorem opener (h : Greedy room ledger calls groups) :
    ∀ group ∈ groups, ∃ opener joined,
      group.calls = opener :: joined ∧
        group.target = Planner.anchorTarget (opener.fields.firstOffset ledger) := by
  induction h with
  | none =>
      intro group hgroup
      cases hgroup
  | first call =>
      intro group hgroup
      rw [List.mem_singleton.mp hgroup]
      exact ⟨call, [], rfl, rfl⟩
  | @joins calls latest older call hcalls hfits ih =>
      intro group hgroup
      rcases List.mem_cons.mp hgroup with rfl | hold
      · obtain ⟨opener, joined, hgroup, htarget⟩ := ih latest List.mem_cons_self
        refine ⟨opener, joined ++ [call], ?_, htarget⟩
        rw [CallGroup.add, hgroup, List.cons_append]
      · exact ih group (List.mem_cons_of_mem _ hold)
  | opens hcalls hexceeds ih =>
      intro group hgroup
      rcases List.mem_cons.mp hgroup with rfl | hold
      · exact ⟨_, [], rfl, rfl⟩
      · exact ih group hold

/-- A group is opened by a call whose stream exceeds the room that is left in the group before. -/
theorem overflow (h : Greedy room ledger calls groups) :
    groups.IsChain fun later earlier =>
      ∃ opener joined,
        later.calls = opener :: joined ∧
          room < earlier.load ledger + opener.sizeBehind ledger earlier.target := by
  induction h with
  | none =>
      exact List.isChain_nil
  | first call =>
      exact List.isChain_singleton _
  | @joins calls latest older call hcalls hfits ih =>
      rw [List.isChain_cons] at ih ⊢
      refine ⟨?_, ih.2⟩
      intro earlier hearlier
      obtain ⟨opener, joined, hlatest, hexceeds⟩ := ih.1 earlier hearlier
      refine ⟨opener, joined ++ [call], ?_, hexceeds⟩
      rw [CallGroup.add, hlatest, List.cons_append]
  | @opens calls latest older call hcalls hexceeds ih =>
      rw [List.isChain_cons]
      refine ⟨?_, ih⟩
      intro earlier hearlier
      rw [List.head?_cons, Option.mem_some_iff] at hearlier
      subst hearlier
      exact ⟨call, [], rfl, hexceeds⟩

/-- What is left of the room of a closed group is less than the largest stream. -/
theorem waste_lt (h : Greedy room ledger calls groups) :
    ∀ group ∈ groups.tail, room - group.load ledger < FieldStream.maxSize := by
  -- The groups behind the first one are no grouping of all calls, but their neighbours are known.
  have hchain := h.overflow
  clear h
  induction groups with
  | nil =>
      intro group hgroup
      cases hgroup
  | cons later older ih =>
      rw [List.isChain_cons] at hchain
      intro group hgroup
      cases older with
      | nil =>
          cases hgroup
      | cons earlier older =>
          rcases List.mem_cons.mp hgroup with rfl | hold
          · obtain ⟨opener, joined, -, hexceeds⟩ := hchain.1 group rfl
            have hsize := opener.sizeBehind_le ledger group.target
            have hpos : 0 < FieldStream.maxSize := by decide
            omega
          · exact ih hchain.2 group hold

/-- There are no groups without calls. -/
theorem eq_nil_iff (h : Greedy room ledger calls groups) : groups = [] ↔ calls = [] := by
  constructor
  · rintro rfl
    exact h.flatMap_calls.symm
  · rintro rfl
    cases groups with
    | nil =>
        rfl
    | cons latest older =>
        obtain ⟨opener, joined, hcalls, -⟩ := h.opener latest List.mem_cons_self
        have hflat := h.flatMap_calls
        simp [hcalls] at hflat

/-- There are no more groups than calls. -/
theorem length_le (h : Greedy room ledger calls groups) : groups.length ≤ calls.length := by
  induction h with
  | none =>
      exact Nat.le_refl _
  | first call =>
      exact Nat.le_refl _
  | joins hcalls hfits ih =>
      rw [List.length_append, List.length_cons]
      exact Nat.le_succ_of_le ih
  | opens hcalls hexceeds ih =>
      rw [List.length_append, List.length_cons]
      exact Nat.succ_le_succ ih

end Greedy

/-! ### The anchors of the groups -/

namespace Anchorage

/-- The anchored part that consists of some groups, the latest one first. -/
def ofGroups (spacing : Nat) (ledger : Ledger) (groups : List CallGroup) : Anchorage where
  spacing := spacing
  blocks := groups.reverse.flatMap (CallGroup.blocks ledger)
  group :=
    groups.head?.map fun group =>
      { target := group.target, room := spacing - AnchorGrid.anchorSize - group.load ledger }
  anchors := groups.length
  padding := (groups.tail.map fun group => spacing - AnchorGrid.anchorSize - group.load ledger).sum

variable {spacing : Nat} {ledger : Ledger} {latest : CallGroup} {older : List CallGroup}

/-- A stream that has room behind the open anchor goes there. -/
theorem take_of_fits {a : Anchorage} {demand : Demand}
    (hopen : a.group.isSome = true)
    (hfits : (demand.stream a.target).length ≤ a.room) :
    a.take demand = a.keep (demand.stream a.target) := by
  have hopened : a.opened demand.offset = a := by
    rw [opened, if_neg (by simpa using Option.isSome_iff_ne_none.mp hopen)]
  rw [take, settle, hopened, if_neg (Nat.not_lt.mpr hfits)]

/-- A stream that exceeds the room behind the open anchor goes behind a new one. -/
theorem take_of_exceeds {a : Anchorage} {demand : Demand}
    (hopen : a.group.isSome = true)
    (hexceeds : a.room < (demand.stream a.target).length) :
    a.take demand =
      (a.abandonRoom.openGroup demand.offset).keep
        (demand.stream (Planner.anchorTarget demand.offset)) := by
  have hopened : a.opened demand.offset = a := by
    rw [opened, if_neg (by simpa using Option.isSome_iff_ne_none.mp hopen)]
  rw [take, settle, hopened, if_pos hexceeds]
  rfl

/-- The first stream goes behind a new anchor, which always has room for it. -/
theorem take_of_isNone {a : Anchorage} {demand : Demand}
    (hnone : a.group.isNone = true)
    (hfits :
      (demand.stream (Planner.anchorTarget demand.offset)).length ≤
        a.spacing - AnchorGrid.anchorSize) :
    a.take demand =
      (a.openGroup demand.offset).keep
        (demand.stream (Planner.anchorTarget demand.offset)) := by
  have hopened : a.opened demand.offset = a.openGroup demand.offset := by
    rw [opened, if_pos hnone]
  have hroom :
      ¬ (a.openGroup demand.offset).room <
          (demand.stream (a.openGroup demand.offset).target).length :=
    Nat.not_lt.mpr hfits
  rw [take, settle, hopened, if_neg hroom]
  rfl

theorem target_ofGroups (spacing : Nat) (ledger : Ledger) (latest : CallGroup)
    (older : List CallGroup) :
    (ofGroups spacing ledger (latest :: older)).target = latest.target :=
  rfl

variable (call : Call)

/-- The first call opens a group. -/
theorem ofGroups_first (hroom : FieldStream.maxSize ≤ spacing - AnchorGrid.anchorSize) :
    (ofGroups spacing ledger []).take (call.fields.demand ledger) =
      ofGroups spacing ledger [.openedBy ledger call] := by
  have hsize := call.sizeBehind_le ledger (Planner.anchorTarget (call.fields.firstOffset ledger))
  have hnone : (ofGroups spacing ledger []).group.isNone = true := rfl
  rw [take_of_isNone hnone (Nat.le_trans hsize hroom)]
  simp [ofGroups, openGroup, keep, FieldSet.demand, Call.sizeBehind]

/-- A call whose stream fits joins the latest group. -/
theorem ofGroups_joins
    (hfits :
      latest.load ledger + call.sizeBehind ledger latest.target ≤
        spacing - AnchorGrid.anchorSize) :
    (ofGroups spacing ledger (latest :: older)).take (call.fields.demand ledger) =
      ofGroups spacing ledger (latest.add call :: older) := by
  have hroom :
      ((call.fields.demand ledger).stream latest.target).length ≤
        (ofGroups spacing ledger (latest :: older)).room :=
    Nat.le_sub_of_add_le' hfits
  rw [take_of_fits rfl hroom, target_ofGroups]
  simp [ofGroups, keep, FieldSet.demand, Call.sizeBehind, Nat.sub_sub, Nat.add_assoc]

/-- A call whose stream does not fit opens a new group. -/
theorem ofGroups_opens
    (hload : latest.load ledger ≤ spacing - AnchorGrid.anchorSize)
    (hexceeds :
      spacing - AnchorGrid.anchorSize <
        latest.load ledger + call.sizeBehind ledger latest.target) :
    (ofGroups spacing ledger (latest :: older)).take (call.fields.demand ledger) =
      ofGroups spacing ledger (.openedBy ledger call :: latest :: older) := by
  have hroom :
      (ofGroups spacing ledger (latest :: older)).room <
        ((call.fields.demand ledger).stream latest.target).length :=
    Nat.sub_lt_left_of_lt_add hload hexceeds
  rw [take_of_exceeds rfl hroom]
  simp [ofGroups, openGroup, abandonRoom, room, keep, FieldSet.demand, Call.sizeBehind,
    Nat.add_comm]

end Anchorage

/-- Calls fall into groups, and the anchored part that their demands make is the one of these
groups. -/
theorem exists_greedy {spacing : Nat}
    (hroom : FieldStream.maxSize ≤ spacing - AnchorGrid.anchorSize)
    (ledger : Ledger) (calls : List Call) :
    ∃ groups,
      Greedy (spacing - AnchorGrid.anchorSize) ledger calls groups ∧
        (calls.map fun call => call.fields.demand ledger).foldl Anchorage.take
            { spacing := spacing } =
          Anchorage.ofGroups spacing ledger groups := by
  -- Each call is put behind those that were grouped before, so the calls end with it.
  induction calls using List.reverseRecOn with
  | nil =>
      exact ⟨[], .none, rfl⟩
  | append_singleton calls call ih =>
      obtain ⟨groups, hgreedy, hfold⟩ := ih
      rw [List.map_append, List.foldl_append, hfold]
      cases groups with
      | nil =>
          obtain rfl := hgreedy.eq_nil_iff.mp rfl
          exact ⟨_, .first call, Anchorage.ofGroups_first call hroom⟩
      | cons latest older =>
          rcases Nat.lt_or_ge (spacing - AnchorGrid.anchorSize)
            (latest.load ledger + call.sizeBehind ledger latest.target) with hexceeds | hfits
          · have hload := hgreedy.load_le hroom latest List.mem_cons_self
            exact ⟨_, hgreedy.opens hexceeds, Anchorage.ofGroups_opens call hload hexceeds⟩
          · exact ⟨_, hgreedy.joins hfits, Anchorage.ofGroups_joins call hfits⟩

end AnchoredFields

import Mathlib.Algebra.Ring.Nat
import AnchoredFields.Layout.Planner

/-!
# Anchor groups

The anchors and streams of a layout fall into groups: an anchor, and the streams
behind it up to the next one.  Groups are listed here with the latest one first,
because only that one still takes streams; what was a group once stays one, with
the same target and with more streams at most.

* `AnchorGroup.ofEntries_append`: how one more entry changes the groups;
* `AnchorGroup.exists_of_extended`: groups only grow;
* `AnchorGroup.flatMap_entries_addEntry`: the groups hold all the entries, in order.
-/

namespace AnchoredFields

/-- An anchor and the streams that it governs. -/
structure AnchorGroup where
  target : UInt32
  handles : List Handle

namespace StreamEntry

/-- The handle of a stream; an anchor has none. -/
def handle? : StreamEntry → Option Handle
  | .anchor _ => none
  | .stream handle => some handle

/-- The target of an anchor. -/
def target? : StreamEntry → Option UInt32
  | .anchor target => some target
  | .stream _ => none

@[simp]
theorem handle?_anchor (target : UInt32) : (anchor target).handle? = none :=
  rfl

@[simp]
theorem handle?_stream (handle : Handle) : (stream handle).handle? = some handle :=
  rfl

@[simp]
theorem target?_anchor (target : UInt32) : (anchor target).target? = some target :=
  rfl

@[simp]
theorem target?_stream (handle : Handle) : (stream handle).target? = none :=
  rfl

end StreamEntry

namespace AnchorGroup

/-- The entries of a group, its anchor first. -/
def entries (group : AnchorGroup) : List StreamEntry :=
  .anchor group.target :: group.handles.map .stream

/-- Adds an entry: an anchor opens a group, a stream joins the latest one. -/
def addEntry : List AnchorGroup → StreamEntry → List AnchorGroup
  | groups, .anchor target => { target := target, handles := [] } :: groups
  | [], .stream _ => []
  | group :: older, .stream handle =>
      { group with handles := group.handles ++ [handle] } :: older

/-- The groups that entries fall into, the latest one first. -/
def ofEntries (entries : List StreamEntry) : List AnchorGroup :=
  entries.foldl addEntry []

theorem ofEntries_append (entries : List StreamEntry) (entry : StreamEntry) :
    ofEntries (entries ++ [entry]) = addEntry (ofEntries entries) entry := by
  rw [ofEntries, List.foldl_append]
  rfl

/-- One more entry leaves every group there, with the same target and no fewer streams. -/
theorem exists_of_addEntry
    {groups : List AnchorGroup} {group : AnchorGroup}
    (hmem : group ∈ groups)
    (entry : StreamEntry) :
    ∃ later ∈ addEntry groups entry,
      later.target = group.target ∧ group.handles ⊆ later.handles := by
  cases entry with
  | anchor target =>
      exact ⟨group, List.mem_cons_of_mem _ hmem, rfl, List.Subset.refl _⟩
  | stream handle =>
      cases groups with
      | nil =>
          cases hmem
      | cons latest older =>
          rcases List.mem_cons.mp hmem with rfl | holder
          · exact ⟨_, List.mem_cons_self, rfl, List.subset_append_left _ _⟩
          · exact ⟨group, List.mem_cons_of_mem _ holder, rfl, List.Subset.refl _⟩

/-- More entries leave every group there, with the same target and no fewer streams. -/
theorem exists_of_extended
    {entries longer : List StreamEntry}
    (hlonger : entries <+: longer)
    {group : AnchorGroup} (hmem : group ∈ ofEntries entries) :
    ∃ later ∈ ofEntries longer,
      later.target = group.target ∧ group.handles ⊆ later.handles := by
  obtain ⟨more, rfl⟩ := hlonger
  induction more generalizing entries group with
  | nil =>
      rw [List.append_nil]
      exact ⟨group, hmem, rfl, List.Subset.refl _⟩
  | cons entry more ih =>
      obtain ⟨middle, hmiddle, htarget, hhandles⟩ := exists_of_addEntry hmem entry
      rw [← ofEntries_append] at hmiddle
      obtain ⟨later, hlater, htarget', hhandles'⟩ := ih hmiddle
      rw [List.append_assoc, List.singleton_append] at hlater
      exact ⟨later, hlater, htarget'.trans htarget, List.Subset.trans hhandles hhandles'⟩

/-- The entries of the groups of some entries, once one more entry was added. -/
theorem flatMap_entries_addEntry
    (groups : List AnchorGroup) (entry : StreamEntry)
    (h : groups ≠ [] ∨ entry.handle? = none) :
    (addEntry groups entry).reverse.flatMap AnchorGroup.entries =
      groups.reverse.flatMap AnchorGroup.entries ++ [entry] := by
  cases entry with
  | anchor target =>
      simp [addEntry, AnchorGroup.entries]
  | stream handle =>
      cases groups with
      | nil =>
          rcases h with h | h
          · exact absurd rfl h
          · cases h
      | cons latest older =>
          simp [addEntry, AnchorGroup.entries]

theorem targets_streams (handles : List Handle) :
    (handles.map StreamEntry.stream).filterMap StreamEntry.target? = [] := by
  rw [List.filterMap_eq_nil_iff]
  intro entry hentry
  obtain ⟨handle, -, rfl⟩ := List.mem_map.mp hentry
  rfl

/-- Every group has one anchor. -/
theorem length_targets (groups : List AnchorGroup) :
    ((groups.flatMap entries).filterMap StreamEntry.target?).length = groups.length := by
  induction groups with
  | nil =>
      rfl
  | cons group rest ih =>
      rw [List.flatMap_cons, List.filterMap_append, List.length_append, ih, entries,
        List.filterMap_cons, targets_streams, List.length_cons, Nat.add_comm]
      rfl

/-- The streams of a group are those of its entries. -/
theorem handles_entries (group : AnchorGroup) :
    group.entries.filterMap StreamEntry.handle? = group.handles := by
  rw [entries, List.filterMap_cons_none rfl, List.filterMap_map]
  exact List.filterMap_some

end AnchorGroup

namespace Planner

/-- The groups of a layout, the latest one first. -/
def groups (planner : Planner) : List AnchorGroup :=
  AnchorGroup.ofEntries planner.anchored

/-- The number of bytes of a stream. -/
def streamSize (planner : Planner) (handle : Handle) : Nat :=
  ((planner.stream handle).getD []).length

/-- The bytes that the streams of a group take up. -/
def load (planner : Planner) (group : AnchorGroup) : Nat :=
  (group.handles.map planner.streamSize).sum

/-- The handles of all streams, in the order in which the streams are placed. -/
def filed (planner : Planner) : List Handle :=
  planner.inlineOnly ++ planner.anchored.filterMap StreamEntry.handle?

/-- The handles that were given out. -/
def issued (planner : Planner) : List Handle :=
  (List.range planner.streamCount).map Handle.mk

/-- An anchor to a target governs a stream. -/
def Governs (planner : Planner) (target : UInt32) (handle : Handle) : Prop :=
  ∃ group ∈ planner.groups, group.target = target ∧ handle ∈ group.handles

theorem mem_issued_iff {planner : Planner} {handle : Handle} :
    handle ∈ planner.issued ↔ handle.index < planner.streamCount := by
  rw [issued, List.mem_map]
  constructor
  · rintro ⟨index, hindex, rfl⟩
    exact List.mem_range.mp hindex
  · intro h
    exact ⟨handle.index, List.mem_range.mpr h, rfl⟩

theorem issued_nodup (planner : Planner) : planner.issued.Nodup := by
  refine List.Pairwise.map Handle.mk ?_ List.nodup_range
  intro i j hij heq
  exact hij (congrArg Handle.index heq)

end Planner
end AnchoredFields

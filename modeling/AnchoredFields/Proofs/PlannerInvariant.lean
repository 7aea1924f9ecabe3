import AnchoredFields.Proofs.AnchorGroups
import AnchoredFields.Proofs.BlobPlacement

/-!
# What holds of a layout while it is built

The planner accounts for the room of the open group by subtracting, and the image
is placed without looking at that account.  The invariant ties the two: what a
group has left is what its streams leave of the spacing, so the streams of a group
always end before the next place for an anchor.

* `Planner.Invariant.new`: it holds of an empty layout;
* `Planner.Invariant.grow`, `Planner.Invariant.openGroup`,
  `Planner.Invariant.keepInlineOnly`, `Planner.Invariant.keepAnchored`: every change
  that encoding makes keeps it;
* `Planner.Extends`: none of these changes takes anything back.
-/

namespace AnchoredFields
namespace Planner

/-- The state of a layout between two changes. -/
structure Invariant (planner : Planner) : Prop where
  grid_valid : planner.grid.Valid
  /-- Offsets into the out-of-line data have 32 bits. -/
  outline_le : planner.outline.length ≤ Placement.limit
  /-- Every stream is filed exactly once. -/
  filed_perm : planner.filed.Perm planner.issued
  anchored_eq : planner.anchored = planner.groups.reverse.flatMap AnchorGroup.entries
  /-- The open group is the latest one, and its room is what its streams leave. -/
  group_eq :
    planner.group =
      planner.groups.head?.map fun group =>
        { target := group.target
          room := planner.grid.spacing - AnchorGrid.anchorSize - planner.load group }
  load_le :
    ∀ group ∈ planner.groups,
      AnchorGrid.anchorSize + planner.load group ≤ planner.grid.spacing
  target_dvd : ∀ group ∈ planner.groups, Tag.maxAlignment ∣ group.target.toNat
  target_le : ∀ group ∈ planner.groups, group.target.toNat ≤ planner.outline.length

/-- A layout that continues another one: it has all of it, and maybe more behind it. -/
structure Extends (earlier later : Planner) : Prop where
  grid_eq : later.grid = earlier.grid
  streams : earlier.streams <+: later.streams
  inlineOnly : earlier.inlineOnly <+: later.inlineOnly
  anchored : earlier.anchored <+: later.anchored
  outline : earlier.outline <+: later.outline

namespace Extends

variable {earlier middle later : Planner}

theorem refl (planner : Planner) : planner.Extends planner :=
  ⟨rfl, List.prefix_rfl, List.prefix_rfl, List.prefix_rfl, List.prefix_rfl⟩

theorem trans (h : earlier.Extends middle) (h' : middle.Extends later) :
    earlier.Extends later where
  grid_eq := h'.grid_eq.trans h.grid_eq
  streams := h.streams.trans h'.streams
  inlineOnly := h.inlineOnly.trans h'.inlineOnly
  anchored := h.anchored.trans h'.anchored
  outline := h.outline.trans h'.outline

/-- The bytes of a stream never change. -/
theorem stream_eq (h : earlier.Extends later) {handle : Handle} {stream : List UInt8}
    (hstream : earlier.stream handle = some stream) :
    later.stream handle = some stream := by
  obtain ⟨more, hmore⟩ := h.streams
  obtain ⟨hlt, -⟩ := List.getElem?_eq_some_iff.mp hstream
  rw [Planner.stream, ← hmore, List.getElem?_append_left hlt]
  exact hstream

/-- The target of the anchor that governs a stream never changes. -/
theorem governs (h : earlier.Extends later) {target : UInt32} {handle : Handle}
    (hgoverns : earlier.Governs target handle) :
    later.Governs target handle := by
  obtain ⟨group, hgroup, htarget, hhandle⟩ := hgoverns
  obtain ⟨now, hnow, hsame, hmore⟩ := AnchorGroup.exists_of_extended h.anchored hgroup
  exact ⟨now, hnow, hsame.trans htarget, hmore hhandle⟩

end Extends

theorem new_eq_ok_iff {grid : AnchorGrid} {planner : Planner} :
    Planner.new grid = .ok planner ↔ grid.Valid ∧ planner = { grid := grid } := by
  rw [Planner.new, ← AnchorGrid.validate_eq_ok_iff]
  cases grid.validate with
  | error e =>
      simp
  | ok done =>
      simp [eq_comm]

theorem toNat_anchorTarget (offset : UInt32) :
    (anchorTarget offset).toNat = alignDown Tag.maxAlignment offset.toNat := by
  have hle := alignDown_le Tag.maxAlignment offset.toNat
  exact UInt32.toNat_ofNat_of_lt' (Nat.lt_of_le_of_lt hle offset.toNat_lt)

/-- Adding a stream leaves the sizes of the others as they are. -/
theorem streamSize_addStream
    (planner : Planner) (fields : FieldSet) (stream : List UInt8)
    {handle : Handle} (h : handle.index < planner.streamCount) :
    (planner.addStream fields stream).streamSize handle = planner.streamSize handle := by
  rw [streamSize, streamSize, Planner.stream, Planner.stream, addStream,
    List.getElem?_append_left h]

theorem stream_addStream (planner : Planner) (fields : FieldSet) (stream : List UInt8) :
    (planner.addStream fields stream).stream { index := planner.streamCount } = some stream :=
  List.getElem?_concat_length

theorem issued_addStream (planner : Planner) (fields : FieldSet) (stream : List UInt8) :
    (planner.addStream fields stream).issued =
      planner.issued ++ [{ index := planner.streamCount }] := by
  rw [issued, issued, streamCount, addStream, List.length_append, List.length_singleton,
    List.range_succ, List.map_append]
  rfl

/-- Keeps a stream that needs no anchor, under the next handle. -/
def keepInlineOnly (planner : Planner) (fields : FieldSet) (stream : List UInt8) : Planner :=
  (planner.addStream fields stream).fileInlineOnly { index := planner.streamCount }

/-- Keeps a stream behind the open anchor, under the next handle. -/
def keepAnchored (planner : Planner) (fields : FieldSet) (stream : List UInt8) : Planner :=
  (planner.addStream fields stream).fileAnchored { index := planner.streamCount } stream.length

theorem extends_keepInlineOnly
    (planner : Planner) (fields : FieldSet) (stream : List UInt8) :
    planner.Extends (planner.keepInlineOnly fields stream) :=
  ⟨rfl, List.prefix_append _ _, List.prefix_append _ _, List.prefix_rfl, List.prefix_rfl⟩

theorem extends_keepAnchored
    (planner : Planner) (fields : FieldSet) (stream : List UInt8) :
    planner.Extends (planner.keepAnchored fields stream) :=
  ⟨rfl, List.prefix_append _ _, List.prefix_rfl, List.prefix_append _ _, List.prefix_rfl⟩

theorem extends_openGroup (planner : Planner) (offset : UInt32) :
    planner.Extends (planner.openGroup offset) :=
  ⟨rfl, List.prefix_rfl, List.prefix_rfl, List.prefix_append _ _, List.prefix_rfl⟩

theorem extends_abandonRoom (planner : Planner) : planner.Extends planner.abandonRoom :=
  ⟨rfl, List.prefix_rfl, List.prefix_rfl, List.prefix_rfl, List.prefix_rfl⟩

namespace Invariant

variable {planner : Planner}

theorem new {grid : AnchorGrid} (h : Planner.new grid = .ok planner) : planner.Invariant := by
  obtain ⟨hvalid, rfl⟩ := new_eq_ok_iff.mp h
  exact
    { grid_valid := hvalid
      outline_le := Nat.zero_le _
      filed_perm := List.Perm.refl []
      anchored_eq := rfl
      group_eq := rfl
      load_le := fun group hgroup => nomatch hgroup
      target_dvd := fun group hgroup => nomatch hgroup
      target_le := fun group hgroup => nomatch hgroup }

/-- The handles of a group are those of streams. -/
theorem handle_lt (h : planner.Invariant) {group : AnchorGroup}
    (hgroup : group ∈ planner.groups)
    {handle : Handle} (hhandle : handle ∈ group.handles) :
    handle.index < planner.streamCount := by
  have hentry : StreamEntry.stream handle ∈ planner.anchored := by
    rw [h.anchored_eq, List.mem_flatMap]
    exact ⟨group, List.mem_reverse.mpr hgroup,
      List.mem_cons_of_mem _ (List.mem_map_of_mem hhandle)⟩
  have hfiled : handle ∈ planner.filed :=
    List.mem_append_right _ (List.mem_filterMap.mpr ⟨_, hentry, rfl⟩)
  exact mem_issued_iff.mp (h.filed_perm.mem_iff.mp hfiled)

theorem target_facts (h : planner.Invariant) :
    Tag.maxAlignment ∣ planner.target.toNat ∧
      planner.target.toNat ≤ planner.outline.length := by
  have hgroup := h.group_eq
  cases hgroups : planner.groups with
  | nil =>
      rw [hgroups] at hgroup
      rw [target, hgroup]
      exact ⟨Nat.dvd_zero _, Nat.zero_le _⟩
  | cons latest older =>
      have hlatest : latest ∈ planner.groups := hgroups ▸ List.mem_cons_self
      rw [hgroups] at hgroup
      rw [target, hgroup]
      exact ⟨h.target_dvd latest hlatest, h.target_le latest hlatest⟩

/-- More out-of-line data, as far as offsets reach, changes nothing else. -/
theorem grow (h : planner.Invariant) {outline : List UInt8}
    (hmore : planner.outline.length ≤ outline.length)
    (hlimit : outline.length ≤ Placement.limit)
    (records : List OutlineRecord) (generation : Nat) (statistics : Statistics) :
    Invariant
      { planner with
        outline := outline
        records := records
        generation := generation
        statistics := statistics } where
  grid_valid := h.grid_valid
  outline_le := hlimit
  filed_perm := h.filed_perm
  anchored_eq := h.anchored_eq
  group_eq := h.group_eq
  load_le := h.load_le
  target_dvd := h.target_dvd
  target_le := fun group hgroup => Nat.le_trans (h.target_le group hgroup) hmore

theorem groups_openGroup (planner : Planner) (offset : UInt32) :
    (planner.openGroup offset).groups =
      { target := anchorTarget offset, handles := [] } :: planner.groups :=
  AnchorGroup.ofEntries_append planner.anchored (.anchor (anchorTarget offset))

/-- An anchor for a blob that was copied opens an empty group. -/
theorem openGroup (h : planner.Invariant) {offset : UInt32}
    (hoffset : offset.toNat ≤ planner.outline.length) :
    (planner.openGroup offset).Invariant := by
  have hgroups := groups_openGroup planner offset
  have htarget := toNat_anchorTarget offset
  have hdown := alignDown_le Tag.maxAlignment offset.toNat
  have hfits := h.grid_valid.stream_fits
  refine
    { grid_valid := h.grid_valid
      outline_le := h.outline_le
      filed_perm := ?_
      anchored_eq := ?_
      group_eq := ?_
      load_le := ?_
      target_dvd := ?_
      target_le := ?_ }
  · have hfiled : (planner.openGroup offset).filed = planner.filed := by
      rw [filed, filed, Planner.openGroup, List.filterMap_append]
      exact congrArg _ (List.append_nil _)
    rw [hfiled]
    exact h.filed_perm
  · have hentries :=
      AnchorGroup.flatMap_entries_addEntry planner.groups (.anchor (anchorTarget offset))
        (Or.inr rfl)
    rw [← h.anchored_eq] at hentries
    rw [hgroups]
    exact hentries.symm
  · rw [hgroups]
    rfl
  · intro group hgroup
    rw [hgroups] at hgroup
    rcases List.mem_cons.mp hgroup with rfl | hold
    · exact Nat.le_trans (Nat.le_add_right _ _) hfits
    · exact h.load_le group hold
  · intro group hgroup
    rw [hgroups] at hgroup
    rcases List.mem_cons.mp hgroup with rfl | hold
    · rw [htarget]
      exact dvd_alignDown _ _
    · exact h.target_dvd group hold
  · intro group hgroup
    rw [hgroups] at hgroup
    rcases List.mem_cons.mp hgroup with rfl | hold
    · rw [htarget]
      exact Nat.le_trans hdown hoffset
    · exact h.target_le group hold

/-- The loads of the groups do not depend on streams that are added later. -/
theorem load_addStream (h : planner.Invariant) (fields : FieldSet) (stream : List UInt8)
    {group : AnchorGroup} (hgroup : group ∈ planner.groups) :
    (planner.addStream fields stream).load group = planner.load group := by
  rw [load, load]
  congr 1
  refine List.map_congr_left ?_
  intro handle hhandle
  exact streamSize_addStream planner fields stream (h.handle_lt hgroup hhandle)

/-- A stream that needs no anchor leaves the groups as they are. -/
theorem keepInlineOnly (h : planner.Invariant) (fields : FieldSet) (stream : List UInt8) :
    (planner.keepInlineOnly fields stream).Invariant := by
  refine
    { grid_valid := h.grid_valid
      outline_le := h.outline_le
      filed_perm := ?_
      anchored_eq := h.anchored_eq
      group_eq := ?_
      load_le := ?_
      target_dvd := h.target_dvd
      target_le := h.target_le }
  · have hfiled :
        (planner.keepInlineOnly fields stream).filed =
          planner.inlineOnly ++ [{ index := planner.streamCount }] ++
            planner.anchored.filterMap StreamEntry.handle? :=
      rfl
    have hissued := issued_addStream planner fields stream
    rw [hfiled]
    refine List.Perm.trans ?_ (hissued ▸ h.filed_perm.append_right _)
    rw [filed, List.append_assoc, List.append_assoc]
    exact List.perm_append_comm.append_left planner.inlineOnly
  · refine h.group_eq.trans (Option.map_congr ?_)
    intro group hgroup
    exact congrArg (fun load => Group.mk group.target (_ - _ - load))
      (h.load_addStream fields stream (List.mem_of_mem_head? hgroup)).symm
  · intro group hgroup
    have hle := h.load_le group hgroup
    rw [← h.load_addStream fields stream hgroup] at hle
    exact hle

/-- What is open: the latest group, with the room that its streams leave. -/
theorem exists_latest (h : planner.Invariant) (hopen : planner.group.isSome = true) :
    ∃ latest older,
      planner.groups = latest :: older ∧
      planner.group = some { target := latest.target, room := planner.room } ∧
      AnchorGrid.anchorSize + planner.load latest + planner.room = planner.grid.spacing := by
  have hgroup := h.group_eq
  cases hgroups : planner.groups with
  | nil =>
      rw [hgroups] at hgroup
      rw [hgroup] at hopen
      cases hopen
  | cons latest older =>
      have hload := h.load_le latest (hgroups ▸ List.mem_cons_self)
      rw [hgroups, List.head?_cons, Option.map_some] at hgroup
      have hroom :
          planner.room =
            planner.grid.spacing - AnchorGrid.anchorSize - planner.load latest := by
        rw [room, hgroup]
      refine ⟨latest, older, rfl, ?_, ?_⟩
      · rw [hgroup, hroom]
      · omega

/-- The stream that joins the open group is placed behind all others. -/
theorem filed_keepAnchored (planner : Planner) (fields : FieldSet) (stream : List UInt8) :
    (planner.keepAnchored fields stream).filed =
      planner.filed ++ [{ index := planner.streamCount }] := by
  show planner.inlineOnly ++
    List.filterMap _ (planner.anchored ++ [.stream { index := planner.streamCount }]) = _
  rw [List.filterMap_append, ← List.append_assoc]
  rfl

/-- The stream that joins the open group becomes its last one. -/
theorem groups_keepAnchored
    {latest : AnchorGroup} {older : List AnchorGroup}
    (hgroups : planner.groups = latest :: older)
    (fields : FieldSet) (stream : List UInt8) :
    (planner.keepAnchored fields stream).groups =
      { latest with handles := latest.handles ++ [{ index := planner.streamCount }] } ::
        older := by
  have happend :=
    AnchorGroup.ofEntries_append planner.anchored (.stream { index := planner.streamCount })
  rw [show AnchorGroup.ofEntries planner.anchored = latest :: older from hgroups] at happend
  exact happend

/-- The open group grows by the size of the stream that joins it. -/
theorem load_keepAnchored (h : planner.Invariant)
    {latest : AnchorGroup} (hlatest : latest ∈ planner.groups)
    (fields : FieldSet) (stream : List UInt8) :
    (planner.keepAnchored fields stream).load
        { latest with handles := latest.handles ++ [{ index := planner.streamCount }] } =
      planner.load latest + stream.length := by
  have hold := h.load_addStream fields stream hlatest
  have hsize :
      (planner.keepAnchored fields stream).streamSize { index := planner.streamCount } =
        stream.length :=
    congrArg (fun stored => (stored.getD []).length) (stream_addStream planner fields stream)
  rw [← hold, load, List.map_append, List.sum_append, List.map_singleton, List.sum_singleton,
    hsize]
  rfl

/-- A stream that fits the room of the open group joins it. -/
theorem keepAnchored (h : planner.Invariant) (fields : FieldSet) {stream : List UInt8}
    (hopen : planner.group.isSome = true)
    (hfit : stream.length ≤ planner.room) :
    (planner.keepAnchored fields stream).Invariant := by
  obtain ⟨latest, older, hgroups, hgroup, hroom⟩ := h.exists_latest hopen
  have hlatest : latest ∈ planner.groups := hgroups ▸ List.mem_cons_self
  have holder : ∀ group ∈ older, group ∈ planner.groups :=
    fun group hgroup => hgroups ▸ List.mem_cons_of_mem _ hgroup
  have hnext := groups_keepAnchored hgroups fields stream
  have hjoined := h.load_keepAnchored hlatest fields stream
  refine
    { grid_valid := h.grid_valid
      outline_le := h.outline_le
      filed_perm := ?_
      anchored_eq := ?_
      group_eq := ?_
      load_le := ?_
      target_dvd := ?_
      target_le := ?_ }
  · rw [filed_keepAnchored]
    exact issued_addStream planner fields stream ▸ h.filed_perm.append_right _
  · have hentries :=
      AnchorGroup.flatMap_entries_addEntry planner.groups
        (.stream { index := planner.streamCount })
        (Or.inl (by rw [hgroups]; exact List.cons_ne_nil _ _))
    rw [← h.anchored_eq, hgroups] at hentries
    rw [hnext]
    exact hentries.symm
  · rw [hnext, List.head?_cons, Option.map_some, hjoined]
    show planner.group.map _ = _
    rw [hgroup, Option.map_some]
    refine congrArg (fun room => some (Group.mk latest.target room)) ?_
    show planner.room - stream.length =
      planner.grid.spacing - AnchorGrid.anchorSize - (planner.load latest + stream.length)
    omega
  · intro group hmem
    rw [hnext] at hmem
    rcases List.mem_cons.mp hmem with rfl | hold
    · rw [hjoined]
      show _ ≤ planner.grid.spacing
      omega
    · rw [show (planner.keepAnchored fields stream).load group = planner.load group from
        h.load_addStream fields stream (holder group hold)]
      exact h.load_le group (holder group hold)
  · intro group hmem
    rw [hnext] at hmem
    rcases List.mem_cons.mp hmem with rfl | hold
    · exact h.target_dvd latest hlatest
    · exact h.target_dvd group (holder group hold)
  · intro group hmem
    rw [hnext] at hmem
    rcases List.mem_cons.mp hmem with rfl | hold
    · exact h.target_le latest hlatest
    · exact h.target_le group (holder group hold)

/-- The stream that joins the open group is governed by its anchor. -/
theorem governs_keepAnchored (h : planner.Invariant)
    (hopen : planner.group.isSome = true)
    (fields : FieldSet) (stream : List UInt8) :
    (planner.keepAnchored fields stream).Governs planner.target
      { index := planner.streamCount } := by
  obtain ⟨latest, older, hgroups, hgroup, -⟩ := h.exists_latest hopen
  refine ⟨_, groups_keepAnchored hgroups fields stream ▸ List.mem_cons_self, ?_, ?_⟩
  · rw [target, hgroup]
  · exact List.mem_append_right _ List.mem_cons_self

end Invariant
end Planner
end AnchoredFields

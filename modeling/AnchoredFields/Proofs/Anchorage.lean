import AnchoredFields.Proofs.FieldContents

/-!
# The anchored part of a layout

Anchors, the streams behind them and the room of the open group make up a part of the
layout that can be told without handles and without the rest of the layout: a field
set with blobs changes it in a way that depends on the offset of its first blob and on
its stream behind each possible target, and nothing else changes it.

* `Anchorage.take`: what a demand for a stream does to the anchored part;
* `Planner.Invariant.anchorage_keepInlineOnly`, `Planner.Placeable.anchorage_admitted`:
  a field set without blobs does nothing to it, and one with blobs makes a demand.
-/

namespace AnchoredFields

/-- Something in the stream region, by what it consists of. -/
inductive Block
  | anchor (target : UInt32)
  | stream (bytes : List UInt8)
  deriving DecidableEq, Repr

/-- The anchors of a layout and the streams behind them. -/
structure Anchorage where
  spacing : Nat
  blocks : List Block := []
  group : Option Group := none
  /-- The anchors emitted. -/
  anchors : Nat := 0
  /-- The bytes given up in closed groups. -/
  padding : Nat := 0
  deriving DecidableEq, Repr

/-- What a field set with blobs asks of the anchors: the offset of its first blob, and its stream
behind an anchor to each target. -/
structure Demand where
  offset : UInt32
  stream : UInt32 → List UInt8

namespace Anchorage

/-- The out-of-line offset that stored distances are counted from. -/
def target (a : Anchorage) : UInt32 :=
  match a.group with
  | some group => group.target
  | none => 0

/-- The bytes that are left in the open group. -/
def room (a : Anchorage) : Nat :=
  match a.group with
  | some group => group.room
  | none => 0

/-- Emits an anchor for the blob at an offset and opens the group behind it. -/
def openGroup (a : Anchorage) (offset : UInt32) : Anchorage :=
  let target := Planner.anchorTarget offset
  { a with
    blocks := a.blocks ++ [.anchor target]
    group := some { target := target, room := a.spacing - AnchorGrid.anchorSize }
    anchors := a.anchors + 1 }

/-- Gives up the room that is left in the open group. -/
def abandonRoom (a : Anchorage) : Anchorage :=
  { a with padding := a.padding + a.room }

/-- Opens a group for the blob at an offset if there is none. -/
def opened (a : Anchorage) (offset : UInt32) : Anchorage :=
  if a.group.isNone then a.openGroup offset else a

/-- Opens a group that has room for a stream, whose size depends on the target. -/
def settle (a : Anchorage) (offset : UInt32) (size : UInt32 → Nat) : Anchorage :=
  let first := a.opened offset
  if first.room < size first.target then first.abandonRoom.openGroup offset else first

/-- Puts a stream behind the open anchor. -/
def keep (a : Anchorage) (stream : List UInt8) : Anchorage :=
  { a with
    blocks := a.blocks ++ [.stream stream]
    group := a.group.map fun group => { group with room := group.room - stream.length } }

/-- Takes the stream of a field set with blobs. -/
def take (a : Anchorage) (demand : Demand) : Anchorage :=
  let settled := a.settle demand.offset fun target => (demand.stream target).length
  settled.keep (demand.stream settled.target)

end Anchorage

namespace Planner

/-- What an entry of a layout consists of. -/
def block (planner : Planner) : StreamEntry → Block
  | .anchor target => .anchor target
  | .stream handle => .stream ((planner.stream handle).getD [])

/-- The anchored part of a layout. -/
def anchorage (planner : Planner) : Anchorage where
  spacing := planner.grid.spacing
  blocks := planner.anchored.map planner.block
  group := planner.group
  anchors := planner.statistics.anchors
  padding := planner.statistics.paddingBytes

theorem target_anchorage (planner : Planner) : planner.anchorage.target = planner.target :=
  rfl

theorem anchorage_openGroup (planner : Planner) (offset : UInt32) :
    (planner.openGroup offset).anchorage = planner.anchorage.openGroup offset := by
  have hblocks :
      (planner.anchored ++ [StreamEntry.anchor (anchorTarget offset)]).map planner.block =
        planner.anchored.map planner.block ++ [.anchor (anchorTarget offset)] := by
    rw [List.map_append]
    rfl
  exact congrArg (fun blocks => { planner.anchorage.openGroup offset with blocks := blocks })
    hblocks

theorem anchorage_abandonRoom (planner : Planner) :
    planner.abandonRoom.anchorage = planner.anchorage.abandonRoom :=
  rfl

theorem anchorage_opened (planner : Planner) (offset : UInt32) :
    (planner.opened offset).anchorage = planner.anchorage.opened offset := by
  rw [opened, Anchorage.opened]
  show _ = if planner.group.isNone = true then _ else _
  rw [apply_ite anchorage, anchorage_openGroup]

theorem anchorage_settle (planner : Planner) (offset : UInt32) (size : UInt32 → Nat) :
    (planner.settle offset size).anchorage = planner.anchorage.settle offset size := by
  rw [settle, Anchorage.settle, ← anchorage_opened]
  show _ =
    if (planner.opened offset).room < size (planner.opened offset).target then _ else _
  rw [apply_ite anchorage, anchorage_openGroup, anchorage_abandonRoom]

/-- Copying blobs leaves the anchored part as it is. -/
theorem anchorage_copied (planner : Planner) (placements : List Placement) :
    (planner.copied placements).anchorage = planner.anchorage := by
  rw [copied_eq]
  rfl

namespace Invariant

variable {planner : Planner}

/-- The entries of a layout are those of streams that were encoded. -/
theorem index_lt (h : planner.Invariant) {handle : Handle}
    (hmem : handle ∈ planner.filed) :
    handle.index < planner.streamCount :=
  mem_issued_iff.mp (h.filed_perm.mem_iff.mp hmem)

/-- Adding a stream leaves what the entries consist of as it is. -/
theorem map_block_addStream (h : planner.Invariant) (fields : FieldSet) (stream : List UInt8)
    {entries : List StreamEntry}
    (hfiled : ∀ handle, .stream handle ∈ entries → handle ∈ planner.filed) :
    entries.map (planner.addStream fields stream).block = entries.map planner.block := by
  refine List.map_congr_left ?_
  intro entry hentry
  cases entry with
  | anchor target =>
      rfl
  | stream handle =>
      have hlt := h.index_lt (hfiled handle hentry)
      rw [block, block, Planner.stream, Planner.stream, addStream, List.getElem?_append_left hlt]

theorem mem_filed_of_anchored {handle : Handle}
    (hmem : .stream handle ∈ planner.anchored) :
    handle ∈ planner.filed :=
  List.mem_append_right _ (List.mem_filterMap.mpr ⟨_, hmem, rfl⟩)

/-- A stream without blobs leaves the anchored part as it is. -/
theorem anchorage_keepInlineOnly (h : planner.Invariant)
    (fields : FieldSet) (stream : List UInt8) :
    (planner.keepInlineOnly fields stream).anchorage = planner.anchorage :=
  congrArg (fun blocks => { planner.anchorage with blocks := blocks })
    (h.map_block_addStream fields stream fun _ hmem => mem_filed_of_anchored hmem)

theorem anchorage_keepAnchored (h : planner.Invariant)
    (fields : FieldSet) (stream : List UInt8) :
    (planner.keepAnchored fields stream).anchorage = planner.anchorage.keep stream := by
  have hblocks :
      (planner.anchored ++ [StreamEntry.stream { index := planner.streamCount }]).map
          (planner.addStream fields stream).block =
        planner.anchored.map planner.block ++ [.stream stream] := by
    rw [List.map_append,
      h.map_block_addStream fields stream fun _ hmem => mem_filed_of_anchored hmem,
      List.map_singleton, block, stream_addStream, Option.getD_some]
  exact congrArg (fun blocks => { planner.anchorage.keep stream with blocks := blocks }) hblocks

end Invariant

/-- What a field set with blobs asks of the anchors of a layout. -/
theorem Placeable.anchorage_admitted
    {planner : Planner} {fields : FieldSet} {first : Placement} {rest : List Placement}
    (h : planner.Placeable fields (first :: rest))
    (hinv : planner.Invariant)
    (ledger : Ledger) :
    (planner.admitted fields ledger (first :: rest) first.offset).anchorage =
      planner.anchorage.take
        { offset := first.offset, stream := streamFor fields ledger } := by
  obtain ⟨hsettled, -, -⟩ := h.invariant_settled hinv ledger
  have hanchorage :
      (planner.settled fields ledger (first :: rest) first.offset).anchorage =
        planner.anchorage.settle first.offset fun target =>
          (streamFor fields ledger target).length := by
    rw [settled, anchorage_settle, anchorage_copied]
  rw [admitted, Anchorage.take, hsettled.anchorage_keepAnchored, hanchorage,
    ← target_anchorage, hanchorage]

end Planner

end AnchoredFields

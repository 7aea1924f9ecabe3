import AnchoredFields.Proofs.OutlineRegion

/-!
# Field sets with equal content

Two field sets have equal content if they hold the same numbers under the same tags
and blobs with the same bytes under the same tags.  The blobs themselves may be
different ones.  Everything that encoding makes of a field set is made of its content
and of the offsets of its blobs:

* `FieldSet.placements_congr`: behind the same number of bytes, blobs are refused or
  placed at the same offsets;
* `FieldSet.stored_congr`, `Planner.streamFor_congr`: at the same offsets the stored
  numbers are the same, and so are the streams.
-/

namespace AnchoredFields

namespace Placement

/-- What a placement says, whichever blob is placed: the tag, the bytes and the offset. -/
def payload (placement : Placement) : Tag × List UInt8 × UInt32 :=
  (placement.tag, placement.blob.data, placement.offset)

/-- What placements say tells the offsets. -/
theorem offsets_congr {placements others : List Placement}
    (h : placements.map payload = others.map payload) :
    placements.map (fun placement => (placement.tag, some placement.offset)) =
      others.map fun placement => (placement.tag, some placement.offset) := by
  have hpairs := congrArg (List.map fun payload => (payload.1, some payload.2.2)) h
  rw [List.map_map, List.map_map] at hpairs
  exact hpairs

/-- Places depend on the tags and the sizes of the blobs only, once tags have alignments. -/
theorem ofBlobs_congr {blobs others : List (Tag × Blob)}
    (htags : ∀ entry ∈ blobs, ∃ a, entry.1.alignment? = some a)
    (hdata :
      blobs.map (fun entry => (entry.1, entry.2.data)) =
        others.map fun entry => (entry.1, entry.2.data))
    (start : Nat) :
    (ofBlobs start blobs).map (List.map payload) =
      (ofBlobs start others).map (List.map payload) := by
  induction blobs generalizing others start with
  | nil =>
      rw [List.map_nil, eq_comm, List.map_eq_nil_iff] at hdata
      rw [hdata]
  | cons entry rest ih =>
      obtain ⟨tag, blob⟩ := entry
      rw [List.map_cons, eq_comm, List.map_eq_cons_iff] at hdata
      obtain ⟨⟨t, copy⟩, copies, rfl, hfirst, hcopies⟩ := hdata
      obtain ⟨rfl, hbytes⟩ := Prod.mk.inj hfirst
      change copy.data = blob.data at hbytes
      obtain ⟨a, ha⟩ := htags (t, blob) List.mem_cons_self
      have hpos := Tag.alignment?_pos ha
      have halign : ∀ b, alignmentOf t b = a := fun b => alignmentOf_eq ha
      have hsize : copy.size = blob.size := Blob.size_congr hbytes
      have hlater :=
        ih (fun e he => htags e (List.mem_cons_of_mem _ he)) hcopies.symm
          (alignUp a start + blob.size)
      rw [ofBlobs_cons (halign blob ▸ hpos), ofBlobs_cons (halign copy ▸ hpos), halign, halign,
        hsize]
      simp only
      split
      · rfl
      split
      · rfl
      cases hblobs : ofBlobs (alignUp a start + blob.size) rest with
      | error failure =>
          cases hothers : ofBlobs (alignUp a start + blob.size) copies with
          | error failure' =>
              rw [hblobs, hothers] at hlater
              cases hlater
              rfl
          | ok later =>
              rw [hblobs, hothers] at hlater
              cases hlater
      | ok later =>
          cases hothers : ofBlobs (alignUp a start + blob.size) copies with
          | error failure =>
              rw [hblobs, hothers] at hlater
              cases hlater
          | ok later' =>
              rw [hblobs, hothers] at hlater
              have hsame := Except.ok.inj hlater
              simp only [Except.map, List.map_cons, hsame, payload, hbytes]

/-- The bytes of a chain are told by what its placements say. -/
theorem bytesFrom_congr {placements others : List Placement}
    (h : placements.map payload = others.map payload)
    (start : Nat) :
    bytesFrom start placements = bytesFrom start others := by
  induction placements generalizing others start with
  | nil =>
      rw [List.map_nil, eq_comm, List.map_eq_nil_iff] at h
      rw [h]
  | cons first rest ih =>
      rw [List.map_cons, eq_comm, List.map_eq_cons_iff] at h
      obtain ⟨twin, twins, rfl, hfirst, htwins⟩ := h
      simp only [payload, Prod.mk.injEq] at hfirst
      obtain ⟨-, hdata, hoffset⟩ := hfirst
      have hstop : twin.stop = first.stop := by
        rw [stop, stop, Blob.size_congr hdata, hoffset]
      rw [bytesFrom, bytesFrom, hstop, hdata, hoffset, ih htwins.symm]

end Placement

/-- What a value consists of, whichever blob holds it. -/
inductive Content
  | number (value : UInt32)
  | bytes (data : List UInt8)
  deriving DecidableEq, Repr

/-- What a value consists of. -/
def FieldValue.content : FieldValue → Content
  | .inline value => .number value
  | .outOfLine blob => .bytes blob.data

namespace Content

/-- The bytes of a blob; a number has none. -/
def bytes? : Content → Option (List UInt8)
  | .number _ => none
  | .bytes data => some data

end Content

namespace FieldSet

/-- What the fields of a set consist of. -/
def contents (fields : FieldSet) : Slots Content :=
  { get := fun tag => (fields.get tag).map fun field => field.value.content }

/-- Where the blobs of a field set are, by tag. -/
def offsets (fields : FieldSet) (ledger : Ledger) : List (Tag × Option UInt32) :=
  fields.blobs.map fun entry => (entry.1, ledger.offset? entry.2)

theorem present_contents (fields : FieldSet) :
    fields.contents.present =
      fields.present.map fun entry => (entry.1, entry.2.value.content) :=
  Slots.present_map fields.slots fun _ field => field.value.content

/-- The bytes of the blobs, by tag, are told by the contents. -/
theorem blobs_contents (fields : FieldSet) :
    fields.blobs.map (fun entry => (entry.1, entry.2.data)) =
      fields.contents.present.filterMap fun entry =>
        entry.2.bytes?.map fun data => (entry.1, data) := by
  rw [present_contents, List.filterMap_map, blobs, List.map_filterMap]
  congr 1
  funext entry
  obtain ⟨tag, field⟩ := entry
  cases hvalue : field.value with
  | inline value =>
      simp [hvalue, FieldValue.content, Content.bytes?]
  | outOfLine blob =>
      simp [hvalue, FieldValue.content, Content.bytes?]

variable {fields others : FieldSet}

theorem blobs_congr (h : fields.contents = others.contents) :
    fields.blobs.map (fun entry => (entry.1, entry.2.data)) =
      others.blobs.map fun entry => (entry.1, entry.2.data) := by
  rw [blobs_contents, blobs_contents, h]

theorem blobs_eq_nil_congr (h : fields.contents = others.contents) (hnone : fields.blobs = []) :
    others.blobs = [] := by
  have hblobs := blobs_congr h
  rwa [hnone, List.map_nil, eq_comm, List.map_eq_nil_iff] at hblobs

theorem tags_congr (h : fields.contents = others.contents) :
    fields.present.map Prod.fst = others.present.map Prod.fst := by
  have hpresent := congrArg (fun slots => slots.present.map Prod.fst) h
  simp only [present_contents, List.map_map] at hpresent
  exact hpresent

/-- Filling in offsets leaves the tags of a field set as they are. -/
theorem tags_locate (fields : FieldSet) (placements : List Placement) :
    (fields.locate placements).present.map Prod.fst = fields.present.map Prod.fst := by
  rw [present_locate, List.map_map]
  rfl

theorem isSome_get_congr (h : fields.contents = others.contents) (tag : Tag) :
    (fields.get tag).isSome = (others.get tag).isSome := by
  have hslot := congrArg (fun slots => (slots.get tag).isSome) h
  simp only [contents, Option.isSome_map] at hslot
  exact hslot

theorem isEmpty_congr (h : fields.contents = others.contents) :
    fields.isEmpty = others.isEmpty := by
  have htags := tags_congr h
  rw [Bool.eq_iff_iff, isEmpty_iff, isEmpty_iff, ← List.map_eq_nil_iff (f := Prod.fst), htags,
    List.map_eq_nil_iff]

/-- The blob of a tag is found in the ledger at the offset that is listed for the tag. -/
theorem mem_offsets_iff {tag : Tag} {blob : Blob} {ledger : Ledger} {offset : Option UInt32}
    (hblob : (tag, blob) ∈ fields.blobs) :
    (tag, offset) ∈ fields.offsets ledger ↔ ledger.offset? blob = offset := by
  rw [offsets, List.mem_map]
  constructor
  · rintro ⟨⟨t, other⟩, hother, heq⟩
    obtain ⟨rfl, rfl⟩ := Prod.mk.inj heq
    have hsame : (t, other) = (t, blob) :=
      List.inj_on_of_nodup_map fields.blobs_keys_nodup hother hblob rfl
    rw [(Prod.mk.inj hsame).2]
  · rintro rfl
    exact ⟨(tag, blob), hblob, rfl⟩

/-- A field set with its blobs placed has them at the offsets of the placements. -/
theorem offsets_eq {placements : List Placement} {ledger : Ledger}
    (hentries : placements.map Placement.entry = fields.blobs)
    (hledger : ∀ placement ∈ placements,
      ledger.offset? placement.blob = some placement.offset) :
    fields.offsets ledger =
      placements.map fun placement => (placement.tag, some placement.offset) := by
  rw [offsets, ← hentries, List.map_map]
  refine List.map_congr_left ?_
  intro placement hmem
  exact congrArg (Prod.mk placement.tag) (hledger placement hmem)

/-- Without blobs there are no offsets. -/
theorem offsets_congr_of_no_blobs (h : fields.contents = others.contents)
    (hnone : fields.blobs = []) (ledger book : Ledger) :
    fields.offsets ledger = others.offsets book := by
  rw [offsets, offsets, hnone, blobs_eq_nil_congr h hnone]
  rfl

/-- Offsets that are known do not change any more. -/
theorem offsets_of_extends {ledger later : Ledger}
    (hledger : ledger.Extends later)
    (hplaced : ∀ entry ∈ fields.blobs, ∃ offset, ledger.offset? entry.2 = some offset) :
    fields.offsets later = fields.offsets ledger := by
  refine List.map_congr_left ?_
  intro entry hentry
  obtain ⟨offset, hoffset⟩ := hplaced entry hentry
  rw [hoffset, hledger entry.2 offset hoffset]

/-- In a ledger that has no entry, the offsets tell the tags only. -/
theorem offsets_empty_congr (h : fields.contents = others.contents) :
    fields.offsets {} = others.offsets {} := by
  have htags :=
    congrArg (List.map fun entry => (entry.1, (none : Option UInt32))) (blobs_congr h)
  rw [List.map_map, List.map_map] at htags
  exact htags

/-- Field sets with equal content are refused or placed in the same way. -/
theorem placements_congr (hmade : fields.Made) (h : fields.contents = others.contents)
    (start : Nat) :
    (fields.placements start).map (List.map Placement.payload) =
      (others.placements start).map (List.map Placement.payload) := by
  rw [placements_eq, placements_eq]
  exact Placement.ofBlobs_congr hmade.exists_alignment (blobs_congr h) start

theorem placements_error_congr (hmade : fields.Made) (h : fields.contents = others.contents)
    {start : Nat} {failure : Failure} (hplaced : fields.placements start = .error failure) :
    others.placements start = .error failure := by
  have hsame := placements_congr hmade h start
  rw [hplaced] at hsame
  cases hother : others.placements start with
  | ok twins =>
      rw [hother] at hsame
      cases hsame
  | error failure' =>
      rw [hother] at hsame
      cases hsame
      rfl

theorem exists_placements_congr (hmade : fields.Made) (h : fields.contents = others.contents)
    {start : Nat} {placements : List Placement}
    (hplaced : fields.placements start = .ok placements) :
    ∃ twins,
      others.placements start = .ok twins ∧
        placements.map Placement.payload = twins.map Placement.payload := by
  have hsame := placements_congr hmade h start
  rw [hplaced] at hsame
  cases hother : others.placements start with
  | error failure =>
      rw [hother] at hsame
      cases hsame
  | ok twins =>
      rw [hother] at hsame
      exact ⟨twins, rfl, Except.ok.inj hsame⟩

end FieldSet

/-- Values with equal content are stored as the same number, if their blobs are at the same
offset. -/
theorem FieldValue.stored_congr {value twin : FieldValue} (h : value.content = twin.content)
    {ledger other : Ledger}
    (hoffset : ∀ blob copy, value = .outOfLine blob → twin = .outOfLine copy →
      ledger.offset? blob = other.offset? copy)
    (target : Nat) (tag : Tag) :
    value.stored ledger target tag = twin.stored other target tag := by
  cases value with
  | inline number =>
      cases twin with
      | inline same =>
          cases h
          rfl
      | outOfLine copy =>
          cases h
  | outOfLine blob =>
      cases twin with
      | inline number =>
          cases h
      | outOfLine copy =>
          rw [stored, stored, hoffset blob copy rfl rfl]

namespace FieldSet

variable {fields others : FieldSet}

/-- What a field set is stored as, slot by slot. -/
theorem stored_eq_present (fields : FieldSet) (ledger : Ledger) (target : Nat) :
    fields.stored ledger target =
      Slots.present
        { get := fun tag =>
            (fields.get tag).map fun field => field.value.stored ledger target tag } :=
  (Slots.present_map fields.slots fun tag field => field.value.stored ledger target tag).symm

/-- Field sets with equal content whose blobs are at equal offsets are stored as the same
numbers. -/
theorem stored_congr (h : fields.contents = others.contents)
    {ledger other : Ledger} (hoffsets : fields.offsets ledger = others.offsets other)
    (target : Nat) :
    fields.stored ledger target = others.stored other target := by
  rw [stored_eq_present, stored_eq_present]
  congr 1
  ext1 tag
  have hslot := congrArg (fun slots => slots.get tag) h
  simp only [contents] at hslot ⊢
  cases hfield : fields.get tag with
  | none =>
      rw [hfield, Option.map_none, eq_comm, Option.map_eq_none_iff] at hslot
      rw [hslot]
      rfl
  | some field =>
      rw [hfield, Option.map_some, eq_comm, Option.map_eq_some_iff] at hslot
      obtain ⟨twin, htwin, hcontent⟩ := hslot
      rw [htwin, Option.map_some, Option.map_some]
      congr 1
      refine FieldValue.stored_congr hcontent.symm ?_ target tag
      intro blob copy hvalue htwinValue
      have hblob : (tag, blob) ∈ fields.blobs := mem_blobs_iff.mpr ⟨field, hfield, hvalue⟩
      have hcopy : (tag, copy) ∈ others.blobs := mem_blobs_iff.mpr ⟨twin, htwin, htwinValue⟩
      have hlisted := (mem_offsets_iff hblob).mpr (rfl : ledger.offset? blob = _)
      rw [hoffsets, mem_offsets_iff hcopy] at hlisted
      exact hlisted.symm

end FieldSet

/-- The streams of field sets with equal content are the same behind every anchor, if the blobs
are at equal offsets. -/
theorem Planner.streamFor_congr
    {fields others : FieldSet} (h : fields.contents = others.contents)
    {ledger other : Ledger} (hoffsets : fields.offsets ledger = others.offsets other) :
    streamFor fields ledger = streamFor others other := by
  funext target
  rw [streamFor, streamFor, FieldSet.stored_congr h hoffsets]

end AnchoredFields

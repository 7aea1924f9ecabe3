import Mathlib.Order.Bounds.Basic
import AnchoredFields.Proofs.EncodingOutcome

/-!
# Offsets of blobs at the limit of 32 bits

The offsets of the blobs of a field set are worked out in 64-bit numbers and handed on in
32 bits.  They are compared here with places in unbounded numbers.  The limit can be
crossed by the bytes of a blob, by the gap in front of one, or by a blob without bytes that
is moved up to the limit; in each case the field set is refused as a whole.

* `Placement.Exact`: the places in unbounded numbers;
* `Placement.Exact.offsetsFrom_eq_ok_iff`: when offsets are given, and which ones;
* `Placement.Exact.forall_stop_le_iff`: the last place decides for all of them;
* `FieldSet.Made.offsets_decided`: the offsets of a made field set behind any start.
-/

namespace AnchoredFields
namespace Placement

/-- Where a blob starts and where it ends, in unbounded numbers. -/
structure Place where
  offset : Nat
  stop : Nat
  deriving DecidableEq, Repr

/-- The places of blobs that follow one another in unbounded numbers: each starts at the least
multiple of the alignment of its tag that is not below the end of the blob before it. -/
inductive Exact : Nat → List (Tag × Blob) → List Place → Prop
  | nil (start : Nat) : Exact start [] []
  | cons
      {start alignment offset : Nat} {tag : Tag} {blob : Blob} {rest : List (Tag × Blob)}
      {places : List Place}
      (halign : tag.alignment? = some alignment)
      (hleast : IsLeast { n | alignment ∣ n ∧ start ≤ n } offset)
      (hrest : Exact (offset + blob.size) rest places) :
      Exact start ((tag, blob) :: rest)
        ({ offset := offset, stop := offset + blob.size } :: places)

/-- The aligned successor of a number is the least multiple that is not below it. -/
theorem isLeast_alignUp {a : Nat} (ha : 0 < a) (n : Nat) :
    IsLeast { m | a ∣ m ∧ n ≤ m } (alignUp a n) :=
  ⟨⟨dvd_alignUp a n, le_alignUp ha n⟩, fun _ hm => alignUp_le ha hm.1 hm.2⟩

/-- The alignment of the tag is the one that a blob is placed at. -/
theorem alignUp_eq_of_isLeast {tag : Tag} {alignment start offset : Nat}
    (halign : tag.alignment? = some alignment)
    (hleast : IsLeast { n | alignment ∣ n ∧ start ≤ n } offset)
    (blob : Blob) :
    0 < alignmentOf tag blob ∧ alignUp (alignmentOf tag blob) start = offset := by
  have hpos := Tag.alignment?_pos halign
  rw [alignmentOf_eq halign]
  exact ⟨hpos, (isLeast_alignUp hpos start).unique hleast⟩

/-- Blobs under out-of-line tags have exact places. -/
theorem exists_exact
    {blobs : List (Tag × Blob)}
    (halign : ∀ entry ∈ blobs, ∃ a, entry.1.alignment? = some a)
    (start : Nat) :
    ∃ places, Exact start blobs places := by
  induction blobs generalizing start with
  | nil =>
      exact ⟨[], .nil start⟩
  | cons entry rest ih =>
      obtain ⟨tag, blob⟩ := entry
      obtain ⟨a, ha⟩ := halign (tag, blob) List.mem_cons_self
      have hothers := fun next hnext => halign next (List.mem_cons_of_mem _ hnext)
      obtain ⟨places, hrest⟩ := ih hothers (alignUp a start + blob.size)
      exact ⟨_, .cons ha (isLeast_alignUp (Tag.alignment?_pos ha) start) hrest⟩

namespace Exact

variable {start : Nat} {blobs : List (Tag × Blob)} {places : List Place}

/-- There is one way to place blobs exactly. -/
theorem unique (h : Exact start blobs places) {others : List Place}
    (hothers : Exact start blobs others) :
    others = places := by
  induction h generalizing others with
  | nil start =>
      cases hothers
      rfl
  | cons halign hleast hrest ih =>
      cases hothers with
      | cons halign' hleast' hrest' =>
          rw [halign] at halign'
          cases halign'
          cases hleast.unique hleast'
          rw [ih hrest']

theorem offset_le_stop (h : Exact start blobs places) {place : Place} (hmem : place ∈ places) :
    place.offset ≤ place.stop := by
  induction h with
  | nil start =>
      cases hmem
  | cons halign hleast hrest ih =>
      rcases List.mem_cons.mp hmem with rfl | hlater
      · exact Nat.le_add_right _ _
      · exact ih hlater

/-- Offsets are given exactly if every place ends within the limit, and they are those of the
places. -/
theorem offsetsFrom_eq_ok_iff (h : Exact start blobs places) {offsets : List UInt32} :
    offsetsFrom start blobs = .ok offsets ↔
      (∀ place ∈ places, place.stop ≤ limit) ∧
        offsets.map UInt32.toNat = places.map Place.offset := by
  induction h generalizing offsets with
  | nil start =>
      simp [offsetsFrom, pure, Except.pure, eq_comm]
  | @cons start alignment offset tag blob rest places halign hleast hrest ih =>
      obtain ⟨hpos, hoffset⟩ := alignUp_eq_of_isLeast halign hleast blob
      have hlimit : limit = 2 ^ 32 - 1 := rfl
      have hword (hle : offset + blob.size ≤ limit) : (UInt32.ofNat offset).toNat = offset :=
        UInt32.toNat_ofNat_of_lt' (show offset < 2 ^ 32 by omega)
      rw [offsetsFrom_cons_eq_ok_iff hpos, hoffset, List.forall_mem_cons]
      constructor
      · rintro ⟨hle, later, hlater, rfl⟩
        obtain ⟨hstops, hmap⟩ := ih.mp hlater
        exact ⟨⟨hle, hstops⟩, by rw [List.map_cons, hword hle, hmap, List.map_cons]⟩
      · rintro ⟨⟨hle, hstops⟩, hmap⟩
        obtain ⟨first, later, rfl, hfirst, hlater⟩ := List.map_eq_cons_iff.mp hmap
        have hsame : first = UInt32.ofNat offset := by
          rw [← UInt32.toNat_inj, hword hle]
          exact hfirst
        exact ⟨hle, later, ih.mpr ⟨hstops, hlater⟩, by rw [hsame]⟩

/-- Offsets are given if every place ends within the limit. -/
theorem exists_offsetsFrom (h : Exact start blobs places)
    (hstops : ∀ place ∈ places, place.stop ≤ limit) :
    ∃ offsets, offsetsFrom start blobs = .ok offsets := by
  have hmap :
      (places.map fun place => UInt32.ofNat place.offset).map UInt32.toNat =
        places.map Place.offset := by
    rw [List.map_map]
    refine List.map_congr_left ?_
    intro place hmem
    have hstop := hstops place hmem
    have hle := h.offset_le_stop hmem
    have hlimit : limit = 2 ^ 32 - 1 := rfl
    exact UInt32.toNat_ofNat_of_lt' (show place.offset < 2 ^ 32 by omega)
  exact ⟨_, h.offsetsFrom_eq_ok_iff.mpr ⟨hstops, hmap⟩⟩

theorem alignment?_eq_some (h : Exact start blobs places) :
    ∀ entry ∈ blobs, ∃ a, entry.1.alignment? = some a := by
  induction h with
  | nil start =>
      exact fun entry hentry => nomatch hentry
  | cons halign hleast hrest ih =>
      exact List.forall_mem_cons.mpr ⟨⟨_, halign⟩, ih⟩

/-- The last place ends where the blobs end. -/
theorem stop_getLast (h : Exact start blobs places) {last : Place}
    (hlast : places.getLast? = some last) :
    last.stop = stopOf start blobs := by
  induction h with
  | nil start =>
      cases hlast
  | @cons start alignment offset tag blob rest places halign hleast hrest ih =>
      rw [stopOf, (alignUp_eq_of_isLeast halign hleast blob).2]
      cases hrest with
      | nil =>
          cases hlast
          rfl
      | cons =>
          rw [List.getLast?_cons_cons] at hlast
          exact ih hlast

/-- No place ends behind the end of all blobs. -/
theorem stop_le (h : Exact start blobs places) {place : Place} (hmem : place ∈ places) :
    place.stop ≤ stopOf start blobs := by
  induction h with
  | nil start =>
      cases hmem
  | @cons start alignment offset tag blob rest places halign hleast hrest ih =>
      rw [stopOf, (alignUp_eq_of_isLeast halign hleast blob).2]
      rcases List.mem_cons.mp hmem with rfl | hlater
      · exact le_stopOf (alignable_of_exists hrest.alignment?_eq_some) (offset + blob.size)
      · exact ih hlater

/-- The last place decides for all of them whether they end within a bound. -/
theorem forall_stop_le_iff (h : Exact start blobs places) (bound : Nat) :
    (∀ place ∈ places, place.stop ≤ bound) ↔
      ∀ last, places.getLast? = some last → last.stop ≤ bound := by
  constructor
  · intro hall last hlast
    exact hall last (List.mem_of_getLast? hlast)
  · intro hend place hmem
    obtain ⟨last, hlast⟩ : ∃ last, places.getLast? = some last :=
      ⟨_, List.getLast?_eq_some_getLast (List.ne_nil_of_mem hmem)⟩
    have hstop := h.stop_le hmem
    rw [← h.stop_getLast hlast] at hstop
    exact Nat.le_trans hstop (hend last hlast)

/-- Offsets are refused if some place of blobs in memory ends beyond the limit. -/
theorem offsetsFrom_eq_overflow (h : Exact start blobs places)
    (hsize : ∀ entry ∈ blobs, entry.2.size < 2 ^ 63)
    (hstart : start ≤ limit)
    {place : Place} (hmem : place ∈ places) (hover : limit < place.stop) :
    offsetsFrom start blobs = .error (.error (.layoutOverflow limit)) := by
  have hrefused :=
    ofBlobs_eq_overflow h.alignment?_eq_some hsize hstart
      (Nat.lt_of_lt_of_le hover (h.stop_le hmem))
  rw [ofBlobs] at hrefused
  cases hoffsets : offsetsFrom start blobs with
  | ok offsets =>
      rw [hoffsets] at hrefused
      cases hrefused
  | error failure =>
      rw [hoffsets] at hrefused
      cases hrefused
      rfl

end Exact
end Placement

namespace FieldSet

/-- What the offsets of the blobs of a field set behind `start` bytes come to, by where the
blobs would end. -/
structure OffsetsDecided (fields : FieldSet) (start : Nat) (places : List Placement.Place) :
    Prop where
  exact : Placement.Exact start fields.blobs places
  unique : ∀ others, Placement.Exact start fields.blobs others → others = places
  given_iff :
    ∀ offsets,
      fields.outlineOffsets start = .ok offsets ↔
        (∀ place ∈ places, place.stop ≤ Placement.limit) ∧
          offsets.map UInt32.toNat = places.map Placement.Place.offset
  given :
    (∀ place ∈ places, place.stop ≤ Placement.limit) →
      ∃ offsets, fields.outlineOffsets start = .ok offsets
  last_decides :
    (∀ place ∈ places, place.stop ≤ Placement.limit) ↔
      ∀ last, places.getLast? = some last → last.stop ≤ Placement.limit
  refused :
    (¬ ∀ place ∈ places, place.stop ≤ Placement.limit) →
      fields.outlineOffsets start = .error (.error (.layoutOverflow Placement.limit))

/-- The offsets of a made field set behind any start that has 32 bits are those of the exact
places, or the field set is refused; nothing overflows.  Every layout has such a start for the
next field set, and field sets without blobs can do without it. -/
theorem Made.offsets_decided
    {fields : FieldSet} (hmade : fields.Made)
    (hmemory : fields.InMemory) :
    (∀ start ≤ Placement.limit, ∃ places, fields.OffsetsDecided start places) ∧
      (fields.blobs = [] → ∀ start, fields.outlineOffsets start = .ok []) ∧
      ∀ planner : Planner, planner.Reachable → planner.outline.length ≤ Placement.limit := by
  refine ⟨?_, ?_, fun planner hplanner => hplanner.invariant.outline_le⟩
  · intro start hstart
    obtain ⟨places, hexact⟩ := Placement.exists_exact hmade.exists_alignment start
    exact
      ⟨places,
        { exact := hexact
          unique := fun others => hexact.unique
          given_iff := fun offsets => hexact.offsetsFrom_eq_ok_iff
          given := hexact.exists_offsetsFrom
          last_decides := hexact.forall_stop_le_iff Placement.limit
          refused := by
            intro hnot
            push Not at hnot
            obtain ⟨place, hmem, hover⟩ := hnot
            exact hexact.offsetsFrom_eq_overflow hmemory hstart hmem hover }⟩
  · intro hblobs start
    rw [outlineOffsets, hblobs]
    rfl

/-- A blob without bytes stands at the last offset that its tag can have, and is refused if
it would be moved up to the limit. -/
theorem Made.offsets_decided_empty_blob :
    let blob : Blob := { id := 0, payload := .bytes [], alignment := 8 }
    let fields : FieldSet :=
      { slots := Slots.empty.set .genericComposition { value := .outOfLine blob } }
    fields.outlineOffsets 4294967288 = .ok [4294967288] ∧
      fields.outlineOffsets 4294967295 = .error (.error (.layoutOverflow 4294967295)) := by
  intro blob fields
  have hmade : fields.Made := by
    refine ⟨[⟨{}, .genericComposition, .outOfLine blob⟩], ?_⟩
    unfold fields blob
    rfl
  have hblobs : fields.blobs = [(.genericComposition, blob)] := rfl
  have hmemory : fields.InMemory := by
    rw [InMemory, hblobs]
    decide
  have hexact (start offset : Nat) (hoffset : alignUp 8 start = offset) :
      Placement.Exact start fields.blobs [{ offset := offset, stop := offset }] := by
    rw [hblobs]
    exact .cons rfl (hoffset ▸ Placement.isLeast_alignUp (by decide) start) (.nil _)
  obtain ⟨hstarts, -, -⟩ := hmade.offsets_decided hmemory
  constructor
  · obtain ⟨places, hdecided⟩ := hstarts 4294967288 (by decide)
    have hplaces := hdecided.unique _ (hexact _ 4294967288 (by decide))
    refine (hdecided.given_iff _).mpr ?_
    rw [← hplaces]
    decide
  · obtain ⟨places, hdecided⟩ := hstarts 4294967295 (by decide)
    have hplaces := hdecided.unique _ (hexact _ 4294967296 (by decide))
    refine hdecided.refused ?_
    rw [← hplaces]
    decide

end FieldSet
end AnchoredFields

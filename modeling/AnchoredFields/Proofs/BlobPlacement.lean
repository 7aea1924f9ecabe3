import Mathlib.Algebra.Ring.Nat
import AnchoredFields.Layout.Placement
import AnchoredFields.Layout.Planner
import AnchoredFields.Proofs.ByteRanges

/-!
# Where blobs are placed

Each blob goes to the least multiple of its alignment that is not below the end of
the blob before it.  The places are worked out in 64-bit numbers and kept in 32
bits; they are the ones that unbounded numbers would give, because a set of blobs
whose end is beyond the limit is refused as a whole.

* `Placement.ofBlobs_eq_ok_iff`: when places are given, and which ones;
* `Placement.ofBlobs_eq_overflow`: when they are refused;
* `Placement.Chain.outline`: the out-of-line data after the blobs were copied;
* `Ledger.offset?_placeAll_of_mem`: the ledger after they were recorded.
-/

namespace AnchoredFields
namespace Placement

/-- The tag and the blob of a placement. -/
def entry (placement : Placement) : Tag × Blob :=
  (placement.tag, placement.blob)

/-- The offset after the last byte of a placed blob. -/
def stop (placement : Placement) : Nat :=
  placement.offset.toNat + placement.blob.size

/-- A blob ends behind its last byte. -/
theorem offset_add_length (placement : Placement) :
    placement.offset.toNat + placement.blob.data.length = placement.stop := by
  rw [Blob.length_data, stop]

/-- Where blobs would end that are placed behind `start` bytes, in unbounded numbers. -/
def stopOf (start : Nat) : List (Tag × Blob) → Nat
  | [] => start
  | (tag, blob) :: rest => stopOf (alignUp (alignmentOf tag blob) start + blob.size) rest

/-- Placements that follow one another without a gap wider than their alignment asks for. -/
inductive Chain : Nat → List Placement → Nat → Prop
  | nil (start : Nat) : Chain start [] start
  | cons
      {start stop : Nat} {placement : Placement} {rest : List Placement}
      (hoffset :
        placement.offset.toNat = alignUp (alignmentOf placement.tag placement.blob) start)
      (hrest : Chain placement.stop rest stop) :
      Chain start (placement :: rest) stop

/-- Every blob is placed at an alignment, which is a positive number. -/
def Alignable (blobs : List (Tag × Blob)) : Prop :=
  ∀ entry ∈ blobs, 0 < alignmentOf entry.1 entry.2

theorem Alignable.tail {entry : Tag × Blob} {rest : List (Tag × Blob)}
    (h : Alignable (entry :: rest)) :
    Alignable rest :=
  fun next hnext => h next (List.mem_cons_of_mem entry hnext)

theorem alignmentOf_eq {tag : Tag} {blob : Blob} {a : Nat} (h : tag.alignment? = some a) :
    alignmentOf tag blob = a := by
  rw [alignmentOf, h, Option.getD_some]

/-- Blobs under tags that prescribe an alignment can be aligned. -/
theorem alignable_of_exists {blobs : List (Tag × Blob)}
    (h : ∀ entry ∈ blobs, ∃ a, entry.1.alignment? = some a) :
    Alignable blobs := by
  intro entry hentry
  obtain ⟨a, ha⟩ := h entry hentry
  rw [alignmentOf_eq ha]
  exact Tag.alignment?_pos ha

theorem le_stopOf {blobs : List (Tag × Blob)} (h : Alignable blobs) (start : Nat) :
    start ≤ stopOf start blobs := by
  induction blobs generalizing start with
  | nil =>
      exact Nat.le_refl start
  | cons entry rest ih =>
      obtain ⟨tag, blob⟩ := entry
      have halign : 0 < alignmentOf tag blob := h (tag, blob) List.mem_cons_self
      have hup := le_alignUp halign start
      have hlater := ih h.tail (alignUp (alignmentOf tag blob) start + blob.size)
      rw [stopOf]
      omega

/-- Places blobs one after the other, the first one not before `start`. -/
def ofBlobs (start : Nat) (blobs : List (Tag × Blob)) : Except Failure (List Placement) :=
  pair blobs <$> offsetsFrom start blobs

/-- The offset of one blob is worked out, then those of the others behind it. -/
theorem offsetsFrom_cons
    {tag : Tag} {blob : Blob}
    (halign : 0 < alignmentOf tag blob)
    (start : Nat)
    (rest : List (Tag × Blob)) :
    offsetsFrom start ((tag, blob) :: rest) =
      let offset := alignUp (alignmentOf tag blob) start
      if UInt64.size ≤ offset + blob.size then
        .error (.fault .overflow)
      else if limit < offset + blob.size then
        .error (.error (.layoutOverflow limit))
      else
        match offsetsFrom (offset + blob.size) rest with
        | .ok later => .ok (UInt32.ofNat offset :: later)
        | .error failure => .error failure := by
  have hup := le_alignUp halign start
  have hgap :
      start + (alignUp (alignmentOf tag blob) start - start) =
        alignUp (alignmentOf tag blob) start := by
    omega
  simp only [offsetsFrom, sum64, hgap]
  by_cases hoffset : alignUp (alignmentOf tag blob) start < UInt64.size
  · rw [if_pos hoffset]
    simp only [liftM_fault_ok, bind, Except.bind]
    by_cases hstop : UInt64.size ≤ alignUp (alignmentOf tag blob) start + blob.size
    · rw [if_pos hstop, if_neg (Nat.not_lt.mpr hstop)]
      rfl
    · rw [if_neg hstop, if_pos (Nat.not_le.mp hstop)]
      simp only [liftM_fault_ok]
      by_cases hlimit : limit < alignUp (alignmentOf tag blob) start + blob.size
      · rw [if_pos hlimit, if_pos hlimit]
        rfl
      · rw [if_neg hlimit, if_neg hlimit]
        cases offsetsFrom (alignUp (alignmentOf tag blob) start + blob.size) rest <;> rfl
  · rw [if_neg hoffset, if_pos (by omega)]
    rfl

/-- Offsets are given if the first blob ends within the limit and the others are placed
behind it. -/
theorem offsetsFrom_cons_eq_ok_iff
    {tag : Tag} {blob : Blob}
    (halign : 0 < alignmentOf tag blob)
    {start : Nat} {rest : List (Tag × Blob)} {offsets : List UInt32} :
    offsetsFrom start ((tag, blob) :: rest) = .ok offsets ↔
      let offset := alignUp (alignmentOf tag blob) start
      offset + blob.size ≤ limit ∧
        ∃ later,
          offsetsFrom (offset + blob.size) rest = .ok later ∧
            offsets = UInt32.ofNat offset :: later := by
  have hlimit : limit = 2 ^ 32 - 1 := rfl
  have hwords : UInt64.size = 2 ^ 64 := rfl
  rw [offsetsFrom_cons halign]
  simp only
  by_cases hle : alignUp (alignmentOf tag blob) start + blob.size ≤ limit
  · rw [if_neg (by omega), if_neg (Nat.not_lt.mpr hle)]
    cases offsetsFrom (alignUp (alignmentOf tag blob) start + blob.size) rest with
    | error failure =>
        simp
    | ok later =>
        simp [hle, eq_comm]
  · constructor
    · intro h
      by_cases hwide : UInt64.size ≤ alignUp (alignmentOf tag blob) start + blob.size
      · rw [if_pos hwide] at h
        cases h
      · rw [if_neg hwide, if_pos (Nat.not_le.mp hle)] at h
        cases h
    · rintro ⟨hfits, -⟩
      exact absurd hfits hle

/-- One blob is placed, then the others behind it. -/
theorem ofBlobs_cons
    {tag : Tag} {blob : Blob}
    (halign : 0 < alignmentOf tag blob)
    (start : Nat)
    (rest : List (Tag × Blob)) :
    ofBlobs start ((tag, blob) :: rest) =
      let offset := alignUp (alignmentOf tag blob) start
      if UInt64.size ≤ offset + blob.size then
        .error (.fault .overflow)
      else if limit < offset + blob.size then
        .error (.error (.layoutOverflow limit))
      else
        match ofBlobs (offset + blob.size) rest with
        | .ok later => .ok ({ tag := tag, blob := blob, offset := UInt32.ofNat offset } :: later)
        | .error failure => .error failure := by
  rw [ofBlobs, offsetsFrom_cons halign]
  simp only [ofBlobs]
  split
  · rfl
  split
  · rfl
  cases offsetsFrom (alignUp (alignmentOf tag blob) start + blob.size) rest <;> rfl

/-- Places are given exactly if offsets are. -/
theorem ofBlobs_eq_ok_iff_offsetsFrom {start : Nat} {blobs : List (Tag × Blob)}
    {placements : List Placement} :
    ofBlobs start blobs = .ok placements ↔
      ∃ offsets, offsetsFrom start blobs = .ok offsets ∧ placements = pair blobs offsets := by
  rw [ofBlobs]
  cases offsetsFrom start blobs with
  | error failure =>
      simp
  | ok offsets =>
      simp [eq_comm]

/-- Places are given if the first blob ends within the limit and the others are placed
behind it. -/
theorem ofBlobs_cons_eq_ok_iff
    {tag : Tag} {blob : Blob}
    (halign : 0 < alignmentOf tag blob)
    {start : Nat} {rest : List (Tag × Blob)} {placements : List Placement} :
    ofBlobs start ((tag, blob) :: rest) = .ok placements ↔
      let offset := alignUp (alignmentOf tag blob) start
      offset + blob.size ≤ limit ∧
        ∃ later,
          ofBlobs (offset + blob.size) rest = .ok later ∧
            placements = { tag := tag, blob := blob, offset := UInt32.ofNat offset } :: later := by
  simp only [ofBlobs_eq_ok_iff_offsetsFrom, offsetsFrom_cons_eq_ok_iff halign]
  constructor
  · rintro ⟨offsets, ⟨hle, later, hlater, rfl⟩, rfl⟩
    exact ⟨hle, _, ⟨later, hlater, rfl⟩, rfl⟩
  · rintro ⟨hle, placed, ⟨later, hlater, rfl⟩, rfl⟩
    exact ⟨_, ⟨hle, later, hlater, rfl⟩, rfl⟩

/-- Places are given exactly if the last blob ends within the limit, and then they follow
one another. -/
theorem ofBlobs_eq_ok_iff
    {blobs : List (Tag × Blob)} {start : Nat} {placements : List Placement}
    (halign : Alignable blobs)
    (hstart : start ≤ limit) :
    ofBlobs start blobs = .ok placements ↔
      placements.map entry = blobs ∧
        Chain start placements (stopOf start blobs) ∧ stopOf start blobs ≤ limit := by
  induction blobs generalizing start placements with
  | nil =>
      rw [ofBlobs, stopOf]
      constructor
      · intro h
        cases h
        exact ⟨rfl, .nil start, hstart⟩
      · rintro ⟨hentries, -, -⟩
        rw [List.map_eq_nil_iff.mp hentries]
        rfl
  | cons first rest ih =>
      obtain ⟨tag, blob⟩ := first
      have hfirst : 0 < alignmentOf tag blob := halign (tag, blob) List.mem_cons_self
      have hlimit : limit = 2 ^ 32 - 1 := rfl
      rw [ofBlobs_cons_eq_ok_iff hfirst, stopOf]
      constructor
      · rintro ⟨hle, later, hof, rfl⟩
        obtain ⟨hentries, hchain, hstop⟩ := (ih halign.tail hle).mp hof
        have hoffset : alignUp (alignmentOf tag blob) start < 2 ^ 32 := by omega
        have hword :
            (UInt32.ofNat (alignUp (alignmentOf tag blob) start)).toNat =
              alignUp (alignmentOf tag blob) start :=
          UInt32.toNat_ofNat_of_lt' hoffset
        refine ⟨by rw [List.map_cons, hentries]; rfl, .cons hword ?_, hstop⟩
        rw [Placement.stop, hword]
        exact hchain
      · rintro ⟨hentries, hchain, hstop⟩
        have hle := le_stopOf halign.tail (alignUp (alignmentOf tag blob) start + blob.size)
        obtain ⟨placement, later, rfl, hentry, hmapped⟩ := List.map_eq_cons_iff.mp hentries
        obtain ⟨tag', blob', offset⟩ := placement
        cases hentry
        cases hchain with
        | cons hword hrest =>
            rw [Placement.stop, hword] at hrest
            have hof := (ih halign.tail (Nat.le_trans hle hstop)).mpr ⟨hmapped, hrest, hstop⟩
            refine ⟨Nat.le_trans hle hstop, later, hof, ?_⟩
            rw [← hword, UInt32.ofNat_toNat]

/-- Places are given to blobs that end within the limit. -/
theorem exists_ofBlobs
    {blobs : List (Tag × Blob)} {start : Nat}
    (halign : Alignable blobs)
    (hstop : stopOf start blobs ≤ limit) :
    ∃ placements, ofBlobs start blobs = .ok placements := by
  induction blobs generalizing start with
  | nil =>
      exact ⟨[], rfl⟩
  | cons first rest ih =>
      obtain ⟨tag, blob⟩ := first
      have hfirst : 0 < alignmentOf tag blob := halign (tag, blob) List.mem_cons_self
      have hle := le_stopOf halign.tail (alignUp (alignmentOf tag blob) start + blob.size)
      rw [stopOf] at hstop
      obtain ⟨later, hof⟩ := ih halign.tail hstop
      exact ⟨_, (ofBlobs_cons_eq_ok_iff hfirst).mpr ⟨Nat.le_trans hle hstop, later, hof, rfl⟩⟩

/-- Blobs that end beyond the limit are refused, if their sizes are those of bytes in memory. -/
theorem ofBlobs_eq_overflow
    {blobs : List (Tag × Blob)} {start : Nat}
    (halign : ∀ entry ∈ blobs, ∃ a, entry.1.alignment? = some a)
    (hsize : ∀ entry ∈ blobs, entry.2.size < 2 ^ 63)
    (hstart : start ≤ limit)
    (hstop : limit < stopOf start blobs) :
    ofBlobs start blobs = .error (.error (.layoutOverflow limit)) := by
  induction blobs generalizing start with
  | nil =>
      exact absurd hstop (Nat.not_lt.mpr hstart)
  | cons first rest ih =>
      obtain ⟨tag, blob⟩ := first
      obtain ⟨a, ha⟩ := halign (tag, blob) List.mem_cons_self
      have hpos : 0 < alignmentOf tag blob := by
        rw [alignmentOf_eq ha]
        exact Tag.alignment?_pos ha
      have hmax : alignmentOf tag blob ≤ 16 := by
        rw [alignmentOf_eq ha]
        exact Nat.le_of_dvd (by decide) (Tag.alignment?_dvd_maxAlignment ha)
      have hblob : blob.size < 2 ^ 63 := hsize (tag, blob) List.mem_cons_self
      have hup := alignUp_lt hpos start
      have hlimit : limit = 2 ^ 32 - 1 := rfl
      have hwords : UInt64.size = 2 ^ 64 := rfl
      rw [ofBlobs_cons hpos]
      simp only
      rw [if_neg (by omega)]
      by_cases hover : limit < alignUp (alignmentOf tag blob) start + blob.size
      · rw [if_pos hover]
      · rw [if_neg hover]
        rw [stopOf] at hstop
        rw [ih (fun entry hentry => halign entry (List.mem_cons_of_mem _ hentry))
          (fun entry hentry => hsize entry (List.mem_cons_of_mem _ hentry))
          (Nat.not_lt.mp hover) hstop]

namespace Chain

variable {start stop : Nat} {placements : List Placement}

theorem le_stop (h : Chain start placements stop)
    (halign : Alignable (placements.map entry)) :
    start ≤ stop := by
  induction h with
  | nil start =>
      exact Nat.le_refl start
  | @cons start stop placement rest hoffset _ ih =>
      have hpos : 0 < alignmentOf placement.tag placement.blob :=
        halign placement.entry List.mem_cons_self
      have hup := le_alignUp hpos start
      have hlater := ih halign.tail
      rw [Placement.stop] at hlater
      omega

/-- Every placed blob stands at its alignment, behind the start and before the stop. -/
theorem bounds (h : Chain start placements stop)
    (halign : Alignable (placements.map entry))
    {placement : Placement} (hmem : placement ∈ placements) :
    start ≤ placement.offset.toNat ∧ placement.stop ≤ stop ∧
      alignmentOf placement.tag placement.blob ∣ placement.offset.toNat := by
  induction h with
  | nil start =>
      cases hmem
  | @cons start stop first rest hoffset hrest ih =>
      have hpos : 0 < alignmentOf first.tag first.blob :=
        halign first.entry List.mem_cons_self
      have hup := le_alignUp hpos start
      have hstop := hrest.le_stop halign.tail
      rcases List.mem_cons.mp hmem with rfl | hlater
      · refine ⟨by omega, hstop, ?_⟩
        rw [hoffset]
        exact dvd_alignUp _ start
      · obtain ⟨hbehind, hbefore, hdvd⟩ := ih halign.tail hlater
        rw [Placement.stop] at hbehind
        exact ⟨by omega, hbefore, hdvd⟩

end Chain
end Placement

/-- The blobs met along the slots are those in declaration order, so each of them takes the
offset that was worked out for it. -/
theorem FieldSet.placements_eq (fields : FieldSet) (start : Nat) :
    fields.placements start = Placement.ofBlobs start fields.blobs := by
  rw [placements, alongRow, Slots.alongRow_eq_present]
  rfl

/-- A field set is given places exactly if its last blob ends within the limit. -/
theorem FieldSet.placements_eq_ok_iff
    {fields : FieldSet} {start : Nat} {placements : List Placement}
    (halign : Placement.Alignable fields.blobs)
    (hstart : start ≤ Placement.limit) :
    fields.placements start = .ok placements ↔
      placements.map Placement.entry = fields.blobs ∧
        Placement.Chain start placements (Placement.stopOf start fields.blobs) ∧
        Placement.stopOf start fields.blobs ≤ Placement.limit := by
  rw [placements_eq, Placement.ofBlobs_eq_ok_iff halign hstart]

namespace Planner

/-- Copies placed blobs behind the out-of-line data. -/
def addBlobs (planner : Planner) (placements : List Placement) : Planner :=
  placements.foldl (fun planner placement => planner.addBlob placement.blob placement.offset)
    planner

@[simp] theorem addBlobs_cons
    (planner : Planner) (placement : Placement) (rest : List Placement) :
    planner.addBlobs (placement :: rest) =
      (planner.addBlob placement.blob placement.offset).addBlobs rest :=
  rfl

/-- Copying blobs changes the out-of-line data and the records of what was copied. -/
theorem addBlobs_eq (planner : Planner) (placements : List Placement) :
    planner.addBlobs placements =
      { planner with
        outline := (planner.addBlobs placements).outline
        records := (planner.addBlobs placements).records } := by
  induction placements generalizing planner with
  | nil =>
      rfl
  | cons placement rest ih =>
      rw [addBlobs_cons, ih]
      rfl

end Planner

/-- Copying a chain of blobs extends the out-of-line data to where the chain stops, and
each blob stands at its offset. -/
theorem Placement.Chain.outline
    {start stop : Nat} {placements : List Placement}
    (h : Chain start placements stop)
    (halign : Alignable (placements.map entry))
    {planner : Planner} (hlength : planner.outline.length = start) :
    (planner.addBlobs placements).outline.length = stop ∧
      planner.outline <+: (planner.addBlobs placements).outline ∧
      ∀ placement ∈ placements,
        StandsAt placement.blob.data placement.offset.toNat
          (planner.addBlobs placements).outline := by
  induction h generalizing planner with
  | nil start =>
      exact ⟨hlength, List.prefix_rfl, fun placement hmem => nomatch hmem⟩
  | @cons start stop first rest hoffset _ ih =>
      have hpos : 0 < alignmentOf first.tag first.blob :=
        halign first.entry List.mem_cons_self
      have hup := le_alignUp hpos start
      have hgap :
          (planner.outline ++
            List.replicate (first.offset.toNat - planner.outline.length) 0).length =
              first.offset.toNat := by
        rw [List.length_append, List.length_replicate]
        omega
      have hfirst :
          StandsAt first.blob.data first.offset.toNat
            (planner.addBlob first.blob first.offset).outline := by
        have hbehind :=
          StandsAt.behind
            (planner.outline ++
              List.replicate (first.offset.toNat - planner.outline.length) 0)
            first.blob.data []
        rw [hgap, List.append_nil] at hbehind
        exact hbehind
      have hnext :
          (planner.addBlob first.blob first.offset).outline.length = first.stop := by
        rw [Planner.addBlob, List.length_append, hgap, first.offset_add_length]
      have hmore :
          planner.outline <+: (planner.addBlob first.blob first.offset).outline := by
        rw [Planner.addBlob, List.append_assoc]
        exact List.prefix_append _ _
      obtain ⟨hstop, hlater, hstands⟩ := ih halign.tail hnext
      refine ⟨hstop, hmore.trans hlater, ?_⟩
      intro placement hmem
      rcases List.mem_cons.mp hmem with rfl | hrest
      · exact hfirst.extend hlater
      · exact hstands placement hrest

namespace Ledger

/-- Records where blobs are placed. -/
def placeAll (ledger : Ledger) (placements : List Placement) : Ledger :=
  placements.foldl (fun ledger placement => ledger.place placement.blob placement.offset) ledger

@[simp] theorem placeAll_nil (ledger : Ledger) : ledger.placeAll [] = ledger :=
  rfl

@[simp] theorem placeAll_cons
    (ledger : Ledger) (placement : Placement) (rest : List Placement) :
    ledger.placeAll (placement :: rest) =
      (ledger.place placement.blob placement.offset).placeAll rest :=
  rfl

/-- Blobs other than the recorded ones keep their entry. -/
theorem offset?_placeAll_of_not_mem
    {ledger : Ledger} {placements : List Placement} {blob : Blob}
    (h : ∀ placement ∈ placements, blob.id ≠ placement.blob.id) :
    (ledger.placeAll placements).offset? blob = ledger.offset? blob := by
  induction placements generalizing ledger with
  | nil =>
      rfl
  | cons first rest ih =>
      have hfirst : blob.id ≠ first.blob.id := h first List.mem_cons_self
      rw [placeAll_cons, ih fun placement hmem => h placement (List.mem_cons_of_mem _ hmem),
        offset?_place, if_neg hfirst]

/-- Every recorded blob is found at the offset it was recorded with. -/
theorem offset?_placeAll_of_mem
    {ledger : Ledger} {placements : List Placement}
    (hnodup : (placements.map fun placement => placement.blob.id).Nodup)
    {placement : Placement} (hmem : placement ∈ placements) :
    (ledger.placeAll placements).offset? placement.blob = some placement.offset := by
  induction placements generalizing ledger with
  | nil =>
      cases hmem
  | cons first rest ih =>
      rw [List.map_cons, List.nodup_cons] at hnodup
      rw [placeAll_cons]
      rcases List.mem_cons.mp hmem with rfl | hrest
      · rw [offset?_placeAll_of_not_mem, offset?_place, if_pos rfl]
        intro other hother heq
        exact hnodup.1 (List.mem_map.mpr ⟨other, hother, heq.symm⟩)
      · exact ih hnodup.2 hrest

end Ledger
end AnchoredFields

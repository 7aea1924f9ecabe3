import AnchoredFields.Layout.Encoding
import AnchoredFields.Proofs.BlobPlacement

/-!
# Placing blobs on a workbench

The blobs of a field set are placed one after the other, and each may be placed only
once.  Either all of them can be placed, or there is a first one that cannot: it was
placed before, or stands earlier in the list.

* `Ledger.allFresh_or_firstSpent`: one of the two holds;
* `Work.placeBlobs_eq`: blobs that can all be placed are;
* `Work.placeBlobs_spent`: otherwise the first one that cannot be is named.
-/

namespace AnchoredFields

namespace Work

@[simp] theorem bind_apply {α β : Type} (x : Work α) (f : α → Work β) (bench : Workbench) :
    (x >>= f) bench =
      match x bench with
      | .ok a next => f a next
      | .error failure next => .error failure next := by
  show EStateM.bind x f bench = _
  rw [EStateM.bind]
  cases x bench <;> rfl

@[simp] theorem pure_apply {α : Type} (a : α) (bench : Workbench) :
    (pure a : Work α) bench = .ok a bench :=
  rfl

@[simp] theorem planner_apply (bench : Workbench) :
    planner bench = .ok bench.planner bench :=
  rfl

@[simp] theorem change_apply (f : Planner → Planner) (bench : Workbench) :
    change f bench = .ok () { bench with planner := f bench.planner } :=
  rfl

@[simp] theorem report_apply (event : Event) (bench : Workbench) :
    report event bench = .ok () { bench with events := bench.events ++ [event] } :=
  rfl

@[simp] theorem guarded_ok {α : Type} (a : α) (bench : Workbench) :
    guarded (.ok a : Except Fault α) bench = .ok a bench :=
  rfl

/-! ### Blobs -/

theorem placeBlob_fresh {placement : Placement} {bench : Workbench}
    (h : bench.ledger.isPlaced placement.blob = false) :
    placeBlob placement bench =
      .ok ()
        { planner := bench.planner.addBlob placement.blob placement.offset
          ledger := bench.ledger.place placement.blob placement.offset
          events :=
            bench.events ++
              [.blobPlaced placement.tag placement.blob.size placement.offset.toNat] } := by
  show (if bench.ledger.isPlaced placement.blob = true then _ else _ : Work Unit) bench = _
  rw [h]
  rfl

theorem placeBlob_placed {placement : Placement} {bench : Workbench}
    (h : bench.ledger.isPlaced placement.blob = true) :
    placeBlob placement bench = .error (.fault (.placedTwice placement.tag)) bench := by
  show (if bench.ledger.isPlaced placement.blob = true then _ else _ : Work Unit) bench = _
  rw [h]
  rfl

end Work

namespace Ledger

/-- A blob cannot be placed any more after those that are listed before it. -/
def Spent (ledger : Ledger) (earlier : List (Tag × Blob)) (blob : Blob) : Prop :=
  ledger.isPlaced blob = true ∨ ∃ entry ∈ earlier, entry.2.id = blob.id

/-- The blobs of a list can all be placed, one after the other. -/
def AllFresh (ledger : Ledger) (blobs : List (Tag × Blob)) : Prop :=
  (∀ entry ∈ blobs, ledger.isPlaced entry.2 = false) ∧
    (blobs.map fun entry => entry.2.id).Nodup

/-- A tag is the first one of a list whose blob cannot be placed. -/
def FirstSpent (ledger : Ledger) (blobs : List (Tag × Blob)) (tag : Tag) : Prop :=
  ∃ before blob after,
    blobs = before ++ (tag, blob) :: after ∧
      ledger.Spent before blob ∧ ledger.AllFresh before

theorem isPlaced_place (ledger : Ledger) (blob other : Blob) (offset : UInt32) :
    (ledger.place blob offset).isPlaced other =
      (decide (other.id = blob.id) || ledger.isPlaced other) := by
  rw [isPlaced, isPlaced, offset?_place]
  by_cases hid : other.id = blob.id
  · rw [if_pos hid, decide_eq_true hid]
    rfl
  · rw [if_neg hid, decide_eq_false hid]
    rfl

theorem isPlaced_placeAll
    {ledger : Ledger} {placements : List Placement} {blob : Blob} :
    (ledger.placeAll placements).isPlaced blob = true ↔
      ledger.Spent (placements.map Placement.entry) blob := by
  induction placements generalizing ledger with
  | nil =>
      simp [Spent]
  | cons first rest ih =>
      rw [placeAll_cons, ih, Spent, Spent, isPlaced_place]
      simp only [Bool.or_eq_true, decide_eq_true_eq, List.map_cons, List.mem_cons,
        exists_eq_or_imp, Placement.entry]
      constructor
      · rintro ((hid | hplaced) | hlater)
        · exact Or.inr (Or.inl hid.symm)
        · exact Or.inl hplaced
        · exact Or.inr (Or.inr hlater)
      · rintro (hplaced | hid | hlater)
        · exact Or.inl (Or.inr hplaced)
        · exact Or.inl (Or.inl hid.symm)
        · exact Or.inr hlater

theorem AllFresh.head
    {ledger : Ledger} {entry : Tag × Blob} {rest : List (Tag × Blob)}
    (h : ledger.AllFresh (entry :: rest)) :
    ledger.isPlaced entry.2 = false :=
  h.1 entry List.mem_cons_self

theorem AllFresh.tail
    {ledger : Ledger} {entry : Tag × Blob} {rest : List (Tag × Blob)}
    (h : ledger.AllFresh (entry :: rest)) (offset : UInt32) :
    (ledger.place entry.2 offset).AllFresh rest := by
  obtain ⟨hplaced, hnodup⟩ := h
  rw [List.map_cons, List.nodup_cons] at hnodup
  refine ⟨?_, hnodup.2⟩
  intro next hnext
  have hid : next.2.id ≠ entry.2.id := by
    intro heq
    exact hnodup.1 (List.mem_map.mpr ⟨next, hnext, heq⟩)
  rw [isPlaced_place, decide_eq_false hid, Bool.false_or]
  exact hplaced next (List.mem_cons_of_mem _ hnext)

/-- One more blob that is not spent leaves all of them to be placed. -/
theorem AllFresh.append_singleton
    {ledger : Ledger} {before : List (Tag × Blob)} {blob : Blob}
    (hfresh : ledger.AllFresh before) (hspent : ¬ ledger.Spent before blob)
    (tag : Tag) :
    ledger.AllFresh (before ++ [(tag, blob)]) := by
  refine ⟨?_, ?_⟩
  · intro next hnext
    rcases List.mem_append.mp hnext with hbefore | hlast
    · exact hfresh.1 next hbefore
    · rw [List.mem_singleton.mp hlast]
      exact Bool.eq_false_iff.mpr fun hplaced => hspent (Or.inl hplaced)
  · rw [List.map_append, List.nodup_append]
    refine ⟨hfresh.2, List.pairwise_singleton _ _, ?_⟩
    intro id hid last hlast
    obtain ⟨next, hnext, rfl⟩ := List.mem_map.mp hid
    rw [List.map_singleton, List.mem_singleton] at hlast
    rw [hlast]
    exact fun heq => hspent (Or.inr ⟨next, hnext, heq⟩)

/-- Behind blobs that can be placed, either all can be, or there is a first one that cannot. -/
theorem allFresh_or_firstSpent_append
    {ledger : Ledger} {before : List (Tag × Blob)} (hfresh : ledger.AllFresh before)
    (rest : List (Tag × Blob)) :
    ledger.AllFresh (before ++ rest) ∨ ∃ tag, ledger.FirstSpent (before ++ rest) tag := by
  induction rest generalizing before with
  | nil =>
      rw [List.append_nil]
      exact Or.inl hfresh
  | cons entry rest ih =>
      obtain ⟨tag, blob⟩ := entry
      by_cases hspent : ledger.Spent before blob
      · exact Or.inr ⟨tag, before, blob, rest, rfl, hspent, hfresh⟩
      · have hrest := ih (hfresh.append_singleton hspent tag)
        rw [List.append_assoc, List.singleton_append] at hrest
        exact hrest

/-- Either all blobs of a list can be placed, or there is a first one that cannot. -/
theorem allFresh_or_firstSpent (ledger : Ledger) (blobs : List (Tag × Blob)) :
    ledger.AllFresh blobs ∨ ∃ tag, ledger.FirstSpent blobs tag := by
  have hnil : ledger.AllFresh [] :=
    ⟨fun _ hentry => absurd hentry List.not_mem_nil, List.nodup_nil⟩
  exact allFresh_or_firstSpent_append hnil blobs

end Ledger

namespace Work

/-- Blobs that can be placed are, before the others. -/
theorem placeBlobs_append
    (bench : Workbench) {before : List Placement}
    (hfresh : bench.ledger.AllFresh (before.map Placement.entry))
    (rest : List Placement) :
    ∃ events,
      placeBlobs (before ++ rest) bench =
        placeBlobs rest
          { planner := bench.planner.addBlobs before
            ledger := bench.ledger.placeAll before
            events := events } := by
  induction before generalizing bench with
  | nil =>
      exact ⟨bench.events, rfl⟩
  | cons first before ih =>
      have hplaced : bench.ledger.isPlaced first.blob = false := hfresh.head
      have hfirst := placeBlob_fresh hplaced
      obtain ⟨events, hrest⟩ :=
        ih
          { planner := bench.planner.addBlob first.blob first.offset
            ledger := bench.ledger.place first.blob first.offset
            events :=
              bench.events ++ [.blobPlaced first.tag first.blob.size first.offset.toNat] }
          (hfresh.tail first.offset)
      refine ⟨events, ?_⟩
      rw [List.cons_append, placeBlobs, bind_apply, hfirst]
      exact hrest

theorem placeBlobs_eq
    (bench : Workbench) {placements : List Placement}
    (hfresh : bench.ledger.AllFresh (placements.map Placement.entry)) :
    ∃ events,
      placeBlobs placements bench =
        .ok ()
          { planner := (bench.planner.addBlobs placements).closeOutline
            ledger := bench.ledger.placeAll placements
            events := events } := by
  obtain ⟨events, h⟩ := placeBlobs_append bench hfresh []
  rw [List.append_nil] at h
  exact ⟨events, h⟩

/-- The first blob that cannot be placed is the one that placing blobs ends with. -/
theorem placeBlobs_spent
    {bench : Workbench} {placements : List Placement} {tag : Tag}
    (h : bench.ledger.FirstSpent (placements.map Placement.entry) tag) :
    ∃ next, placeBlobs placements bench = .error (.fault (.placedTwice tag)) next := by
  obtain ⟨before, blob, after, hsplit, hspent, hfresh⟩ := h
  obtain ⟨first, rest, rfl, rfl, hrest⟩ := List.map_eq_append_iff.mp hsplit
  obtain ⟨placement, later, rfl, hentry, -⟩ := List.map_eq_cons_iff.mp hrest
  obtain ⟨rfl, rfl⟩ : placement.tag = tag ∧ placement.blob = blob := by
    simpa [Placement.entry] using hentry
  obtain ⟨events, happend⟩ := placeBlobs_append bench hfresh (placement :: later)
  have hplaced : (bench.ledger.placeAll first).isPlaced placement.blob = true :=
    Ledger.isPlaced_placeAll.mpr hspent
  rw [happend, placeBlobs, bind_apply, placeBlob_placed hplaced]
  exact ⟨_, rfl⟩

end Work

end AnchoredFields

import AnchoredFields.Proofs.AddressSpace

/-!
# Handles of another layout

A handle is the number of a stream and does not tell which layout gave it out.  An image
rejects the numbers it has no stream for; every other handle is taken for its own handle of
that number, whoever gave it out.

* `Image.rejects_iff`, `Planner.Shows.rejects_iff`: which handles an image rejects;
* `Run.foreign_handles`: what the image of one run makes of the handles of another one.
-/

namespace AnchoredFields

/-- An image rejects a handle: it has no address for it, and takes it for none. -/
def Image.Rejects (image : Image) (handle : Handle) : Prop :=
  image.streamAddress handle = .error (.error (.unknownHandle handle.index)) ∧
    image.resolve (some handle) = .ok none

theorem Image.rejects_iff {image : Image} {handle : Handle} :
    image.Rejects handle ↔ image.streams[handle.index]? = none := by
  rw [Rejects, streamAddress, resolve]
  cases image.streams[handle.index]? with
  | none =>
      exact iff_of_true ⟨rfl, rfl⟩ rfl
  | some offset =>
      simp only [reduceCtorEq, iff_false, not_and]
      cases image.addressOf offset with
      | ok address =>
          simp
      | error fault =>
          simp

namespace Planner

variable {planner : Planner}

theorem not_mem_issued_iff {handle : Handle} :
    handle ∉ planner.issued ↔ planner.streamCount ≤ handle.index := by
  rw [mem_issued_iff, Nat.not_lt]

/-- The image of a layout rejects the handles that the layout did not give out. -/
theorem Shows.rejects_iff {image : Image} (h : planner.Shows image) (hinv : planner.Invariant)
    {handle : Handle} :
    image.Rejects handle ↔ handle ∉ planner.issued := by
  rw [Image.rejects_iff]
  constructor
  · intro hnone hissued
    obtain ⟨start, hpiece⟩ := hinv.exists_stream_piece hissued
    rw [h.offset_eq hinv hpiece] at hnone
    cases hnone
  · intro hforeign
    have hfiled : handle ∉ planner.regionPieces.filterMap Piece.handle? := by
      rw [handles_regionPieces]
      exact fun hmem => hforeign (hinv.filed_perm.mem_iff.mp hmem)
    rw [h.streams_eq, enterOffsets_of_not_mem hfiled, List.getElem?_eq_none_iff,
      List.length_replicate]
    exact not_mem_issued_iff.mp hforeign

end Planner

/-- What the image of the layout `other`, laid out by the calls `others`, makes of the handles that
were returned by the calls on another layout. -/
structure ForeignHandles (calls others : List Call) (other : Planner) (book : Ledger)
    (image : Image) : Prop where
  /-- A handle is rejected if the image has no stream of its number. -/
  rejects_iff :
    ∀ handle ∈ calls.filterMap Call.handle,
      image.Rejects handle ↔ other.streamCount ≤ handle.index
  /-- A handle that is not rejected equals one that the other calls returned, and leads to the
  fields of the call that returned that one. -/
  mistaken :
    ∀ handle ∈ calls.filterMap Call.handle, ¬ image.Rejects handle →
      ∃ twin ∈ others, twin.handle = some handle ∧ other.Locates book image handle twin.fields
  /-- All handles are rejected only if one of the layouts has given out none. -/
  all_rejected_iff :
    (∀ handle ∈ calls.filterMap Call.handle, image.Rejects handle) ↔
      calls.filterMap Call.handle = [] ∨ others.filterMap Call.handle = []

namespace Run

variable {calls others : List Call} {planner other : Planner} {ledger book : Ledger}
  {image : Image} {event : Event}

/-- The first handle of every layout that has given out a handle is the same. -/
theorem first_handle_mem (h : Run calls planner ledger)
    (hsome : calls.filterMap Call.handle ≠ []) :
    { index := 0 } ∈ calls.filterMap Call.handle := by
  rw [h.handles_eq] at hsome ⊢
  obtain ⟨handle, hissued⟩ := List.exists_mem_of_ne_nil _ hsome
  exact
    Planner.mem_issued_iff.mpr
      (Nat.lt_of_le_of_lt (Nat.zero_le _) (Planner.mem_issued_iff.mp hissued))

/-- The image of one run rejects the handles of another run that are beyond its own streams, and
takes all others for its own. -/
theorem foreign_handles (h : Run calls planner ledger) (hother : Run others other book)
    (hplace : other.place book = .ok (image, event)) :
    ForeignHandles calls others other book image := by
  have hshows := Planner.shows_place hplace
  have hrejects {handle : Handle} :
      image.Rejects handle ↔ handle ∉ others.filterMap Call.handle := by
    rw [hother.handles_eq]
    exact hshows.rejects_iff hother.invariant
  refine { rejects_iff := ?_, mistaken := ?_, all_rejected_iff := ?_ }
  · intro handle _
    rw [hrejects, hother.handles_eq]
    exact Planner.not_mem_issued_iff
  · intro handle _ haccepted
    have hgiven : handle ∈ others.filterMap Call.handle :=
      Decidable.not_not.mp fun hforeign => haccepted (hrejects.mpr hforeign)
    obtain ⟨twin, htwin, hhandle⟩ := List.mem_filterMap.mp hgiven
    exact ⟨twin, htwin, hhandle, hother.locates hshows htwin hhandle⟩
  · constructor
    · intro hall
      refine Decidable.or_iff_not_imp_left.mpr ?_
      intro hsome
      have hfirst := hrejects.mp (hall _ (h.first_handle_mem hsome))
      exact Decidable.not_not.mp fun hnone => hfirst (hother.first_handle_mem hnone)
    · rintro (hnone | hnone) handle hgiven
      · rw [hnone] at hgiven
        cases hgiven
      · refine hrejects.mpr ?_
        rw [hnone]
        exact List.not_mem_nil

/-- Of the handles of a layout of three streams, the image of a layout of one stream rejects the
last two and takes the first for its own. -/
theorem foreign_handles_of_one_stream :
    ∃ calls others planner other ledger book image event,
      Run calls planner ledger ∧
        Run others other book ∧
          other.place book = .ok (image, event) ∧
            calls.filterMap Call.handle =
              [{ index := 0 }, { index := 1 }, { index := 2 }] ∧
            others.filterMap Call.handle = [{ index := 0 }] ∧
            image.Rejects { index := 1 } ∧
            image.Rejects { index := 2 } ∧
            ¬ image.Rejects { index := 0 } ∧
            ∃ twin ∈ others,
              twin.fields.get .rareFlags = some { value := .inline 7 } ∧
                other.Locates book image { index := 0 } twin.fields := by
  obtain ⟨_, _, _, calls, planner, ledger, _, _, -, -, -, hlisted, hrun, -⟩ := exists_four_calls
  have hhandles :
      calls.filterMap Call.handle = [{ index := 0 }, { index := 1 }, { index := 2 }] := by
    have hfiltered := congrArg (List.filterMap Prod.snd) hlisted
    rw [List.filterMap_map] at hfiltered
    exact hfiltered
  have hnew : Planner.new { shift := 6 } = .ok { grid := { shift := 6 } } := rfl
  have hwrite : FieldSet.empty.write [⟨{}, .rareFlags, .inline 7⟩] = .ok _ := rfl
  have hone := (Run.new hnew {}).call ⟨_, hwrite⟩ [] rfl
  obtain ⟨others, other, book, image, event, hother, hplace, hflags, hfirst⟩ :
      ∃ others other book image event,
        Run others other book ∧
          other.place book = .ok (image, event) ∧
            others.map (fun call => call.fields.get .rareFlags) =
              [some { value := .inline 7 }] ∧
            others.filterMap Call.handle = [{ index := 0 }] :=
    ⟨_, _, _, _, _, hone, rfl, rfl, rfl⟩
  have hforeign := hrun.foreign_handles hother hplace
  -- The image has a stream for the first handle only.
  have hrejects (handle : Handle) (hgiven : handle ∈ calls.filterMap Call.handle) :
      image.Rejects handle ↔ handle ≠ { index := 0 } := by
    rw [hforeign.rejects_iff handle hgiven, ← Planner.not_mem_issued_iff, ← hother.handles_eq,
      hfirst, List.mem_singleton]
  have hgiven : { index := 0 } ∈ calls.filterMap Call.handle := by
    rw [hhandles]
    decide
  have haccepted : ¬ image.Rejects { index := 0 } := by
    rw [hrejects _ hgiven]
    exact fun hne => hne rfl
  obtain ⟨twin, htwin, -, hlocates⟩ := hforeign.mistaken _ hgiven haccepted
  have hflag : twin.fields.get .rareFlags ∈ [some { value := .inline 7 }] := by
    rw [← hflags]
    exact List.mem_map_of_mem htwin
  refine
    ⟨calls, others, planner, other, ledger, book, image, event, hrun, hother, hplace, hhandles,
      hfirst, ?_, ?_, haccepted, twin, htwin, List.mem_singleton.mp hflag, hlocates⟩
  · refine (hrejects _ ?_).mpr (by decide)
    rw [hhandles]
    decide
  · refine (hrejects _ ?_).mpr (by decide)
    rw [hhandles]
    decide

/-- Two layouts of one stream each: the handle of the former leads to the fields of the latter. -/
theorem mistaken_handle_of_two_layouts :
    ∃ calls others planner other ledger book image event handle address,
      Run calls planner ledger ∧
        Run others other book ∧
          other.place book = .ok (image, event) ∧
            handle ∈ calls.filterMap Call.handle ∧
              image.streamAddress handle = .ok address ∧
                image.resolve (some handle) = .ok (some address) ∧
                  calls.map (fun call => call.fields.get .rareFlags) = [none] ∧
                    others.map (fun call => call.fields.get .rareFlags) =
                      [some { value := .inline 7 }] := by
  have hnew : Planner.new { shift := 6 } = .ok { grid := { shift := 6 } } := rfl
  have hfirst : FieldSet.empty.write [⟨{}, .nullableValueOffset, .inline 260⟩] = .ok _ := rfl
  have hsecond : FieldSet.empty.write [⟨{}, .rareFlags, .inline 7⟩] = .ok _ := rfl
  have hone := (Run.new hnew {}).call ⟨_, hfirst⟩ [] rfl
  have htwo := (Run.new hnew {}).call ⟨_, hsecond⟩ [] rfl
  exact
    ⟨_, _, _, _, _, _, _, _, { index := 0 }, _, hone, htwo, rfl, List.mem_cons_self, rfl, rfl,
      rfl, rfl⟩

end Run
end AnchoredFields

import AnchoredFields.Proofs.EncodingRuns
import AnchoredFields.Proofs.ImagePlacing

/-!
# The out-of-line region of a run

The blobs of all calls stand one behind the other, in the order of the calls and,
within a call, in the order of the tags.  Each goes to the first place at its
alignment behind the blob before it, and between two blobs there are zeros only.

* `Placement.Chain.pairwise`, `Placement.Chain.least`: order and place of the blobs of
  a chain;
* `Placement.bytesFrom`: the bytes of a chain, gaps included;
* `Run.exists_outlined`: the chain of all blobs of a run;
* `Outlined.least`, `Outlined.ordered`, `Outlined.located`: what follows from the chain.
-/

namespace AnchoredFields

namespace Placement

/-- The offset after the last of some blobs, and `start` if there are none. -/
def endFrom (start : Nat) (placements : List Placement) : Nat :=
  (placements.getLast?.map stop).getD start

/-- The bytes of blobs that are placed behind `start` bytes, with zeros in the gaps. -/
def bytesFrom (start : Nat) : List Placement → List UInt8
  | [] => []
  | placement :: rest =>
      List.replicate (placement.offset.toNat - start) 0 ++
        (placement.blob.data ++ bytesFrom placement.stop rest)

/-- What a layout records of a placed blob. -/
def record (placement : Placement) : OutlineRecord :=
  { blob := placement.blob, offset := placement.offset }

theorem endFrom_cons (start : Nat) (first : Placement) (rest : List Placement) :
    endFrom start (first :: rest) = endFrom first.stop rest := by
  rw [endFrom, endFrom, List.getLast?_cons]
  cases rest.getLast? <;> rfl

theorem bytesFrom_append (start : Nat) (placements more : List Placement) :
    bytesFrom start (placements ++ more) =
      bytesFrom start placements ++ bytesFrom (endFrom start placements) more := by
  induction placements generalizing start with
  | nil =>
      rfl
  | cons first rest ih =>
      rw [List.cons_append, bytesFrom, bytesFrom, ih, endFrom_cons]
      simp only [List.append_assoc]

namespace Chain

variable {start middle stop : Nat} {placements more : List Placement}

theorem append (h : Chain start placements middle) (hmore : Chain middle more stop) :
    Chain start (placements ++ more) stop := by
  induction h with
  | nil start =>
      exact hmore
  | cons hoffset _ ih =>
      exact .cons hoffset (ih hmore)

/-- A chain in two parts is two chains. -/
theorem split (h : Chain start (placements ++ more) stop) :
    ∃ middle, Chain start placements middle ∧ Chain middle more stop := by
  induction placements generalizing start with
  | nil =>
      exact ⟨start, .nil start, h⟩
  | cons first rest ih =>
      cases h with
      | cons hoffset hrest =>
          obtain ⟨middle, hfront, hback⟩ := ih hrest
          exact ⟨middle, .cons hoffset hfront, hback⟩

/-- A chain ends behind its last blob. -/
theorem stop_eq (h : Chain start placements stop) : stop = endFrom start placements := by
  induction h with
  | nil start =>
      rfl
  | cons hoffset _ ih =>
      rw [ih, endFrom_cons]

/-- A chain ends where its blobs end in unbounded numbers. -/
theorem stop_eq_stopOf (h : Chain start placements stop) :
    stop = stopOf start (placements.map entry) := by
  induction h with
  | nil start =>
      rfl
  | cons hoffset _ ih =>
      rw [ih, List.map_cons, entry, stopOf, ← hoffset]
      rfl

/-- Every blob goes to the first multiple of its alignment behind the blobs before it. -/
theorem least {before after : List Placement} {placement : Placement}
    (h : Chain start (before ++ placement :: after) stop) :
    placement.offset.toNat =
      alignUp (alignmentOf placement.tag placement.blob) (endFrom start before) := by
  obtain ⟨middle, hbefore, hbehind⟩ := h.split
  cases hbehind with
  | cons hoffset _ =>
      rw [hoffset, hbefore.stop_eq]

/-- Every blob ends before the next one starts. -/
theorem pairwise (h : Chain start placements stop)
    (halign : Alignable (placements.map entry)) :
    placements.Pairwise fun first next => first.stop ≤ next.offset.toNat := by
  induction h with
  | nil start =>
      exact List.Pairwise.nil
  | cons hoffset hrest ih =>
      refine List.pairwise_cons.mpr ⟨?_, ih halign.tail⟩
      intro next hnext
      exact (hrest.bounds halign.tail hnext).1

theorem length_bytesFrom (h : Chain start placements stop)
    (halign : Alignable (placements.map entry)) :
    start + (bytesFrom start placements).length = stop := by
  induction h with
  | nil start =>
      rfl
  | @cons start stop first rest hoffset _ ih =>
      have hpos : 0 < alignmentOf first.tag first.blob :=
        halign first.entry List.mem_cons_self
      have hup := le_alignUp hpos start
      have hrest := ih halign.tail
      have hstop := first.offset_add_length
      rw [bytesFrom, List.length_append, List.length_append, List.length_replicate]
      omega

/-- Between the blobs of a chain there are zeros only. -/
theorem byte_between (h : Chain start placements stop)
    (halign : Alignable (placements.map entry))
    {i : Nat} (hle : start ≤ i) (hlt : i < stop)
    (hbetween : ∀ placement ∈ placements, i < placement.offset.toNat ∨ placement.stop ≤ i) :
    (bytesFrom start placements)[i - start]? = some 0 := by
  induction h with
  | nil start =>
      omega
  | @cons start stop first rest hoffset _ ih =>
      have hpos : 0 < alignmentOf first.tag first.blob :=
        halign first.entry List.mem_cons_self
      have hup := le_alignUp hpos start
      have hstop := first.offset_add_length
      rw [bytesFrom]
      rcases hbetween first List.mem_cons_self with hbefore | hbehind
      · rw [List.getElem?_append_left (by rw [List.length_replicate]; omega),
          List.getElem?_replicate_of_lt (by omega)]
      · have hrest :=
          ih halign.tail hbehind hlt fun p hp => hbetween p (List.mem_cons_of_mem _ hp)
        rw [List.getElem?_append_right (by rw [List.length_replicate]; omega),
          List.getElem?_append_right (by rw [List.length_replicate]; omega),
          List.length_replicate]
        rw [← hrest]
        congr 1
        omega

end Chain

end Placement

namespace Planner

/-- Copying a chain of blobs appends its bytes and records every blob. -/
theorem addBlobs_chain
    {start stop : Nat} {placements : List Placement}
    (h : Placement.Chain start placements stop)
    (halign : Placement.Alignable (placements.map Placement.entry))
    {planner : Planner} (hlength : planner.outline.length = start) :
    (planner.addBlobs placements).outline =
        planner.outline ++ Placement.bytesFrom start placements ∧
      (planner.addBlobs placements).records =
        planner.records ++ placements.map Placement.record := by
  induction h generalizing planner with
  | nil start =>
      exact ⟨(List.append_nil _).symm, (List.append_nil _).symm⟩
  | @cons start stop first rest hoffset _ ih =>
      have hpos : 0 < Placement.alignmentOf first.tag first.blob :=
        halign first.entry List.mem_cons_self
      have hup := le_alignUp hpos start
      have hnext : (planner.addBlob first.blob first.offset).outline.length = first.stop := by
        have hsize := first.offset_add_length
        rw [addBlob, List.length_append, List.length_append, List.length_replicate]
        omega
      obtain ⟨houtline, hrecords⟩ := ih halign.tail hnext
      constructor
      · rw [addBlobs_cons, houtline, addBlob, hlength, Placement.bytesFrom]
        simp only [List.append_assoc]
      · rw [addBlobs_cons, hrecords, addBlob, List.map_cons, List.append_assoc]
        rfl

/-- What a layout keeps of an admitted field set among its out-of-line data. -/
theorem Placeable.outline_admitted
    {planner : Planner} {fields : FieldSet} {placements : List Placement}
    (h : planner.Placeable fields placements)
    (ledger : Ledger) (offset : UInt32) :
    let later := planner.admitted fields ledger placements offset
    later.outline =
        planner.outline ++ Placement.bytesFrom planner.outline.length placements ∧
      later.records = planner.records ++ placements.map Placement.record ∧
      later.statistics.outlineBytes = later.outline.length := by
  intro later
  obtain ⟨houtline, hrecords⟩ := addBlobs_chain h.chain h.alignable rfl
  have hlater :
      later.outline = (planner.addBlobs placements).outline ∧
        later.records = (planner.addBlobs placements).records ∧
        later.statistics.outlineBytes = (planner.addBlobs placements).outline.length := by
    show (planner.settled fields ledger placements offset).outline = _ ∧
      (planner.settled fields ledger placements offset).records = _ ∧
      (planner.settled fields ledger placements offset).statistics.outlineBytes = _
    rw [settled, settle_eq, copied_eq]
    exact ⟨rfl, rfl, rfl⟩
  obtain ⟨hsame, hrecorded, hcounted⟩ := hlater
  exact ⟨hsame.trans houtline, hrecorded.trans hrecords, by rw [hcounted, hsame]⟩

end Planner

/-- Each blob of a chain stands at its offset. -/
theorem Placement.Chain.standsAt
    {stop : Nat} {placements : List Placement}
    (h : Chain 0 placements stop)
    (halign : Alignable (placements.map entry))
    {placement : Placement} (hmem : placement ∈ placements) :
    StandsAt placement.blob.data placement.offset.toNat (bytesFrom 0 placements) := by
  let empty : Planner := { grid := {} }
  have hnone : empty.outline.length = 0 := rfl
  have hbytes : (empty.addBlobs placements).outline = [] ++ bytesFrom 0 placements :=
    (Planner.addBlobs_chain h halign hnone).1
  have hstands := (h.outline halign hnone).2.2 placement hmem
  rw [hbytes] at hstands
  exact hstands

/-- The placements of all blobs of a run, in the order of the calls and of the tags. -/
structure Outlined (calls : List Call) (planner : Planner) (ledger : Ledger)
    (placements : List Placement) : Prop where
  entries_eq : placements.map Placement.entry = calls.flatMap fun call => call.fields.blobs
  chain : Placement.Chain 0 placements planner.outline.length
  outline_eq : planner.outline = Placement.bytesFrom 0 placements
  records_eq : planner.records = placements.map Placement.record
  /-- The ledger has every blob where it was placed. -/
  offset_eq : ∀ placement ∈ placements, ledger.offset? placement.blob = some placement.offset
  /-- No blob is placed twice. -/
  ids_nodup : (placements.map fun placement => placement.blob.id).Nodup
  /-- The placements of each call are those that were worked out behind the blobs before it. -/
  own :
    ∀ call ∈ calls, ∃ before placed after,
      placements = before ++ (placed ++ after) ∧
        call.fields.placements (Placement.endFrom 0 before) = .ok placed

namespace Outlined

variable {calls : List Call} {planner : Planner} {ledger : Ledger}
  {placements : List Placement}

/-- More calls leave the placements of the earlier ones where they are. -/
theorem own_append (h : Outlined calls planner ledger placements) (more : List Placement) :
    ∀ call ∈ calls, ∃ before placed after,
      placements ++ more = before ++ (placed ++ after) ∧
        call.fields.placements (Placement.endFrom 0 before) = .ok placed := by
  intro call hcall
  obtain ⟨before, placed, after, rfl, hplaced⟩ := h.own call hcall
  exact ⟨before, placed, after ++ more, by simp only [List.append_assoc], hplaced⟩

/-- A call without blobs places nothing. -/
theorem idle (h : Outlined calls planner ledger placements)
    {call : Call} (hblobs : call.fields.blobs = [])
    {later : Planner}
    (houtline : later.outline = planner.outline)
    (hrecords : later.records = planner.records) :
    Outlined (calls ++ [call]) later ledger placements := by
  refine
    { entries_eq := ?_
      chain := houtline ▸ h.chain
      outline_eq := houtline.trans h.outline_eq
      records_eq := hrecords.trans h.records_eq
      offset_eq := h.offset_eq
      ids_nodup := h.ids_nodup
      own := ?_ }
  · rw [List.flatMap_append, List.flatMap_singleton, hblobs, List.append_nil]
    exact h.entries_eq
  · intro other hother
    rcases List.mem_append.mp hother with hearlier | hlast
    · exact h.own other hearlier
    · refine ⟨placements, [], [], by simp only [List.append_nil], ?_⟩
      rw [List.mem_singleton.mp hlast, FieldSet.placements_eq, hblobs]
      rfl

/-- The blobs of an admitted field set come behind all others. -/
theorem join (h : Outlined calls planner ledger placements)
    {call : Call} {first : Placement} {rest : List Placement}
    (hinv : planner.Invariant)
    (hfields : planner.Placeable call.fields (first :: rest))
    (hfresh : ledger.AllFresh call.fields.blobs) :
    let placed := ledger.placeAll (first :: rest)
    Outlined (calls ++ [call])
      (planner.admitted call.fields placed (first :: rest) first.offset) placed
      (placements ++ (first :: rest)) := by
  intro placed
  obtain ⟨houtline, hrecords, -⟩ := hfields.outline_admitted placed first.offset
  have hend : Placement.endFrom 0 placements = planner.outline.length :=
    h.chain.stop_eq.symm
  have hplaced : call.fields.placements planner.outline.length = .ok (first :: rest) :=
    hfields.placements_eq hinv
  have hledger : ledger.Extends placed :=
    Ledger.AllFresh.extends_placeAll (hfields.entries ▸ hfresh)
  have hstop := hfields.chain.length_bytesFrom hfields.alignable
  refine
    { entries_eq := ?_
      chain := ?_
      outline_eq := ?_
      records_eq := ?_
      offset_eq := ?_
      ids_nodup := ?_
      own := ?_ }
  · rw [List.map_append, List.flatMap_append, List.flatMap_singleton, h.entries_eq,
      hfields.entries]
  · rw [houtline, List.length_append, hstop]
    exact h.chain.append hfields.chain
  · rw [houtline, Placement.bytesFrom_append, hend, ← h.outline_eq]
  · rw [hrecords, h.records_eq, List.map_append]
  · intro placement hmem
    rcases List.mem_append.mp hmem with hearlier | hnew
    · exact hledger _ _ (h.offset_eq placement hearlier)
    · exact hfields.offset?_placeAll hfresh hnew
  · have hnodup := hfresh.2
    rw [← hfields.entries, List.map_map] at hnodup
    rw [List.map_append, List.nodup_append]
    refine ⟨h.ids_nodup, hnodup, ?_⟩
    rintro _ hearlier _ hnew rfl
    obtain ⟨other, hother, hid⟩ := List.mem_map.mp hearlier
    obtain ⟨placement, hmem, hsame⟩ := List.mem_map.mp hnew
    have hunplaced : ledger.isPlaced placement.blob = false := by
      refine hfresh.1 placement.entry ?_
      rw [← hfields.entries]
      exact List.mem_map_of_mem hmem
    have hoffset : ledger.offset? placement.blob = ledger.offset? other.blob :=
      congrArg ledger.placement (hsame.trans hid.symm)
    rw [Ledger.isPlaced, hoffset, h.offset_eq other hother] at hunplaced
    cases hunplaced
  · intro other hother
    rcases List.mem_append.mp hother with hearlier | hlast
    · exact h.own_append _ other hearlier
    · rw [List.mem_singleton.mp hlast]
      exact ⟨placements, first :: rest, [], by rw [List.append_nil], hend ▸ hplaced⟩

end Outlined

namespace Run

variable {calls : List Call} {planner : Planner} {ledger : Ledger}

/-- The blobs of a run form one chain. -/
theorem exists_outlined (h : Run calls planner ledger) :
    ∃ placements, Outlined calls planner ledger placements := by
  induction h using outcome_induction with
  | new grid ledger hvalid hrun =>
      exact
        ⟨[],
          { entries_eq := rfl
            chain := .nil 0
            outline_eq := rfl
            records_eq := rfl
            offset_eq := fun placement hmem => nomatch hmem
            ids_nodup := List.nodup_nil
            own := fun call hcall => nomatch hcall }⟩
  | meanwhile calls planner ledger later hbefore hledger hrun ih =>
      obtain ⟨placements, h⟩ := ih
      exact
        ⟨placements,
          { h with
            offset_eq := fun placement hmem => hledger _ _ (h.offset_eq placement hmem) }⟩
  | skipped calls planner ledger fields hbefore hempty call hrun ih =>
      obtain ⟨placements, h⟩ := ih
      exact ⟨placements, h.idle (FieldSet.blobs_eq_nil_of_isEmpty hempty) rfl rfl⟩
  | inlineOnly calls planner ledger fields hbefore hsome hblobs next call hrun ih =>
      obtain ⟨placements, h⟩ := ih
      exact ⟨placements, h.idle hblobs rfl rfl⟩
  | admitted calls planner ledger fields first rest hbefore hsome hfields hfresh
      placed next call hrun ih =>
      obtain ⟨placements, h⟩ := ih
      exact ⟨_, h.join hbefore.invariant hfields hfresh⟩

/-- The statistics count the bytes of the out-of-line data, gaps included. -/
theorem outlineBytes_eq (h : Run calls planner ledger) :
    planner.statistics.outlineBytes = planner.outline.length := by
  induction h using outcome_induction with
  | new grid ledger hvalid hrun =>
      rfl
  | meanwhile calls planner ledger later hbefore hledger hrun ih =>
      exact ih
  | skipped calls planner ledger fields hbefore hempty call hrun ih =>
      exact ih
  | inlineOnly calls planner ledger fields hbefore hsome hblobs next call hrun ih =>
      exact ih
  | admitted calls planner ledger fields first rest hbefore hsome hfields hfresh
      placed next call hrun ih =>
      exact (hfields.outline_admitted _ _).2.2

end Run

/-- A field that was located has the offset of its own placement. -/
theorem FieldSet.get_locate
    {fields : FieldSet} {placements : List Placement}
    (hentries : placements.map Placement.entry = fields.blobs)
    {placement : Placement} (hmem : placement ∈ placements) :
    (fields.locate placements).get placement.tag =
      some { value := .outOfLine placement.blob, offset := some placement.offset } := by
  have hblob : (placement.tag, placement.blob) ∈ fields.blobs := by
    rw [← hentries]
    exact List.mem_map_of_mem hmem
  obtain ⟨field, hget, hvalue⟩ := FieldSet.mem_blobs_iff.mp hblob
  have hfind := FieldSet.find?_placement hentries hmem
  show (fields.get placement.tag).map (locatedField placements placement.tag) = _
  rw [hget, Option.map_some, locatedField]
  simp only [hvalue, hfind, Option.map_some]

/-- Where the blobs of a run are, and the fields that refer to them. -/
structure OutlineRegion (calls : List Call) (planner : Planner) (ledger : Ledger)
    (placements : List Placement) : Prop
    extends Outlined calls planner ledger placements where
  /-- Each blob goes to the least multiple of its tag's alignment that is not below the end of
  the blob before it. -/
  least :
    ∀ before placement after, placements = before ++ placement :: after →
      ∃ a,
        placement.tag.alignment? = some a ∧
          a ∣ placement.offset.toNat ∧
          Placement.endFrom 0 before ≤ placement.offset.toNat ∧
          ∀ n, a ∣ n → Placement.endFrom 0 before ≤ n → placement.offset.toNat ≤ n
  ordered :
    placements.Pairwise fun first next =>
      first.offset ≤ next.offset ∧
        (first.blob.data ≠ [] → first.offset < next.offset) ∧
        first.stop ≤ next.offset.toNat
  /-- Each field of a call is located at the offset of its own blob. -/
  located :
    ∀ call ∈ calls, ∃ before placed after,
      placements = before ++ (placed ++ after) ∧
        call.fields.placements (Placement.endFrom 0 before) = .ok placed ∧
        ∀ tag blob, (tag, blob) ∈ call.fields.blobs →
          (call.fields.locate placed).get tag =
            some { value := .outOfLine blob, offset := ledger.offset? blob }
  size_eq : planner.statistics.outlineBytes = Placement.endFrom 0 placements
  size_le : planner.statistics.outlineBytes ≤ UInt32.size - 1

namespace Outlined

variable {calls : List Call} {planner : Planner} {ledger : Ledger}
  {placements : List Placement}

theorem alignable (h : Outlined calls planner ledger placements)
    (hrun : Run calls planner ledger) :
    Placement.Alignable (placements.map Placement.entry) := by
  intro entry hentry
  rw [h.entries_eq] at hentry
  obtain ⟨call, hcall, hblob⟩ := List.mem_flatMap.mp hentry
  exact (hrun.made hcall).alignable entry hblob

/-- The blobs of a run are placed as if they were those of one field set. -/
theorem ofBlobs_eq (h : Outlined calls planner ledger placements)
    (hrun : Run calls planner ledger) :
    Placement.ofBlobs 0 (calls.flatMap fun call => call.fields.blobs) = .ok placements := by
  have halign := h.alignable hrun
  have hstop := h.chain.stop_eq_stopOf
  have hlimit := hrun.invariant.outline_le
  have hchain := h.chain
  rw [h.entries_eq] at halign hstop
  rw [hstop] at hlimit hchain
  exact
    (Placement.ofBlobs_eq_ok_iff halign (Nat.zero_le _)).mpr ⟨h.entries_eq, hchain, hlimit⟩

/-- Every blob belongs to a call, and its tag grants the alignment. -/
theorem exists_alignment (h : Outlined calls planner ledger placements)
    (hrun : Run calls planner ledger)
    {placement : Placement} (hmem : placement ∈ placements) :
    ∃ a, placement.tag.alignment? = some a := by
  have hentry : placement.entry ∈ placements.map Placement.entry := List.mem_map_of_mem hmem
  rw [h.entries_eq] at hentry
  obtain ⟨call, hcall, hblob⟩ := List.mem_flatMap.mp hentry
  obtain ⟨a, ha, -⟩ := (hrun.made hcall).blob_alignment hblob
  exact ⟨a, ha⟩

theorem least (h : Outlined calls planner ledger placements)
    (hrun : Run calls planner ledger)
    {before after : List Placement} {placement : Placement}
    (hsplit : placements = before ++ placement :: after) :
    ∃ a,
      placement.tag.alignment? = some a ∧
        a ∣ placement.offset.toNat ∧
        Placement.endFrom 0 before ≤ placement.offset.toNat ∧
        ∀ n, a ∣ n → Placement.endFrom 0 before ≤ n → placement.offset.toNat ≤ n := by
  have hmem : placement ∈ placements := by
    rw [hsplit]
    exact List.mem_append_right _ List.mem_cons_self
  obtain ⟨a, ha⟩ := h.exists_alignment hrun hmem
  have hpos := Tag.alignment?_pos ha
  have hchain := h.chain
  rw [hsplit] at hchain
  have hoffset := hchain.least
  rw [Placement.alignmentOf_eq ha] at hoffset
  rw [hoffset]
  exact
    ⟨a, ha, dvd_alignUp _ _, le_alignUp hpos _, fun n hdvd hle => alignUp_le hpos hdvd hle⟩

theorem ordered (h : Outlined calls planner ledger placements)
    (hrun : Run calls planner ledger) :
    placements.Pairwise fun first next =>
      first.offset ≤ next.offset ∧
        (first.blob.data ≠ [] → first.offset < next.offset) ∧
        first.stop ≤ next.offset.toNat := by
  refine (h.chain.pairwise (h.alignable hrun)).imp ?_
  intro first next hstop
  have hsize := first.offset_add_length
  refine ⟨UInt32.le_iff_toNat_le.mpr (by omega), ?_, hstop⟩
  intro hdata
  have hpos := List.length_pos_iff.mpr hdata
  exact UInt32.lt_iff_toNat_lt.mpr (by omega)

theorem located (h : Outlined calls planner ledger placements)
    (hrun : Run calls planner ledger) {call : Call} (hcall : call ∈ calls) :
    ∃ before placed after,
      placements = before ++ (placed ++ after) ∧
        call.fields.placements (Placement.endFrom 0 before) = .ok placed ∧
        ∀ tag blob, (tag, blob) ∈ call.fields.blobs →
          (call.fields.locate placed).get tag =
            some { value := .outOfLine blob, offset := ledger.offset? blob } := by
  obtain ⟨before, placed, after, hsplit, hplaced⟩ := h.own call hcall
  refine ⟨before, placed, after, hsplit, hplaced, ?_⟩
  -- The blobs in front of the call end within the out-of-line data, so offsets reach there.
  have hstart : Placement.endFrom 0 before ≤ Placement.limit := by
    have hchain := h.chain
    have halign := h.alignable hrun
    rw [hsplit] at hchain halign
    obtain ⟨middle, hfront, hback⟩ := hchain.split
    rw [List.map_append] at halign
    have hle := hback.le_stop fun entry hentry => halign entry (List.mem_append_right _ hentry)
    rw [← hfront.stop_eq]
    exact Nat.le_trans hle hrun.invariant.outline_le
  obtain ⟨hentries, -, -⟩ :=
    (FieldSet.placements_eq_ok_iff (hrun.made hcall).alignable hstart).mp hplaced
  intro tag blob hblob
  rw [← hentries] at hblob
  obtain ⟨placement, hmem, hentry⟩ := List.mem_map.mp hblob
  cases hentry
  have hoffset : ledger.offset? placement.blob = some placement.offset := by
    refine h.offset_eq placement ?_
    rw [hsplit]
    exact List.mem_append_right _ (List.mem_append_left _ hmem)
  rw [hoffset]
  exact FieldSet.get_locate hentries hmem

end Outlined

end AnchoredFields

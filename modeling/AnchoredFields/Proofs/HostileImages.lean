import AnchoredFields.Image.Draft
import AnchoredFields.Proofs.CursorRuns

/-!
# Images that nobody vouches for

The bytes of an image, its base and the address of a stream may come from anywhere.  As long
as the alignment of the anchors is not zero, every accessor of a view ends with a value or an
error: the fields are read by steps that stay within the bytes, the anchor is read where the
masked address leads, if anything is there, and a sum that is no address is refused.

* `Image.readAnchor_of_holdsWord`, `Image.readAnchor_of_not_holdsWord`: reading an anchor at
  any address;
* `Image.follow_leads`: where a distance that was found in a stream leads;
* `View.exists_scans`: the steps of reading the fields of a view;
* `View.withstands`: no accessor of a view faults.
-/

namespace AnchoredFields

/-- A result that is a value or an error, so nothing faulted on the way to it. -/
inductive Settles {α : Type} : Except Failure α → Prop
  | value (a : α) : Settles (.ok a)
  | error (e : Error) : Settles (.error (.error e))

namespace Image

/-- All bytes of an anchor at an address lie within the image. -/
def HoldsWord (image : Image) (address : Address) : Prop :=
  image.base.toNat ≤ address.toNat ∧
    address.toNat + Width.eight.bytes ≤ image.base.toNat + image.size

/-- The number that the bytes of an anchor at an address store. -/
def wordAt (image : Image) (address : Address) : Nat :=
  LittleEndian.decode ((image.bytesFrom address).take Width.eight.bytes)

/-- An address with the bits cleared that are set in the number below the anchor alignment.
It is a multiple of the alignment if that is a power of two. -/
def mask (image : Image) (address : Address) : Address :=
  address &&& ~~~(image.anchorAlignment - 1)

variable {image : Image} {address : Address}

theorem anchorAddress_eq_mask (hspacing : image.anchorAlignment ≠ 0) (address : Address) :
    image.anchorAddress address = .ok (image.mask address) :=
  if_neg hspacing

theorem length_bytesFrom (image : Image) (address : Address) :
    (image.bytesFrom address).length = image.size - (address.toNat - image.base.toNat) :=
  List.length_drop

theorem HoldsWord.contains (h : image.HoldsWord address) : image.Contains address := by
  obtain ⟨hbase, hstop⟩ := h
  rw [Width.bytes] at hstop
  exact ⟨hbase, by omega⟩

/-- An anchor is read if the image holds all of its bytes. -/
theorem readAnchor_of_holdsWord (h : image.HoldsWord address) :
    ∃ anchor,
      image.readAnchor address = .ok anchor ∧ anchor.toNat = image.wordAt address := by
  have hslice := sliceFrom_of_contains h.contains
  obtain ⟨hbase, hstop⟩ := h
  have hlength : ((image.bytesFrom address).take Width.eight.bytes).length = Width.eight.bytes := by
    rw [List.length_take, length_bytesFrom]
    omega
  have hlt := LittleEndian.decode_lt ((image.bytesFrom address).take Width.eight.bytes)
  rw [hlength, Nat.one_shiftLeft] at hlt
  refine ⟨UInt64.ofBitVec (BitVec.ofNat 64 (image.wordAt address)), ?_, ?_⟩
  · simp only [readAnchor, hslice, bind, Except.bind, Word.decode, hlength, Nat.lt_irrefl,
      if_false]
    rfl
  · exact Nat.mod_eq_of_lt hlt

/-- An anchor whose bytes are not all there is not read: its address is refused, or what lies
there is too short. -/
theorem readAnchor_of_not_holdsWord (h : ¬ image.HoldsWord address) :
    image.readAnchor address =
      .error (if image.Contains address then .outOfBounds else .invalidAddress address.toNat) := by
  by_cases hcontains : image.Contains address
  · have hshort : (image.bytesFrom address).length < Width.eight.bytes := by
      rw [length_bytesFrom]
      rw [HoldsWord] at h
      rw [Contains] at hcontains
      omega
    simp only [readAnchor, sliceFrom_of_contains hcontains, bind, Except.bind,
      Word.decode_eq_error_iff.mpr ⟨hshort, rfl⟩, if_pos hcontains]
  · simp only [readAnchor, sliceFrom_of_not_contains hcontains, bind, Except.bind,
      if_neg hcontains]

/-- What comes of following a distance, counted in units of an alignment, from the anchor at
an address. -/
inductive Leads (image : Image) (anchorAddress : Address) (delta : UInt32) (alignment : Nat) :
    Except Failure (Option Address) → Prop
  | unreadable
      {e : Error}
      (hshort : ¬ image.HoldsWord anchorAddress)
      (hread : image.readAnchor anchorAddress = .error e) :
      Leads image anchorAddress delta alignment (.error (.error e))
  | tooFar
      {anchor : Address}
      (hword : image.HoldsWord anchorAddress)
      (hread : image.readAnchor anchorAddress = .ok anchor)
      (hanchor : anchor.toNat = image.wordAt anchorAddress)
      (hsum : UInt64.size ≤ anchor.toNat + delta.toNat * alignment) :
      Leads image anchorAddress delta alignment
        (.error (.error (.deltaOverflow delta.toNat anchor.toNat)))
  | reached
      {anchor target : Address}
      (hword : image.HoldsWord anchorAddress)
      (hread : image.readAnchor anchorAddress = .ok anchor)
      (hanchor : anchor.toNat = image.wordAt anchorAddress)
      (hsum : target.toNat = anchor.toNat + delta.toNat * alignment) :
      Leads image anchorAddress delta alignment (.ok (some target))

theorem Leads.settles {delta : UInt32} {alignment : Nat}
    {result : Except Failure (Option Address)}
    (h : image.Leads address delta alignment result) :
    Settles result := by
  cases h with
  | unreadable hshort hread =>
      exact .error _
  | tooFar hword hread hanchor hsum =>
      exact .error _
  | reached hword hread hanchor hsum =>
      exact .value _

/-- A distance is followed from the anchor at the masked address of the stream. -/
theorem follow_leads (hspacing : image.anchorAlignment ≠ 0) (stream : Address) (delta : UInt32)
    (alignment : Nat) :
    image.Leads (image.mask stream) delta alignment
      (some <$> image.follow stream delta alignment) := by
  rw [follow, anchorAddress_eq_mask hspacing]
  simp only [liftM_fault_ok, bind, Except.bind]
  by_cases hword : image.HoldsWord (image.mask stream)
  · obtain ⟨anchor, hread, hanchor⟩ := readAnchor_of_holdsWord hword
    rw [hread]
    simp only [liftM_error_ok]
    cases hafter : anchor.after? (delta.toNat * alignment) with
    | none =>
        simp only [View.blobAddress, hafter]
        refine .tooFar hword hread hanchor ?_
        rw [Address.after?] at hafter
        split at hafter
        · cases hafter
        · omega
    | some target =>
        simp only [View.blobAddress, hafter]
        exact .reached hword hread hanchor (Address.after?_eq_some_iff.mp hafter)
  · have hread := readAnchor_of_not_holdsWord hword
    rw [hread]
    exact .unreadable hword hread

end Image

/-- No distance is so long that it is no 64-bit number itself. -/
theorem Tag.delta_mul_alignment_lt {tag : Tag} {a : Nat} (ha : tag.alignment? = some a)
    (delta : UInt32) :
    delta.toNat * a < UInt64.size := by
  have hdelta := delta.toNat_lt_size
  have hle : a ≤ 16 := by
    cases tag <;> simp [alignment?, storage] at ha <;> omega
  have hmul := Nat.mul_le_mul_left delta.toNat hle
  simp only [UInt32.size, UInt64.size] at hdelta ⊢
  omega

namespace View

/-- The steps of reading the fields of a view, up to a field with a tag that is looked for:
none without a stream or outside the image, and otherwise steps at positions within the bytes
behind the address. -/
inductive Scans (view : View) (wanted : Tag → Prop) :
    List (Tag × UInt32) → Except Error Unit → Prop
  | null
      (haddress : view.address = none) :
      Scans view wanted [] (.ok ())
  | outside
      {address : Address}
      (haddress : view.address = some address)
      (houtside : ¬ view.image.Contains address) :
      Scans view wanted [] (.error (.invalidAddress address.toNat))
  | inside
      {address : Address} {fields : List (Tag × UInt32)} {stop : Except Error Unit}
      {last : Cursor}
      (haddress : view.address = some address)
      (hinside : view.image.Contains address)
      (hrun :
        Cursor.FieldRun wanted { bytes := view.image.bytesFrom address } fields stop last) :
      Scans view wanted fields stop

/-- Reading the fields of a view ends, whatever is looked for. -/
theorem exists_scans (view : View) (wanted : Tag → Prop) :
    ∃ fields stop, view.Scans wanted fields stop := by
  cases haddress : view.address with
  | none =>
      exact ⟨_, _, .null haddress⟩
  | some address =>
      by_cases hinside : view.image.Contains address
      · obtain ⟨fields, stop, last, hrun⟩ :=
          Cursor.exists_fieldRun wanted { bytes := view.image.bytesFrom address } (Nat.zero_le _)
        exact ⟨_, _, .inside haddress hinside hrun⟩
      · exact ⟨_, _, .outside haddress hinside⟩

namespace Scans

variable {view : View} {wanted : Tag → Prop} {fields : List (Tag × UInt32)}
  {stop : Except Error Unit}

/-- At most half as many fields are read as there are bytes behind the address. -/
theorem length_le {address : Address} (h : view.Scans wanted fields stop)
    (haddress : view.address = some address) :
    fields.length ≤ (view.image.bytesFrom address).length / 2 := by
  cases h with
  | null hnull =>
      exact Nat.zero_le _
  | outside hother houtside =>
      exact Nat.zero_le _
  | inside hother hinside hrun =>
      obtain rfl : _ = address := Option.some.inj (hother.symm.trans haddress)
      exact hrun.length_le

theorem rawFields_eq (h : view.Scans (fun _ => False) fields stop) :
    view.rawFields = stop.map fun _ => fields := by
  cases h with
  | null haddress =>
      exact (Decodes.null haddress).reads.1
  | outside haddress houtside =>
      exact (Decodes.outside haddress houtside).reads.1
  | @inside address _ _ last haddress hinside hrun =>
      have hraw := (reads_of_contains haddress hinside).1
      have hscan := hrun.scan_eq fun _ => id
      simp only [Cursor.ahead, List.drop_zero] at hscan
      rw [hraw, hscan]
      cases stop <;> rfl

theorem find_eq {tag : Tag} (h : view.Scans (fun t => t = tag) fields stop) :
    view.find tag = stop.map fun _ => FieldStream.firstValue tag fields := by
  cases h with
  | null haddress =>
      exact (Decodes.null haddress).reads.2 tag
  | outside haddress houtside =>
      exact (Decodes.outside haddress houtside).reads.2 tag
  | inside haddress hinside hrun =>
      have hfind := hrun.find_eq
      simp only [Cursor.ahead, List.drop_zero] at hfind
      simp only [find, haddress, Image.sliceFrom_of_contains hinside, bind, Except.bind]
      exact hfind

end Scans

theorem settles_valueOr {α : Type} [InlineValue α] (found : Except Error (Option UInt32))
    (default : α) :
    Settles (valueOr found default) := by
  rcases found with e | _ | number
  · exact .error e
  · exact .value default
  · exact .value _

/-- Every accessor of a view ends with a value or an error; `View.find` and `View.rawFields` can
end in no other way. -/
structure Settled (view : View) : Prop where
  inlineField :
    ∀ tag, tag.isInline = true → ∀ default, Settles (view.inlineField tag default)
  rareFlags : ∀ default, Settles (view.rareFlags default)
  dispatchMap : ∀ default, Settles (view.dispatchMap default)
  valueTypeFieldPadding : ∀ default, Settles (view.valueTypeFieldPadding default)
  nullableValueOffset : ∀ default, Settles (view.nullableValueOffset default)
  castableIsInstSlot : ∀ default, Settles (view.castableIsInstSlot default)
  castableGetImplTypeSlot : ∀ default, Settles (view.castableGetImplTypeSlot default)
  outOfLineField :
    ∀ tag a, tag.alignment? = some a → Settles (view.outOfLineField tag a)
  sealedVirtualSlots : Settles view.sealedVirtualSlots
  genericComposition : Settles view.genericComposition
  threadStaticInfo : Settles view.threadStaticInfo

/-- No accessor of a view faults, whatever its image holds. -/
structure Withstands (view : View) : Prop extends view.Settled where
  /-- All fields are read by steps within the bytes. -/
  rawFields_scans :
    ∃ fields stop,
      view.Scans (fun _ => False) fields stop ∧
        (view.rawFields = stop.map fun _ => fields) ∧
        ∀ address, view.address = some address →
          fields.length ≤ (view.image.bytesFrom address).length / 2
  /-- A tag is looked up by steps within the bytes. -/
  find_scans :
    ∀ tag, ∃ fields stop,
      view.Scans (fun t => t = tag) fields stop ∧
        (view.find tag = stop.map fun _ => FieldStream.firstValue tag fields) ∧
        ∀ address, view.address = some address →
          fields.length ≤ (view.image.bytesFrom address).length / 2
  /-- A distance that was found is a 64-bit number, and it is followed from the anchor at the
  masked address. -/
  found_leads :
    ∀ tag a delta, tag.alignment? = some a → view.find tag = .ok (some delta) →
      delta.toNat * a < UInt64.size ∧
        ∃ stream,
          view.address = some stream ∧
            view.image.Leads (view.image.mask stream) delta a (view.outOfLineField tag a)

/-- A distance that was found leads somewhere, or it is told why not. -/
theorem outOfLineField_leads {view : View} (hspacing : view.image.anchorAlignment ≠ 0)
    {tag : Tag} {a : Nat} {delta : UInt32}
    (ha : tag.alignment? = some a)
    (hfind : view.find tag = .ok (some delta)) :
    ∃ stream,
      view.address = some stream ∧
        view.image.Leads (view.image.mask stream) delta a (view.outOfLineField tag a) := by
  obtain ⟨stream, haddress⟩ := exists_address hfind
  refine ⟨stream, haddress, ?_⟩
  rw [outOfLineField_present ha hfind haddress]
  exact Image.follow_leads hspacing stream delta a

theorem settles_inlineField {view : View} {tag : Tag} (hinline : tag.isInline = true)
    (default : UInt32) :
    Settles (view.inlineField tag default) := by
  rw [inlineField_valueOr hinline]
  exact settles_valueOr _ default

theorem settles_inlineValue {view : View} {α : Type} [InlineValue α] [LawfulInlineValue α]
    {tag : Tag} (hinline : tag.isInline = true) (default : α) :
    Settles (view.inlineValue tag default) := by
  rw [inlineValue_valueOr hinline]
  exact settles_valueOr _ default

theorem settles_outOfLineField {view : View} (hspacing : view.image.anchorAlignment ≠ 0)
    {tag : Tag} {a : Nat} (ha : tag.alignment? = some a) :
    Settles (view.outOfLineField tag a) := by
  have htells : view.Tells view.find := tells_of_find fun _ => rfl
  cases hfind : view.find tag with
  | error e =>
      rw [htells.outOfLineField_error tag a e ha hfind]
      exact .error e
  | ok stored =>
      cases stored with
      | none =>
          rw [htells.outOfLineField_absent tag a ha hfind]
          exact .value none
      | some delta =>
          obtain ⟨stream, -, hleads⟩ := outOfLineField_leads hspacing ha hfind
          exact hleads.settles

theorem settled (view : View) (hspacing : view.image.anchorAlignment ≠ 0) : view.Settled where
  inlineField _ hinline := settles_inlineField hinline
  rareFlags := settles_inlineValue rfl
  dispatchMap := settles_inlineValue rfl
  valueTypeFieldPadding := settles_inlineValue rfl
  nullableValueOffset := settles_inlineValue rfl
  castableIsInstSlot := settles_inlineValue rfl
  castableGetImplTypeSlot := settles_inlineValue rfl
  outOfLineField _ _ ha := settles_outOfLineField hspacing ha
  sealedVirtualSlots := settles_outOfLineField hspacing rfl
  genericComposition := settles_outOfLineField hspacing rfl
  threadStaticInfo := settles_outOfLineField hspacing rfl

/-- No accessor of a view of any bytes faults, if the alignment of the anchors is not zero. -/
theorem withstands (view : View) (hspacing : view.image.anchorAlignment ≠ 0) :
    view.Withstands := by
  refine
    { view.settled hspacing with
      rawFields_scans := ?_
      find_scans := ?_
      found_leads := ?_ }
  · obtain ⟨fields, stop, hscans⟩ := view.exists_scans fun _ => False
    exact ⟨fields, stop, hscans, hscans.rawFields_eq, fun _ => hscans.length_le⟩
  · intro tag
    obtain ⟨fields, stop, hscans⟩ := view.exists_scans fun t => t = tag
    exact ⟨fields, stop, hscans, hscans.find_eq, fun _ => hscans.length_le⟩
  · intro tag a delta ha hfind
    exact ⟨Tag.delta_mul_alignment_lt ha delta, outOfLineField_leads hspacing ha hfind⟩

/-- At an address near the end of the address space and with an anchor alignment that is no
power of two, the anchor is read where the mask happens to lead. -/
theorem withstands_of_odd_alignment :
    let draft : Draft := { base := 0xFFFF_FFFF_FFFF_FFF0 }
    let bytes := [0xFF, 0xFF, 0x87, 0x08, 0x00, 0x00, 0x00, 0x10, 0x40]
    let image := (draft.append bytes).finish 3 []
    let view : View := { image := image, address := some 0xFFFF_FFFF_FFFF_FFF2 }
    image.anchorAlignment ≠ 0 ∧ view.Withstands ∧
      view.find .genericComposition = .ok (some 1) ∧
        view.genericComposition = .ok (some 0x1000_0000_0888_0007) := by
  intro draft bytes image view
  have hspacing : image.anchorAlignment ≠ 0 := by decide
  have hspells : Varint.Spells [0x08] 1 := .mk rfl (by decide) rfl
  have hstream :
      FieldStream.SpellsNumbers (0x87 :: [0x08]) [(.genericComposition, 1)] :=
    .last ⟨rfl, rfl⟩ hspells
  have hinside : image.Contains 0xFFFF_FFFF_FFFF_FFF2 := by decide
  have hbytes :
      image.bytesFrom 0xFFFF_FFFF_FFFF_FFF2 =
        (0x87 :: [0x08]) ++ [0x00, 0x00, 0x00, 0x10, 0x40] := by
    decide
  have hdecodes : view.Decodes [(.genericComposition, 1)] (.ok ()) :=
    .complete rfl hinside hbytes hstream
  have hfind : view.find .genericComposition = .ok (some 1) := hdecodes.reads.2 .genericComposition
  refine ⟨hspacing, view.withstands hspacing, hfind, ?_⟩
  rw [genericComposition, outOfLineField_present rfl hfind rfl]
  have hmask : image.anchorAddress 0xFFFF_FFFF_FFFF_FFF2 = .ok image.base := by decide
  have hread : image.readAnchor image.base = .ok 0x1000_0000_0887_FFFF := by decide
  have hsum : blobAddress 0x1000_0000_0887_FFFF 1 8 = .ok 0x1000_0000_0888_0007 := by decide
  show some <$> image.follow 0xFFFF_FFFF_FFFF_FFF2 1 8 = _
  simp only [Image.follow, hmask, hread, hsum, liftM_fault_ok, liftM_error_ok, bind, Except.bind]
  rfl

end View
end AnchoredFields

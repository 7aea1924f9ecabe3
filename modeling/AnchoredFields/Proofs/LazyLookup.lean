import AnchoredFields.Proofs.Lookup
import AnchoredFields.Proofs.ViewedStreams

/-!
# A look-up agrees with decoding all fields

Decoding goes on to the mark or to the first defect; a look-up stops at the first field of
its tag.  The look-up nevertheless answers from what decoding sees: with the value of the
first decoded field of the tag, even if a defect follows, and without such a field with what
decoding came to.  All accessors of a view rest on that one answer.

* `FieldStream.find_eq_lookUp`: a look-up in any bytes, for any reader of values;
* `View.Decodes`: the fields that a view decodes until it stops, and why it stops;
* `View.Tells`: what the accessors of a view make of the answers of its look-ups;
* `View.lookup_agrees`: a view tells of a tag what its decoded fields say.
-/

namespace AnchoredFields

namespace FieldStream

variable {α : Type}

/-- The value of the first field with a tag. -/
def firstValue (tag : Tag) (fields : List (Tag × α)) : Option α :=
  (fields.find? fun field => field.1 = tag).map Prod.snd

theorem firstValue_cons (tag : Tag) (field : Tag × α) (rest : List (Tag × α)) :
    firstValue tag (field :: rest) =
      if field.1 = tag then some field.2 else firstValue tag rest := by
  rw [firstValue, List.find?_cons]
  by_cases htag : field.1 = tag
  · simp [htag]
  · simp [htag, firstValue]

/-- What a look-up of a tag comes to behind some decoded fields: the first field of the tag
counts, and without one it matters why decoding stopped. -/
def lookUp (tag : Tag) (fields : List (Tag × α)) (stop : Except Error Unit) :
    Except Error (Option α) :=
  match firstValue tag fields with
  | some a => .ok (some a)
  | none => stop.map fun _ => none

theorem lookUp_cons (tag : Tag) (field : Tag × α) (rest : List (Tag × α))
    (stop : Except Error Unit) :
    lookUp tag (field :: rest) stop =
      if field.1 = tag then .ok (some field.2) else lookUp tag rest stop := by
  rw [lookUp, firstValue_cons]
  by_cases htag : field.1 = tag
  · rw [if_pos htag, if_pos htag]
  · rw [if_neg htag, if_neg htag, lookUp]

/-- Why a scan stopped. -/
def stopOf (seen : Scan α) : Except Error Unit :=
  seen.outcome.map fun _ => ()

/-- Decoding gives what a scan sees, unless it stops for an error. -/
theorem decode_eq_stopOf (value : Tag → Decoder α) (bytes : List UInt8) :
    decode value bytes = (stopOf (scan value bytes)).map fun _ => (scan value bytes).fields := by
  unfold decode stopOf
  simp only
  cases (scan value bytes).outcome <;> rfl

/-- A look-up answers from what a scan of the same bytes sees. -/
theorem find_eq_lookUp (value : Tag → Decoder α) (tag : Tag) (bytes : List UInt8) :
    find value tag bytes =
      lookUp tag (scan value bytes).fields (stopOf (scan value bytes)) := by
  -- Both loops take the same first field, so the look-up is followed from one field to the next.
  fun_induction find value tag bytes with
  | case1 =>
      rw [scan_nil]
      rfl
  | case2 b rest e hheader =>
      rw [scan_cons, hheader]
      rfl
  | case3 b rest header hheader e hvalue =>
      rw [scan_cons, hheader]
      simp only [hvalue]
      rfl
  | case4 b rest header hheader a taken hvalue htag =>
      rw [scan_cons, hheader]
      simp only [hvalue]
      cases header.last with
      | true =>
          rw [if_pos rfl, lookUp_cons, if_pos htag]
      | false =>
          rw [if_neg Bool.false_ne_true, prepend, List.singleton_append, lookUp_cons, if_pos htag]
  | case5 b rest header hheader a taken hvalue htag hlast =>
      rw [scan_cons, hheader]
      simp only [hvalue, if_pos hlast, lookUp_cons, if_neg htag]
      rfl
  | case6 b rest header hheader a taken hvalue htag hlast ih =>
      rw [scan_cons, hheader]
      simp only [hvalue, if_neg hlast, prepend, List.singleton_append, lookUp_cons, if_neg htag]
      exact ih

end FieldStream

/-- Where a distance that is stored in a stream leads: to a blob behind the anchor of the
stream. -/
def Image.follow (image : Image) (stream : Address) (delta : UInt32) (alignment : Nat) :
    Except Failure Address := do
  let anchorAddress ← (image.anchorAddress stream : Except Fault Address)
  let anchor ← (image.readAnchor anchorAddress : Except Error Address)
  let target ← (View.blobAddress anchor delta alignment : Except Error Address)
  return target

namespace View

/-- The fields that a view decodes completely until it stops, and why it stops: the mark, or an
error. -/
inductive Decodes (view : View) : List (Tag × UInt32) → Except Error Unit → Prop
  | null
      (haddress : view.address = none) :
      Decodes view [] (.ok ())
  | outside
      {address : Address}
      (haddress : view.address = some address)
      (houtside : ¬ view.image.Contains address) :
      Decodes view [] (.error (.invalidAddress address.toNat))
  | complete
      {address : Address} {stream rest : List UInt8} {fields : List (Tag × UInt32)}
      (haddress : view.address = some address)
      (hinside : view.image.Contains address)
      (hbytes : view.image.bytesFrom address = stream ++ rest)
      (hstream : FieldStream.SpellsNumbers stream fields) :
      Decodes view fields (.ok ())
  | defective
      {address : Address} {fields : List (Tag × UInt32)} {e : Error}
      (haddress : view.address = some address)
      (hinside : view.image.Contains address)
      (hdefect : FieldStream.DefectiveNumbers (view.image.bytesFrom address) fields e) :
      Decodes view fields (.error e)

/-- Every view decodes some fields, possibly none, until it stops. -/
theorem exists_decodes (view : View) : ∃ fields stop, view.Decodes fields stop := by
  cases haddress : view.address with
  | none =>
      exact ⟨_, _, .null haddress⟩
  | some address =>
      by_cases hinside : view.image.Contains address
      · rcases FieldStream.spells_or_defective (fun _ => Varint.exact_decode)
            (view.image.bytesFrom address) with
          ⟨stream, rest, fields, hbytes, hstream⟩ | ⟨fields, e, hdefect⟩
        · exact ⟨_, _, .complete haddress hinside hbytes hstream⟩
        · exact ⟨_, _, .defective haddress hinside hdefect⟩
      · exact ⟨_, _, .outside haddress hinside⟩

/-- What a view makes of the bytes at an address of its image. -/
theorem reads_of_contains {view : View} {address : Address}
    (haddress : view.address = some address)
    (hinside : view.image.Contains address) :
    let seen := FieldStream.scan (fun _ => Varint.decode) (view.image.bytesFrom address)
    (view.rawFields = (FieldStream.stopOf seen).map fun _ => seen.fields) ∧
      ∀ tag, view.find tag = FieldStream.lookUp tag seen.fields (FieldStream.stopOf seen) := by
  intro seen
  have hslice := Image.sliceFrom_of_contains hinside
  constructor
  · simp only [rawFields, haddress, hslice, bind, Except.bind]
    exact FieldStream.decode_eq_stopOf _ _
  · intro tag
    simp only [find, haddress, hslice, bind, Except.bind]
    exact FieldStream.find_eq_lookUp _ tag _

namespace Decodes

variable {view : View} {fields : List (Tag × UInt32)} {stop : Except Error Unit}

theorem reads (h : view.Decodes fields stop) :
    (view.rawFields = stop.map fun _ => fields) ∧
      ∀ tag, view.find tag = FieldStream.lookUp tag fields stop := by
  cases h with
  | null haddress =>
      constructor
      · simp only [rawFields, haddress]
        rfl
      · intro tag
        simp only [find, haddress]
        rfl
  | outside haddress houtside =>
      have hslice := Image.sliceFrom_of_not_contains houtside
      constructor
      · simp only [rawFields, haddress, hslice, bind, Except.bind]
        rfl
      · intro tag
        simp only [find, haddress, hslice, bind, Except.bind]
        rfl
  | complete haddress hinside hbytes hstream =>
      have hreads := reads_of_contains haddress hinside
      rwa [hbytes,
        FieldStream.scan_of_spells
          (FieldStream.reads_of_exact fun _ => Varint.exact_decode) hstream] at hreads
  | defective haddress hinside hdefect =>
      have hreads := reads_of_contains haddress hinside
      rwa [FieldStream.scan_of_defective (fun _ => Varint.exact_decode) hdefect] at hreads

end Decodes

/-- A number that was looked up, as a value of a type that may be narrower; the default is for
when there is none. -/
def valueOr {α : Type} [InlineValue α] (found : Except Error (Option UInt32)) (default : α) :
    Except Failure α :=
  match found with
  | .ok (some raw) => .ok (InlineValue.ofRaw raw)
  | .ok none => .ok default
  | .error e => .error (.error e)

/-- The accessors of a view answer from what a look-up of their tag comes to. -/
structure Tells (view : View) (found : Tag → Except Error (Option UInt32)) : Prop where
  find_eq : ∀ tag, view.find tag = found tag
  inlineField_eq :
    ∀ tag, tag.isInline = true →
      ∀ default, view.inlineField tag default = valueOr (found tag) default
  rareFlags_eq : ∀ default, view.rareFlags default = valueOr (found .rareFlags) default
  dispatchMap_eq : ∀ default, view.dispatchMap default = valueOr (found .dispatchMap) default
  valueTypeFieldPadding_eq :
    ∀ default,
      view.valueTypeFieldPadding default = valueOr (found .valueTypeFieldPadding) default
  nullableValueOffset_eq :
    ∀ default, view.nullableValueOffset default = valueOr (found .nullableValueOffset) default
  castableIsInstSlot_eq :
    ∀ default, view.castableIsInstSlot default = valueOr (found .castableIsInstSlot) default
  castableGetImplTypeSlot_eq :
    ∀ default,
      view.castableGetImplTypeSlot default = valueOr (found .castableGetImplTypeSlot) default
  /-- The accessor of an out-of-line tag asks for the alignment of the tag. -/
  outOfLine_eq :
    ∀ tag a, tag.alignment? = some a → view.outOfLine tag = view.outOfLineField tag a
  outOfLineField_error :
    ∀ tag a e, tag.alignment? = some a → found tag = .error e →
      view.outOfLineField tag a = .error (.error e)
  outOfLineField_absent :
    ∀ tag a, tag.alignment? = some a → found tag = .ok none →
      view.outOfLineField tag a = .ok none
  /-- A distance that was found is followed, so the field is not absent. -/
  outOfLineField_present :
    ∀ tag a delta, tag.alignment? = some a → found tag = .ok (some delta) →
      ∃ stream,
        view.address = some stream ∧
          view.outOfLineField tag a = some <$> view.image.follow stream delta a

section

variable {view : View} {found : Tag → Except Error (Option UInt32)}

/-- There is nothing to be found without a stream. -/
theorem exists_address {tag : Tag} {number : UInt32} (h : view.find tag = .ok (some number)) :
    ∃ stream, view.address = some stream := by
  rw [find] at h
  cases haddress : view.address with
  | none =>
      rw [haddress] at h
      cases h
  | some stream =>
      exact ⟨stream, rfl⟩

theorem inlineField_valueOr {tag : Tag} (hinline : tag.isInline = true) (default : UInt32) :
    view.inlineField tag default = valueOr (view.find tag) default := by
  rw [inlineField, if_pos hinline]
  rcases view.find tag with e | _ | number <;> rfl

theorem inlineValue_valueOr {α : Type} [InlineValue α] [LawfulInlineValue α] {tag : Tag}
    (hinline : tag.isInline = true) (default : α) :
    view.inlineValue tag default = valueOr (view.find tag) default := by
  rw [inlineValue, inlineField_valueOr hinline]
  rcases view.find tag with e | _ | number
  · rfl
  · exact congrArg Except.ok (LawfulInlineValue.ofRaw_toRaw default)
  · rfl

theorem outOfLineField_present {tag : Tag} {a : Nat} {delta : UInt32} {stream : Address}
    (ha : tag.alignment? = some a)
    (hfind : view.find tag = .ok (some delta))
    (haddress : view.address = some stream) :
    view.outOfLineField tag a = some <$> view.image.follow stream delta a := by
  rw [outOfLineField, if_pos ha, hfind, haddress, Image.follow]
  simp only [liftM_error_ok, bind, Except.bind]
  cases view.image.anchorAddress stream with
  | error fault =>
      rfl
  | ok anchorAddress =>
      simp only [liftM_fault_ok]
      cases view.image.readAnchor anchorAddress with
      | error e =>
          rfl
      | ok anchor =>
          simp only [liftM_error_ok]
          cases blobAddress anchor delta a <;> rfl

/-- All accessors of a view rest on its look-ups. -/
theorem tells_of_find (hfind : ∀ tag, view.find tag = found tag) : view.Tells found := by
  obtain rfl : view.find = found := funext hfind
  refine
    { find_eq := fun _ => rfl
      inlineField_eq := fun _ hinline => inlineField_valueOr hinline
      rareFlags_eq := inlineValue_valueOr rfl
      dispatchMap_eq := inlineValue_valueOr rfl
      valueTypeFieldPadding_eq := inlineValue_valueOr rfl
      nullableValueOffset_eq := inlineValue_valueOr rfl
      castableIsInstSlot_eq := inlineValue_valueOr rfl
      castableGetImplTypeSlot_eq := inlineValue_valueOr rfl
      outOfLine_eq := fun _ _ ha => view.outOfLine_eq ha
      outOfLineField_error := ?_
      outOfLineField_absent := ?_
      outOfLineField_present := ?_ }
  · intro tag a e ha he
    rw [outOfLineField, if_pos ha, he]
    rfl
  · intro tag a ha hnone
    rw [outOfLineField, if_pos ha, hnone]
    cases view.address <;> rfl
  · intro tag a delta ha hsome
    obtain ⟨stream, haddress⟩ := exists_address hsome
    exact ⟨stream, haddress, outOfLineField_present ha hsome haddress⟩

end

/-- A view decodes fields until it stops, and tells of every tag what the first of these fields
with the tag says; without such a field it tells that there is none, or why it stopped. -/
theorem lookup_agrees (view : View) :
    (∃ fields stop, view.Decodes fields stop) ∧
      ∀ fields stop, view.Decodes fields stop →
        (view.rawFields = stop.map fun _ => fields) ∧
          view.Tells fun tag => FieldStream.lookUp tag fields stop := by
  refine ⟨view.exists_decodes, ?_⟩
  intro fields stop hdecodes
  obtain ⟨hraw, hfind⟩ := hdecodes.reads
  exact ⟨hraw, tells_of_find hfind⟩

/-- A tag occurs twice in front of a byte that is no header. -/
theorem lookup_agrees_of_defect_behind :
    let image : Image :=
      { base := 0
        anchorAlignment := 128
        bytes := [0x01, 0x10, 0x01, 0x18, 0x40, 0x80, 0x08]
        regions := fun _ => none
        streams := [] }
    let view : View := { image := image, address := some 0 }
    view.rawFields = .error (.unknownTag 64) ∧
      view.dispatchMap 7 = .ok 2 ∧
        view.nullableValueOffset 7 = .error (.error (.unknownTag 64)) ∧
          view.sealedVirtualSlots = .error (.error (.unknownTag 64)) := by
  intro image view
  have hfirst : Varint.Spells [0x10] 2 := .mk rfl (by decide) rfl
  have hsecond : Varint.Spells [0x18] 3 := .mk rfl (by decide) rfl
  have hcode : ∀ tag : Tag, UInt8.toNat 0x40 % 128 ≠ tag.index := by
    intro tag
    cases tag <;> decide
  have hdefect :
      FieldStream.DefectiveNumbers
        (0x01 :: ([0x10] ++ 0x01 :: ([0x18] ++ 0x40 :: [0x80, 0x08])))
        [(.dispatchMap, 2), (.dispatchMap, 3)] (.unknownTag 64) :=
    .later ⟨rfl, rfl⟩ hfirst (.later ⟨rfl, rfl⟩ hsecond (.unknownTag hcode _))
  have hinside : image.Contains 0 := by decide
  have hdecodes : view.Decodes [(.dispatchMap, 2), (.dispatchMap, 3)] (.error (.unknownTag 64)) :=
    .defective rfl hinside hdefect
  obtain ⟨hraw, htells⟩ := view.lookup_agrees.2 _ _ hdecodes
  exact
    ⟨hraw, htells.dispatchMap_eq 7, htells.nullableValueOffset_eq 7,
      htells.outOfLineField_error .sealedVirtualSlots 4 _ rfl rfl⟩

end View
end AnchoredFields

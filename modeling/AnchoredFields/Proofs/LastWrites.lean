import AnchoredFields.Layout.Collector
import AnchoredFields.Proofs.Setters

/-!
# Setters in any order

What a collector holds after setters were used is told by the last value of each tag.  The
flag of a collector is never taken back, yet it is right: a tag that holds a blob can only be
set to another blob, so a blob that was set leaves one behind.

* `Collector.Invariant.use`, `Collector.Invariant.useAll`: what every setter keeps;
* `Collector.get_useAll`: a slot holds the last value of its tag;
* `Collector.eq_of_lastValue_eq`: the order of the setters and the overwritten values do not
  matter;
* `Collector.Invariant.sound`: the flag, the counts and both walks along the slots agree.
-/

namespace AnchoredFields

/-- The kind of a value that suits a tag is that of the tag. -/
theorem FieldValue.Suits.isOutOfLine_eq {tag : Tag} {value : FieldValue} (h : value.Suits tag) :
    value.isOutOfLine = !tag.isInline := by
  cases value with
  | inline raw =>
      have hinline : tag.isInline = true := h
      rw [hinline]
      rfl
  | outOfLine blob =>
      obtain ⟨a, ha, -⟩ := FieldSet.canHold_iff.mp h
      rw [Tag.isInline_eq_false_iff.mpr ⟨a, ha⟩]
      rfl

namespace Collector

/-- Uses setters one after the other, each with the ledger of its moment. -/
def useAll (collector : Collector) : List (Ledger × Setter) → Except Fault Collector
  | [] => .ok collector
  | (ledger, setter) :: rest =>
      match collector.use ledger setter with
      | .ok next => next.useAll rest
      | .error fault => .error fault

/-- What setters write. -/
def writes (uses : List (Ledger × Setter)) : List Write :=
  uses.map fun (ledger, setter) =>
    { ledger := ledger, tag := setter.tag, value := setter.value }

/-- The value that a tag is given last. -/
def lastValue (tag : Tag) (uses : List (Ledger × Setter)) : Option FieldValue :=
  Write.last tag (writes uses)

/-- What holds of a collector between two setters. -/
structure Invariant (collector : Collector) : Prop where
  suits :
    ∀ tag field, collector.fields.get tag = some field →
      field.value.Suits tag ∧ field.offset = none
  flag_iff :
    collector.containsOutOfLine = true ↔
      ∃ tag field, collector.fields.get tag = some field ∧ field.value.isOutOfLine = true

/-- A setter that succeeds fills the slot of its tag, and raises the flag for a blob. -/
theorem use_eq_ok
    {collector next : Collector} {ledger : Ledger} {setter : Setter}
    (h : collector.use ledger setter = .ok next) :
    setter.value.Suits setter.tag ∧
      collector.fields.set ledger setter.tag setter.value = .ok next.fields ∧
      next =
        { fields :=
            { slots := collector.fields.slots.set setter.tag { value := setter.value } }
          containsOutOfLine := collector.containsOutOfLine || setter.value.isOutOfLine } := by
  rw [use, setter.run_eq] at h
  cases hset : collector.fields.set ledger setter.tag setter.value with
  | error fault =>
      rw [hset] at h
      cases h
  | ok fields =>
      rw [hset] at h
      cases h
      obtain ⟨hsuits, rfl⟩ := FieldSet.set_eq_ok hset
      exact ⟨hsuits, rfl, rfl⟩

theorem useAll_cons_eq_ok_iff
    {collector last : Collector} {ledger : Ledger} {setter : Setter}
    {rest : List (Ledger × Setter)} :
    collector.useAll ((ledger, setter) :: rest) = .ok last ↔
      ∃ next, collector.use ledger setter = .ok next ∧ next.useAll rest = .ok last := by
  rw [useAll]
  cases collector.use ledger setter <;> simp

namespace Invariant

variable {collector next last : Collector}

theorem empty : Collector.empty.Invariant where
  suits := fun tag field hget => nomatch hget
  flag_iff := by
    constructor
    · intro hflag
      cases hflag
    · rintro ⟨tag, field, hget, -⟩
      cases hget

/-- A setter keeps the invariant.  The value it overwrites is of the same kind, so that no blob
is replaced by a number. -/
theorem use {ledger : Ledger} {setter : Setter}
    (h : collector.Invariant)
    (huse : collector.use ledger setter = .ok next) :
    next.Invariant := by
  obtain ⟨hsuits, -, rfl⟩ := use_eq_ok huse
  have hget (tag : Tag) :
      FieldSet.get
          { slots := collector.fields.slots.set setter.tag { value := setter.value } } tag =
        if tag = setter.tag then some { value := setter.value } else collector.fields.get tag :=
    rfl
  constructor
  · intro tag field hfield
    rw [hget] at hfield
    by_cases htag : tag = setter.tag
    · rw [if_pos htag] at hfield
      cases hfield
      rw [htag]
      exact ⟨hsuits, rfl⟩
    · rw [if_neg htag] at hfield
      exact h.suits tag field hfield
  · rw [Bool.or_eq_true, h.flag_iff]
    constructor
    · rintro (⟨tag, field, hfield, hkind⟩ | hkind)
      · by_cases htag : tag = setter.tag
        · have hold := (h.suits tag field hfield).1.isOutOfLine_eq
          refine ⟨tag, { value := setter.value }, by rw [hget, if_pos htag], ?_⟩
          rw [hsuits.isOutOfLine_eq, ← htag, ← hold]
          exact hkind
        · exact ⟨tag, field, by rw [hget, if_neg htag, hfield], hkind⟩
      · exact ⟨setter.tag, { value := setter.value }, by rw [hget, if_pos rfl], hkind⟩
    · rintro ⟨tag, field, hfield, hkind⟩
      rw [hget] at hfield
      by_cases htag : tag = setter.tag
      · rw [if_pos htag] at hfield
        cases hfield
        exact Or.inr hkind
      · rw [if_neg htag] at hfield
        exact Or.inl ⟨tag, field, hfield, hkind⟩

theorem useAll {uses : List (Ledger × Setter)}
    (h : collector.Invariant)
    (huses : collector.useAll uses = .ok last) :
    last.Invariant := by
  induction uses generalizing collector with
  | nil =>
      cases huses
      exact h
  | cons first rest ih =>
      obtain ⟨next, hfirst, hrest⟩ := useAll_cons_eq_ok_iff.mp huses
      exact ih (h.use hfirst) hrest

end Invariant

/-- The field set of a collector is what its setters write. -/
theorem write_of_useAll
    {collector last : Collector} {uses : List (Ledger × Setter)}
    (huses : collector.useAll uses = .ok last) :
    collector.fields.write (writes uses) = .ok last.fields := by
  induction uses generalizing collector with
  | nil =>
      cases huses
      rfl
  | cons first rest ih =>
      obtain ⟨ledger, setter⟩ := first
      obtain ⟨next, hfirst, hrest⟩ := useAll_cons_eq_ok_iff.mp huses
      obtain ⟨-, hset, -⟩ := use_eq_ok hfirst
      exact FieldSet.write_cons_eq_ok_iff.mpr ⟨next.fields, hset, ih hrest⟩

section

variable {collector twin : Collector} {uses others : List (Ledger × Setter)}

theorem made_of_useAll (huses : empty.useAll uses = .ok collector) : collector.fields.Made :=
  ⟨writes uses, write_of_useAll huses⟩

/-- A slot holds the last value that its tag was given, if there is one. -/
theorem get_useAll (huses : empty.useAll uses = .ok collector) (tag : Tag) :
    collector.fields.get tag =
      (lastValue tag uses).map fun value => { value := value } := by
  rw [FieldSet.get_write (write_of_useAll huses) tag, lastValue]
  cases Write.last tag (writes uses) <;> rfl

/-- A blob is referred to if it is the last value of a tag. -/
theorem mem_blobs_useAll_iff (huses : empty.useAll uses = .ok collector) {tag : Tag}
    {blob : Blob} :
    (tag, blob) ∈ collector.fields.blobs ↔ lastValue tag uses = some (.outOfLine blob) := by
  rw [FieldSet.mem_blobs_iff, get_useAll huses tag]
  constructor
  · rintro ⟨field, hfield, hvalue⟩
    obtain ⟨value, hlast, rfl⟩ := Option.map_eq_some_iff.mp hfield
    rw [hlast]
    exact congrArg some hvalue
  · intro hlast
    rw [hlast]
    exact ⟨_, rfl, rfl⟩

theorem Invariant.flag_congr (h : collector.Invariant) (h' : twin.Invariant)
    (hkinds : ∀ tag,
      (collector.fields.get tag).map (fun field => field.value.isOutOfLine) =
        (twin.fields.get tag).map fun field => field.value.isOutOfLine) :
    collector.containsOutOfLine = twin.containsOutOfLine := by
  rw [Bool.eq_iff_iff, h.flag_iff, h'.flag_iff]
  refine exists_congr fun tag => ?_
  have hkind := congrArg (· = some true) (hkinds tag)
  simpa only [Option.map_eq_some_iff, eq_iff_iff] using hkind

/-- Setters that leave the same last values lead to the same collector. -/
theorem eq_of_lastValue_eq
    (huses : empty.useAll uses = .ok collector)
    (hothers : empty.useAll others = .ok twin)
    (hlast : ∀ tag, lastValue tag uses = lastValue tag others) :
    collector = twin := by
  have hget (tag : Tag) : collector.fields.get tag = twin.fields.get tag := by
    rw [get_useAll huses, get_useAll hothers, hlast]
  have hflag :=
    (Invariant.empty.useAll huses).flag_congr (Invariant.empty.useAll hothers)
      fun tag => by rw [hget]
  have hslots : collector.fields.slots = twin.fields.slots := Slots.ext_get hget
  obtain ⟨⟨slots⟩, flag⟩ := collector
  obtain ⟨⟨slots'⟩, flag'⟩ := twin
  cases hslots
  cases hflag
  rfl

/-- What can be relied on in a collector: the fields suit their tags and are not placed, and
the flag, the counts and the two walks along the slots say the same. -/
structure Sound (collector : Collector) : Prop where
  kind :
    ∀ tag field, collector.fields.get tag = some field →
      field.value.isOutOfLine = !tag.isInline
  unplaced : ∀ tag field, collector.fields.get tag = some field → field.offset = none
  alignment_dvd :
    ∀ tag field blob, collector.fields.get tag = some field → field.value = .outOfLine blob →
      ∃ a, tag.alignment? = some a ∧ blob.alignment ∣ a
  flag_iff :
    collector.containsOutOfLine = true ↔
      ∃ entry ∈ collector.fields.present, entry.2.value.isOutOfLine = true
  size_eq : collector.fields.size = collector.fields.present.length
  isEmpty_iff : collector.fields.isEmpty = true ↔ collector.fields.size = 0
  same_tags :
    collector.fields.alongRow.map Prod.fst = collector.fields.present.map Prod.fst
  increasing :
    (collector.fields.present.map fun entry => entry.1.index).Pairwise (· < ·)

theorem Invariant.sound (h : collector.Invariant) : collector.Sound where
  kind := fun tag field hget => (h.suits tag field hget).1.isOutOfLine_eq
  unplaced := fun tag field hget => (h.suits tag field hget).2
  alignment_dvd := by
    intro tag field blob hget hvalue
    have hsuits := (h.suits tag field hget).1
    rw [hvalue] at hsuits
    exact FieldSet.canHold_iff.mp hsuits
  flag_iff := by
    simp only [h.flag_iff, Prod.exists, FieldSet.mem_present_iff]
  size_eq := Slots.size_eq _
  isEmpty_iff := by
    rw [FieldSet.isEmpty_iff, FieldSet.size, Slots.size_eq]
    exact List.length_eq_zero_iff.symm
  same_tags := congrArg _ (Slots.alongRow_eq_present _)
  increasing := Slots.present_sorted _

end
end Collector
end AnchoredFields

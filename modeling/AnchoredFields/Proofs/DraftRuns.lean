import Mathlib.Order.Bounds.Basic
import AnchoredFields.Proofs.ByteRanges
import AnchoredFields.Proofs.ImagePlacing

/-!
# Writing an image step by step

An image is written by appending bytes, padding, and beginning regions, in any order.  As long
as it stays below `2 ^ 63` bytes, alignments are powers of two, and no region is begun twice,
every step succeeds.  What the steps add is said here by a function of the steps alone, and so
is what they answer.

* `Draft.performAll_eq`: steps succeed, with these answers;
* `Draft.bytes_afterAll`: they add these bytes;
* `Draft.standsAt_written`: the bytes of each step stand where the step was taken.
-/

namespace AnchoredFields
namespace Draft

/-- A step of writing an image. -/
inductive Step
  | append (bytes : List UInt8)
  | pad (alignment : Nat)
  | beginRegion (region : Region) (alignment : Nat)
  deriving DecidableEq, Repr

namespace Step

/-- The bytes that a step adds behind `size` bytes. -/
def written (size : Nat) : Step → List UInt8
  | .append bytes => bytes
  | .pad alignment => List.replicate (alignUp alignment size - size) 0
  | .beginRegion _ alignment => List.replicate (alignUp alignment size - size) 0

/-- The number that a step answers with behind `size` bytes. -/
def answer (size : Nat) : Step → Nat
  | .append _ => size
  | .pad alignment => alignUp alignment size - size
  | .beginRegion _ alignment => alignUp alignment size

/-- The alignment that a step asks for. -/
def alignment? : Step → Option Nat
  | .append _ => none
  | .pad alignment => some alignment
  | .beginRegion _ alignment => some alignment

/-- The region that a step begins. -/
def region? : Step → Option Region
  | .append _ => none
  | .pad _ => none
  | .beginRegion region _ => some region

end Step

/-- Takes a step and tells the number that it answers with. -/
def perform (draft : Draft) : Step → Except Fault (Nat × Draft)
  | .append bytes => .ok (draft.store bytes)
  | .pad alignment => draft.pad alignment
  | .beginRegion region alignment => draft.beginRegion region alignment

/-- Takes steps one after the other and tells their answers. -/
def performAll (draft : Draft) : List Step → Except Fault (List Nat × Draft)
  | [] => .ok ([], draft)
  | step :: rest =>
      match draft.perform step with
      | .error fault => .error fault
      | .ok (answer, next) =>
          match next.performAll rest with
          | .error fault => .error fault
          | .ok (answers, last) => .ok (answer :: answers, last)

/-- The bytes that steps add behind `size` bytes. -/
def writtenFrom (size : Nat) : List Step → List UInt8
  | [] => []
  | step :: rest =>
      step.written size ++ writtenFrom (size + (step.written size).length) rest

/-- The answers of steps that are taken behind `size` bytes. -/
def answersFrom (size : Nat) : List Step → List Nat
  | [] => []
  | step :: rest =>
      step.answer size :: answersFrom (size + (step.written size).length) rest

/-- The number of bytes that steps write into an empty image. -/
def sizeAfter (steps : List Step) : Nat :=
  (writtenFrom 0 steps).length

/-- The regions that steps begin. -/
def begun (steps : List Step) : List Region :=
  steps.filterMap Step.region?

/-- Steps that keep to the rules of writing an image. -/
structure Orderly (steps : List Step) : Prop where
  power : ∀ step ∈ steps, ∀ alignment, step.alignment? = some alignment →
    isPowerOfTwo alignment = true
  nodup : (begun steps).Nodup
  small : sizeAfter steps < 2 ^ 63

/-- A draft with a region open at its end. -/
def openRegion (draft : Draft) (region : Region) : Draft :=
  { draft with
    regions := fun r =>
      if r = region then some { start := draft.size, size := 0 } else draft.regions r
    current := some region }

/-- A draft after a step. -/
def after (draft : Draft) (step : Step) : Draft :=
  match step with
  | .append bytes => draft.append bytes
  | .pad _ => draft.append (step.written draft.size)
  | .beginRegion region _ =>
      (draft.endRegion.append (step.written draft.size)).openRegion region

/-- A draft after some steps. -/
def afterAll (draft : Draft) (steps : List Step) : Draft :=
  steps.foldl after draft

@[simp] theorem afterAll_cons (draft : Draft) (step : Step) (rest : List Step) :
    draft.afterAll (step :: rest) = (draft.after step).afterAll rest :=
  rfl

theorem afterAll_append (draft : Draft) (steps more : List Step) :
    draft.afterAll (steps ++ more) = (draft.afterAll steps).afterAll more :=
  List.foldl_append

/-! ### Bytes -/

theorem writtenFrom_append (size : Nat) (steps more : List Step) :
    writtenFrom size (steps ++ more) =
      writtenFrom size steps ++ writtenFrom (size + (writtenFrom size steps).length) more := by
  induction steps generalizing size with
  | nil =>
      rfl
  | cons step rest ih =>
      rw [List.cons_append, writtenFrom, writtenFrom, ih, List.append_assoc, List.length_append,
        Nat.add_assoc]

theorem sizeAfter_concat (steps : List Step) (step : Step) :
    sizeAfter (steps ++ [step]) =
      sizeAfter steps + (step.written (sizeAfter steps)).length := by
  rw [sizeAfter, writtenFrom_append, List.length_append, Nat.zero_add, writtenFrom, writtenFrom,
    List.append_nil]
  rfl

theorem bytes_after (draft : Draft) (step : Step) :
    (draft.after step).bytes = draft.bytes ++ step.written draft.size := by
  cases step with
  | append bytes =>
      rfl
  | pad alignment =>
      rfl
  | beginRegion region alignment =>
      show draft.endRegion.bytes ++ _ = _
      rw [bytes_endRegion]

theorem size_after (draft : Draft) (step : Step) :
    (draft.after step).size = draft.size + (step.written draft.size).length := by
  rw [size, bytes_after, List.length_append, size]

/-- Steps append what they add. -/
theorem bytes_afterAll (draft : Draft) (steps : List Step) :
    (draft.afterAll steps).bytes = draft.bytes ++ writtenFrom draft.size steps := by
  induction steps generalizing draft with
  | nil =>
      exact (List.append_nil _).symm
  | cons step rest ih =>
      rw [afterAll_cons, ih, bytes_after, size_after, writtenFrom, List.append_assoc]

theorem size_afterAll (base : Address) (steps : List Step) :
    (afterAll { base := base } steps).size = sizeAfter steps := by
  rw [size, bytes_afterAll]
  rfl

/-- What is written last of some steps stands where the steps before it end. -/
theorem standsAt_writtenFrom (before steps : List Step) :
    StandsAt (writtenFrom (sizeAfter before) steps) (sizeAfter before)
      (writtenFrom 0 (before ++ steps)) := by
  have hbehind := StandsAt.behind (writtenFrom 0 before) (writtenFrom (sizeAfter before) steps) []
  rw [List.append_nil] at hbehind
  rw [writtenFrom_append, Nat.zero_add]
  exact hbehind

/-- What a step adds stands where the step was taken. -/
theorem standsAt_written (before : List Step) (step : Step) (later : List Step) :
    StandsAt (step.written (sizeAfter before)) (sizeAfter before)
      (writtenFrom 0 (before ++ step :: later)) := by
  rw [writtenFrom_append, Nat.zero_add, writtenFrom]
  exact StandsAt.behind _ _ _

/-! ### Answers -/

theorem length_answersFrom (size : Nat) (steps : List Step) :
    (answersFrom size steps).length = steps.length := by
  induction steps generalizing size with
  | nil =>
      rfl
  | cons step rest ih =>
      rw [answersFrom, List.length_cons, List.length_cons, ih]

/-- The answer of a step is that of the step alone, behind what was written before. -/
theorem getElem?_answersFrom (size : Nat) (before : List Step) (step : Step)
    (later : List Step) :
    (answersFrom size (before ++ step :: later))[before.length]? =
      some (step.answer (size + (writtenFrom size before).length)) := by
  induction before generalizing size with
  | nil =>
      rfl
  | cons first rest ih =>
      rw [List.cons_append, answersFrom, List.length_cons, List.getElem?_cons_succ, ih,
        writtenFrom, List.length_append, Nat.add_assoc]

/-- The padding is the least number that leads to a multiple of the alignment. -/
theorem isLeast_padding {alignment : Nat} (halign : 0 < alignment) (size : Nat) :
    IsLeast { n | alignment ∣ size + n } (alignUp alignment size - size) := by
  have hup := le_alignUp halign size
  constructor
  · show alignment ∣ size + (alignUp alignment size - size)
    rw [Nat.add_sub_cancel' hup]
    exact dvd_alignUp alignment size
  · intro n hn
    have hleast := alignUp_le halign hn (Nat.le_add_right size n)
    omega

/-! ### Success -/

theorem pos_of_isPowerOfTwo {alignment : Nat} (h : isPowerOfTwo alignment = true) :
    0 < alignment := by
  obtain ⟨k, rfl⟩ := isPowerOfTwo_iff.mp h
  rw [Nat.one_shiftLeft]
  exact Nat.two_pow_pos k

/-- Padding succeeds if it ends below `2 ^ 63`.  An alignment that is not below that itself is
asked for at the very beginning only, where nothing is added. -/
theorem pad_eq_of_lt {draft : Draft} {alignment : Nat}
    (hpower : isPowerOfTwo alignment = true)
    (hsize : alignUp alignment draft.size < 2 ^ 63) :
    let padding := alignUp alignment draft.size - draft.size
    draft.pad alignment = .ok (padding, draft.append (List.replicate padding 0)) := by
  intro padding
  have hwords : UInt64.size = 2 ^ 64 := rfl
  have hfew : alignment < UInt64.size / 2 ∨ padding = 0 := by
    rcases Nat.eq_zero_or_pos (alignUp alignment draft.size) with hzero | hpos
    · exact Or.inr (by omega)
    · have hle := Nat.le_of_dvd hpos (dvd_alignUp alignment draft.size)
      exact Or.inl (by omega)
  rw [pad, if_neg (by rw [hpower]; exact Bool.noConfusion)]
  exact if_pos ⟨by omega, hfew⟩

theorem length_written_of_alignment? {step : Step} {alignment : Nat}
    (h : step.alignment? = some alignment) (size : Nat) :
    (step.written size).length = alignUp alignment size - size := by
  cases step with
  | append bytes =>
      cases h
  | pad a =>
      cases h
      exact List.length_replicate
  | beginRegion region a =>
      cases h
      exact List.length_replicate

/-- A step that keeps to the rules succeeds. -/
theorem perform_eq {draft : Draft} {step : Step}
    (hpower : ∀ alignment, step.alignment? = some alignment → isPowerOfTwo alignment = true)
    (hnew : ∀ region, step.region? = some region → draft.regions region = none)
    (hsmall : draft.size + (step.written draft.size).length < 2 ^ 63) :
    draft.perform step = .ok (step.answer draft.size, draft.after step) := by
  have hsize (alignment : Nat) (halign : step.alignment? = some alignment) :
      alignUp alignment draft.size < 2 ^ 63 := by
    rw [length_written_of_alignment? halign] at hsmall
    omega
  cases step with
  | append bytes =>
      rfl
  | pad alignment =>
      exact pad_eq_of_lt (hpower alignment rfl) (hsize alignment rfl)
  | beginRegion region alignment =>
      have hregion := hnew region rfl
      have halign := hpower alignment rfl
      have hclosed : alignUp alignment draft.endRegion.size < 2 ^ 63 := by
        rw [size_endRegion]
        exact hsize alignment rfl
      have hup := le_alignUp (pos_of_isPowerOfTwo halign) draft.size
      have hstart :
          draft.endRegion.size + (alignUp alignment draft.size - draft.size) =
            alignUp alignment draft.size := by
        rw [size_endRegion]
        omega
      rw [perform, beginRegion, hregion, if_neg (by simp), pad_eq_of_lt halign hclosed,
        size_endRegion]
      simp only [bind, Except.bind, pure, Except.pure, Step.answer, after, openRegion,
        Step.written, size_append, List.length_replicate, hstart]

/-- Closing a region begins none. -/
theorem isSome_regions_endRegion (draft : Draft) (region : Region) :
    (draft.endRegion.regions region).isSome = (draft.regions region).isSome := by
  unfold endRegion
  split
  · rfl
  · simp only
    split
    · exact Option.isSome_map
    · rfl

/-- A step does not begin other regions. -/
theorem regions_after_eq_none {draft : Draft} {step : Step} {region : Region}
    (hnone : draft.regions region = none)
    (hother : step.region? ≠ some region) :
    (draft.after step).regions region = none := by
  have hclosed : draft.endRegion.regions region = none := by
    rw [← Option.not_isSome_iff_eq_none, isSome_regions_endRegion, hnone]
    exact Bool.noConfusion
  cases step with
  | append bytes =>
      exact hnone
  | pad alignment =>
      exact hnone
  | beginRegion r alignment =>
      have hne : region ≠ r := fun heq => hother (congrArg some heq.symm)
      exact (if_neg hne).trans hclosed

/-- Steps that keep to the rules succeed, each with the answer that it has alone. -/
theorem performAll_eq {draft : Draft} {steps : List Step}
    (hpower : ∀ step ∈ steps, ∀ alignment, step.alignment? = some alignment →
      isPowerOfTwo alignment = true)
    (hnodup : (begun steps).Nodup)
    (hnew : ∀ region ∈ begun steps, draft.regions region = none)
    (hsmall : draft.size + (writtenFrom draft.size steps).length < 2 ^ 63) :
    draft.performAll steps = .ok (answersFrom draft.size steps, draft.afterAll steps) := by
  induction steps generalizing draft with
  | nil =>
      rfl
  | cons step rest ih =>
      rw [writtenFrom, List.length_append] at hsmall
      have hrest : begun rest ⊆ begun (step :: rest) :=
        List.filterMap_subset _ (List.subset_cons_self step rest)
      have hsuffix : (begun rest).Nodup :=
        hnodup.sublist ((List.sublist_cons_self step rest).filterMap _)
      have hstep :=
        perform_eq (hpower step List.mem_cons_self)
          (fun region hregion =>
            hnew region (List.mem_filterMap.mpr ⟨step, List.mem_cons_self, hregion⟩))
          (by omega)
      have hlater : ∀ region ∈ begun rest, (draft.after step).regions region = none := by
        intro region hregion
        refine regions_after_eq_none (hnew region (hrest hregion)) ?_
        intro hsame
        rw [begun, List.filterMap_cons_some hsame, List.nodup_cons] at hnodup
        exact hnodup.1 hregion
      have hafter :=
        ih (fun s hs => hpower s (List.mem_cons_of_mem _ hs)) hsuffix hlater
          (by rw [size_after]; omega)
      rw [performAll, hstep]
      simp only [hafter, size_after]
      rfl

/-- Orderly steps succeed on an empty image. -/
theorem Orderly.performAll_eq {steps : List Step} (h : Orderly steps) (base : Address) :
    performAll { base := base } steps =
      .ok (answersFrom 0 steps, afterAll { base := base } steps) := by
  have hsmall : size { base := base } + (writtenFrom 0 steps).length < 2 ^ 63 := by
    show 0 + sizeAfter steps < 2 ^ 63
    rw [Nat.zero_add]
    exact h.small
  exact Draft.performAll_eq h.power h.nodup (fun region _ => rfl) hsmall

end Draft
end AnchoredFields

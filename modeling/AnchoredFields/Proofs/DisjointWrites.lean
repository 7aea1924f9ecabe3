import AnchoredFields.Proofs.WordTransfers

/-!
# Writes to ranges that do not meet

Words are written into the same bytes one after the other, each at an offset of its own.  A
write whose word does not fit fails and changes nothing, so what a sequence of writes leaves
is told byte by byte.  If no two ranges meet, no write disturbs another one: the order of
the writes does not matter, and any of them may be taken as the last one.

* `WordWrite.getElem?_onto`: every byte that a write leaves;
* `WordWrite.onto_comm`: two writes that are apart can change places;
* `WordWrite.writeAll_perm`: any number of them can be made in any order;
* `WordWrite.standsAt_writeAll`: each of them leaves its word in the bytes;
* `Cursor.transfer_laws`: these results and those of one transfer together.
-/

namespace AnchoredFields

/-- A word that is to be written at an offset. -/
structure WordWrite where
  offset : Nat
  width : Width
  value : Word width

namespace WordWrite

variable {write first second : WordWrite} {writes other : List WordWrite}
  {bytes : List UInt8}

/-- The offset behind the word. -/
def stop (write : WordWrite) : Nat :=
  write.offset + write.width.bytes

/-- A place is one of those that the word takes. -/
def Covers (write : WordWrite) (i : Nat) : Prop :=
  write.offset ≤ i ∧ i < write.stop

instance (write : WordWrite) (i : Nat) : Decidable (write.Covers i) :=
  inferInstanceAs (Decidable (_ ∧ _))

/-- Two words whose ranges do not meet. -/
def Apart (first second : WordWrite) : Prop :=
  first.stop ≤ second.offset ∨ second.stop ≤ first.offset

instance (first second : WordWrite) : Decidable (first.Apart second) :=
  inferInstanceAs (Decidable (_ ∨ _))

/-- The cursor at which a word is transferred. -/
def start (write : WordWrite) (bytes : List UInt8) : Cursor :=
  { bytes := bytes, position := write.offset }

/-- The bytes that a write leaves, whether it succeeds or fails. -/
def onto (write : WordWrite) (bytes : List UInt8) : List UInt8 :=
  (Cursor.afterStep (Cursor.writeWord write.value (write.start bytes))).bytes

/-- The bytes that writes leave which are made one after the other. -/
def writeAll (writes : List WordWrite) (bytes : List UInt8) : List UInt8 :=
  writes.foldl (fun left write => write.onto left) bytes

@[simp] theorem writeAll_cons (write : WordWrite) (rest : List WordWrite) (bytes : List UInt8) :
    writeAll (write :: rest) bytes = writeAll rest (write.onto bytes) :=
  rfl

theorem writeAll_concat (writes : List WordWrite) (write : WordWrite) (bytes : List UInt8) :
    writeAll (writes ++ [write]) bytes = write.onto (writeAll writes bytes) :=
  List.foldl_append

/-! ## One write -/

theorem Apart.symm (h : Apart first second) : Apart second first :=
  Or.symm h

/-- The end of a word, by its bytes. -/
theorem stop_eq (write : WordWrite) : write.stop = write.offset + write.value.encode.length := by
  rw [Word.length_encode, stop]

theorem onto_of_fits (h : write.stop ≤ bytes.length) :
    write.onto bytes = overwrite bytes write.offset write.value.encode := by
  have hwrite : Cursor.writeWord write.value (write.start bytes) = .ok () _ :=
    Cursor.writeWord_eq_ok_iff.mpr ⟨h, rfl⟩
  rw [onto, hwrite]
  rfl

theorem onto_of_not_fits (h : bytes.length < write.stop) : write.onto bytes = bytes := by
  have hwrite : Cursor.writeWord write.value (write.start bytes) = .error .outOfBounds _ :=
    Cursor.writeWord_eq_error_iff.mpr ⟨h, rfl, rfl⟩
  rw [onto, hwrite]
  rfl

@[simp] theorem length_onto : (write.onto bytes).length = bytes.length := by
  rcases Nat.lt_or_ge bytes.length write.stop with hshort | hfits
  · rw [onto_of_not_fits hshort]
  · rw [onto_of_fits hfits]
    rw [stop_eq] at hfits
    exact length_overwrite hfits

/-- A write leaves its word in the bytes if it fits, and every other byte as it was. -/
theorem getElem?_onto (i : Nat) :
    (write.onto bytes)[i]? =
      if write.stop ≤ bytes.length ∧ write.Covers i then
        write.value.encode[i - write.offset]?
      else
        bytes[i]? := by
  rcases Nat.lt_or_ge bytes.length write.stop with hshort | hfits
  · rw [onto_of_not_fits hshort, if_neg (fun h => absurd h.1 (Nat.not_le.mpr hshort))]
  · have hroom : write.offset + write.value.encode.length ≤ bytes.length := by
      rwa [Word.length_encode]
    rw [onto_of_fits hfits, getElem?_overwrite hroom, Word.length_encode]
    simp only [hfits, true_and]
    rfl

theorem Apart.not_covers (h : Apart first second) {i : Nat} (hfirst : first.Covers i) :
    ¬ second.Covers i := by
  rintro ⟨hlow, hhigh⟩
  obtain ⟨hstart, hstop⟩ := hfirst
  rcases h with hbefore | hbehind <;> omega

/-- Two writes to ranges that do not meet can change places. -/
theorem onto_comm (h : Apart first second) (bytes : List UInt8) :
    second.onto (first.onto bytes) = first.onto (second.onto bytes) := by
  apply List.ext_getElem?
  intro i
  simp only [getElem?_onto, length_onto]
  by_cases hfirst : first.Covers i
  · simp only [h.not_covers hfirst, and_false, if_false]
  · simp only [hfirst, and_false, if_false]

/-! ## Any number of writes -/

theorem length_writeAll (writes : List WordWrite) (bytes : List UInt8) :
    (writeAll writes bytes).length = bytes.length := by
  induction writes generalizing bytes with
  | nil =>
      rfl
  | cons write rest ih =>
      rw [writeAll_cons, ih, length_onto]

/-- A byte that no word takes keeps its value. -/
theorem getElem?_writeAll_of_not_covered {i : Nat}
    (h : ∀ write, write ∈ writes → ¬ write.Covers i) (bytes : List UInt8) :
    (writeAll writes bytes)[i]? = bytes[i]? := by
  induction writes generalizing bytes with
  | nil =>
      rfl
  | cons write rest ih =>
      obtain ⟨hwrite, hrest⟩ := List.forall_mem_cons.mp h
      rw [writeAll_cons, ih hrest, getElem?_onto, if_neg (fun hcovers => hwrite hcovers.2)]

/-- Writes to ranges that do not meet leave the same bytes in any order. -/
theorem writeAll_perm (hapart : writes.Pairwise Apart) (hperm : other.Perm writes)
    (bytes : List UInt8) :
    writeAll other bytes = writeAll writes bytes := by
  have hcomm :=
    List.Pairwise.forall_of_forall_of_flip
      (fun write _ _ => rfl)
      (hapart.imp fun h => onto_comm h)
      (hapart.imp fun h => onto_comm h.symm)
  exact (hperm.symm.foldl_eq' (fun _ hfirst _ hsecond => hcomm hfirst hsecond) bytes).symm

/-- A word that fits stands in the bytes after writes to ranges that do not meet. -/
theorem standsAt_writeAll (hapart : writes.Pairwise Apart) (hmem : write ∈ writes)
    (hfits : write.stop ≤ bytes.length) :
    StandsAt write.value.encode write.offset (writeAll writes bytes) := by
  -- The order does not matter, so the write is taken as the last one.
  obtain ⟨before, behind, rfl⟩ := List.append_of_mem hmem
  have hlast : (before ++ behind ++ [write]).Perm (before ++ write :: behind) :=
    (List.perm_append_singleton write _).trans List.perm_middle.symm
  have hroom : write.stop ≤ (writeAll (before ++ behind) bytes).length := by
    rwa [length_writeAll]
  rw [← writeAll_perm hapart hlast, writeAll_concat, onto_of_fits hroom]
  rw [stop_eq] at hroom
  exact standsAt_overwrite hroom

/-- What writes to ranges that do not meet leave in some bytes. -/
structure Undisturbed (writes : List WordWrite) (bytes : List UInt8) : Prop where
  length_eq : (writeAll writes bytes).length = bytes.length
  any_order :
    ∀ other : List WordWrite, other.Perm writes → writeAll other bytes = writeAll writes bytes
  read_back :
    ∀ write, write ∈ writes → write.stop ≤ bytes.length →
      Cursor.readWord write.width (write.start (writeAll writes bytes)) =
        .ok write.value { bytes := writeAll writes bytes, position := write.stop }
  frame :
    ∀ i, (∀ write, write ∈ writes → ¬ write.Covers i) →
      (writeAll writes bytes)[i]? = bytes[i]?

theorem undisturbed (hapart : writes.Pairwise Apart) (bytes : List UInt8) :
    Undisturbed writes bytes where
  length_eq := length_writeAll writes bytes
  any_order _ hperm := writeAll_perm hapart hperm bytes
  read_back _ hmem hfits :=
    Cursor.readWord_eq_ok_iff.mpr ⟨standsAt_writeAll hapart hmem hfits, rfl⟩
  frame _ h := getElem?_writeAll_of_not_covered h bytes

end WordWrite

/-- Words are transferred at any position of any bytes, in one step or not at all, and what is
written is what is read; writes to ranges that do not meet leave all of their words in the
bytes, in whatever order they are made. -/
theorem Cursor.transfer_laws :
    (∀ (w : Width) (c : Cursor), Transfers w c) ∧
      ∀ writes : List WordWrite, writes.Pairwise WordWrite.Apart →
        ∀ bytes, WordWrite.Undisturbed writes bytes :=
  ⟨transfers, fun _ hapart bytes => WordWrite.undisturbed hapart bytes⟩

/-- Three words of which the first does not fit, written in one order and in the other; and a byte
at the last 64-bit position, whose end is no 64-bit number. -/
theorem Cursor.transfer_laws_of_three_writes :
    WordWrite.writeAll [⟨5, .eight, 1⟩, ⟨3, .two, 0x1234⟩, ⟨0, .two, 0xBEEF⟩]
        [0, 0, 9, 0, 0, 0, 0] =
      [0xEF, 0xBE, 9, 0x34, 0x12, 0, 0] ∧
      WordWrite.writeAll (List.reverse [⟨5, .eight, 1⟩, ⟨3, .two, 0x1234⟩, ⟨0, .two, 0xBEEF⟩])
          [0, 0, 9, 0, 0, 0, 0] =
        [0xEF, 0xBE, 9, 0x34, 0x12, 0, 0] ∧
      readWord .two { bytes := [0xEF, 0xBE, 9, 0x34, 0x12, 0, 0], position := 3 } =
        .ok 0x1234 { bytes := [0xEF, 0xBE, 9, 0x34, 0x12, 0, 0], position := 5 } ∧
      writeWordChecked (w := .one) 7 { bytes := [0], position := 0xFFFF_FFFF_FFFF_FFFF } =
        some (writeWord (w := .one) 7 { bytes := [0], position := 0xFFFF_FFFF_FFFF_FFFF }) := by
  have hbytes :
      WordWrite.writeAll [⟨5, .eight, 1⟩, ⟨3, .two, 0x1234⟩, ⟨0, .two, 0xBEEF⟩]
          [0, 0, 9, 0, 0, 0, 0] =
        [0xEF, 0xBE, 9, 0x34, 0x12, 0, 0] := by
    decide
  obtain ⟨htransfers, hwrites⟩ := transfer_laws
  have hleft :=
    hwrites [⟨5, .eight, 1⟩, ⟨3, .two, 0x1234⟩, ⟨0, .two, 0xBEEF⟩] (by decide)
      [0, 0, 9, 0, 0, 0, 0]
  refine ⟨hbytes, ?_, ?_, ?_⟩
  · rw [← hbytes]
    exact hleft.any_order _ (List.reverse_perm _)
  · have hread :=
      hleft.read_back ⟨3, .two, 0x1234⟩ (List.mem_cons_of_mem _ List.mem_cons_self) (by decide)
    rw [hbytes] at hread
    exact hread
  · exact ((htransfers .one _).checked (by decide)).2 7

end AnchoredFields

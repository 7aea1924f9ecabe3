import AnchoredFields.Bytes.Word

/-!
# Cursors

A cursor is a position in some bytes.  Reading and writing at a cursor is
bounds-checked: a step that would leave the bytes fails and leaves the cursor
where it was, a step that succeeds moves the cursor over exactly the bytes it
touched.
-/

namespace AnchoredFields

/-- A position in some bytes. -/
structure Cursor where
  bytes : List UInt8
  position : Nat := 0
  deriving DecidableEq, Repr

namespace Cursor

/-- The bytes from the position on. -/
def ahead (c : Cursor) : List UInt8 :=
  c.bytes.drop c.position

/-- Whether bytes are left to read. -/
def hasMore (c : Cursor) : Bool :=
  c.position < c.bytes.length

/-- The cursor moved forward. -/
def advance (c : Cursor) (count : Nat) : Cursor :=
  { c with position := c.position + count }

/-- Reads a value at the position and moves over its bytes. -/
def read {α : Type} (decode : Decoder α) : EStateM Error Cursor α :=
  fun c =>
    match decode c.ahead with
    | .ok (a, taken) => .ok a (c.advance taken)
    | .error e => .error e c

/-- Reads a machine word. -/
def readWord (w : Width) : EStateM Error Cursor (Word w) :=
  read (Word.decode w)

/-- Replaces the bytes at the position by those of a machine word. -/
def writeWord {w : Width} (value : Word w) : EStateM Error Cursor Unit :=
  fun c =>
    if c.position + w.bytes ≤ c.bytes.length then
      let written :=
        c.bytes.take c.position ++ value.encode ++ c.bytes.drop (c.position + w.bytes)
      .ok () { bytes := written, position := c.position + w.bytes }
    else
      .error .outOfBounds c

/-- A read succeeds exactly if its decoder does, and moves over what was taken. -/
theorem read_eq_ok_iff {α : Type} {decode : Decoder α} {c d : Cursor} {a : α} :
    read decode c = .ok a d ↔ ∃ taken, decode c.ahead = .ok (a, taken) ∧ d = c.advance taken := by
  unfold read
  split
  · rename_i b taken h
    simp only [h, EStateM.Result.ok.injEq, Except.ok.injEq, Prod.mk.injEq]
    constructor
    · rintro ⟨rfl, rfl⟩
      exact ⟨taken, ⟨rfl, rfl⟩, rfl⟩
    · rintro ⟨n, ⟨rfl, rfl⟩, rfl⟩
      exact ⟨rfl, rfl⟩
  · rename_i e h
    simp [h]

/-- A failed read leaves the cursor where it was. -/
theorem read_eq_error_iff {α : Type} {decode : Decoder α} {c d : Cursor} {e : Error} :
    read decode c = .error e d ↔ decode c.ahead = .error e ∧ d = c := by
  unfold read
  split
  · rename_i b taken h
    simp [h]
  · rename_i e' h
    simp only [h, EStateM.Result.error.injEq, Except.error.injEq]
    exact and_congr_right fun _ => eq_comm

end Cursor
end AnchoredFields

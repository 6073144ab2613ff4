/-
Reads and writes inside a block of memory. A range that leaves the block has no result.

- `writeAt_append`: writing behind a known front.
- `readAt_append`: reading what stands between a front and a rest.
-/
import Mathlib.Tactic

namespace Memory

/-- the range lies in the block -/
def Inside (m : List UInt8) (position length : ℤ) : Prop := 0 ≤ position ∧ 0 ≤ length ∧ position + length ≤ m.length

instance (m : List UInt8) (position length : ℤ) : Decidable (Inside m position length) :=
  inferInstanceAs (Decidable (_ ∧ _))

def writeAt (m : List UInt8) (position : ℤ) (bytes : List UInt8) : Option (List UInt8) :=
  if Inside m position bytes.length then
    some (m.take position.toNat ++ bytes ++ m.drop (position.toNat + bytes.length))
  else none

def readAt (m : List UInt8) (position length : ℤ) : Option (List UInt8) :=
  if Inside m position length then some ((m.drop position.toNat).take length.toNat) else none

variable {front bytes rest : List UInt8} {position length : ℤ}

theorem writeAt_append (front bytes rest : List UInt8) (hposition : position = front.length)
    (h : bytes.length ≤ rest.length) :
    writeAt (front ++ rest) position bytes = some (front ++ bytes ++ rest.drop bytes.length) := by
  subst hposition
  have hinside : Inside (front ++ rest) front.length bytes.length := by
    refine ⟨Int.natCast_nonneg _, Int.natCast_nonneg _, ?_⟩
    rw [List.length_append]
    push_cast
    omega
  rw [writeAt, if_pos hinside, Int.toNat_natCast, List.take_left, ← List.drop_drop, List.drop_left]

theorem readAt_append (hposition : position = front.length) (hlength : length = bytes.length) :
    readAt (front ++ (bytes ++ rest)) position length = some bytes := by
  subst hposition hlength
  have hinside : Inside (front ++ (bytes ++ rest)) front.length bytes.length := by
    refine ⟨Int.natCast_nonneg _, Int.natCast_nonneg _, ?_⟩
    rw [List.length_append, List.length_append]
    push_cast
    omega
  rw [readAt, if_pos hinside, Int.toNat_natCast, Int.toNat_natCast, List.drop_left, List.take_left]

end Memory

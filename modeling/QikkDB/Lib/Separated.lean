/-
Texts joined at a separator, over an arbitrary alphabet. Where a joined text is cut again is determined only up to the
separators that the parts themselves contain.

- `cut_last`: behind the last separator the cut is unique when the parts there do not contain it.
- `cut_iff`: two ways to cut one text at a separator are equal, or one of them moves a part across the cut.
-/
import Mathlib.Tactic

namespace Separated

variable {α : Type*} {c : α} {x y x' y' : List α}

theorem cut_last (hy : c ∉ y) (hy' : c ∉ y') : x ++ c :: y = x' ++ c :: y' ↔ x = x' ∧ y = y' := by
  constructor
  · intro h
    rcases List.append_eq_append_iff.1 h with ⟨u, rfl, hu⟩ | ⟨u, rfl, hu⟩
    · rcases u with _ | ⟨a, u⟩
      · simpa using hu
      · obtain ⟨-, rfl⟩ := List.cons.inj hu
        exact absurd (by simp) hy
    · rcases u with _ | ⟨a, u⟩
      · simpa [eq_comm] using hu
      · obtain ⟨-, rfl⟩ := List.cons.inj hu
        exact absurd (by simp) hy'
  · rintro ⟨rfl, rfl⟩
    rfl

theorem cut_iff : x ++ c :: y = x' ++ c :: y' ↔
    (x = x' ∧ y = y') ∨ (∃ u, x' = x ++ c :: u ∧ y = u ++ c :: y') ∨ ∃ u, x = x' ++ c :: u ∧ y' = u ++ c :: y := by
  constructor
  · intro h
    rcases List.append_eq_append_iff.1 h with ⟨u, rfl, hu⟩ | ⟨u, rfl, hu⟩
    · rcases u with _ | ⟨a, u⟩
      · exact Or.inl (by simpa using hu)
      · obtain ⟨rfl, rfl⟩ := List.cons.inj hu
        exact Or.inr (Or.inl ⟨u, rfl, rfl⟩)
    · rcases u with _ | ⟨a, u⟩
      · exact Or.inl (by simpa [eq_comm] using hu)
      · obtain ⟨rfl, rfl⟩ := List.cons.inj hu
        exact Or.inr (Or.inr ⟨u, rfl, rfl⟩)
  · rintro (⟨rfl, rfl⟩ | ⟨u, rfl, rfl⟩ | ⟨u, rfl, rfl⟩) <;> simp

end Separated

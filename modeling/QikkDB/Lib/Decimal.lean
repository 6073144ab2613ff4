/-
Integers as decimal text, the way `std::to_string` and a literal of a query write them: digits without leading zeros
behind an optional minus sign.

- `mem_decimal`: the characters of a decimal text.
- `decimal_inj`: a number can be read back from its text.
-/
import Mathlib.Tactic

namespace Decimal

/-- a text as the list of its characters -/
abbrev Text := List Char

def decimal : ℤ → Text
  | .ofNat n => Nat.toDigits 10 n
  | .negSucc n => '-' :: Nat.toDigits 10 (n + 1)

theorem mem_decimal {z : ℤ} {c : Char} (h : c ∈ decimal z) : c.isDigit = true ∨ c = '-' := by
  cases z with
  | ofNat n => exact Or.inl (Nat.isDigit_of_mem_toDigits (by decide) (by decide) h)
  | negSucc n =>
    rcases List.mem_cons.1 h with rfl | h
    · exact Or.inr rfl
    · exact Or.inl (Nat.isDigit_of_mem_toDigits (by decide) (by decide) h)

theorem toDigits_inj {m n : ℕ} (h : Nat.toDigits 10 m = Nat.toDigits 10 n) : m = n := by
  have := congrArg (fun ds => Nat.ofDigitChars 10 ds 0) h
  simpa using this

theorem toDigits_ne_minus (n : ℕ) (l : Text) : Nat.toDigits 10 n ≠ '-' :: l := by
  intro h
  have : '-' ∈ Nat.toDigits 10 n := h ▸ List.mem_cons_self
  exact absurd (Nat.isDigit_of_mem_toDigits (by decide) (by decide) this) (by decide)

theorem decimal_inj {a b : ℤ} (h : decimal a = decimal b) : a = b := by
  cases a with
  | ofNat m =>
    cases b with
    | ofNat n => exact congrArg Int.ofNat (toDigits_inj h)
    | negSucc n => exact absurd h (toDigits_ne_minus m _)
  | negSucc m =>
    cases b with
    | ofNat n => exact absurd h.symm (toDigits_ne_minus n _)
    | negSucc n => exact congrArg Int.negSucc (Nat.succ.inj (toDigits_inj (List.cons.inj h).2))

theorem decimal_length {b : ℕ} : (decimal b).length ≤ 1 ↔ b < 10 := by
  have := Nat.length_toDigits_le_iff (n := b) (k := 1) (b := 10) (by decide) (by decide)
  simpa [decimal] using this

end Decimal

/-
Integers in texts of bytes: how `std::to_string` writes them, what `std::stol` finds at the front of a text, and which
texts are a number and nothing else.

- `front_eq`: at the front of a number stands the number.
- `numeral_text`: a written number is read back.
-/
import Mathlib.Data.List.TakeWhile
import Mathlib.Tactic
import QikkDB.Lib.Decimal

namespace Numeral

abbrev Bytes := List UInt8

def isDigit (b : UInt8) : Bool := 48 ≤ b && b ≤ 57

/-- the characters that are skipped at the front -/
def isSpace (b : UInt8) : Bool := b = 32 || (9 ≤ b && b ≤ 13)

/-- the number that digits stand for -/
def value (digits : Bytes) : ℕ := digits.foldl (fun n b => 10 * n + (b.toNat - 48)) 0

/-- an optional sign and what follows it -/
def signed : Bytes → ℤ × Bytes
  | 45 :: s => (-1, s)
  | 43 :: s => (1, s)
  | s => (1, s)

/-- the number at the front of a text, behind blanks; what follows the digits is not looked at -/
def front (s : Bytes) : Option ℤ :=
  let (sign, s) := signed (s.dropWhile isSpace)
  let digits := s.takeWhile isDigit
  if digits = [] then none else some (sign * value digits)

/-- the number that a text is -/
def numeral (s : Bytes) : Option ℤ :=
  let (sign, digits) := signed s
  if digits ≠ [] ∧ digits.all isDigit = true then some (sign * value digits) else none

def ofChars (l : List Char) : Bytes := l.map fun c => c.toNat.toUInt8

/-- the text of a number -/
def text (z : ℤ) : Bytes := ofChars (Decimal.decimal z)

variable {s digits : Bytes} {z : ℤ}

theorem isDigit_iff {b : UInt8} : isDigit b = true ↔ 48 ≤ b.toNat ∧ b.toNat ≤ 57 := by
  simp [isDigit, UInt8.le_iff_toNat_le]

/-- a sign or digit is no blank -/
theorem not_isSpace_of_numeral {b : UInt8} (h : numeral (b :: s) = some z) : isSpace b = false := by
  have hb : b = 45 ∨ b = 43 ∨ isDigit b = true := by
    by_contra hne
    push Not at hne
    have hsigned : signed (b :: s) = (1, b :: s) := by
      unfold signed
      split
      · rename_i heq
        exact absurd (List.cons.inj heq).1 hne.1
      · rename_i heq
        exact absurd (List.cons.inj heq).1 hne.2.1
      · rfl
    simp [numeral, hsigned, hne.2.2] at h
  rcases hb with rfl | rfl | hdigit
  · decide
  · decide
  · rw [isDigit_iff] at hdigit
    have hspace : ¬ (b = 32 ∨ 9 ≤ b ∧ b ≤ 13) := by
      rw [← UInt8.toNat_inj, UInt8.le_iff_toNat_le, UInt8.le_iff_toNat_le]
      change ¬ (b.toNat = 32 ∨ 9 ≤ b.toNat ∧ b.toNat ≤ 13)
      omega
    simpa [isSpace] using hspace

theorem front_eq (h : numeral s = some z) : front s = some z := by
  have hskip : s.dropWhile isSpace = s := by
    cases s with
    | nil => rfl
    | cons b s => rw [List.dropWhile_cons_of_neg (by simp [not_isSpace_of_numeral h])]
  unfold numeral at h
  unfold front
  rw [hskip]
  simp only at h ⊢
  split_ifs at h with hdigits
  have htake : (signed s).2.takeWhile isDigit = (signed s).2 := List.takeWhile_eq_self_iff.2 (List.all_eq_true.1 hdigits.2)
  rw [htake, if_neg hdigits.1]
  exact h

/-- the byte of a digit -/
theorem toNat_digit {c : Char} (h : c.isDigit = true) : 48 ≤ c.toNat ∧ c.toNat ≤ 57 ∧ c.toNat.toUInt8.toNat = c.toNat := by
  obtain ⟨hlow, hhigh⟩ := Char.isDigit_iff_toNat.1 h
  change 48 ≤ c.toNat at hlow
  change c.toNat ≤ 57 at hhigh
  refine ⟨hlow, hhigh, UInt8.toNat_ofNat_of_lt' ?_⟩
  change c.toNat < 256
  omega

theorem value_ofChars (l : List Char) (h : ∀ c ∈ l, c.isDigit = true) (n : ℕ) :
    (ofChars l).foldl (fun n b => 10 * n + (b.toNat - 48)) n = Nat.ofDigitChars 10 l n := by
  induction l generalizing n with
  | nil => rfl
  | cons c l ih =>
    obtain ⟨-, -, hbyte⟩ := toNat_digit (h c List.mem_cons_self)
    have htail := ih (fun c hc => h c (List.mem_cons_of_mem _ hc)) (10 * n + (c.toNat - 48))
    rw [ofChars, List.map_cons, List.foldl_cons, hbyte, Nat.ofDigitChars_cons]
    exact htail

theorem isDigit_ofChars {l : List Char} (h : ∀ c ∈ l, c.isDigit = true) : ∀ b ∈ ofChars l, isDigit b = true := by
  intro b hb
  obtain ⟨c, hc, rfl⟩ := List.mem_map.1 hb
  obtain ⟨hlow, hhigh, hbyte⟩ := toNat_digit (h c hc)
  rw [isDigit_iff, hbyte]
  exact ⟨hlow, hhigh⟩

theorem value_toDigits (n : ℕ) : value (ofChars (Nat.toDigits 10 n)) = n := by
  rw [value, value_ofChars _ fun c hc => Nat.isDigit_of_mem_toDigits (by decide) (by decide) hc]
  simp

theorem numeral_text (z : ℤ) : numeral (text z) = some z := by
  have hdigits : ∀ n, ∀ b ∈ ofChars (Nat.toDigits 10 n), isDigit b = true := fun n =>
    isDigit_ofChars fun c hc => Nat.isDigit_of_mem_toDigits (by decide) (by decide) hc
  have hne : ∀ n, ofChars (Nat.toDigits 10 n) ≠ [] := fun n hnil =>
    Nat.toDigits_ne_nil (List.map_eq_nil_iff.1 hnil)
  cases z with
  | ofNat n =>
    have hsigned : signed (ofChars (Nat.toDigits 10 n)) = (1, ofChars (Nat.toDigits 10 n)) := by
      unfold signed
      split
      · rename_i heq
        exact absurd (hdigits n 45 (heq ▸ List.mem_cons_self)) (by decide)
      · rename_i heq
        exact absurd (hdigits n 43 (heq ▸ List.mem_cons_self)) (by decide)
      · rfl
    have htext : text (Int.ofNat n) = ofChars (Nat.toDigits 10 n) := rfl
    rw [numeral, htext, hsigned]
    change (if _ then some (1 * (value (ofChars (Nat.toDigits 10 n)) : ℤ)) else none) = _
    rw [if_pos ⟨hne n, List.all_eq_true.2 (hdigits n)⟩, value_toDigits, one_mul]
    rfl
  | negSucc n =>
    have htext : text (Int.negSucc n) = 45 :: ofChars (Nat.toDigits 10 (n + 1)) := rfl
    rw [numeral, htext]
    change (if _ then some (-1 * (value (ofChars (Nat.toDigits 10 (n + 1))) : ℤ)) else none) = _
    rw [if_pos ⟨hne _, List.all_eq_true.2 (hdigits _)⟩, value_toDigits, neg_one_mul, Int.negSucc_eq]
    push_cast
    rfl

end Numeral

/-
A coordinate as text (QueryEngine/GPUCore/GPUReconstruct.cu, `GetNumberOfIntegerPartDigits`, `FloatToString`): the sign,
the digits of the integer part, written from the last to the first, the point and four decimals. The coordinate is a
rational number whose integer part fits int32_t; floor, fmod, log10 and the rounding are exact.

- `writes_floatToString`: the text at the cursor.
- `rounds_to_nearest_iff`: the text is within 0.00005 of the coordinate exactly when the four decimals do not round up to
  the next integer, to which nothing is carried.
-/
import Mathlib.Tactic
import QikkDB.Lib.Cursor
import QikkDB.Lib.Decimal

namespace QikkDB.FloatToString

open Cursor

/-! ## Model -/

/-- a coordinate whose integer part fits int32_t -/
abbrev Coordinate := {x : ℚ // |x| < 2 ^ 31}

def WKT_DECIMAL_PLACES : ℕ := 4

/-- floorf(fabsf(number)) -/
def integerPart (number : Coordinate) : ℕ := ⌊|number.1|⌋.toNat

/-- roundf, away from zero between two integers -/
def roundf (x : ℚ) : ℤ := if x < 0 then -⌊-x + 1 / 2⌋ else ⌊x + 1 / 2⌋

def decimalPart (number : Coordinate) : ℕ :=
  (roundf (Int.fract |number.1| * 10 ^ WKT_DECIMAL_PLACES)).toNat

/-- with the sign; `Nat.log` is the logarithm cut to an integer -/
def getNumberOfIntegerPartDigits (number : Coordinate) : ℕ :=
  (if 3 < integerPart number then Nat.log 10 (integerPart number) else 0) + 1 + if number.1 < 0 then 1 else 0

/-- '0' + d -/
def digit (d : ℕ) : Char := Char.ofNat ('0'.toNat + d)

/-- the loop over the digits of the integer part -/
def putInteger (c : State Char) (n : ℕ) : State Char :=
  if 0 < n / 10 then putInteger (putBefore c (digit (n % 10))) (n / 10) else putBefore c (digit (n % 10))
termination_by n

/-- the loop over the decimals -/
def putDecimals : ℕ → State Char → ℕ → State Char
  | 0, c, _ => c
  | places + 1, c, n => putDecimals places (putBefore c (digit (n % 10))) (n / 10)

def floatToString (c : State Char) (number : Coordinate) : State Char :=
  -- the cursor stays at the sign, which is counted with the digits
  let c := if number.1 < 0 then putHere c '-' else c
  let digits : ℤ := getNumberOfIntegerPartDigits number
  let c := putInteger (move c digits) (integerPart number)
  let c := move c (digits - if number.1 < 0 then 1 else 0)
  let c := put c '.'
  let c := putDecimals WKT_DECIMAL_PLACES (move c WKT_DECIMAL_PLACES) (decimalPart number)
  move c WKT_DECIMAL_PLACES

/-! ## The text -/

def sign (number : Coordinate) : List Char := if number.1 < 0 then ['-'] else []

/-- the digits that are left of a number in so many places -/
def decimals : ℕ → ℕ → List Char
  | 0, _ => []
  | places + 1, n => decimals places (n / 10) ++ [digit (n % 10)]

def text (number : Coordinate) : List Char :=
  sign number ++ Nat.toDigits 10 (integerPart number) ++ '.' :: decimals WKT_DECIMAL_PLACES (decimalPart number)

theorem digit_eq {d : ℕ} (h : d < 10) : digit d = Nat.digitChar d := by
  interval_cases d <;> decide

theorem putInteger_eq (c : State Char) (n : ℕ) : putInteger c n = (Nat.toDigits 10 n).reverse.foldl putBefore c := by
  induction n using Nat.strongRecOn generalizing c with
  | ind n ih =>
    rw [putInteger, Nat.toDigits_eq_if (by decide)]
    by_cases h : n < 10
    · rw [if_neg (by omega), if_pos h, digit_eq (Nat.mod_lt n (by decide)), Nat.mod_eq_of_lt h]
      rfl
    · rw [if_pos (by omega), if_neg h, ih (n / 10) (by omega), digit_eq (Nat.mod_lt n (by decide)),
        List.reverse_append]
      rfl

theorem putDecimals_eq (places : ℕ) (c : State Char) (n : ℕ) :
    putDecimals places c n = (decimals places n).reverse.foldl putBefore c := by
  induction places generalizing c n with
  | zero => rfl
  | succ places ih =>
    rw [putDecimals, ih, decimals, List.reverse_append]
    rfl

theorem length_decimals (places n : ℕ) : (decimals places n).length = places := by
  induction places generalizing n with
  | zero => rfl
  | succ places ih => rw [decimals, List.length_append, ih, List.length_singleton]

theorem length_toDigits (n : ℕ) : (Nat.toDigits 10 n).length = (if 3 < n then Nat.log 10 n else 0) + 1 := by
  have hlog : (Nat.toDigits 10 n).length = Nat.log 10 n + 1 := by
    have hle := (Nat.length_toDigits_le_iff (b := 10) (n := n) (k := Nat.log 10 n + 1) (by decide) (by omega)).2
      (Nat.lt_pow_succ_log_self (by decide) n)
    refine le_antisymm hle (Nat.succ_le_of_lt (not_le.1 fun h => ?_))
    rcases Nat.eq_zero_or_pos (Nat.log 10 n) with h0 | h0
    · have := Nat.length_toDigits_pos (b := 10) (n := n)
      omega
    · have hlt := (Nat.length_toDigits_le_iff (b := 10) (n := n) (by decide) h0).1 h
      have hn : n ≠ 0 := fun hn => by simp [hn] at h0
      exact absurd (Nat.pow_log_le_self 10 hn) (not_le.2 hlt)
  rw [hlog]
  split
  · rfl
  · rw [Nat.log_of_lt (by omega)]

theorem length_sign (number : Coordinate) : (sign number).length = if number.1 < 0 then 1 else 0 := by
  unfold sign
  split <;> rfl

/-- the sign is counted with the digits -/
theorem getNumberOfIntegerPartDigits_eq (number : Coordinate) :
    getNumberOfIntegerPartDigits number = (sign number).length + (Nat.toDigits 10 (integerPart number)).length := by
  rw [getNumberOfIntegerPartDigits, length_toDigits, length_sign]
  omega

theorem length_text (number : Coordinate) : (text number).length = getNumberOfIntegerPartDigits number + 5 := by
  rw [getNumberOfIntegerPartDigits_eq, text, List.length_append, List.length_append, List.length_cons, length_decimals]
  rfl

/-- **From any position the text of the coordinate is written, and the cursor stands behind it.** -/
theorem writes_floatToString (c : State Char) (number : Coordinate) :
    Writes (text number) c (floatToString c number) := by
  -- with the sign written and skipped, the digits are written from their end
  have hsign : ∃ c', Writes (sign number) c c' ∧
      ∀ d : ℤ, move (if number.1 < 0 then putHere c '-' else c) d = move c' (d - (sign number).length) := by
    by_cases h : number.1 < 0
    · refine ⟨put c '-', by rw [sign, if_pos h]; exact writes_put c '-', fun d => ?_⟩
      rw [if_pos h, length_sign, if_pos h]
      simp [move, put, putHere]
    · exact ⟨c, by rw [sign, if_neg h]; exact writes_nil c, fun d => by simp [h, length_sign]⟩
  obtain ⟨c', hc', hmove⟩ := hsign
  have hdigits : (getNumberOfIntegerPartDigits number : ℤ) - (sign number).length =
      (Nat.toDigits 10 (integerPart number)).length := by
    rw [getNumberOfIntegerPartDigits_eq]
    push_cast
    ring
  have hsub : (getNumberOfIntegerPartDigits number : ℤ) - (if number.1 < 0 then 1 else 0) =
      (Nat.toDigits 10 (integerPart number)).length := by
    rw [← hdigits, length_sign]
    split <;> rfl
  have hwhole := writes_backward (l := Nat.toDigits 10 (integerPart number)) rfl c'
  have hdecimals := fun c => writes_backward (l := decimals WKT_DECIMAL_PLACES (decimalPart number))
    (n := WKT_DECIMAL_PLACES) (by rw [length_decimals]) c
  rw [floatToString]
  simp only [hmove, hdigits, hsub, putInteger_eq, putDecimals_eq]
  have h := ((hc'.append hwhole).put '.').append (hdecimals _)
  rwa [List.append_assoc (sign number ++ _)] at h

/-! ## Reading back -/

/-- a decimal number: an optional minus sign, digits and decimals behind a point -/
def readUnsigned (t : List Char) : ℚ :=
  let decimals := (t.dropWhile (· ≠ '.')).drop 1
  Nat.ofDigitChars 10 (t.takeWhile (· ≠ '.')) 0 + Nat.ofDigitChars 10 decimals 0 / 10 ^ decimals.length

def readDecimal : List Char → ℚ
  | '-' :: t => -readUnsigned t
  | t => readUnsigned t

theorem toDigits_ne_point (n : ℕ) : ∀ c ∈ Nat.toDigits 10 n, c ≠ '.' := by
  rintro c hc rfl
  exact absurd (Nat.isDigit_of_mem_toDigits (by decide) (by decide) hc) (by decide)

theorem ofDigitChars_decimals (places n : ℕ) : Nat.ofDigitChars 10 (decimals places n) 0 = n % 10 ^ places := by
  induction places generalizing n with
  | zero => simp [decimals, Nat.mod_one]
  | succ places ih =>
    have hlt := Nat.mod_lt n (y := 10) (by decide)
    rw [decimals, Nat.ofDigitChars_append, ih, digit_eq hlt, Nat.ofDigitChars_cons_digitChar_of_lt_ten hlt,
      Nat.ofDigitChars_nil, pow_succ', Nat.mod_mul]
    omega

theorem readUnsigned_eq (n d : ℕ) :
    readUnsigned (Nat.toDigits 10 n ++ '.' :: decimals WKT_DECIMAL_PLACES d) =
      n + (d % 10 ^ WKT_DECIMAL_PLACES : ℕ) / 10 ^ WKT_DECIMAL_PLACES := by
  have hall : ∀ c ∈ Nat.toDigits 10 n, decide (c ≠ '.') = true := fun c hc => decide_eq_true (toDigits_ne_point n c hc)
  rw [readUnsigned, List.takeWhile_append_of_pos hall, List.dropWhile_append_of_pos hall]
  simp [Nat.ofDigitChars_ten_toDigits, ofDigitChars_decimals, length_decimals]

/-- the number that the text shows: the decimals have lost what did not fit four places -/
theorem readDecimal_text (number : Coordinate) :
    readDecimal (text number) =
      (if number.1 < 0 then -1 else 1) * (integerPart number +
        (decimalPart number % 10 ^ WKT_DECIMAL_PLACES : ℕ) / 10 ^ WKT_DECIMAL_PLACES : ℚ) := by
  rw [← readUnsigned_eq, text, sign]
  by_cases h : number.1 < 0
  · simp [h, readDecimal]
  · rw [if_neg h, if_neg h, one_mul, List.nil_append]
    cases hd : Nat.toDigits 10 (integerPart number) with
    | nil => exact absurd hd Nat.toDigits_ne_nil
    | cons c l =>
      have hc : c ≠ '-' := by
        rintro rfl
        exact Decimal.toDigits_ne_minus _ l hd
      rw [List.cons_append, readDecimal]
      simpa using hc

theorem head_text (number : Coordinate) : (text number).head? = some '-' ↔ number.1 < 0 := by
  rw [text, sign]
  by_cases h : number.1 < 0
  · simp [h]
  · cases hd : Nat.toDigits 10 (integerPart number) with
    | nil => exact absurd hd Nat.toDigits_ne_nil
    | cons c l =>
      have hc : c ≠ '-' := by
        rintro rfl
        exact Decimal.toDigits_ne_minus _ l hd
      simp [h, hc]

/-! ## Rounding -/

theorem integerPart_eq (number : Coordinate) : (integerPart number : ℚ) = |number.1| - Int.fract |number.1| := by
  have hfloor : 0 ≤ ⌊|number.1|⌋ := Int.floor_nonneg.2 (abs_nonneg _)
  rw [Int.self_sub_fract, integerPart, ← Int.cast_natCast, Int.toNat_of_nonneg hfloor]

theorem decimalPart_eq (number : Coordinate) : (decimalPart number : ℤ) = ⌊Int.fract |number.1| * 10 ^ 4 + 1 / 2⌋ := by
  have hfract := Int.fract_nonneg |number.1|
  have hnonneg : 0 ≤ Int.fract |number.1| * 10 ^ 4 := by positivity
  have hround : roundf (Int.fract |number.1| * 10 ^ 4) = ⌊Int.fract |number.1| * 10 ^ 4 + 1 / 2⌋ :=
    if_neg (not_lt.2 hnonneg)
  have hfloor : 0 ≤ ⌊Int.fract |number.1| * 10 ^ 4 + 1 / 2⌋ := Int.floor_nonneg.2 (by linarith)
  rw [decimalPart, WKT_DECIMAL_PLACES, hround, Int.toNat_of_nonneg hfloor]

/-- the text shows the absolute value as far off as the coordinate -/
theorem abs_readDecimal_sub (number : Coordinate) :
    |readDecimal (text number) - number.1| =
      |((decimalPart number % 10 ^ 4 : ℕ) : ℚ) / 10 ^ 4 - Int.fract (|number.1|)| := by
  have hdiff : ((decimalPart number % 10 ^ 4 : ℕ) : ℚ) / 10 ^ 4 - Int.fract |number.1| =
      (integerPart number + ((decimalPart number % 10 ^ 4 : ℕ) : ℚ) / 10 ^ 4) - |number.1| := by
    rw [integerPart_eq]
    ring
  rw [hdiff, readDecimal_text, WKT_DECIMAL_PLACES]
  by_cases h : number.1 < 0
  · rw [if_pos h, abs_of_neg h, ← abs_neg]
    congr 1
    ring
  · rw [if_neg h, abs_of_nonneg (not_lt.1 h), one_mul]

theorem near_iff (number : Coordinate) :
    |readDecimal (text number) - number.1| ≤ 5 / 100000 ↔ Int.fract |number.1| < 99995 / 100000 := by
  have hdec := decimalPart_eq number
  have hlo : (decimalPart number : ℚ) ≤ Int.fract |number.1| * 10 ^ 4 + 1 / 2 := by
    exact_mod_cast hdec ▸ Int.floor_le _
  have hhi : Int.fract |number.1| * 10 ^ 4 + 1 / 2 < decimalPart number + 1 := by
    exact_mod_cast hdec ▸ Int.lt_floor_add_one _
  have hone := Int.fract_lt_one |number.1|
  rw [abs_readDecimal_sub]
  constructor
  · intro h
    by_contra hlt
    have hcarry : decimalPart number = 10 ^ 4 := by
      have h1 : (decimalPart number : ℚ) < 10001 := by linarith
      have h2 : (9999 : ℚ) < decimalPart number := by linarith
      have h1' : decimalPart number < 10001 := by exact_mod_cast h1
      have h2' : 9999 < decimalPart number := by exact_mod_cast h2
      omega
    rw [hcarry, Nat.mod_self, Nat.cast_zero, zero_div, zero_sub, abs_neg, abs_of_nonneg (Int.fract_nonneg _)] at h
    linarith
  · intro h
    have hsmall : decimalPart number < 10 ^ 4 := by
      have h1 : (decimalPart number : ℚ) < 10 ^ 4 := by linarith
      exact_mod_cast h1
    rw [Nat.mod_eq_of_lt hsmall, abs_le]
    constructor <;> linarith

/-- the text is within half of the last decimal, and its sign is that of the coordinate -/
def RoundsToNearest (number : Coordinate) : Prop :=
  ∃ t, (∀ c, Writes t c (floatToString c number)) ∧ |readDecimal t - number.1| ≤ 5 / 100000 ∧
    (t.head? = some '-' ↔ number.1 < 0)

theorem roundsToNearest_iff_near (number : Coordinate) :
    RoundsToNearest number ↔ |readDecimal (text number) - number.1| ≤ 5 / 100000 := by
  constructor
  · rintro ⟨t, hwrites, hnear, -⟩
    rwa [(writes_floatToString ⟨0, []⟩ number).unique (hwrites ⟨0, []⟩)]
  · exact fun h => ⟨text number, fun c => writes_floatToString c number, h, head_text number⟩

/-- **The text is the coordinate rounded to four decimals, with its sign, exactly when the fraction is below 0.99995.** -/
theorem rounds_to_nearest_iff (number : Coordinate) : RoundsToNearest number ↔ Int.fract |number.1| < 99995 / 100000 :=
  (roundsToNearest_iff_near number).trans (near_iff number)

/-- 0.99999 becomes 0.0000 -/
theorem carry_is_lost : ¬RoundsToNearest ⟨99999 / 100000, by norm_num⟩ := by
  rw [roundsToNearest_iff_near, near_iff]
  norm_num [Int.fract]

end QikkDB.FloatToString

/-
CAST of a string to an integer (QueryEngine/GPUCore/GPUCast.cuh, `CastDecimal`, `kernel_cast_string`).

The sign, the digits, the digits behind a point or a comma and an exponent are read one after the other; all digits go
into one number of the target type, from which the fraction is taken away by factors 0.1. Each loop looks at the next
character before it looks at the length that is left.

Results:
- `castDecimal_integer`: an integer that fits the target type is read, whatever stands behind its characters.
- `castDecimal_fraction`: so is the integer part of a number all of whose digits fit the target type and 52 bits.
- `reads_behind_the_row`: no number of the form [+|-] digits [(.|,) digits] is read within its own characters.
-/
import Mathlib.Data.List.GetD
import Mathlib.Tactic
import QikkDB.Lib.PrefixSum
import QikkDB.Lib.Rounding

namespace QikkDB.CastDecimal

open PrefixSum Rounding

/-! ## Model -/

/-- the target types -/
inductive IntType where
  | int32
  | int64
deriving DecidableEq, Repr

/-- the first number behind those of the type -/
def IntType.limit : IntType → ℕ
  | .int32 => 2 ^ 31
  | .int64 => 2 ^ 63

/-- what has no defined result -/
inductive Fault where
  | outside
  | overflow
deriving DecidableEq, Repr

/-- the characters by their positions -/
abbrev Read := ℕ → Except Fault Char

/-- the value of a signed expression; the numbers of the loops are not negative -/
def fit (T : IntType) (n : ℕ) : Except Fault ℕ := if n < T.limit then .ok n else .error .overflow

/-- where the scan is, and the number so far -/
structure Scan where
  str : ℕ
  length : ℕ
  out : ℕ
deriving DecidableEq, Repr

/-- *str - '0' -/
def digitValue (c : Char) : ℕ := c.toNat - '0'.toNat

/-- the loops over digits; a negative length counts as 0, since it is only compared -/
def scanDigits (T : IntType) (read : Read) : ℕ → ℕ → ℕ → Except Fault Scan
  | 0, str, out => do
    let _ ← read str
    .ok ⟨str, 0, out⟩
  | length + 1, str, out => do
    let c ← read str
    if c.isDigit then do
      let out ← fit T (out * 10 + digitValue c)
      scanDigits T read length (str + 1) out
    else .ok ⟨str, length + 1, out⟩

/-- the sign, and the position and length behind it -/
def scanSign (read : Read) (str length : ℕ) : Except Fault (ℤ × ℕ × ℕ) := do
  let c ← read str
  .ok (if c = '-' then (-1, str + 1, length - 1) else if c = '+' then (1, str + 1, length - 1) else (1, str, length))

/-- the fraction; decimalPart is counted down with each of its digits -/
def scanFraction (T : IntType) (read : Read) (s : Scan) : Except Fault (Scan × ℤ) := do
  let c ← read s.str
  if (c = '.' ∨ c = ',') ∧ 0 < s.length then do
    let s' ← scanDigits T read (s.length - 1) (s.str + 1) s.out
    .ok (s', -((s'.str - (s.str + 1) : ℕ) : ℤ))
  else .ok (s, 0)

/-- the exponent, added to decimalPart -/
def scanExponent (read : Read) (s : Scan) (decimalPart : ℤ) : Except Fault ℤ := do
  let c ← read s.str
  if (c = 'e' ∨ c = 'E') ∧ 0 < s.length then do
    let (sign, str, length) ← scanSign read (s.str + 1) (s.length - 1)
    let e ← scanDigits .int32 read length str 0
    let z := decimalPart + e.out * sign
    if -2 ^ 31 ≤ z ∧ z < 2 ^ 31 then .ok z else .error .overflow
  else .ok decimalPart

/-- out *= 10, so many times -/
def timesTen (T : IntType) : ℕ → ℕ → Except Fault ℕ
  | 0, out => .ok out
  | n + 1, out => do
    let out ← fit T (out * 10)
    timesTen T n out

/-- out *= 0.1: the product of two doubles, cut to an integer; 0.1 is 3602879701896397 / 2^55 -/
def timesTenth (out : ℕ) : ℕ := roundBits 53 (roundBits 53 out * 3602879701896397) / 2 ^ 55

/-- the loops over decimalPart -/
def scale (T : IntType) (decimalPart : ℤ) (out : ℕ) : Except Fault ℕ :=
  if 0 ≤ decimalPart then timesTen T decimalPart.toNat out else .ok (timesTenth^[decimalPart.natAbs] out)

def castDecimal (T : IntType) (read : Read) (str length : ℕ) : Except Fault ℤ := do
  let (outSign, str, length) ← scanSign read str length
  let s ← scanDigits T read length str 0
  let (s, decimalPart) ← scanFraction T read s
  let decimalPart ← scanExponent read s decimalPart
  let out ← scale T decimalPart s.out
  .ok (out * outSign)

/-! ## Characters of a row -/

/-- the characters of the rows one after the other, and what the device holds behind them -/
def device (chars : List Char) (behind : ℕ → Char) : Read := fun p => .ok ((chars[p]?).getD (behind p))

/-- only the characters of one row -/
def ownChars (rows : List (List Char)) (i : ℕ) : Read := fun p =>
  if offset rows i ≤ p ∧ p < offset rows i + (rows.getD i []).length then
    match rows.flatten[p]? with
    | some c => .ok c
    | none => .error .outside
  else .error .outside

/-- the characters of a list stand at the position -/
def Holds (read : Read) (str : ℕ) (l : List Char) : Prop := ∀ j (hj : j < l.length), read (str + j) = .ok l[j]

variable {T : IntType} {read read' : Read} {str n : ℕ} {l m : List Char} {c : Char}

theorem Holds.append (h : Holds read str (l ++ m)) : Holds read str l ∧ Holds read (str + l.length) m := by
  constructor
  · intro j hj
    rw [h j (by rw [List.length_append]; omega), List.getElem_append_left hj]
  · intro j hj
    rw [add_assoc, h (l.length + j) (by rw [List.length_append]; omega), List.getElem_append_right (by omega)]
    simp

theorem Holds.head (h : Holds read str (c :: l)) : read str = .ok c := h 0 (Nat.succ_pos _)

theorem Holds.tail (h : Holds read str (c :: l)) : Holds read (str + 1) l := (Holds.append (l := [c]) h).2

theorem holds_device {rows : List (List Char)} {i : ℕ} (hi : i < rows.length) (behind : ℕ → Char) :
    Holds (device rows.flatten behind) (offset rows i) rows[i] := by
  intro j hj
  rw [device, getElem?_flatten hi hj, List.getElem?_eq_getElem hj]
  rfl

theorem holds_ownChars {rows : List (List Char)} {i : ℕ} (hi : i < rows.length) :
    Holds (ownChars rows i) (offset rows i) rows[i] := by
  intro j hj
  have hlen : (rows.getD i []).length = (rows[i]).length := by rw [List.getD_eq_getElem _ _ hi]
  rw [ownChars, if_pos (by omega), getElem?_flatten hi hj, List.getElem?_eq_getElem hj]

theorem ownChars_behind {rows : List (List Char)} {i : ℕ} (hi : i < rows.length) :
    ownChars rows i (offset rows i + (rows[i]).length) = .error .outside := by
  rw [ownChars, if_neg]
  rw [List.getD_eq_getElem _ _ hi]
  omega

/-! ## Digits -/

/-- all digits of a list, after the number so far -/
def accumulate (T : IntType) (out : ℕ) (l : List Char) : Except Fault ℕ :=
  if Nat.ofDigitChars 10 l out < T.limit then .ok (Nat.ofDigitChars 10 l out) else .error .overflow

theorem le_ofDigitChars (l : List Char) (n : ℕ) : n ≤ Nat.ofDigitChars 10 l n := by
  induction l generalizing n with
  | nil => exact le_rfl
  | cons c l ih =>
    rw [Nat.ofDigitChars_cons]
    exact le_trans (by omega) (ih _)

/-- the loop over digits that stand at the position -/
theorem scanDigits_append (h : Holds read str l) (hl : ∀ c ∈ l, c.isDigit = true) {out : ℕ} (hout : out < T.limit)
    (rest : ℕ) :
    scanDigits T read (l.length + rest) str out =
      (accumulate T out l).bind fun out => scanDigits T read rest (str + l.length) out := by
  induction l generalizing str out with
  | nil =>
    simp only [List.length_nil, Nat.zero_add, Nat.add_zero, accumulate, Nat.ofDigitChars_nil, if_pos hout]
    rfl
  | cons c l ih =>
    obtain ⟨hc, hl⟩ := List.forall_mem_cons.1 hl
    have hlen : (c :: l).length + rest = l.length + rest + 1 := by
      rw [List.length_cons]
      omega
    have hstr : str + (c :: l).length = str + 1 + l.length := by
      rw [List.length_cons]
      omega
    rw [hlen, hstr, scanDigits, h.head]
    simp only [bind, Except.bind, hc, if_true]
    by_cases hfit : out * 10 + digitValue c < T.limit
    · rw [fit, if_pos hfit]
      simp only
      rw [ih h.tail hl hfit, accumulate, accumulate, Nat.ofDigitChars_cons, mul_comm 10 out]
      rfl
    · have hover : ¬ Nat.ofDigitChars 10 (c :: l) out < T.limit := by
        rw [Nat.ofDigitChars_cons, mul_comm 10 out]
        exact fun hlt => hfit ((le_ofDigitChars l _).trans_lt hlt)
      simp only [fit, if_neg hfit, accumulate, if_neg hover]

theorem IntType.limit_pos (T : IntType) : 0 < T.limit := by
  cases T <;> decide

/-! ## Numbers -/

/-- a row of the form [+|-] digits [(.|,) digits] -/
structure Number where
  sign : Option Char
  whole : List Char
  fraction : Option (Char × List Char)
  sign_eq : ∀ c ∈ sign, c = '+' ∨ c = '-'
  whole_digits : ∀ c ∈ whole, c.isDigit = true
  whole_ne : whole ≠ []
  fraction_eq : ∀ f ∈ fraction, (f.1 = '.' ∨ f.1 = ',') ∧ (∀ c ∈ f.2, c.isDigit = true) ∧ f.2 ≠ []

namespace Number

variable (x : Number)

/-- the point or comma with the decimals -/
def fractionChars : List Char :=
  match x.fraction with
  | none => []
  | some (point, decimals) => point :: decimals

def decimals : List Char :=
  match x.fraction with
  | none => []
  | some (_, decimals) => decimals

def chars : List Char := x.sign.toList ++ (x.whole ++ x.fractionChars)

/-- the integer part, which is the number cut toward zero -/
def integerPart : ℤ :=
  if x.sign = some '-' then -(Nat.ofDigitChars 10 x.whole 0 : ℤ) else Nat.ofDigitChars 10 x.whole 0

/-- all digits as one number -/
def allDigits : ℕ := Nat.ofDigitChars 10 x.decimals (Nat.ofDigitChars 10 x.whole 0)

end Number

theorem isDigit_ne {c d : Char} (h : c.isDigit = true) (hd : d.isDigit = false) : c ≠ d := by
  rintro rfl
  rw [h] at hd
  cases hd

/-- the sign of a number is skipped -/
theorem scanSign_number (x : Number) (h : Holds read str x.chars) :
    scanSign read str x.chars.length =
      .ok (if x.sign = some '-' then -1 else 1, str + x.sign.toList.length, (x.whole ++ x.fractionChars).length) := by
  unfold Number.chars at h ⊢
  cases hsign : x.sign with
  | none =>
    obtain ⟨d, l, hwhole⟩ := List.exists_cons_of_ne_nil x.whole_ne
    have hd : d.isDigit = true := x.whole_digits d (by rw [hwhole]; exact List.mem_cons_self)
    rw [hsign, hwhole] at h
    have hread : read str = .ok d := Holds.head (l := l ++ x.fractionChars) h
    simp [scanSign, hread, isDigit_ne hd, bind, Except.bind]
  | some s =>
    rw [hsign] at h
    have hread : read str = .ok s := Holds.head (l := x.whole ++ x.fractionChars) h
    rcases x.sign_eq s hsign with rfl | rfl
    · simp [scanSign, hread, bind, Except.bind]
    · simp [scanSign, hread, bind, Except.bind]

/-- the end of a loop over digits -/
theorem scanDigits_stop (h : Holds read str (c :: l)) (hc : c.isDigit = false) (out : ℕ) :
    scanDigits T read (l.length + 1) str out = .ok ⟨str, l.length + 1, out⟩ := by
  rw [scanDigits, h.head]
  simp [bind, Except.bind, hc]

theorem accumulate_of_lt {out : ℕ} (h : Nat.ofDigitChars 10 l out < T.limit) :
    accumulate T out l = .ok (Nat.ofDigitChars 10 l out) :=
  if_pos h

theorem accumulate_of_not_lt {out : ℕ} (h : ¬ Nat.ofDigitChars 10 l out < T.limit) :
    accumulate T out l = .error .overflow :=
  if_neg h

/-- digits up to the end, and the look at the character behind them -/
theorem scanDigits_end (h : Holds read str l) (hl : ∀ c ∈ l, c.isDigit = true) {out : ℕ} (hout : out < T.limit) :
    scanDigits T read l.length str out =
      if Nat.ofDigitChars 10 l out < T.limit then
        (read (str + l.length)).bind fun _ => .ok ⟨str + l.length, 0, Nat.ofDigitChars 10 l out⟩
      else .error .overflow := by
  have happend := scanDigits_append h hl hout 0
  rw [Nat.add_zero] at happend
  rw [happend]
  by_cases hfits : Nat.ofDigitChars 10 l out < T.limit
  · rw [accumulate_of_lt hfits, if_pos hfits]
    rfl
  · rw [accumulate_of_not_lt hfits, if_neg hfits]
    rfl

/-- the digits of a number, before and behind the point -/
theorem scan_number (x : Number) (h : Holds read str (x.whole ++ x.fractionChars)) :
    (scanDigits T read (x.whole ++ x.fractionChars).length str 0).bind (scanFraction T read) =
      if x.allDigits < T.limit then
        (read (str + (x.whole ++ x.fractionChars).length)).bind fun _ =>
          .ok (⟨str + (x.whole ++ x.fractionChars).length, 0, x.allDigits⟩, -(x.decimals.length : ℤ))
      else .error .overflow := by
  obtain ⟨hwhole, hfraction⟩ := h.append
  unfold Number.allDigits Number.decimals Number.fractionChars at *
  cases hx : x.fraction with
  | none =>
    simp only [List.append_nil, Nat.ofDigitChars_nil]
    rw [scanDigits_end hwhole x.whole_digits T.limit_pos]
    split
    · cases hread : read (str + x.whole.length) with
      | error e => rfl
      | ok c => simp [scanFraction, hread, bind, Except.bind]
    · rfl
  | some f =>
    obtain ⟨point, ds⟩ := f
    obtain ⟨hpoint, hds, -⟩ := x.fraction_eq _ hx
    simp only [hx] at hfraction ⊢
    have hnot : point.isDigit = false := by
      rcases hpoint with rfl | rfl <;> rfl
    rw [List.length_append, scanDigits_append hwhole x.whole_digits T.limit_pos]
    by_cases hfits : Nat.ofDigitChars 10 x.whole 0 < T.limit
    · rw [accumulate_of_lt hfits]
      simp only [Except.bind]
      rw [List.length_cons, scanDigits_stop hfraction hnot]
      have hread : read (str + x.whole.length) = .ok point := hfraction.head
      have hguard : (point = '.' ∨ point = ',') ∧ 0 < ds.length + 1 := ⟨hpoint, Nat.succ_pos _⟩
      have hend : str + x.whole.length + 1 + ds.length = str + (x.whole.length + (ds.length + 1)) := by
        omega
      simp only [scanFraction, hread, bind, Except.bind, if_pos hguard, Nat.add_sub_cancel]
      rw [scanDigits_end hfraction.tail hds hfits, hend]
      by_cases hall : Nat.ofDigitChars 10 ds (Nat.ofDigitChars 10 x.whole 0) < T.limit
      · rw [if_pos hall, if_pos hall]
        cases read (str + (x.whole.length + (ds.length + 1))) with
        | error e => rfl
        | ok c =>
          have hcount : str + (x.whole.length + (ds.length + 1)) - (str + x.whole.length + 1) = ds.length := by
            omega
          simp [Except.bind, hcount]
      · rw [if_neg hall, if_neg hall]
    · have hall : ¬ Nat.ofDigitChars 10 ds (Nat.ofDigitChars 10 x.whole 0) < T.limit :=
        fun hlt => hfits ((le_ofDigitChars ds _).trans_lt hlt)
      rw [accumulate_of_not_lt hfits, if_neg hall]
      rfl

/-- no exponent is left to be read -/
theorem scanExponent_end {s : Scan} (hs : s.length = 0) (decimalPart : ℤ) :
    scanExponent read s decimalPart = (read s.str).bind fun _ => .ok decimalPart := by
  unfold scanExponent
  cases hread : read s.str with
  | error e => rfl
  | ok c => simp [hs, bind, Except.bind]

/-- the fraction is taken away digit by digit -/
theorem scale_fraction (n out : ℕ) : scale T (-(n : ℤ)) out = .ok (timesTenth^[n] out) := by
  unfold scale
  cases n with
  | zero => rfl
  | succ n =>
    rw [if_neg (by omega), Int.natAbs_neg, Int.natAbs_natCast]

/-- **Any number of the form:** all its digits have to fit the type, and the character behind it has to be there. -/
theorem castDecimal_number (x : Number) (h : Holds read str x.chars) :
    castDecimal T read str x.chars.length =
      if x.allDigits < T.limit then
        (read (str + x.chars.length)).bind fun _ =>
          .ok (((timesTenth^[x.decimals.length] x.allDigits : ℕ) : ℤ) * if x.sign = some '-' then -1 else 1)
      else .error .overflow := by
  obtain ⟨-, hrest⟩ := Holds.append (l := x.sign.toList) h
  have hend : str + x.chars.length = str + x.sign.toList.length + (x.whole ++ x.fractionChars).length := by
    rw [Number.chars, @List.length_append _ x.sign.toList]
    omega
  have hscan := scan_number (T := T) x hrest
  rw [← hend] at hscan
  rw [castDecimal, scanSign_number x h]
  simp only [bind, Except.bind] at hscan ⊢
  cases hdigits : scanDigits T read (x.whole ++ x.fractionChars).length (str + x.sign.toList.length) 0 with
  | error e =>
    rw [hdigits] at hscan
    simp only at hscan ⊢
    split at hscan
    case isTrue hall =>
      cases hread : read (str + x.chars.length) with
      | error e' =>
        rw [hread] at hscan
        simp [hall, Except.error.inj hscan]
      | ok c =>
        rw [hread] at hscan
        cases hscan
    case isFalse hall => rw [Except.error.inj hscan, if_neg hall]
  | ok s =>
    rw [hdigits] at hscan
    simp only at hscan ⊢
    rw [hscan]
    by_cases hall : x.allDigits < T.limit
    · rw [if_pos hall, if_pos hall]
      cases hread : read (str + x.chars.length) with
      | error e' => rfl
      | ok c => simp [scanExponent_end, hread, scale_fraction, Except.bind]
    · rw [if_neg hall, if_neg hall]

/-! ## Values -/

theorem timesTenth_eq {n : ℕ} (h : n < 2 ^ 52) : timesTenth n = n / 10 := by
  have hself : roundBits 53 n = n := roundBits_eq_self_iff.2 (representable_of_lt (h.trans (by norm_num)))
  rw [timesTenth, hself]
  generalize hx : n * 3602879701896397 = x
  -- ten times the factor is a little more than 2 ^ 55
  have hq : n / 10 * 2 ^ 55 ≤ roundBits 53 x := by
    refine le_roundBits (by decide) ⟨n / 10, 55, by omega, rfl⟩ ?_
    omega
  have hunit : unit 53 x ≤ 2 ^ 51 := by
    refine Nat.pow_le_pow_right (by decide) ?_
    have hlog : x.log2 < 104 := by
      by_cases hx0 : x = 0
      · rw [hx0]
        decide
      · exact (Nat.log2_lt hx0).2 (by omega)
    unfold excess
    omega
  have herror := (roundBits_error 53 x).1
  omega

theorem iterate_timesTenth {n : ℕ} (h : n < 2 ^ 52) (k : ℕ) : timesTenth^[k] n = n / 10 ^ k := by
  induction k generalizing n with
  | zero => simp
  | succ k ih =>
    rw [Function.iterate_succ_apply, timesTenth_eq h, ih ((Nat.div_le_self n 10).trans_lt h), Nat.div_div_eq_div_mul,
      pow_succ']

theorem ofDigitChars_div (hl : ∀ c ∈ l, c.isDigit = true) (n : ℕ) : Nat.ofDigitChars 10 l n / 10 ^ l.length = n := by
  induction l generalizing n with
  | nil => simp
  | cons c l ih =>
    obtain ⟨hc, hl⟩ := List.forall_mem_cons.1 hl
    have hdigit : c.toNat - '0'.toNat < 10 := by
      have hrange := Char.isDigit_iff_toNat.1 hc
      have hzero : '0'.toNat = 48 := rfl
      have hnine : '9'.toNat = 57 := rfl
      omega
    rw [Nat.ofDigitChars_cons, List.length_cons, pow_succ, ← Nat.div_div_eq_div_mul, ih hl]
    omega

/-- all digits without those behind the point -/
theorem allDigits_div (x : Number) : x.allDigits / 10 ^ x.decimals.length = Nat.ofDigitChars 10 x.whole 0 := by
  refine ofDigitChars_div ?_ _
  unfold Number.decimals
  cases hx : x.fraction with
  | none => simp
  | some f => exact (x.fraction_eq f hx).2.1

/-- The integer part is read when all digits fit the type and 52 bits, whatever stands behind the row. -/
theorem castDecimal_fraction {rows : List (List Char)} {i : ℕ} (hi : i < rows.length) (x : Number)
    (hrow : rows[i] = x.chars) (hfits : x.allDigits < T.limit) (hbits : x.allDigits < 2 ^ 52) (behind : ℕ → Char) :
    castDecimal T (device rows.flatten behind) (offset rows i) (rows[i]).length = .ok x.integerPart := by
  have hholds : Holds (device rows.flatten behind) (offset rows i) x.chars := hrow ▸ holds_device hi behind
  rw [hrow, castDecimal_number x hholds, if_pos hfits, iterate_timesTenth hbits, allDigits_div, Number.integerPart]
  simp only [device, Except.bind]
  split <;> simp

/-- An integer that fits the type is read, whatever stands behind the row. -/
theorem castDecimal_integer (x : Number) (hx : x.fraction = none) (h : Holds read str x.chars)
    (hend : ∃ c, read (str + x.chars.length) = .ok c) :
    castDecimal T read str x.chars.length =
      if Nat.ofDigitChars 10 x.whole 0 < T.limit then .ok x.integerPart else .error .overflow := by
  obtain ⟨c, hc⟩ := hend
  have hdecimals : x.decimals = [] := by rw [Number.decimals, hx]
  rw [castDecimal_number x h, hc, Number.allDigits, hdecimals, Number.integerPart, Nat.ofDigitChars_nil]
  refine if_congr Iff.rfl ?_ rfl
  simp only [Except.bind, List.length_nil, Function.iterate_zero, id_eq]
  split <;> simp

/-! ## The row's own characters -/

/-- the integer part is the result, and no character but the row's own is read -/
structure ReadsNumber (T : IntType) (rows : List (List Char)) (i : ℕ) (x : Number) : Prop where
  value : ∀ behind, castDecimal T (device rows.flatten behind) (offset rows i) x.chars.length = .ok x.integerPart
  own : castDecimal T (ownChars rows i) (offset rows i) x.chars.length ≠ .error .outside

/-- **No number of the form is read within its own characters:** behind its last digit a loop looks at one more. -/
theorem reads_behind_the_row (T : IntType) {rows : List (List Char)} {i : ℕ} (hi : i < rows.length) (x : Number)
    (hrow : rows[i] = x.chars) : ¬ ReadsNumber T rows i x := by
  intro h
  have hvalue := h.value fun _ => ' '
  have hown := h.own
  rw [castDecimal_number x (hrow ▸ holds_device hi _)] at hvalue
  rw [castDecimal_number x (hrow ▸ holds_ownChars hi)] at hown
  by_cases hall : x.allDigits < T.limit
  · rw [if_pos hall, ← hrow, ownChars_behind hi] at hown
    exact hown rfl
  · rw [if_neg hall] at hvalue
    cases hvalue

/-- the row "7" -/
def seven : Number := ⟨none, ['7'], none, by simp, by simp, by simp, by simp⟩

theorem reads_behind_the_row_seven : ¬ ReadsNumber .int32 [['7']] 0 seven :=
  reads_behind_the_row .int32 (by decide) seven rfl

/-- The cast of "7" reads behind its only character. -/
theorem seven_is_not_enough : ¬ ∀ (T : IntType) (rows : List (List Char)) (i : ℕ) (x : Number) (hi : i < rows.length),
    rows[i] = x.chars → -(T.limit : ℤ) ≤ x.integerPart → x.integerPart < T.limit → ReadsNumber T rows i x := by
  intro h
  have hread := h .int32 [['7']] 0 seven (by decide) rfl (by decide) (by decide)
  exact hread.own rfl

/-- ten decimals overflow int32_t, although the integer part fits -/
example : castDecimal .int32 (device "0.3333333333".toList fun _ => ' ') 0 12 = .error .overflow := by decide

end QikkDB.CastDecimal

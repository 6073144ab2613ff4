/-
CAST of an integer to a string and back (QueryEngine/GPUCore/GPUCast.cuh, `GetNumberOfIntegralDigits`,
`kernel_predict_numeric_string_lengths`, `NumericToString`, `kernel_cast_numeric_to_string`, `CastNumericToString`,
`kernel_cast_string`).

Digits and number of digits come from the absolute value as a float, which keeps 24 bits; the logarithm is exact. The
lengths are predicted first, and their prefix sums give each row its place.

Results:
- `writes_numericToString`: the text at the cursor, which is the predicted one.
- `cast_round_trip_iff`: the values come back exactly when they are 24 bits times a power of two and none is the smallest
  of its type.
-/
import Mathlib.Tactic
import QikkDB.Engine.CastDecimal
import QikkDB.Engine.FloatToString
import QikkDB.Engine.Reconstruct

namespace QikkDB.NumericToString

open CastDecimal Cursor FloatToString PrefixSum Rounding Scatter
open Reconstruct (alloc ofStrings)

/-! ## Model -/

/-- fabsf of an integer, and floorf of it -/
def fabsf (number : ℤ) : ℕ := roundBits 24 number.natAbs

/-- `Nat.log` is the logarithm cut to an integer; the float of an integer has no decimal digits -/
def getNumberOfIntegralDigits (val : ℤ) : ℕ := (if 3 < fabsf val then Nat.log 10 (fabsf val) else 0) + 1

/-- kernel_predict_numeric_string_lengths -/
def predictLength (val : ℤ) : ℕ := (if val < 0 then 1 else 0) + getNumberOfIntegralDigits val

/-- the zeros in front of the digits -/
def putZeros : ℕ → State Char → State Char
  | 0, c => c
  | n + 1, c => putZeros n (putBefore c '0')

/-- `NumericToString` of an integer; a float from 2^63 on has no value of int64_t -/
def numericToString (c : State Char) (number : ℤ) (fixedIntegralDigits : ℕ) : Option (State Char) :=
  let c := if number < 0 then put c '-' else c
  let integerPart := fabsf number
  if 2 ^ 63 ≤ integerPart then none
  else
    let integralDigits := getNumberOfIntegralDigits number
    let fixedIntegralDigits := max fixedIntegralDigits integralDigits
    let c := putInteger (move c fixedIntegralDigits) integerPart
    let c := putZeros (fixedIntegralDigits - integralDigits) c
    some (move c fixedIntegralDigits)

/-- a GPUString -/
abbrev GPUString := Reconstruct.GPUString Char

/-- the kernels, which the device may run over the rows in different orders -/
inductive Launch where
  | predict
  | toString
  | fromString
deriving DecidableEq, Repr

/-- the order of the rows in each kernel -/
abbrev Order := Launch → List ℕ

/-- a row of kernel_cast_numeric_to_string -/
def castRow (stringIndices : List ℕ) (inCol : List ℤ) (i : ℕ) : Option (List (ℤ × Char)) := do
  let stringIndex ← startAt stringIndices i
  let val ← inCol[i]?
  let c ← numericToString ⟨stringIndex, []⟩ val 0
  some c.written

def castNumericToString (order : Order) (inCol : List ℤ) : Option GPUString := do
  let size ← alloc inCol.length
  let stringLengths ← kernel size (order .predict) fun i => do
    let val ← inCol[i]?
    some [((i : ℤ), predictLength val)]
  let stringIndices := inclusiveSum stringLengths
  let totalCharCount ← stringIndices[inCol.length - 1]?
  let size ← alloc totalCharCount
  let allChars ← kernel size (order .toString) (castRow stringIndices inCol)
  some ⟨allChars, stringIndices⟩

/-- a row of kernel_cast_string; the memory of the device goes on behind the buffer -/
def castStringRow (T : IntType) (behind : ℕ → Char) (inCol : GPUString) (i : ℕ) : Option (List (ℤ × ℤ)) := do
  let strIdx ← startAt inCol.stringIndices i
  let strLength ← countAt inCol.stringIndices i
  let val ← (castDecimal T (device inCol.allChars behind) strIdx strLength).toOption
  some [((i : ℤ), val)]

def kernelCastString (T : IntType) (order : Order) (behind : ℕ → Char) (inCol : GPUString) (dataElementCount : ℕ) :
    Option (List ℤ) :=
  kernel dataElementCount (order .fromString) (castStringRow T behind inCol)

/-! ## The text -/

def sign (number : ℤ) : List Char := if number < 0 then ['-'] else []

/-- the sign, zeros up to the fixed number of digits, and the digits -/
def text (number : ℤ) (fixedIntegralDigits : ℕ) : List Char :=
  sign number ++ (List.replicate (fixedIntegralDigits - getNumberOfIntegralDigits number) '0' ++
    Nat.toDigits 10 (fabsf number))

variable {number : ℤ} {fixedIntegralDigits : ℕ}

theorem length_digits (number : ℤ) : (Nat.toDigits 10 (fabsf number)).length = getNumberOfIntegralDigits number :=
  length_toDigits _

theorem length_sign (number : ℤ) : (sign number).length = if number < 0 then 1 else 0 := by
  unfold sign
  split <;> rfl

theorem length_text (number : ℤ) (fixedIntegralDigits : ℕ) :
    (text number fixedIntegralDigits).length =
      (sign number).length + max fixedIntegralDigits (getNumberOfIntegralDigits number) := by
  rw [text, List.length_append, List.length_append, List.length_replicate, length_digits]
  omega

/-- the predicted length -/
theorem length_text_zero (number : ℤ) : (text number 0).length = predictLength number := by
  rw [length_text, length_sign, Nat.zero_max]
  rfl

theorem putZeros_eq (n : ℕ) (c : State Char) : putZeros n c = (List.replicate n '0').foldl putBefore c := by
  induction n generalizing c with
  | zero => rfl
  | succ n ih =>
    rw [putZeros, ih, List.replicate_succ]
    rfl

variable (fixedIntegralDigits) in
/-- From any position the text is written, and the cursor stands behind it. -/
theorem writes_numericToString (c : State Char) (h : fabsf number < 2 ^ 63) :
    ∃ c', numericToString c number fixedIntegralDigits = some c' ∧ Writes (text number fixedIntegralDigits) c c' := by
  have hsign : Writes (sign number) c (if number < 0 then put c '-' else c) := by
    unfold sign
    split
    · exact writes_put c '-'
    · exact writes_nil c
  -- zeros and digits are written from the last one to the first
  have hlen : (max fixedIntegralDigits (getNumberOfIntegralDigits number) : ℕ) =
      (List.replicate (max fixedIntegralDigits (getNumberOfIntegralDigits number) - getNumberOfIntegralDigits number) '0' ++
        Nat.toDigits 10 (fabsf number)).length := by
    rw [List.length_append, List.length_replicate, length_digits]
    omega
  have hzeros : max fixedIntegralDigits (getNumberOfIntegralDigits number) - getNumberOfIntegralDigits number =
      fixedIntegralDigits - getNumberOfIntegralDigits number := by
    omega
  have hdigits := writes_backward (congrArg Nat.cast hlen) (if number < 0 then put c '-' else c)
  refine ⟨_, if_neg (not_le.2 h), ?_⟩
  rw [List.reverse_append, List.foldl_append, ← putInteger_eq, List.reverse_replicate, ← putZeros_eq] at hdigits
  have hall := hsign.append hdigits
  rwa [hzeros] at hall ⊢

theorem numericToString_of_le {c : State Char} (h : 2 ^ 63 ≤ fabsf number) :
    numericToString c number fixedIntegralDigits = none :=
  if_pos h

/-! ## There -/

/-- every kernel runs over all rows -/
def Order.Covers (order : Order) (n : ℕ) : Prop := ∀ launch, (order launch).Perm (List.range n)

variable {order : Order} {inCol : List ℤ} {T : IntType}

theorem lengths_texts (inCol : List ℤ) :
    (inCol.map fun v => text v 0).map List.length = inCol.map predictLength := by
  rw [List.map_map]
  exact List.map_congr_left fun v _ => length_text_zero v

theorem castRow_of_lt {i : ℕ} (hi : i < inCol.length) (h : fabsf inCol[i] < 2 ^ 63) :
    ∃ ws, castRow (inclusiveSum (inCol.map predictLength)) inCol i = some ws ∧
      ws.Perm (place (offset (inCol.map fun v => text v 0) i) (text inCol[i] 0)) := by
  obtain ⟨c, hc, hwrites⟩ := writes_numericToString 0
    ⟨(offset (inCol.map fun v => text v 0) i : ℕ), []⟩ h
  have hstart : startAt (inclusiveSum (inCol.map predictLength)) i = some (offset (inCol.map fun v => text v 0) i) := by
    rw [startAt_inclusiveSum (by rw [List.length_map]; exact hi.le), offset_eq, lengths_texts]
  have hperm := hwrites.written
  rw [List.nil_append] at hperm
  refine ⟨c.written, ?_, hperm⟩
  simp [castRow, hstart, List.getElem?_eq_getElem hi, hc]

/-- the lengths are those of the texts -/
theorem kernel_predict (horder : order.Covers inCol.length) :
    kernel inCol.length (order .predict) (fun i => do
      let val ← inCol[i]?
      some [((i : ℤ), predictLength val)]) = some (inCol.map predictLength) := by
  have hlen : (inCol.map predictLength).length = inCol.length := List.length_map _
  conv_lhs => rw [← hlen]
  refine kernel_values (by rw [hlen]; exact horder .predict) fun i hi => ?_
  rw [hlen] at hi
  simp [List.getElem?_eq_getElem hi]

/-- The texts stand one after the other. -/
theorem castNumericToString_eq (horder : order.Covers inCol.length) (hne : inCol ≠ [])
    (h : ∀ v ∈ inCol, fabsf v < 2 ^ 63) :
    castNumericToString order inCol = some (ofStrings (inCol.map fun v => text v 0)) := by
  have hpos : inCol.length ≠ 0 := fun hzero => hne (List.length_eq_zero_iff.1 hzero)
  have hlast : (inclusiveSum (inCol.map predictLength))[inCol.length - 1]? = some (inCol.map predictLength).sum := by
    have hlast' := last_inclusiveSum (l := inCol.map predictLength) (by simpa using hne)
    rwa [List.length_map] at hlast'
  have htotal : (inCol.map predictLength).sum = (inCol.map fun v => text v 0).flatten.length := by
    rw [List.length_flatten, lengths_texts]
  have hsize : (inCol.map predictLength).sum ≠ 0 := by
    obtain ⟨v, l, rfl⟩ := List.exists_cons_of_ne_nil hne
    rw [List.map_cons, List.sum_cons, predictLength, getNumberOfIntegralDigits]
    omega
  have hchars : kernel (inCol.map predictLength).sum (order .toString)
      (castRow (inclusiveSum (inCol.map predictLength)) inCol) = some (inCol.map fun v => text v 0).flatten := by
    refine kernel_eq (by rw [List.length_map]; exact horder .toString) htotal fun i hi => ?_
    rw [List.length_map] at hi
    obtain ⟨ws, hws, hperm⟩ := castRow_of_lt hi (h _ (List.getElem_mem hi))
    refine ⟨ws, hws, ?_⟩
    rwa [List.getD_eq_getElem _ _ (by rwa [List.length_map]), List.getElem_map]
  have hpredict := kernel_predict horder
  unfold castNumericToString
  simp only [alloc, if_neg hpos, Option.bind_eq_bind, Option.bind_some] at hpredict ⊢
  rw [hpredict, Option.bind_some, hlast, Option.bind_some, if_neg hsize, Option.bind_some, hchars,
    Option.bind_some, ofStrings, lengths_texts]

/-! ## And back -/

theorem no_fraction : ∀ f ∈ (none : Option (Char × List Char)),
    (f.1 = '.' ∨ f.1 = ',') ∧ (∀ c ∈ f.2, c.isDigit = true) ∧ f.2 ≠ [] := by
  simp

/-- the written text as a number -/
def written (v : ℤ) : Number where
  sign := if v < 0 then some '-' else none
  whole := Nat.toDigits 10 (fabsf v)
  fraction := none
  sign_eq := by
    intro c hc
    split at hc
    · exact Or.inr (Option.some.inj hc).symm
    · cases hc
  whole_digits := fun _ hc => Nat.isDigit_of_mem_toDigits (by decide) (by decide) hc
  whole_ne := Nat.toDigits_ne_nil
  fraction_eq := no_fraction

theorem chars_written (v : ℤ) : (written v).chars = text v 0 := by
  unfold Number.chars Number.fractionChars written text sign
  split <;> simp

/-- the value that comes back -/
def readBack (v : ℤ) : ℤ := if v < 0 then -(fabsf v : ℤ) else fabsf v

theorem integerPart_written (v : ℤ) : (written v).integerPart = readBack v := by
  unfold Number.integerPart written readBack
  by_cases h : v < 0 <;> simp [h, Nat.ofDigitChars_ten_toDigits]

/-- a row of the cast back -/
theorem castDecimal_text {i : ℕ} (hi : i < inCol.length) (behind : ℕ → Char) :
    castDecimal T (device (inCol.map fun v => text v 0).flatten behind) (offset (inCol.map fun v => text v 0) i)
        (predictLength inCol[i]) =
      if fabsf inCol[i] < T.limit then .ok (readBack inCol[i]) else .error .overflow := by
  have hi' : i < (inCol.map fun v => text v 0).length := by rwa [List.length_map]
  have hholds := holds_device hi' behind
  rw [List.getElem_map, ← chars_written] at hholds
  have hcast := castDecimal_integer (T := T) (written inCol[i]) rfl hholds ⟨_, rfl⟩
  have hdigits : Nat.ofDigitChars 10 (written inCol[i]).whole 0 = fabsf inCol[i] := Nat.ofDigitChars_ten_toDigits
  rwa [hdigits, integerPart_written, chars_written, length_text_zero] at hcast

theorem castStringRow_of_lt {i : ℕ} (hi : i < inCol.length) (behind : ℕ → Char) :
    castStringRow T behind (ofStrings (inCol.map fun v => text v 0)) i =
      if fabsf inCol[i] < T.limit then some [((i : ℤ), readBack inCol[i])] else none := by
  have hstart : startAt (inclusiveSum (inCol.map predictLength)) i = some (offset (inCol.map fun v => text v 0) i) := by
    rw [startAt_inclusiveSum (by rw [List.length_map]; exact hi.le), offset_eq, lengths_texts]
  have hcount : countAt (inclusiveSum (inCol.map predictLength)) i = some (predictLength inCol[i]) := by
    rw [countAt_inclusiveSum (by rwa [List.length_map]), List.getElem?_map, List.getElem?_eq_getElem hi,
      Option.map_some]
  simp only [castStringRow, ofStrings, lengths_texts, hstart, hcount, Option.bind_eq_bind, Option.bind_some,
    castDecimal_text hi behind]
  split <;> rfl

theorem kernelCastString_eq_iff (horder : order.Covers inCol.length) (behind : ℕ → Char) :
    kernelCastString T order behind (ofStrings (inCol.map fun v => text v 0)) inCol.length = some inCol ↔
      ∀ v ∈ inCol, fabsf v < T.limit ∧ readBack v = v := by
  constructor
  · intro h v hv
    obtain ⟨wss, hrows, -⟩ := Option.bind_eq_some_iff.1 h
    -- no row has failed, so each has written what it reads
    have hfits : ∀ v ∈ inCol, fabsf v < T.limit := by
      intro v hv
      by_contra hlarge
      obtain ⟨i, hi, rfl⟩ := List.getElem_of_mem hv
      have hnone := Traverse.mapM_none ((horder .fromString).mem_iff.2 (List.mem_range.2 hi))
        ((castStringRow_of_lt hi behind).trans (if_neg hlarge))
      rw [hnone] at hrows
      cases hrows
    have hvalues : kernelCastString T order behind (ofStrings (inCol.map fun v => text v 0)) inCol.length =
        some (inCol.map readBack) := by
      have hlen : (inCol.map readBack).length = inCol.length := List.length_map _
      unfold kernelCastString
      conv_lhs => rw [← hlen]
      refine kernel_values (by rw [hlen]; exact horder .fromString) fun i hi => ?_
      rw [hlen] at hi
      rw [castStringRow_of_lt hi, if_pos (hfits _ (List.getElem_mem hi)), List.getElem_map]
    rw [hvalues] at h
    obtain ⟨i, hi, rfl⟩ := List.getElem_of_mem hv
    refine ⟨hfits _ hv, ?_⟩
    have hback := congrArg (·[i]?) (Option.some.inj h)
    simpa [List.getElem?_eq_getElem hi] using hback
  · intro h
    refine kernel_values (horder .fromString) fun i hi => ?_
    obtain ⟨hfits, hback⟩ := h _ (List.getElem_mem hi)
    rw [castStringRow_of_lt hi, if_pos hfits, hback]

/-! ## Round trip -/

/-- the values come back, and each row has written as many characters as were predicted -/
def RoundTrips (T : IntType) (order : Order) (inCol : List ℤ) : Prop :=
  ∃ s, castNumericToString order inCol = some s ∧
    (∀ behind, kernelCastString T order behind s inCol.length = some inCol) ∧
    ∀ i (hi : i < inCol.length), ∃ ws, castRow s.stringIndices inCol i = some ws ∧
      ws.length = predictLength inCol[i]

theorem readBack_eq_iff (v : ℤ) : readBack v = v ↔ Representable 24 v.natAbs := by
  rw [← roundBits_eq_self_iff, readBack]
  change _ ↔ fabsf v = v.natAbs
  split <;> omega

theorem limit_le (T : IntType) : T.limit ≤ 2 ^ 63 := by
  cases T <;> decide

theorem fabsf_eq {v : ℤ} (h : Representable 24 v.natAbs) : fabsf v = v.natAbs := roundBits_eq_self_iff.2 h

/-- The values of a column come back exactly when there is one, each of them is 24 bits times a power of two, and none is
the smallest of its type. -/
theorem cast_round_trip_iff (horder : order.Covers inCol.length) (hrange : ∀ v ∈ inCol, -(T.limit : ℤ) ≤ v ∧ v < T.limit) :
    RoundTrips T order inCol ↔
      inCol ≠ [] ∧ ∀ v ∈ inCol, Representable 24 v.natAbs ∧ v ≠ -(T.limit : ℤ) := by
  have hlimit := limit_le T
  constructor
  · rintro ⟨s, hs, hback, hrows⟩
    have hne : inCol ≠ [] := by
      rintro rfl
      cases hs
    -- each row has been converted
    have hconverted : ∀ v ∈ inCol, fabsf v < 2 ^ 63 := by
      intro v hv
      obtain ⟨i, hi, rfl⟩ := List.getElem_of_mem hv
      obtain ⟨ws, hws, -⟩ := hrows i hi
      by_contra hlarge
      obtain ⟨start, -, hws⟩ := Option.bind_eq_some_iff.1 hws
      obtain ⟨v, hv, hws⟩ := Option.bind_eq_some_iff.1 hws
      obtain ⟨c, hc, -⟩ := Option.bind_eq_some_iff.1 hws
      obtain rfl := Option.some.inj ((List.getElem?_eq_getElem hi).symm.trans hv)
      rw [numericToString_of_le (not_lt.1 hlarge)] at hc
      cases hc
    rw [castNumericToString_eq horder hne hconverted] at hs
    obtain rfl := Option.some.inj hs
    have hvalues := (kernelCastString_eq_iff horder fun _ => ' ').1 (hback _)
    refine ⟨hne, fun v hv => ?_⟩
    obtain ⟨hfits, hsame⟩ := hvalues v hv
    have hrepr := (readBack_eq_iff v).1 hsame
    refine ⟨hrepr, fun hmin => ?_⟩
    rw [fabsf_eq hrepr, hmin, Int.natAbs_neg, Int.natAbs_natCast] at hfits
    exact lt_irrefl _ hfits
  · rintro ⟨hne, hvalues⟩
    have hfits : ∀ v ∈ inCol, fabsf v < T.limit := by
      intro v hv
      obtain ⟨hrepr, hmin⟩ := hvalues v hv
      obtain ⟨hlow, hhigh⟩ := hrange v hv
      rw [fabsf_eq hrepr]
      omega
    have hconverted : ∀ v ∈ inCol, fabsf v < 2 ^ 63 := fun v hv => (hfits v hv).trans_le hlimit
    refine ⟨_, castNumericToString_eq horder hne hconverted, fun behind => ?_, fun i hi => ?_⟩
    · refine (kernelCastString_eq_iff horder behind).2 fun v hv => ⟨hfits v hv, ?_⟩
      exact (readBack_eq_iff v).2 (hvalues v hv).1
    · obtain ⟨ws, hws, hperm⟩ := castRow_of_lt hi (hconverted _ (List.getElem_mem hi))
      refine ⟨ws, ?_, ?_⟩
      · rw [ofStrings, lengths_texts]
        exact hws
      · rw [hperm.length_eq, length_place, length_text_zero]

/-- every kernel runs over the rows from the first to the last -/
def inOrder (n : ℕ) : Order := fun _ => List.range n

theorem inOrder_covers (n : ℕ) : (inOrder n).Covers n := fun _ => List.Perm.refl _

theorem cast_round_trip_three : RoundTrips .int32 (inOrder 3) [-40, 0, 2147483520] := by
  refine (cast_round_trip_iff (inOrder_covers 3) (by decide)).2 ⟨by decide, ?_⟩
  have hvalues : ∀ v ∈ ([-40, 0, 2147483520] : List ℤ), roundBits 24 v.natAbs = v.natAbs ∧ v ≠ -2147483648 := by
    decide +kernel
  exact fun v hv => ⟨roundBits_eq_self_iff.1 (hvalues v hv).1, (hvalues v hv).2⟩

/-- The first integer that is no float is cast to the string 16777216. -/
theorem odd_integer_is_rounded : ¬ ∀ (T : IntType) (order : Order) (inCol : List ℤ), order.Covers inCol.length →
    inCol ≠ [] → (∀ v ∈ inCol, -(T.limit : ℤ) ≤ v ∧ v < T.limit) → RoundTrips T order inCol := by
  intro h
  obtain ⟨s, hs, hback, -⟩ := h .int32 (inOrder 1) [16777217] (inOrder_covers 1) (by decide) (by decide)
  have hfloat : fabsf 16777217 = 16777216 := by decide +kernel
  have hsmall : ∀ v ∈ ([16777217] : List ℤ), fabsf v < 2 ^ 63 := by simp [hfloat]
  rw [castNumericToString_eq (inOrder_covers 1) (by decide) hsmall] at hs
  obtain rfl := Option.some.inj hs
  have hread := ((kernelCastString_eq_iff (inOrder_covers 1) fun _ => ' ').1 (hback _) 16777217 (by decide)).2
  rw [readBack, hfloat] at hread
  exact absurd hread (by decide)

end QikkDB.NumericToString

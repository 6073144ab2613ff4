/-
Dates as strings (QueryEngine/GPUCore/GPUUnary.cuh, the operation `DateOperations::toString`; GPUDate.cu,
`kernel_fill_date_string`).

Each row is given 19 characters. Year, month, day, hour, minute and second are computed by kernels of their own; then the
row writes them one after the other, each in a field of fixed width, whatever the width of the number is.

Results:
- `rows_stay_in_slots`: no row writes outside of its 19 characters, and it leaves none of them over.
- `date_strings_fill_slots_iff`: the texts are those of the timestamps exactly when all years are between 0 and 9999;
  no error is reported for the others.
-/
import Mathlib.Data.List.GetD
import Mathlib.Tactic
import QikkDB.Engine.DateOperations
import QikkDB.Engine.NumericToString

namespace QikkDB.DateString

open Cursor NumericToString PrefixSum Scatter
open Reconstruct (alloc ofStrings)

/-! ## Model -/

/-- the kernels, which the device may run over the rows in different orders -/
inductive Launch where
  | years
  | months
  | days
  | hours
  | minutes
  | seconds
  | strings
deriving DecidableEq, Repr

/-- the order of the rows in each kernel -/
abbrev Order := Launch → List ℕ

/-- kernel_arithmetic_unary; a search that leaves its table has no result -/
def kernelArithmeticUnary (op : Int64 → Option Int32) (order : List ℕ) (dateTimeCol : List Int64) :
    Option (List Int32) :=
  kernel dateTimeCol.length order fun i => do
    let val ← dateTimeCol[i]?.bind op
    some [((i : ℤ), val)]

/-- the buffers that the last kernel reads -/
structure Parts where
  years : List Int32
  months : List Int32
  days : List Int32
  hours : List Int32
  minutes : List Int32
  seconds : List Int32
deriving DecidableEq, Repr

def parts (order : Order) (dateTimeCol : List Int64) : Option Parts := do
  let years ← kernelArithmeticUnary DateOperations.year (order .years) dateTimeCol
  let months ← kernelArithmeticUnary DateOperations.month (order .months) dateTimeCol
  let days ← kernelArithmeticUnary DateOperations.day (order .days) dateTimeCol
  let hours ← kernelArithmeticUnary (fun t => some (DateOperations.hour t)) (order .hours) dateTimeCol
  let minutes ← kernelArithmeticUnary (fun t => some (DateOperations.minute t)) (order .minutes) dateTimeCol
  let seconds ← kernelArithmeticUnary (fun t => some (DateOperations.second t)) (order .seconds) dateTimeCol
  some ⟨years, months, days, hours, minutes, seconds⟩

/-- a number in a field; stringIndex goes on by the width of the field -/
def putField (c : State Char) (number : Int32) (width : ℕ) : Option (State Char) := do
  let c' ← numericToString c number.toInt width
  some ⟨c.pos + width, c'.written⟩

/-- the writes of one row, in their order -/
def fillRow (stringIndices : List ℕ) (p : Parts) (i : ℕ) : Option (List (ℤ × Char)) := do
  let stringIndex ← startAt stringIndices i
  let year ← p.years[i]?
  let month ← p.months[i]?
  let day ← p.days[i]?
  let hour ← p.hours[i]?
  let minute ← p.minutes[i]?
  let second ← p.seconds[i]?
  let c ← putField ⟨stringIndex, []⟩ year 4
  let c ← putField (put c '-') month 2
  let c ← putField (put c '-') day 2
  let c ← putField (put c ' ') hour 2
  let c ← putField (put c ':') minute 2
  let c ← putField (put c ':') second 2
  some c.written

def dateFormatLength : ℕ := 19

/-- the indices of the slots: the prefix sums of the lengths -/
def slots (n : ℕ) : List ℕ := inclusiveSum (List.replicate n dateFormatLength)

def dateToString (order : Order) (dateTimeCol : List Int64) : Option GPUString :=
  if 0 < dateTimeCol.length then do
    let totalCharCount ← (slots dateTimeCol.length)[dateTimeCol.length - 1]?
    let size ← alloc totalCharCount
    let p ← parts order dateTimeCol
    let allChars ← kernel size (order .strings) (fillRow (slots dateTimeCol.length) p)
    some ⟨allChars, slots dateTimeCol.length⟩
  else some ⟨[], []⟩

/-! ## The strings that are asked for -/

/-- the digits of a number, with zeros in front -/
def pad (width n : ℕ) : List Char :=
  List.replicate (width - (Nat.toDigits 10 n).length) '0' ++ Nat.toDigits 10 n

/-- YYYY-MM-DD HH:MM:SS of a timestamp whose year has four digits -/
def IsDateText (t : Int64) (l : List Char) : Prop :=
  ∃ date : Calendar.Date, date.dayNumber 1970 = t.toInt / 86400 ∧ 0 ≤ date.year ∧ date.year ≤ 9999 ∧
    l = pad 4 date.year.toNat ++ '-' :: pad 2 date.month ++ '-' :: pad 2 date.day.toNat ++
      ' ' :: pad 2 (t.toInt % 86400 / 3600).toNat ++ ':' :: pad 2 (t.toInt % 3600 / 60).toNat ++
      ':' :: pad 2 (t.toInt % 60).toNat

/-- Row i writes at positions 19 i to 19 i + 18 only; the texts are those of the timestamps, or an error is reported for
one that has no such text. -/
structure FillsSlots (order : Order) (dateTimeCol : List Int64) : Prop where
  slot : ∃ p, parts order dateTimeCol = some p ∧ ∀ i < dateTimeCol.length, ∃ ws,
    fillRow (slots dateTimeCol.length) p i = some ws ∧ ∀ w ∈ ws, (19 * i : ℤ) ≤ w.1 ∧ w.1 ≤ 19 * i + 18
  texts : (∃ texts, List.Forall₂ IsDateText dateTimeCol texts ∧ dateToString order dateTimeCol = some (ofStrings texts)) ∨
    (dateToString order dateTimeCol = none ∧ ∃ t ∈ dateTimeCol, ∀ l, ¬ IsDateText t l)

/-! ## Fields -/

theorem fabsf_lt (number : Int32) : fabsf number.toInt < 2 ^ 63 := by
  have hle : number.toInt.natAbs ≤ 2 ^ 31 := by
    have hmin := number.le_toInt
    have hmax := number.toInt_lt
    omega
  exact (Rounding.roundBits_le (Rounding.representable_two_pow (by decide) 31) hle).trans_lt (by decide)

/-- a field starts with the text of the number, and ends where its width says -/
theorem putField_eq (c : State Char) (number : Int32) (width : ℕ) :
    ∃ c', putField c number width = some c' ∧ c'.pos = c.pos + width ∧
      c'.written.Perm (c.written ++ place c.pos (text number.toInt width)) := by
  obtain ⟨c', hc', hwrites⟩ := writes_numericToString width c (fabsf_lt number)
  exact ⟨⟨c.pos + width, c'.written⟩, by rw [putField, hc']; rfl, rfl, hwrites.written⟩

/-- the text of a number that fits its field fills it -/
theorem text_eq_pad {width : ℕ} {z : ℤ} (hz : 0 ≤ z) (h : z < 2 ^ 24) : text z width = pad width z.toNat := by
  have hsame : fabsf z = z.toNat := by
    have hrepr := Rounding.representable_of_lt (p := 24) (n := z.natAbs) (by omega)
    rw [fabsf, Rounding.roundBits_eq_self_iff.2 hrepr]
    omega
  rw [text, sign, if_neg (not_lt.2 hz), List.nil_append, ← length_digits, hsame, pad]

theorem length_pad_two {n : ℕ} (h : n < 100) : (pad 2 n).length = 2 := by
  have hlen := (Nat.length_toDigits_le_iff (b := 10) (n := n) (k := 2) (by decide) (by decide)).2 h
  rw [pad, List.length_append, List.length_replicate]
  omega

/-- the text of a year is shorter than the slot, and covers its field -/
theorem length_year (number : Int32) :
    4 ≤ (text number.toInt 4).length ∧ (text number.toInt 4).length ≤ 11 := by
  have hdigits : getNumberOfIntegralDigits number.toInt ≤ 10 := by
    rw [← length_digits]
    refine (Nat.length_toDigits_le_iff (by decide) (by decide)).2 ?_
    have hle : number.toInt.natAbs ≤ 2 ^ 31 := by
      have hmin := number.le_toInt
      have hmax := number.toInt_lt
      omega
    exact (Rounding.roundBits_le (Rounding.representable_two_pow (by decide) 31) hle).trans_lt (by decide)
  have hsign := length_sign number.toInt
  rw [length_text]
  split at hsign <;> omega

/-! ## Rows -/

/-- the fields of a timestamp -/
structure Fields where
  year : Int32
  month : Int32
  day : Int32
  hour : Int32
  minute : Int32
  second : Int32

def fields (t : Int64) : Fields :=
  ⟨(DateOperations.year t).getD 0, (DateOperations.month t).getD 0, (DateOperations.day t).getD 0,
    DateOperations.hour t, DateOperations.minute t, DateOperations.second t⟩

/-- what follows the year -/
def Fields.tail (f : Fields) : List Char :=
  ['-'] ++ pad 2 f.month.toInt.toNat ++ ['-'] ++ pad 2 f.day.toInt.toNat ++ [' '] ++ pad 2 f.hour.toInt.toNat ++ [':'] ++
    pad 2 f.minute.toInt.toNat ++ [':'] ++ pad 2 f.second.toInt.toNat

/-- the number fits two digits -/
def TwoDigits (number : Int32) : Prop := 0 ≤ number.toInt ∧ number.toInt < 100

/-- all fields but the year -/
structure Fields.Fit (f : Fields) : Prop where
  month : TwoDigits f.month
  day : TwoDigits f.day
  hour : TwoDigits f.hour
  minute : TwoDigits f.minute
  second : TwoDigits f.second

variable {f : Fields} {p : Parts} {i n : ℕ}

theorem TwoDigits.length {number : Int32} (h : TwoDigits number) : (pad 2 number.toInt.toNat).length = 2 := by
  obtain ⟨h₀, h₁⟩ := h
  exact length_pad_two (by omega)

/-- a field of two digits -/
theorem TwoDigits.writes {number : Int32} (h : TwoDigits number) (c : State Char) :
    ∃ c', putField c number 2 = some c' ∧ Writes (pad 2 number.toInt.toNat) c c' := by
  obtain ⟨c', hc', hpos, hwritten⟩ := putField_eq c number 2
  rw [text_eq_pad h.1 (h.2.trans (by decide))] at hwritten
  exact ⟨c', hc', by rw [hpos, h.length], hwritten⟩

theorem Fields.Fit.length_tail (h : f.Fit) : f.tail.length = 15 := by
  simp only [Fields.tail, List.length_append, List.length_singleton, h.month.length, h.day.length, h.hour.length,
    h.minute.length, h.second.length]

theorem startAt_slots (hi : i ≤ n) : startAt (slots n) i = some (dateFormatLength * i) := by
  rw [slots, startAt_inclusiveSum (by rwa [List.length_replicate]), List.take_replicate, List.sum_replicate,
    Nat.min_eq_left hi, smul_eq_mul, mul_comm]

/-- the fields of a row in the buffers -/
structure Parts.Has (p : Parts) (i : ℕ) (f : Fields) : Prop where
  year : p.years[i]? = some f.year
  month : p.months[i]? = some f.month
  day : p.days[i]? = some f.day
  hour : p.hours[i]? = some f.hour
  minute : p.minutes[i]? = some f.minute
  second : p.seconds[i]? = some f.second

/-- A row writes the text of its year from the slot's begin on, and the rest behind the four characters of the year. -/
theorem fillRow_eq (hi : i < n) (h : p.Has i f) (hfit : f.Fit) :
    ∃ ws, fillRow (slots n) p i = some ws ∧
      ws.Perm (place (19 * i : ℕ) (text f.year.toInt 4) ++ place ((19 * i : ℕ) + 4) f.tail) := by
  obtain ⟨c₁, hc₁, hpos₁, hw₁⟩ := putField_eq ⟨(19 * i : ℕ), []⟩ f.year 4
  obtain ⟨c₂, hc₂, hw₂⟩ := hfit.month.writes (put c₁ '-')
  obtain ⟨c₃, hc₃, hw₃⟩ := hfit.day.writes (put c₂ '-')
  obtain ⟨c₄, hc₄, hw₄⟩ := hfit.hour.writes (put c₃ ' ')
  obtain ⟨c₅, hc₅, hw₅⟩ := hfit.minute.writes (put c₄ ':')
  obtain ⟨c₆, hc₆, hw₆⟩ := hfit.second.writes (put c₅ ':')
  have htail : Writes f.tail c₁ c₆ :=
    (((((((((writes_put c₁ '-').append hw₂).put '-').append hw₃).put ' ').append hw₄).put ':').append hw₅).put ':').append
      hw₆
  have hstart : startAt (slots n) i = some (19 * i) := startAt_slots hi.le
  refine ⟨c₆.written, ?_, ?_⟩
  · simp only [fillRow, hstart, h.year, h.month, h.day, h.hour, h.minute, h.second, Option.bind_eq_bind,
      Option.bind_some, hc₁, hc₂, hc₃, hc₄, hc₅, hc₆]
  · rw [List.nil_append] at hw₁
    have hall := htail.written
    rw [hpos₁] at hall
    exact hall.trans (hw₁.append_right _)

/-- No row writes outside of its slot, and none of its characters is left over. -/
theorem rows_stay_in_slots (hi : i < n) (h : p.Has i f) (hfit : f.Fit) :
    ∃ ws, fillRow (slots n) p i = some ws ∧ (∀ w ∈ ws, (19 * i : ℤ) ≤ w.1 ∧ w.1 ≤ 19 * i + 18) ∧
      ∀ k < 19, ∃ w ∈ ws, w.1 = ((19 * i + k : ℕ) : ℤ) := by
  obtain ⟨ws, hws, hperm⟩ := fillRow_eq hi h hfit
  obtain ⟨hyear, hyear'⟩ := length_year f.year
  have htail := hfit.length_tail
  refine ⟨ws, hws, fun w hw => ?_, fun k hk => ?_⟩
  · have hw' : (w.1, w.2) ∈ place ((19 * i : ℕ) : ℤ) (text f.year.toInt 4) ++ place (((19 * i : ℕ) : ℤ) + 4) f.tail :=
      hperm.mem_iff.1 hw
    rcases List.mem_append.1 hw' with hw' | hw'
    · obtain ⟨j, hj, hc⟩ := mem_place.1 hw'
      have hlt := (List.getElem?_eq_some_iff.1 hc).1
      omega
    · obtain ⟨j, hj, hc⟩ := mem_place.1 hw'
      have hlt := (List.getElem?_eq_some_iff.1 hc).1
      omega
  · by_cases hk4 : k < 4
    · have hmem : (((19 * i : ℕ) : ℤ) + k, (text f.year.toInt 4)[k]) ∈ place ((19 * i : ℕ) : ℤ) (text f.year.toInt 4) :=
        mem_place.2 ⟨k, rfl, List.getElem?_eq_getElem (by omega)⟩
      exact ⟨_, hperm.mem_iff.2 (List.mem_append_left _ hmem), by push_cast; rfl⟩
    · have hlt : k - 4 < f.tail.length := by omega
      have hmem : (((19 * i : ℕ) : ℤ) + 4 + (k - 4 : ℕ), f.tail[k - 4]) ∈ place (((19 * i : ℕ) : ℤ) + 4) f.tail :=
        mem_place.2 ⟨k - 4, rfl, List.getElem?_eq_getElem hlt⟩
      exact ⟨_, hperm.mem_iff.2 (List.mem_append_right _ hmem), by simp only; omega⟩

/-! ## The buffers of the fields -/

/-- every kernel runs over all rows -/
def Order.Covers (order : Order) (n : ℕ) : Prop := ∀ launch, (order launch).Perm (List.range n)

variable {order : Order} {dateTimeCol : List Int64} {t : Int64}

theorem kernelArithmeticUnary_eq {op : Int64 → Option Int32} {f : Int64 → Int32} {l : List ℕ}
    (hl : l.Perm (List.range dateTimeCol.length)) (h : ∀ t ∈ dateTimeCol, op t = some (f t)) :
    kernelArithmeticUnary op l dateTimeCol = some (dateTimeCol.map f) := by
  have hlen : (dateTimeCol.map f).length = dateTimeCol.length := List.length_map _
  unfold kernelArithmeticUnary
  conv_lhs => rw [← hlen]
  refine kernel_values (by rwa [hlen]) fun i hi => ?_
  rw [hlen] at hi
  simp [List.getElem?_eq_getElem hi, h _ (List.getElem_mem hi)]

/-- the fields of a timestamp are found, and are those of one date -/
theorem fields_of (h : |t.toInt| ≤ 2 ^ 55) :
    DateOperations.year t = some (fields t).year ∧ DateOperations.month t = some (fields t).month ∧
      DateOperations.day t = some (fields t).day ∧ (fields t).Fit ∧
      ∃ date : Calendar.Date, date.dayNumber 1970 = t.toInt / 86400 ∧ (fields t).year.toInt = date.year ∧
        (fields t).month.toInt = date.month ∧ (fields t).day.toInt = date.day := by
  obtain ⟨h₁, h₂⟩ := abs_le.1 h
  obtain ⟨y, m, d, date, hy, hm, hd, hyear, hmonth, hday, hnumber⟩ := DateOperations.date_fields h₁ h₂
  have hfields : fields t = ⟨y, m, d, DateOperations.hour t, DateOperations.minute t, DateOperations.second t⟩ := by
    rw [fields, hy, hm, hd]
    rfl
  have hle := date.day_le.trans (Calendar.monthLength_le _ _)
  have hmonth_le := date.month_le
  have hday_pos := date.day_pos
  have hhour := DateOperations.hour_eq t
  have hminute := DateOperations.minute_eq t
  have hsecond := DateOperations.second_eq t
  rw [hfields]
  refine ⟨hy, hm, hd, ⟨?_, ?_, ?_, ?_, ?_⟩, date, hnumber, hyear, hmonth, hday⟩ <;> constructor <;> simp only <;> omega

/-- the searches find the fields of every timestamp -/
theorem parts_eq (horder : order.Covers dateTimeCol.length) (h : ∀ t ∈ dateTimeCol, |t.toInt| ≤ 2 ^ 55) :
    parts order dateTimeCol = some
      ⟨dateTimeCol.map fun t => (fields t).year, dateTimeCol.map fun t => (fields t).month,
        dateTimeCol.map fun t => (fields t).day, dateTimeCol.map fun t => (fields t).hour,
        dateTimeCol.map fun t => (fields t).minute, dateTimeCol.map fun t => (fields t).second⟩ := by
  have hyears := kernelArithmeticUnary_eq (horder .years) fun t ht => (fields_of (h t ht)).1
  have hmonths := kernelArithmeticUnary_eq (horder .months) fun t ht => (fields_of (h t ht)).2.1
  have hdays := kernelArithmeticUnary_eq (horder .days) fun t ht => (fields_of (h t ht)).2.2.1
  have hhours := kernelArithmeticUnary_eq (f := fun t => (fields t).hour) (horder .hours) fun _ _ => rfl
  have hminutes := kernelArithmeticUnary_eq (f := fun t => (fields t).minute) (horder .minutes) fun _ _ => rfl
  have hseconds := kernelArithmeticUnary_eq (f := fun t => (fields t).second) (horder .seconds) fun _ _ => rfl
  simp only [fields] at hhours hminutes hseconds
  simp only [parts, hyears, hmonths, hdays, hhours, hminutes, hseconds, Option.bind_eq_bind, Option.bind_some, fields]

theorem parts_has (horder : order.Covers dateTimeCol.length) (h : ∀ t ∈ dateTimeCol, |t.toInt| ≤ 2 ^ 55)
    (hp : parts order dateTimeCol = some p) (hi : i < dateTimeCol.length) : p.Has i (fields dateTimeCol[i]) := by
  rw [parts_eq horder h] at hp
  obtain rfl := Option.some.inj hp
  constructor <;> simp [List.getElem?_eq_getElem hi]

theorem fields_fit (h : ∀ t ∈ dateTimeCol, |t.toInt| ≤ 2 ^ 55) (hi : i < dateTimeCol.length) :
    (fields dateTimeCol[i]).Fit :=
  (fields_of (h _ (List.getElem_mem hi))).2.2.2.1

/-! ## Years -/

theorem daysTo_bounds (date : Calendar.Date) :
    (0 ≤ date.year ↔ -719528 ≤ date.dayNumber 1970) ∧ (date.year ≤ 9999 ↔ date.dayNumber 1970 < 2932897) := by
  have hepoch : Calendar.daysTo 1970 = 719162 := by decide
  have hstart : Calendar.daysTo 0 = -366 := by decide
  have hend : Calendar.daysTo 10000 = 3652059 := by decide
  have hlow := date.dayOfYear_nonneg
  have hhigh := date.dayOfYear_lt
  have hsucc := Calendar.daysTo_succ date.year
  have hmono := Calendar.daysTo_strictMono.monotone
  rw [Calendar.Date.dayNumber_eq, hepoch]
  refine ⟨⟨fun hy => ?_, fun hy => ?_⟩, ⟨fun hy => ?_, fun hy => ?_⟩⟩
  · have hle := hmono hy
    omega
  · by_contra hneg
    have hle := hmono (show date.year + 1 ≤ 0 by omega)
    omega
  · have hle := hmono (show date.year + 1 ≤ 10000 by omega)
    omega
  · by_contra hlarge
    have hle := hmono (show 10000 ≤ date.year by omega)
    omega

/-- from 0000-01-01 00:00:00 to 9999-12-31 23:59:59 -/
def FourDigitYear (t : Int64) : Prop := -62167219200 ≤ t.toInt ∧ t.toInt < 253402300800

theorem year_of_text {l : List Char} (h : IsDateText t l) : FourDigitYear t := by
  obtain ⟨date, hnumber, hlow, hhigh, -⟩ := h
  obtain ⟨hstart, hend⟩ := daysTo_bounds date
  have h₁ := hstart.1 hlow
  have h₂ := hend.1 hhigh
  unfold FourDigitYear
  omega

/-- the characters that a row leaves when its year fits the field -/
def dateText (t : Int64) : List Char := text (fields t).year.toInt 4 ++ (fields t).tail

theorem dateText_of_year (h : |t.toInt| ≤ 2 ^ 55) (hyear : FourDigitYear t) :
    IsDateText t (dateText t) ∧ (text (fields t).year.toInt 4).length = 4 := by
  obtain ⟨-, -, -, -, date, hnumber, hy, hm, hd⟩ := fields_of h
  obtain ⟨hstart, hend⟩ := daysTo_bounds date
  obtain ⟨h₁, h₂⟩ := hyear
  have hlow : 0 ≤ date.year := hstart.2 (by omega)
  have hhigh : date.year ≤ 9999 := hend.2 (by omega)
  have hpad : text (fields t).year.toInt 4 = pad 4 date.year.toNat := by rw [hy, text_eq_pad hlow (by omega)]
  constructor
  · refine ⟨date, hnumber, hlow, hhigh, ?_⟩
    have hhour : (fields t).hour.toInt = t.toInt % 86400 / 3600 := DateOperations.hour_eq t
    have hminute : (fields t).minute.toInt = t.toInt % 3600 / 60 := DateOperations.minute_eq t
    have hsecond : (fields t).second.toInt = t.toInt % 60 := DateOperations.second_eq t
    rw [dateText, hpad, Fields.tail, hm, hd, hhour, hminute, hsecond, Int.toNat_natCast]
    simp
  · have hdigits := (Nat.length_toDigits_le_iff (b := 10) (n := date.year.toNat) (k := 4) (by decide) (by decide)).2
      (by omega)
    rw [hpad, pad, List.length_append, List.length_replicate]
    omega

/-! ## The column -/

/-- The operation never fails. -/
theorem dateToString_total (horder : order.Covers dateTimeCol.length) (h : ∀ t ∈ dateTimeCol, |t.toInt| ≤ 2 ^ 55) :
    dateToString order dateTimeCol ≠ none := by
  unfold dateToString
  split
  case isFalse => simp
  case isTrue hpos =>
    have hne : List.replicate dateTimeCol.length dateFormatLength ≠ [] := by
      rw [ne_eq, List.replicate_eq_nil_iff]
      omega
    have hlast := last_inclusiveSum hne
    rw [List.length_replicate, List.sum_replicate, smul_eq_mul] at hlast
    have hsize : dateTimeCol.length * dateFormatLength ≠ 0 := by
      unfold dateFormatLength
      omega
    obtain ⟨p, hp⟩ : ∃ p, parts order dateTimeCol = some p := ⟨_, parts_eq horder h⟩
    obtain ⟨chars, hchars⟩ : ∃ chars, kernel (dateTimeCol.length * dateFormatLength) (order .strings)
        (fillRow (slots dateTimeCol.length) p) = some chars := by
      apply kernel_total
      · intro i hi
        have hlt := List.mem_range.1 ((horder .strings).mem_iff.1 hi)
        obtain ⟨ws, hws, hslot, -⟩ := rows_stay_in_slots hlt (parts_has horder h hp hlt) (fields_fit h hlt)
        refine ⟨ws, hws, fun w hw => ?_⟩
        have hbounds := hslot w hw
        unfold dateFormatLength
        omega
      · intro k hk
        unfold dateFormatLength at hk
        have hlt : k / 19 < dateTimeCol.length := by omega
        refine ⟨k / 19, (horder .strings).mem_iff.2 (List.mem_range.2 hlt), fun ws hws => ?_⟩
        obtain ⟨ws', hws', -, hcover⟩ := rows_stay_in_slots hlt (parts_has horder h hp hlt) (fields_fit h hlt)
        obtain rfl := Option.some.inj (hws'.symm.trans hws)
        obtain ⟨w, hw, hwk⟩ := hcover (k % 19) (Nat.mod_lt k (by decide))
        exact ⟨w, hw, by rw [hwk, Nat.div_add_mod]⟩
    simp [slots, hlast, alloc, hsize, hp] at hchars ⊢
    simp [hchars]

/-- the texts of years with four digits -/
theorem dateToString_eq (horder : order.Covers dateTimeCol.length) (h : ∀ t ∈ dateTimeCol, |t.toInt| ≤ 2 ^ 55)
    (hyears : ∀ t ∈ dateTimeCol, FourDigitYear t) :
    dateToString order dateTimeCol = some (ofStrings (dateTimeCol.map dateText)) := by
  have hlengths : (dateTimeCol.map dateText).map List.length = List.replicate dateTimeCol.length dateFormatLength := by
    rw [List.map_map, List.eq_replicate_iff, List.length_map]
    refine ⟨rfl, ?_⟩
    intro n hn
    obtain ⟨t, ht, rfl⟩ := List.mem_map.1 hn
    rw [Function.comp_apply, dateText, List.length_append, (dateText_of_year (h t ht) (hyears t ht)).2,
      (fields_of (h t ht)).2.2.2.1.length_tail]
    rfl
  unfold dateToString
  by_cases hpos : 0 < dateTimeCol.length
  · rw [if_pos hpos]
    have hne : List.replicate dateTimeCol.length dateFormatLength ≠ [] := by
      rw [ne_eq, List.replicate_eq_nil_iff]
      omega
    have hlast := last_inclusiveSum hne
    rw [List.length_replicate] at hlast
    have hsize : (List.replicate dateTimeCol.length dateFormatLength).sum ≠ 0 := by
      rw [List.sum_replicate, smul_eq_mul]
      unfold dateFormatLength
      omega
    have htotal : (List.replicate dateTimeCol.length dateFormatLength).sum =
        (dateTimeCol.map dateText).flatten.length := by
      rw [List.length_flatten, hlengths]
    obtain ⟨p, hp⟩ : ∃ p, parts order dateTimeCol = some p := ⟨_, parts_eq horder h⟩
    have hchars : kernel (List.replicate dateTimeCol.length dateFormatLength).sum (order .strings)
        (fillRow (slots dateTimeCol.length) p) = some (dateTimeCol.map dateText).flatten := by
      refine kernel_eq (by rw [List.length_map]; exact horder .strings) htotal fun i hi => ?_
      rw [List.length_map] at hi
      obtain ⟨ws, hws, hperm⟩ := fillRow_eq hi (parts_has horder h hp hi) (fields_fit h hi)
      have hoffset : offset (dateTimeCol.map dateText) i = 19 * i := by
        rw [offset_eq, hlengths, List.take_replicate, List.sum_replicate, Nat.min_eq_left hi.le, smul_eq_mul, mul_comm]
        rfl
      have hyear : (text (fields dateTimeCol[i]).year.toInt 4).length = 4 :=
        (dateText_of_year (h _ (List.getElem_mem hi)) (hyears _ (List.getElem_mem hi))).2
      refine ⟨ws, hws, ?_⟩
      rw [List.getD_eq_getElem _ _ (by rwa [List.length_map]), List.getElem_map, dateText, place_append, hyear, hoffset]
      exact hperm
    simp only [slots] at hchars ⊢
    simp only [hlast, alloc, if_neg hsize, hp, hchars, Option.bind_eq_bind, Option.bind_some, ofStrings, hlengths]
  · have hnil : dateTimeCol = [] := List.length_eq_zero_iff.1 (by omega)
    rw [hnil]
    rfl

/-- The texts fill the slots exactly when all years are between 0 and 9999; no error is reported for other years. -/
theorem date_strings_fill_slots_iff (horder : order.Covers dateTimeCol.length)
    (h : ∀ t ∈ dateTimeCol, |t.toInt| ≤ 2 ^ 55) :
    FillsSlots order dateTimeCol ↔ ∀ t ∈ dateTimeCol, FourDigitYear t := by
  constructor
  · intro hfills t ht
    rcases hfills.texts with ⟨texts, htexts, -⟩ | ⟨hnone, -⟩
    · obtain ⟨i, hi, rfl⟩ := List.getElem_of_mem ht
      have hlen := htexts.length_eq
      have htext : IsDateText dateTimeCol[i] texts[i] := htexts.get hi (hlen ▸ hi)
      exact year_of_text htext
    · exact absurd hnone (dateToString_total horder h)
  · intro hyears
    constructor
    · obtain ⟨p, hp⟩ : ∃ p, parts order dateTimeCol = some p := ⟨_, parts_eq horder h⟩
      refine ⟨p, hp, fun i hi => ?_⟩
      obtain ⟨ws, hws, hslot, -⟩ := rows_stay_in_slots hi (parts_has horder h hp hi) (fields_fit h hi)
      exact ⟨ws, hws, hslot⟩
    · refine Or.inl ⟨dateTimeCol.map dateText, ?_, dateToString_eq horder h hyears⟩
      rw [List.forall₂_map_right_iff, List.forall₂_same]
      exact fun t ht => (dateText_of_year (h t ht) (hyears t ht)).1

/-- every kernel runs over the rows from the first to the last -/
def inOrder (n : ℕ) : Order := fun _ => List.range n

theorem inOrder_covers (n : ℕ) : (inOrder n).Covers n := fun _ => List.Perm.refl _

theorem date_strings_fill_slots_two : FillsSlots (inOrder 2) [-1, 253402300799] := by
  have hrange : ∀ t ∈ ([-1, 253402300799] : List Int64), |t.toInt| ≤ 2 ^ 55 :=
    List.forall_mem_cons.2 ⟨by decide, List.forall_mem_singleton.2 (by decide)⟩
  refine (date_strings_fill_slots_iff (inOrder_covers 2) hrange).2 ?_
  unfold FourDigitYear
  exact List.forall_mem_cons.2 ⟨by decide, List.forall_mem_singleton.2 (by decide)⟩

/-- The first second of the year 10000 is written as 1000-01-01 00:00:00, and no error is reported. -/
theorem year_ten_thousand_is_cut : ¬ ∀ (order : Order) (dateTimeCol : List Int64), order.Covers dateTimeCol.length →
    (∀ t ∈ dateTimeCol, |t.toInt| ≤ 2 ^ 55) → FillsSlots order dateTimeCol := by
  intro h
  have hrange : ∀ t ∈ ([253402300800] : List Int64), |t.toInt| ≤ 2 ^ 55 := List.forall_mem_singleton.2 (by decide)
  rcases (h (inOrder 1) [253402300800] (inOrder_covers 1) hrange).texts with ⟨texts, htexts, -⟩ | ⟨hnone, -⟩
  · cases htexts with
    | cons htext _ =>
      obtain ⟨-, hlate⟩ := year_of_text htext
      exact absurd hlate (by decide)
  · exact dateToString_total (inOrder_covers 1) hrange hnone

end QikkDB.DateString

/-
Date and time of a timestamp (QueryEngine/GPUCore/DateOperations.h), over the int64 and int32 of the code.

Year, month and day are found in two tables: the leap years of a cycle of 400 years, and the months of a cycle between
two leap years. A search starts at an index computed by a division and goes down while the entry is too large; a read
outside of the table is undefined (`none`).

- `year_eq`, `month_eq`, `day_eq`: the reads stay in the tables, no operation overflows, and the results are those of
  `DateOp.apply` over unbounded integers.
- `apply_date`: these are the date of the day in the proleptic Gregorian calendar.
- `date_and_time`: both together, with hour, minute and second.
- `weekday_periodic_iff`: weekday and dayOfWeek floor the day, but reduce it with the remainder of C++; they are right
  from three days before 1970 on.
-/
import QikkDB.Engine.WhereBounds
import QikkDB.Lib.Calendar

namespace QikkDB.DateOperations

open WhereBounds (DateOp startDaysOfLeapYears startDaysOfMonths descend daysIn400Years secondsIn400Years dayOfCycle
  leapIndex dayOfLeapCycle monthIndex dayNumber)
open Calendar (Date IsLeap daysTo daysBeforeMonth monthLength)

/-! ## Model -/

def SECONDS_BETWEEN_1600_1970 : Int64 := 11676096000

def DAYS_IN_400_YEARS : Int64 := 146097

def SECONDS_IN_400_YEARS : Int64 := DAYS_IN_400_YEARS * 86400

def START_DAYS_OF_LEAP_YEARS : List Int64 := startDaysOfLeapYears.map Int64.ofInt

def START_DAYS_OF_MONTHS : List Int64 := startDaysOfMonths.map Int64.ofInt

/-- the loop `while (table[index] > value) --index` from an index that is not negative -/
def searchDown (table : List Int64) (value : Int64) : ℕ → Option ℕ
  | 0 => do
    let start ← table[0]?
    if start > value then none else some 0
  | index + 1 => do
    let start ← table[index + 1]?
    if start > value then searchDown table value index else some (index + 1)

/-- the loop; `none` when it reads outside of the table -/
def search (table : List Int64) (value : Int64) (index : Int32) : Option ℕ :=
  if index < 0 then none else searchDown table value index.toInt.toNat

/-- count of days from start of some 400 years cycle -/
def dayOf400Years (dateTime : Int64) : Int64 :=
  let value := dateTime + SECONDS_BETWEEN_1600_1970
  if value < 0 then ((value + 1) % SECONDS_IN_400_YEARS + SECONDS_IN_400_YEARS - 1) / 86400
  else (value / 86400) % DAYS_IN_400_YEARS

/-- the entry of the leap years table for a day of the 400 years cycle -/
def startOfLeapYear (value : Int64) : Option Int64 := do
  let index ← search START_DAYS_OF_LEAP_YEARS value (min 96 (value * 97 / DAYS_IN_400_YEARS + 1).toInt32)
  START_DAYS_OF_LEAP_YEARS[index]?

/-- the index to the months table for a day of the cycle between two leap years -/
def indexOfMonth (value : Int64) : Option ℕ :=
  search START_DAYS_OF_MONTHS value (min 95 (value * 96 / 2921 + 1).toInt32)

/-- count of 400 years cycles -/
def cycles (dateTime : Int64) : Int32 :=
  let value := dateTime + SECONDS_BETWEEN_1600_1970
  if value < 0 then ((value - SECONDS_IN_400_YEARS + 1) / SECONDS_IN_400_YEARS).toInt32
  else (value / SECONDS_IN_400_YEARS).toInt32

def year (dateTime : Int64) : Option Int32 := do
  let start ← startOfLeapYear (dayOf400Years dateTime)
  let year4 := ((start + 730) / 1461).toInt32
  let index := min 7 ((dayOf400Years dateTime - start) * 8 / 2921).toInt32
  some (1600 + cycles dateTime * 400 + year4 * 4 + index)

def month (dateTime : Int64) : Option Int32 := do
  let start ← startOfLeapYear (dayOf400Years dateTime)
  let index ← indexOfMonth (dayOf400Years dateTime - start)
  some (Int32.ofNat index % 12 + 1)

def day (dateTime : Int64) : Option Int32 := do
  let start ← startOfLeapYear (dayOf400Years dateTime)
  let index ← indexOfMonth (dayOf400Years dateTime - start)
  let first ← START_DAYS_OF_MONTHS[index]?
  some ((dayOf400Years dateTime - start - first).toInt32 + 1)

def hour (dateTime : Int64) : Int32 :=
  if dateTime < 0 then (((dateTime + 1) % 86400 + 86399) / 3600).toInt32 else (dateTime / 3600 % 24).toInt32

def minute (dateTime : Int64) : Int32 :=
  if dateTime < 0 then (((dateTime + 1) % 3600 + 3599) / 60).toInt32 else (dateTime / 60 % 60).toInt32

def second (dateTime : Int64) : Int32 :=
  if dateTime < 0 then ((dateTime + 1) % 60 + 59).toInt32 else (dateTime % 60).toInt32

/-- the day of `weekday` and `dayOfWeek` -/
def dayOf1970 (dateTime : Int64) : Int64 := (if dateTime < 0 then dateTime - 86400 + 1 else dateTime) / 86400

def weekday (dateTime : Int64) : Int32 := ((dayOf1970 dateTime + 3) % 7).toInt32

def dayOfWeek (dateTime : Int64) : Int32 := ((dayOf1970 dateTime + 4) % 7 + 1).toInt32

/-! ## Flooring by hand -/

theorem tdiv_floor {a b : ℤ} (ha : a < 0) (hb : 0 < b) : (a - b + 1).tdiv b = a / b := by
  have hr := Int.emod_nonneg a hb.ne'
  have hrb := Int.emod_lt_of_pos a hb
  have hneg : -(a - b + 1) = (b - a % b - 1) + b * -(a / b) := by linarith [Int.emod_add_mul_ediv a b]
  have hx : 0 ≤ -(a - b + 1) := by omega
  rw [← neg_neg (a - b + 1), Int.neg_tdiv, Int.tdiv_eq_ediv_of_nonneg hx, hneg, Int.add_mul_ediv_left _ _ hb.ne',
    Int.ediv_eq_zero_of_lt (by omega) (by omega)]
  ring

theorem tmod_floor {a b : ℤ} (ha : a < 0) (hb : 0 < b) : (a + 1).tmod b + b - 1 = a % b := by
  have hr := Int.emod_nonneg a hb.ne'
  have hrb := Int.emod_lt_of_pos a hb
  have hneg : -(a + 1) = (b - a % b - 1) + b * (-(a / b) - 1) := by linarith [Int.emod_add_mul_ediv a b]
  have hx : 0 ≤ -(a + 1) := by omega
  rw [← neg_neg (a + 1), Int.neg_tmod, Int.tmod_eq_emod_of_nonneg hx, hneg, Int.add_mul_emod_self_left,
    Int.emod_eq_of_lt (by omega) (by omega)]
  ring

/-! ## The tables -/

/-- the entry behind `index`, and `last` behind the end of the table -/
def entry (table : List ℤ) (last : ℤ) (index : ℕ) : ℤ := (table ++ [last]).getD index 0

theorem entry_of_lt {table : List ℤ} {last : ℤ} {index : ℕ} (h : index < table.length) :
    entry table last index = table.getD index 0 := by
  simp [entry, List.getD_eq_getElem?_getD, List.getElem?_append_left h]

/-- the downward loop ends at the entry that `value` belongs to, unless it starts below it -/
theorem descend_between {table : List ℤ} {last value : ℤ} {start : ℕ} (hlen : start < table.length)
    (h₀ : table.getD 0 0 ≤ value) (hstart : value < entry table last (start + 1)) :
    descend table value start < table.length ∧ table.getD (descend table value start) 0 ≤ value ∧
      value < entry table last (descend table value start + 1) := by
  induction start with
  | zero => exact ⟨hlen, h₀, hstart⟩
  | succ start ih =>
    unfold descend
    split_ifs with hgt
    · exact ih (by omega) (by rwa [entry_of_lt hlen])
    · exact ⟨hlen, not_lt.1 hgt, hstart⟩

theorem leapYears_start :
    ∀ k : ℕ, k < 95 → ((k + 1 : ℕ) : ℤ) * 146097 ≤ startDaysOfLeapYears.getD (k + 1 + 1) 0 * 97 := by decide

theorem leapYears_nonneg : ∀ i < 97, 0 ≤ startDaysOfLeapYears.getD i 0 := by decide

theorem months_start :
    ∀ k : ℕ, k < 94 → ((k + 1 : ℕ) : ℤ) * 2921 ≤ startDaysOfMonths.getD (k + 1 + 1) 0 * 96 := by decide

/-- the year of an entry, the first of January of which is the entry's day, is a leap year; the next entry is four years
later, or eight years where the fourth is not a leap year -/
theorem leapYears_entry : ∀ i < 97,
    IsLeap (1600 + (startDaysOfLeapYears.getD i 0 + 730).tdiv 1461 * 4) ∧
    daysTo (1600 + (startDaysOfLeapYears.getD i 0 + 730).tdiv 1461 * 4) = daysTo 1600 + startDaysOfLeapYears.getD i 0 ∧
    (entry startDaysOfLeapYears 146097 (i + 1) = startDaysOfLeapYears.getD i 0 + 1461 ∨
      entry startDaysOfLeapYears 146097 (i + 1) = startDaysOfLeapYears.getD i 0 + 2921 ∧
        ¬ IsLeap (1600 + (startDaysOfLeapYears.getD i 0 + 730).tdiv 1461 * 4 + 4)) := by
  decide

/-- days from the leap year to the start of the year `k` years later -/
def yearStart (k : ℤ) : ℤ := if k = 0 then 0 else 365 * k + 1

theorem months_entry : ∀ i < 96,
    startDaysOfMonths.getD i 0 = yearStart (i / 12 : ℕ) + daysBeforeMonth (i / 12 = 0) (i % 12 + 1) ∧
    entry startDaysOfMonths 2921 (i + 1) = startDaysOfMonths.getD i 0 + monthLength (i / 12 = 0) (i % 12 + 1) ∧
    entry startDaysOfMonths 2921 (i + 1) ≤ 365 * ((i / 12 : ℕ) + 1) + 1 := by
  decide

/-- the heuristic start of the downward loop is at most one entry too low -/
theorem leapIndex_between {value : ℤ} (h₀ : 0 ≤ value) (h : value < 146097) :
    leapIndex value < 97 ∧ startDaysOfLeapYears.getD (leapIndex value) 0 ≤ value ∧
      value < entry startDaysOfLeapYears 146097 (leapIndex value + 1) := by
  set start := min 96 (value * 97 / daysIn400Years + 1).toNat with hs
  refine @descend_between _ 146097 _ start (show start < 97 by omega) h₀ ?_
  rcases (show start = 96 ∨ start < 96 by omega) with hlast | hlt
  · rw [hlast]
    exact h
  · have hstart : start = (value * 97 / 146097).toNat + 1 := by
      simp only [daysIn400Years] at hs
      omega
    have htable := leapYears_start (value * 97 / 146097).toNat (by omega)
    rw [hstart, entry_of_lt (show _ < 97 by omega)]
    omega

theorem monthIndex_between {value : ℤ} (h₀ : 0 ≤ value) (h : value < 2921) :
    monthIndex value < 96 ∧ startDaysOfMonths.getD (monthIndex value) 0 ≤ value ∧
      value < entry startDaysOfMonths 2921 (monthIndex value + 1) := by
  set start := min 95 (value * 96 / 2921 + 1).toNat with hs
  refine @descend_between _ 2921 _ start (show start < 96 by omega) h₀ ?_
  rcases (show start = 95 ∨ start < 95 by omega) with hlast | hlt
  · rw [hlast]
    exact h
  · have hstart : start = (value * 96 / 2921).toNat + 1 := by omega
    have htable := months_start (value * 96 / 2921).toNat (by omega)
    rw [hstart, entry_of_lt (show _ < 96 by omega)]
    omega

/-! ## Cycles -/

/-- days from the start of 1600, which is 135140 days before that of 1970 -/
theorem dayOfCycle_eq (t : ℤ) : dayOfCycle t = (t / 86400 + 135140) % 146097 := by
  simp only [dayOfCycle]
  split_ifs with hneg
  · rw [tmod_floor hneg (by decide), Int.tdiv_eq_ediv_of_nonneg (Int.emod_nonneg _ (by decide))]
    simp only [secondsIn400Years, daysIn400Years]
    omega
  · have hdays : 0 ≤ (t + 11676096000) / 86400 := Int.ediv_nonneg (not_lt.1 hneg) (by decide)
    rw [Int.tdiv_eq_ediv_of_nonneg (not_lt.1 hneg), Int.tmod_eq_emod_of_nonneg hdays]
    simp only [daysIn400Years]
    omega

theorem year400_eq (t : ℤ) :
    (if t + 11676096000 < 0 then (t + 11676096000 - secondsIn400Years + 1).tdiv secondsIn400Years
      else (t + 11676096000).tdiv secondsIn400Years) = (t / 86400 + 135140) / 146097 := by
  split_ifs with hneg
  · rw [tdiv_floor hneg (by decide)]
    simp only [secondsIn400Years, daysIn400Years]
    omega
  · rw [Int.tdiv_eq_ediv_of_nonneg (not_lt.1 hneg)]
    simp only [secondsIn400Years, daysIn400Years]
    omega

/-- the leap year at or before a day of the 400-year cycle starting with 1600 -/
def leapYear (c : ℤ) : ℤ := 1600 + (startDaysOfLeapYears.getD (leapIndex c) 0 + 730).tdiv 1461 * 4

theorem leapYear_spec {c : ℤ} (h₀ : 0 ≤ c) (h : c < 146097) :
    IsLeap (leapYear c) ∧ daysTo (leapYear c) = daysTo 1600 + (c - dayOfLeapCycle c) ∧ 0 ≤ dayOfLeapCycle c ∧
      dayOfLeapCycle c < 2921 ∧ (dayOfLeapCycle c < 1461 ∨ ¬ IsLeap (leapYear c + 4)) := by
  obtain ⟨hi, hle, hlt⟩ := leapIndex_between h₀ h
  obtain ⟨hleap, hdays, hnext⟩ := leapYears_entry _ hi
  refine ⟨hleap, ?_, ?_, ?_, ?_⟩
  · rw [leapYear, hdays, dayOfLeapCycle]
    ring
  · exact sub_nonneg.2 hle
  · rcases hnext with hnext | ⟨hnext, -⟩ <;> rw [hnext] at hlt <;> rw [dayOfLeapCycle] <;> linarith
  · rcases hnext with hnext | ⟨-, hnext⟩
    · rw [hnext] at hlt
      exact Or.inl (by rw [dayOfLeapCycle]; linarith)
    · exact Or.inr hnext

/-- years from the leap year to a day of its cycle -/
def yearsAfter (v : ℤ) : ℤ := (monthIndex v / 12 : ℕ)

theorem yearsAfter_eq {v : ℤ} (h₀ : 0 ≤ v) (h : v < 2921) :
    yearsAfter v = min 7 ((v * 8).tdiv 2921) ∧ yearStart (yearsAfter v) ≤ v ∧ v < 365 * (yearsAfter v + 1) + 1 := by
  obtain ⟨hi, hle, hlt⟩ := monthIndex_between h₀ h
  obtain ⟨hstart, -, hend⟩ := months_entry _ hi
  have hbefore : 0 ≤ daysBeforeMonth (monthIndex v / 12 = 0) (monthIndex v % 12 + 1) :=
    Finset.sum_nonneg fun m _ => (Calendar.monthLength_pos _ m).le
  have hyear : yearStart (yearsAfter v) ≤ v := by
    rw [yearsAfter]
    linarith
  refine ⟨?_, hyear, ?_⟩
  · rw [Int.tdiv_eq_ediv_of_nonneg (by omega)]
    simp only [yearStart, yearsAfter] at hyear ⊢
    split_ifs at hyear <;> omega
  · rw [yearsAfter]
    linarith

/-- the month and the day of a day of the cycle -/
theorem month_spec {v : ℤ} (h₀ : 0 ≤ v) (h : v < 2921) :
    v = yearStart (yearsAfter v) + daysBeforeMonth (yearsAfter v = 0) (monthIndex v % 12 + 1) +
      (v - startDaysOfMonths.getD (monthIndex v) 0) ∧
    0 ≤ v - startDaysOfMonths.getD (monthIndex v) 0 ∧
    v - startDaysOfMonths.getD (monthIndex v) 0 < monthLength (yearsAfter v = 0) (monthIndex v % 12 + 1) := by
  obtain ⟨hi, hle, hlt⟩ := monthIndex_between h₀ h
  obtain ⟨hstart, hlength, -⟩ := months_entry _ hi
  have hfirst : yearsAfter v = 0 ↔ monthIndex v / 12 = 0 := by
    rw [yearsAfter]
    omega
  simp only [hfirst]
  refine ⟨?_, sub_nonneg.2 hle, ?_⟩
  · rw [hstart, yearsAfter]
    ring
  · rw [hlength] at hlt
    linarith

/-- years between two leap years of the table -/
theorem year_spec {y v : ℤ} (hleap : IsLeap y) (h₀ : 0 ≤ v) (h : v < 2921) (hcycle : v < 1461 ∨ ¬ IsLeap (y + 4)) :
    daysTo (y + yearsAfter v) = daysTo y + yearStart (yearsAfter v) ∧
      (IsLeap (y + yearsAfter v) ↔ yearsAfter v = 0) := by
  obtain ⟨-, hle, hlt⟩ := yearsAfter_eq h₀ h
  obtain ⟨k, hk⟩ : ∃ k, yearsAfter v = k := ⟨_, rfl⟩
  have hnonneg : 0 ≤ k := hk ▸ Int.natCast_nonneg _
  rw [hk] at hle hlt ⊢
  rcases hnonneg.eq_or_lt with rfl | hpos
  · simpa [yearStart] using hleap
  rw [yearStart, if_neg hpos.ne'] at hle ⊢
  rcases hcycle with hshort | hlong
  · refine ⟨by rw [Calendar.daysTo_after_leap hleap hpos (by omega)]; ring, ?_⟩
    unfold IsLeap at hleap ⊢
    omega
  · refine ⟨by rw [Calendar.daysTo_after_leap_long hleap hlong hpos (by omega)]; ring, ?_⟩
    unfold IsLeap at hleap hlong ⊢
    omega

/-- **The functions over unbounded integers give the date of the day.** -/
theorem apply_date (t : ℤ) :
    ∃ date : Date, DateOp.year.apply t = date.year ∧ DateOp.month.apply t = date.month ∧
      DateOp.day.apply t = date.day ∧ date.dayNumber 1970 = t / 86400 := by
  have hc₀ : 0 ≤ dayOfCycle t := by rw [dayOfCycle_eq]; exact Int.emod_nonneg _ (by decide)
  have hc : dayOfCycle t < 146097 := by rw [dayOfCycle_eq]; exact Int.emod_lt_of_pos _ (by decide)
  obtain ⟨hleap, hdays, hv₀, hv, hcycle⟩ := leapYear_spec hc₀ hc
  obtain ⟨hyears, -, -⟩ := yearsAfter_eq hv₀ hv
  obtain ⟨hsplit, hd₀, hd⟩ := month_spec hv₀ hv
  obtain ⟨hstart, hiff⟩ := year_spec hleap hv₀ hv hcycle
  set q := (t / 86400 + 135140) / 146097 with hq
  set v := dayOfLeapCycle (dayOfCycle t) with hvdef
  set year := leapYear (dayOfCycle t) + yearsAfter v + 400 * q with hyear
  have hleapYear : IsLeap year ↔ yearsAfter v = 0 := (Calendar.isLeap_add_cycle _ _).trans hiff
  have happly : DateOp.year.apply t = year := by
    simp only [DateOp.apply, year400_eq]
    rw [← hvdef, ← hyears, ← hq, hyear, leapYear]
    ring
  refine ⟨⟨year, monthIndex v % 12 + 1, v - startDaysOfMonths.getD (monthIndex v) 0 + 1, by omega, by omega, by omega,
    ?_⟩, happly, ?_, rfl, ?_⟩
  · simp only [hleapYear]
    omega
  · simp only [DateOp.apply]
    rw [← hvdef]
    push_cast
    rfl
  · have hcdef := dayOfCycle_eq t
    rw [Date.dayNumber_eq, Date.dayOfYear]
    simp only [hleapYear]
    rw [hyear, Calendar.daysTo_add_cycle, hstart, hdays]
    have hepoch : daysTo 1970 = daysTo 1600 + 135140 := by decide
    have hcycles := Int.emod_add_mul_ediv (t / 86400 + 135140) 146097
    rw [← hq, ← hcdef] at hcycles
    rw [hepoch]
    linarith

/-! ## Fixed-width arithmetic within its range -/

section FixedWidth

variable {a b : Int64} {x y : ℤ}

theorem toInt_add_of (ha : a.toInt = x) (hb : b.toInt = y) (h₁ : -2 ^ 63 ≤ x + y) (h₂ : x + y < 2 ^ 63) :
    (a + b).toInt = x + y := by
  rw [Int64.toInt_add, ha, hb]
  exact Int.bmod_eq_of_le (by omega) (by omega)

theorem toInt_sub_of (ha : a.toInt = x) (hb : b.toInt = y) (h₁ : -2 ^ 63 ≤ x - y) (h₂ : x - y < 2 ^ 63) :
    (a - b).toInt = x - y := by
  rw [Int64.toInt_sub, ha, hb]
  exact Int.bmod_eq_of_le (by omega) (by omega)

theorem toInt_mul_of (ha : a.toInt = x) (hb : b.toInt = y) (h₁ : -2 ^ 63 ≤ x * y) (h₂ : x * y < 2 ^ 63) :
    (a * b).toInt = x * y := by
  rw [Int64.toInt_mul, ha, hb]
  exact Int.bmod_eq_of_le (by omega) (by omega)

theorem toInt_div_of (ha : a.toInt = x) (hb : b.toInt = y) (h : 1 < y) : (a / b).toInt = x.tdiv y := by
  rw [← ha, ← hb]
  refine Int64.toInt_div_of_ne_right a b ?_
  rintro rfl
  exact absurd (hb ▸ h) (by decide)

theorem toInt_mod_of (ha : a.toInt = x) (hb : b.toInt = y) : (a % b).toInt = x.tmod y := by
  rw [Int64.toInt_mod, ha, hb]

theorem toInt32_of (ha : a.toInt = x) (h₁ : -2 ^ 31 ≤ x) (h₂ : x < 2 ^ 31) : a.toInt32.toInt = x := by
  rw [Int64.toInt_toInt32, ha]
  exact Int.bmod_eq_of_le (by omega) (by omega)

theorem ite_lt_zero {β : Type*} (ha : a.toInt = x) (u v : β) : (if a < 0 then u else v) = if x < 0 then u else v := by
  simp only [Int64.lt_iff_toInt_lt, ha, Int64.toInt_zero]

theorem toInt_add_int32 {a b : Int32} (ha : a.toInt = x) (hb : b.toInt = y) (h₁ : -2 ^ 31 ≤ x + y)
    (h₂ : x + y < 2 ^ 31) : (a + b).toInt = x + y := by
  rw [Int32.toInt_add, ha, hb]
  exact Int.bmod_eq_of_le (by omega) (by omega)

theorem toInt_mul_int32 {a b : Int32} (ha : a.toInt = x) (hb : b.toInt = y) (h₁ : -2 ^ 31 ≤ x * y)
    (h₂ : x * y < 2 ^ 31) : (a * b).toInt = x * y := by
  rw [Int32.toInt_mul, ha, hb]
  exact Int.bmod_eq_of_le (by omega) (by omega)

theorem toInt_min (a b : Int32) : (min a b).toInt = min a.toInt b.toInt := by
  change (if a ≤ b then a else b).toInt = _
  simp only [Int32.le_iff_toInt_le]
  split_ifs with h
  · exact (min_eq_left h).symm
  · exact (min_eq_right (not_le.1 h).le).symm

end FixedWidth

theorem seconds_toInt : SECONDS_IN_400_YEARS.toInt = secondsIn400Years := by decide

/-- seconds from the start of 1600 -/
theorem value_toInt {t : Int64} (h₁ : -2 ^ 62 ≤ t.toInt) (h₂ : t.toInt ≤ 2 ^ 62) :
    (t + SECONDS_BETWEEN_1600_1970).toInt = t.toInt + 11676096000 :=
  toInt_add_of rfl (by decide) (by omega) (by omega)

theorem dayOf400Years_toInt {t : Int64} (h₁ : -2 ^ 62 ≤ t.toInt) (h₂ : t.toInt ≤ 2 ^ 62) :
    (dayOf400Years t).toInt = dayOfCycle t.toInt := by
  have hv := value_toInt h₁ h₂
  simp only [dayOf400Years, dayOfCycle, ite_lt_zero hv]
  split_ifs with hneg
  · have hfloor := tmod_floor hneg (b := secondsIn400Years) (by decide)
    have hmod₀ := Int.emod_nonneg (t.toInt + 11676096000) (b := secondsIn400Years) (by decide)
    have hmod := Int.emod_lt_of_pos (t.toInt + 11676096000) (b := secondsIn400Years) (by decide)
    have hs : secondsIn400Years = 12622780800 := by decide
    set v := t + SECONDS_BETWEEN_1600_1970
    have hplus : (v + 1).toInt = t.toInt + 11676096000 + 1 := toInt_add_of hv rfl (by omega) (by omega)
    have hrem := toInt_add_of (toInt_mod_of hplus seconds_toInt) seconds_toInt (by omega) (by omega)
    have hless : ((v + 1) % SECONDS_IN_400_YEARS + SECONDS_IN_400_YEARS - 1).toInt =
        (t.toInt + 11676096000 + 1).tmod secondsIn400Years + secondsIn400Years - 1 :=
      toInt_sub_of hrem rfl (by omega) (by omega)
    exact toInt_div_of hless rfl (by decide)
  · exact toInt_mod_of (toInt_div_of hv rfl (by decide)) rfl

/-- the count of 400 years cycles fits an int32 for the timestamps up to 2^55 -/
theorem cycles_toInt {t : Int64} (h₁ : -2 ^ 55 ≤ t.toInt) (h₂ : t.toInt ≤ 2 ^ 55) :
    (cycles t).toInt = (t.toInt / 86400 + 135140) / 146097 := by
  have hs : secondsIn400Years = 12622780800 := by decide
  have hv := value_toInt (t := t) (by omega) (by omega)
  have hfloor := year400_eq t.toInt
  simp only [cycles, ite_lt_zero hv]
  split_ifs at hfloor ⊢ with hneg
  · have hsub := toInt_sub_of hv seconds_toInt (by omega) (by omega)
    have hplus : (t + SECONDS_BETWEEN_1600_1970 - SECONDS_IN_400_YEARS + 1).toInt =
        t.toInt + 11676096000 - secondsIn400Years + 1 := toInt_add_of hsub rfl (by omega) (by omega)
    have hdiv := toInt_div_of hplus seconds_toInt (by decide)
    rw [hfloor] at hdiv
    exact toInt32_of hdiv (by omega) (by omega)
  · have hdiv := toInt_div_of hv seconds_toInt (by decide)
    rw [hfloor] at hdiv
    exact toInt32_of hdiv (by omega) (by omega)

/-! ## The searches stay in their tables -/

/-- the entries of a table fit -/
def Fits (table : List ℤ) : Prop := ∀ x ∈ table, 0 ≤ x ∧ x < 2 ^ 63

theorem leapYears_fit : Fits startDaysOfLeapYears := by
  unfold Fits
  decide

theorem months_fit : Fits startDaysOfMonths := by
  unfold Fits
  decide

theorem read_table {table : List ℤ} (h : Fits table) {i : ℕ} (hi : i < table.length) :
    ∃ x, (table.map Int64.ofInt)[i]? = some x ∧ x.toInt = table.getD i 0 := by
  have hx := h table[i] (List.getElem_mem hi)
  refine ⟨Int64.ofInt table[i], by simp [hi], ?_⟩
  rw [Int64.toInt_ofInt_of_le (by omega) (by omega)]
  simp [List.getD_eq_getElem?_getD, hi]

theorem searchDown_eq {table : List ℤ} (h : Fits table) {value : Int64} {v : ℤ} (hv : value.toInt = v)
    (h₀ : table.getD 0 0 ≤ v) {start : ℕ} (hlen : start < table.length) :
    searchDown (table.map Int64.ofInt) value start = some (descend table v start) := by
  induction start with
  | zero =>
    obtain ⟨x, hx, hval⟩ := read_table h hlen
    have hle : ¬ x > value := by
      rw [gt_iff_lt, Int64.lt_iff_toInt_lt, hval, hv]
      exact not_lt.2 h₀
    simp [searchDown, hx, hle, descend]
  | succ start ih =>
    obtain ⟨x, hx, hval⟩ := read_table h hlen
    have hiff : x > value ↔ table.getD (start + 1) 0 > v := by
      rw [gt_iff_lt, Int64.lt_iff_toInt_lt, hval, hv]
    simp only [searchDown, hx, Option.bind_eq_bind, Option.bind_some, hiff, descend, ih (by omega)]
    split_ifs <;> rfl

theorem search_eq {table : List ℤ} (h : Fits table) {value : Int64} {v : ℤ} (hv : value.toInt = v)
    (h₀ : table.getD 0 0 ≤ v) {index : Int32} {start : ℕ} (hi : index.toInt = start) (hlen : start < table.length) :
    search (table.map Int64.ofInt) value index = some (descend table v start) := by
  have hneg : ¬ index < 0 := by
    rw [Int32.lt_iff_toInt_lt, hi]
    exact not_lt.2 (Int.natCast_nonneg start)
  rw [search, if_neg hneg, hi, Int.toNat_natCast]
  exact searchDown_eq h hv h₀ hlen

/-- the search for the leap year reads the table at its entries only, and finds the one of the day -/
theorem startOfLeapYear_eq {value : Int64} {c : ℤ} (hv : value.toInt = c) (h₀ : 0 ≤ c) (h : c < 146097) :
    ∃ x, startOfLeapYear value = some x ∧ x.toInt = startDaysOfLeapYears.getD (leapIndex c) 0 := by
  have hmul : (value * 97).toInt = c * 97 := toInt_mul_of hv rfl (by omega) (by omega)
  have hdiv : (value * 97 / DAYS_IN_400_YEARS).toInt = c * 97 / 146097 := by
    rw [toInt_div_of hmul rfl (by decide)]
    exact Int.tdiv_eq_ediv_of_nonneg (by omega)
  have hplus : (value * 97 / DAYS_IN_400_YEARS + 1).toInt = c * 97 / 146097 + 1 :=
    toInt_add_of hdiv rfl (by omega) (by omega)
  have hindex : (min 96 (value * 97 / DAYS_IN_400_YEARS + 1).toInt32).toInt =
      (min 96 (c * 97 / daysIn400Years + 1).toNat : ℕ) := by
    have hlit : (96 : Int32).toInt = 96 := rfl
    rw [toInt_min, toInt32_of hplus (by omega) (by omega), hlit, daysIn400Years]
    omega
  have hsearch := search_eq leapYears_fit hv h₀ hindex (show _ < 97 by omega)
  obtain ⟨x, hx, hval⟩ := read_table leapYears_fit (leapIndex_between h₀ h).1
  exact ⟨x, by rw [startOfLeapYear, START_DAYS_OF_LEAP_YEARS, hsearch]; exact hx, hval⟩

theorem indexOfMonth_eq {value : Int64} {v : ℤ} (hv : value.toInt = v) (h₀ : 0 ≤ v) (h : v < 2921) :
    indexOfMonth value = some (monthIndex v) := by
  have hmul : (value * 96).toInt = v * 96 := toInt_mul_of hv rfl (by omega) (by omega)
  have hdiv : (value * 96 / 2921).toInt = v * 96 / 2921 := by
    rw [toInt_div_of hmul rfl (by decide)]
    exact Int.tdiv_eq_ediv_of_nonneg (by omega)
  have hplus : (value * 96 / 2921 + 1).toInt = v * 96 / 2921 + 1 := toInt_add_of hdiv rfl (by omega) (by omega)
  have hindex : (min 95 (value * 96 / 2921 + 1).toInt32).toInt = (min 95 (v * 96 / 2921 + 1).toNat : ℕ) := by
    have hlit : (95 : Int32).toInt = 95 := rfl
    rw [toInt_min, toInt32_of hplus (by omega) (by omega), hlit]
    omega
  exact search_eq months_fit hv h₀ hindex (show _ < 96 by omega)

/-! ## The functions compute over fixed-width integers what they compute over unbounded ones -/

theorem dayOfCycle_range (t : ℤ) : 0 ≤ dayOfCycle t ∧ dayOfCycle t < 146097 := by
  rw [dayOfCycle_eq]
  exact ⟨Int.emod_nonneg _ (by decide), Int.emod_lt_of_pos _ (by decide)⟩

/-- the part that year, month and day share -/
theorem leapYear_part {t : Int64} (h₁ : -2 ^ 62 ≤ t.toInt) (h₂ : t.toInt ≤ 2 ^ 62) :
    ∃ x, startOfLeapYear (dayOf400Years t) = some x ∧
      x.toInt = startDaysOfLeapYears.getD (leapIndex (dayOfCycle t.toInt)) 0 ∧
      (dayOf400Years t - x).toInt = dayOfLeapCycle (dayOfCycle t.toInt) := by
  obtain ⟨hc₀, hc⟩ := dayOfCycle_range t.toInt
  have hday := dayOf400Years_toInt h₁ h₂
  obtain ⟨x, hx, hval⟩ := startOfLeapYear_eq hday hc₀ hc
  obtain ⟨-, -, hv₀, hv, -⟩ := leapYear_spec hc₀ hc
  refine ⟨x, hx, hval, ?_⟩
  rw [dayOfLeapCycle] at hv₀ hv ⊢
  exact toInt_sub_of hday hval (by omega) (by omega)

theorem year_arith {x d : Int64} {c : Int32} {start v q : ℤ} (hx : x.toInt = start) (hd : d.toInt = v)
    (hc : c.toInt = q) (hs₀ : 0 ≤ start) (hs : start < 146097) (hv₀ : 0 ≤ v) (hv : v < 2921) (hq₀ : -3000000 ≤ q)
    (hq : q ≤ 3000000) :
    (1600 + c * 400 + ((x + 730) / 1461).toInt32 * 4 + min 7 (d * 8 / 2921).toInt32).toInt =
      1600 + q * 400 + (start + 730).tdiv 1461 * 4 + min 7 ((v * 8).tdiv 2921) := by
  rw [Int.tdiv_eq_ediv_of_nonneg (by omega), Int.tdiv_eq_ediv_of_nonneg (by omega)]
  -- the year of the table entry
  have hplus : (x + 730).toInt = start + 730 := toInt_add_of hx rfl (by omega) (by omega)
  have hfour : ((x + 730) / 1461).toInt = (start + 730) / 1461 := by
    rw [toInt_div_of hplus rfl (by decide)]
    exact Int.tdiv_eq_ediv_of_nonneg (by omega)
  have hleap : (((x + 730) / 1461).toInt32 * 4).toInt = (start + 730) / 1461 * 4 :=
    toInt_mul_int32 (toInt32_of hfour (by omega) (by omega)) rfl (by omega) (by omega)
  -- the years behind it
  have hmul : (d * 8).toInt = v * 8 := toInt_mul_of hd rfl (by omega) (by omega)
  have hdiv : (d * 8 / 2921).toInt = v * 8 / 2921 := by
    rw [toInt_div_of hmul rfl (by decide)]
    exact Int.tdiv_eq_ediv_of_nonneg (by omega)
  have hindex : (min 7 (d * 8 / 2921).toInt32).toInt = min 7 (v * 8 / 2921) := by
    have hlit : (7 : Int32).toInt = 7 := rfl
    rw [toInt_min, toInt32_of hdiv (by omega) (by omega), hlit]
  -- the cycles of 400 years
  have hcycles : (c * 400).toInt = q * 400 := toInt_mul_int32 hc rfl (by omega) (by omega)
  have hbase : (1600 + c * 400).toInt = 1600 + q * 400 := toInt_add_int32 rfl hcycles (by omega) (by omega)
  exact toInt_add_int32 (toInt_add_int32 hbase hleap (by omega) (by omega)) hindex (by omega) (by omega)

theorem month_arith {index : ℕ} (h : index < 96) : (Int32.ofNat index % 12 + 1).toInt = (index : ℤ) % 12 + 1 := by
  have hmod : (Int32.ofNat index % 12).toInt = (index : ℤ) % 12 := by
    rw [Int32.toInt_mod, Int32.toInt_ofNat_of_lt (by omega)]
    exact Int.tmod_eq_emod_of_nonneg (Int.natCast_nonneg index)
  exact toInt_add_int32 hmod rfl (by omega) (by omega)

theorem day_arith {d first : Int64} {v m : ℤ} (hd : d.toInt = v) (hm : first.toInt = m) (h₀ : 0 ≤ v - m)
    (h : v - m < 31) : ((d - first).toInt32 + 1).toInt = v - m + 1 :=
  toInt_add_int32 (toInt32_of (toInt_sub_of hd hm (by omega) (by omega)) (by omega) (by omega)) rfl (by omega)
    (by omega)

theorem month_part {t : Int64} (h₁ : -2 ^ 62 ≤ t.toInt) (h₂ : t.toInt ≤ 2 ^ 62) :
    ∃ x index, startOfLeapYear (dayOf400Years t) = some x ∧ indexOfMonth (dayOf400Years t - x) = some index ∧
      (dayOf400Years t - x).toInt = dayOfLeapCycle (dayOfCycle t.toInt) ∧
      index = monthIndex (dayOfLeapCycle (dayOfCycle t.toInt)) ∧ index < 96 := by
  obtain ⟨hc₀, hc⟩ := dayOfCycle_range t.toInt
  obtain ⟨x, hx, -, hv⟩ := leapYear_part h₁ h₂
  obtain ⟨-, -, hv₀, hv', -⟩ := leapYear_spec hc₀ hc
  exact ⟨x, _, hx, indexOfMonth_eq hv hv₀ hv', hv, rfl, (monthIndex_between hv₀ hv').1⟩

theorem year_eq {t : Int64} (h₁ : -2 ^ 55 ≤ t.toInt) (h₂ : t.toInt ≤ 2 ^ 55) :
    ∃ y, year t = some y ∧ y.toInt = DateOp.year.apply t.toInt := by
  obtain ⟨x, hx, hval, hv⟩ := leapYear_part (t := t) (by omega) (by omega)
  obtain ⟨hc₀, hc⟩ := dayOfCycle_range t.toInt
  obtain ⟨hi, hle, -⟩ := leapIndex_between hc₀ hc
  obtain ⟨-, -, hv₀, hv', -⟩ := leapYear_spec hc₀ hc
  refine ⟨_, Option.bind_eq_some_iff.2 ⟨x, hx, rfl⟩, ?_⟩
  rw [year_arith hval hv (cycles_toInt h₁ h₂) (leapYears_nonneg _ hi) (hle.trans_lt hc) hv₀ hv' (by omega) (by omega)]
  simp only [DateOp.apply, year400_eq]

theorem month_eq {t : Int64} (h₁ : -2 ^ 62 ≤ t.toInt) (h₂ : t.toInt ≤ 2 ^ 62) :
    ∃ m, month t = some m ∧ m.toInt = DateOp.month.apply t.toInt := by
  obtain ⟨x, index, hx, hindex, -, hmonth, hlt⟩ := month_part h₁ h₂
  refine ⟨_, Option.bind_eq_some_iff.2 ⟨x, hx, Option.bind_eq_some_iff.2 ⟨index, hindex, rfl⟩⟩, ?_⟩
  rw [month_arith hlt, hmonth]
  rfl

theorem day_eq {t : Int64} (h₁ : -2 ^ 62 ≤ t.toInt) (h₂ : t.toInt ≤ 2 ^ 62) :
    ∃ d, day t = some d ∧ d.toInt = DateOp.day.apply t.toInt := by
  obtain ⟨x, index, hx, hindex, hv, hmonth, hlt⟩ := month_part h₁ h₂
  obtain ⟨first, hfirst, hval⟩ := read_table months_fit hlt
  obtain ⟨hc₀, hc⟩ := dayOfCycle_range t.toInt
  obtain ⟨-, -, hv₀, hv', -⟩ := leapYear_spec hc₀ hc
  obtain ⟨-, hd₀, hd⟩ := month_spec hv₀ hv'
  rw [hmonth] at hval
  refine ⟨_, Option.bind_eq_some_iff.2 ⟨x, hx, Option.bind_eq_some_iff.2 ⟨index, hindex,
    Option.bind_eq_some_iff.2 ⟨first, hfirst, rfl⟩⟩⟩, ?_⟩
  rw [day_arith hv hval hd₀ (hd.trans_le (Calendar.monthLength_le _ _))]
  rfl

/-! ## Time of day -/

/-- the remainder of a negative timestamp, corrected by hand -/
theorem floorMod_toInt {t p q : Int64} {n : ℤ} (hneg : t.toInt < 0) (hp : p.toInt = n) (hq : q.toInt = n - 1)
    (hpos : 0 < n) (hn : n ≤ 86400) : ((t + 1) % p + q).toInt = t.toInt % n := by
  have hlow := t.le_toInt
  have hfloor := tmod_floor hneg hpos
  have hmod₀ := Int.emod_nonneg t.toInt hpos.ne'
  have hmod := Int.emod_lt_of_pos t.toInt hpos
  have hplus : (t + 1).toInt = t.toInt + 1 := toInt_add_of rfl rfl (by omega) (by omega)
  rw [toInt_add_of (toInt_mod_of hplus hp) hq (by omega) (by omega)]
  linarith

theorem hour_eq (t : Int64) : (hour t).toInt = t.toInt % 86400 / 3600 := by
  unfold hour
  rw [ite_lt_zero rfl]
  split_ifs with hneg
  · have hrem : ((t + 1) % 86400 + 86399).toInt = t.toInt % 86400 := floorMod_toInt hneg rfl rfl (by decide) (by decide)
    have hdiv := toInt_div_of hrem (show (3600 : Int64).toInt = 3600 from rfl) (by decide)
    rw [Int.tdiv_eq_ediv_of_nonneg (by omega)] at hdiv
    exact toInt32_of hdiv (by omega) (by omega)
  · have hrem : (t / 3600 % 24).toInt = (t.toInt.tdiv 3600).tmod 24 :=
      toInt_mod_of (toInt_div_of rfl rfl (by decide)) rfl
    rw [Int.tdiv_eq_ediv_of_nonneg (not_lt.1 hneg), Int.tmod_eq_emod_of_nonneg (by omega)] at hrem
    rw [toInt32_of hrem (by omega) (by omega)]
    omega

theorem minute_eq (t : Int64) : (minute t).toInt = t.toInt % 3600 / 60 := by
  unfold minute
  rw [ite_lt_zero rfl]
  split_ifs with hneg
  · have hrem : ((t + 1) % 3600 + 3599).toInt = t.toInt % 3600 := floorMod_toInt hneg rfl rfl (by decide) (by decide)
    have hdiv := toInt_div_of hrem (show (60 : Int64).toInt = 60 from rfl) (by decide)
    rw [Int.tdiv_eq_ediv_of_nonneg (by omega)] at hdiv
    exact toInt32_of hdiv (by omega) (by omega)
  · have hrem : (t / 60 % 60).toInt = (t.toInt.tdiv 60).tmod 60 :=
      toInt_mod_of (toInt_div_of rfl rfl (by decide)) rfl
    rw [Int.tdiv_eq_ediv_of_nonneg (not_lt.1 hneg), Int.tmod_eq_emod_of_nonneg (by omega)] at hrem
    rw [toInt32_of hrem (by omega) (by omega)]
    omega

theorem second_eq (t : Int64) : (second t).toInt = t.toInt % 60 := by
  unfold second
  rw [ite_lt_zero rfl]
  split_ifs with hneg
  · have hrem : ((t + 1) % 60 + 59).toInt = t.toInt % 60 := floorMod_toInt hneg rfl rfl (by decide) (by decide)
    exact toInt32_of hrem (by omega) (by omega)
  · have hrem : (t % 60).toInt = t.toInt.tmod 60 := toInt_mod_of rfl rfl
    rw [Int.tmod_eq_emod_of_nonneg (not_lt.1 hneg)] at hrem
    exact toInt32_of hrem (by omega) (by omega)

/-- year, month and day are those of one date -/
theorem date_fields {t : Int64} (h₁ : -2 ^ 55 ≤ t.toInt) (h₂ : t.toInt ≤ 2 ^ 55) :
    ∃ (y m d : Int32) (date : Date), year t = some y ∧ month t = some m ∧ day t = some d ∧
      y.toInt = date.year ∧ m.toInt = date.month ∧ d.toInt = date.day ∧ date.dayNumber 1970 = t.toInt / 86400 := by
  obtain ⟨date, hy, hm, hd, hday⟩ := apply_date t.toInt
  obtain ⟨y, hyear, hy'⟩ := year_eq h₁ h₂
  obtain ⟨m, hmonth, hm'⟩ := month_eq (t := t) (by omega) (by omega)
  obtain ⟨d, hday', hd'⟩ := day_eq (t := t) (by omega) (by omega)
  exact ⟨y, m, d, date, hyear, hmonth, hday', hy'.trans hy, hm'.trans hm, hd'.trans hd, hday⟩

/-- **Date and time.** For every timestamp up to 2^55 in size the searches read inside of their tables, year, month and
day are the one date of the proleptic Gregorian calendar on the timestamp's day, and hour, minute and second make up
the seconds of that day. -/
theorem date_and_time (t : Int64) (h : |t.toInt| ≤ 2 ^ 55) :
    ∃ (y m d : Int32) (date : Date), year t = some y ∧ month t = some m ∧ day t = some d ∧
      y.toInt = date.year ∧ m.toInt = date.month ∧ d.toInt = date.day ∧
      date.dayNumber 1970 = t.toInt / 86400 ∧
      (∀ other : Date, other.dayNumber 1970 = t.toInt / 86400 → other = date) ∧
      3600 * (hour t).toInt + 60 * (minute t).toInt + (second t).toInt = t.toInt % 86400 := by
  obtain ⟨h₁, h₂⟩ := abs_le.1 h
  obtain ⟨y, m, d, date, hyear, hmonth, hday', hy, hm, hd, hday⟩ := date_fields h₁ h₂
  refine ⟨y, m, d, date, hyear, hmonth, hday', hy, hm, hd, hday, ?_, ?_⟩
  · intro other hother
    exact Date.dayNumber_injective 1970 (hother.trans hday.symm)
  · rw [hour_eq, minute_eq, second_eq]
    omega

/-- the last second before 1970 -/
theorem date_and_time_before_epoch :
    |(-1 : Int64).toInt| ≤ 2 ^ 55 ∧ ∃ date : Date, date.dayNumber 1970 = -1 ∧ date.year = 1969 ∧ date.month = 12 ∧
      date.day = 31 := by
  have hsize : |(-1 : Int64).toInt| ≤ 2 ^ 55 := by decide
  obtain ⟨y, m, d, date, hy, hm, hd, hy', hm', hd', hday, -⟩ := date_and_time (-1) hsize
  have hyear : year (-1) = some 1969 := by decide
  have hmonth : month (-1) = some 12 := by decide
  have hday' : day (-1) = some 31 := by decide
  obtain rfl := Option.some.inj (hy.symm.trans hyear)
  obtain rfl := Option.some.inj (hm.symm.trans hmonth)
  obtain rfl := Option.some.inj (hd.symm.trans hday')
  have hlit : (12 : Int32).toInt = 12 := rfl
  exact ⟨hsize, date, hday, hy'.symm, by omega, hd'.symm⟩

/-! ## Days of the week -/

theorem dayOf1970_toInt {t : Int64} (h : -2 ^ 62 ≤ t.toInt) : (dayOf1970 t).toInt = t.toInt / 86400 := by
  unfold dayOf1970
  rw [ite_lt_zero rfl]
  split_ifs with hneg
  · have hsub : (t - 86400).toInt = t.toInt - 86400 := toInt_sub_of rfl rfl (by omega) (by omega)
    have hplus : (t - 86400 + 1).toInt = t.toInt - 86400 + 1 := toInt_add_of hsub rfl (by omega) (by omega)
    rw [toInt_div_of hplus rfl (by decide)]
    exact tdiv_floor hneg (by decide)
  · rw [toInt_div_of rfl rfl (by decide)]
    exact Int.tdiv_eq_ediv_of_nonneg (not_lt.1 hneg)

theorem tmod_range (a : ℤ) : -7 < a.tmod 7 ∧ a.tmod 7 < 7 :=
  ⟨Int.lt_tmod_of_pos _ (by decide), Int.tmod_lt_of_pos _ (by decide)⟩

theorem weekday_toInt {t : Int64} (h : -2 ^ 62 ≤ t.toInt) :
    (weekday t).toInt = (t.toInt / 86400 + 3).tmod 7 := by
  have hplus : (dayOf1970 t + 3).toInt = t.toInt / 86400 + 3 :=
    toInt_add_of (dayOf1970_toInt h) rfl (by omega) (by have := t.toInt_lt; omega)
  obtain ⟨hlo, hhi⟩ := tmod_range (t.toInt / 86400 + 3)
  exact toInt32_of (toInt_mod_of hplus rfl) (by omega) (by omega)

theorem dayOfWeek_toInt {t : Int64} (h : -2 ^ 62 ≤ t.toInt) :
    (dayOfWeek t).toInt = (t.toInt / 86400 + 4).tmod 7 + 1 := by
  have hplus : (dayOf1970 t + 4).toInt = t.toInt / 86400 + 4 :=
    toInt_add_of (dayOf1970_toInt h) rfl (by omega) (by have := t.toInt_lt; omega)
  obtain ⟨hlo, hhi⟩ := tmod_range (t.toInt / 86400 + 4)
  exact toInt32_of (toInt_add_of (toInt_mod_of hplus rfl) rfl (by omega) (by omega)) (by omega) (by omega)

/-- what the days of the week promise at a timestamp -/
structure Periodic (t : Int64) : Prop where
  weekday_range : 0 ≤ (weekday t).toInt ∧ (weekday t).toInt ≤ 6
  dayOfWeek_range : 1 ≤ (dayOfWeek t).toInt ∧ (dayOfWeek t).toInt ≤ 7
  nextWeek : weekday (t + 604800) = weekday t
  nextDay : (weekday (t + 86400)).toInt = ((weekday t).toInt + 1) % 7
  follows : (dayOfWeek t).toInt = ((weekday t).toInt + 1) % 7 + 1
  /-- constant on the calendar day -/
  sameDay : ∀ u : Int64, |u.toInt| ≤ 2 ^ 62 → u.toInt / 86400 = t.toInt / 86400 →
    weekday u = weekday t ∧ dayOfWeek u = dayOfWeek t
  epoch : (weekday 0).toInt = 3

/-- **The days of the week are right exactly from 1969-12-29 on.** -/
theorem weekday_periodic_iff (t : Int64) (h : |t.toInt| ≤ 2 ^ 62) : Periodic t ↔ -259200 ≤ t.toInt := by
  obtain ⟨h₁, h₂⟩ := abs_le.1 h
  have hw := weekday_toInt h₁
  have hd := dayOfWeek_toInt h₁
  constructor
  · intro hp
    by_contra hlt
    -- both remainders are zero or negative, and not zero on the same day
    obtain ⟨hw₀, -⟩ := hp.weekday_range
    obtain ⟨hd₀, -⟩ := hp.dayOfWeek_range
    rw [hw, ← neg_neg (t.toInt / 86400 + 3), Int.neg_tmod, Int.tmod_eq_emod_of_nonneg (by omega)] at hw₀
    rw [hd, ← neg_neg (t.toInt / 86400 + 4), Int.neg_tmod, Int.tmod_eq_emod_of_nonneg (by omega)] at hd₀
    omega
  · intro hle
    have hweek : (t + 604800).toInt = t.toInt + 604800 := toInt_add_of rfl rfl (by omega) (by omega)
    have hday : (t + 86400).toInt = t.toInt + 86400 := toInt_add_of rfl rfl (by omega) (by omega)
    rw [Int.tmod_eq_emod_of_nonneg (by omega)] at hw hd
    refine ⟨?_, ?_, ?_, ?_, ?_, ?_, by decide⟩
    · rw [hw]
      omega
    · rw [hd]
      omega
    · apply Int32.toInt.inj
      rw [weekday_toInt (by omega), hweek, hw, Int.tmod_eq_emod_of_nonneg (by omega)]
      omega
    · rw [weekday_toInt (by omega), hday, hw, Int.tmod_eq_emod_of_nonneg (by omega)]
      omega
    · rw [hw, hd]
      omega
    · intro u hu hsame
      have hu₁ := (abs_le.1 hu).1
      refine ⟨Int32.toInt.inj ?_, Int32.toInt.inj ?_⟩
      · rw [weekday_toInt hu₁, hsame, weekday_toInt h₁]
      · rw [dayOfWeek_toInt hu₁, hsame, dayOfWeek_toInt h₁]

theorem weekday_periodic_iff_epoch : Periodic 0 ↔ -259200 ≤ (0 : Int64).toInt :=
  weekday_periodic_iff 0 (by decide)

/-- Sunday, 28 December 1969 -/
theorem weekday_before_epoch : ¬ ∀ t : Int64, |t.toInt| ≤ 2 ^ 62 → Periodic t := by
  intro hall
  have hrange := (hall (-345600) (by decide)).weekday_range.1
  exact absurd hrange (by decide)

end QikkDB.DateOperations

/-
The proleptic Gregorian calendar over all integer years: leap years, lengths of months, and the number of days from the
start of an epoch year to a date.

- `sum_yearLength`: the days of a stretch of years, in closed form (`daysTo`).
- `dayNumber_injective`: two dates with the same day number are the same date.
- `dayNumber_eq`: the day number of a date by the closed form.
- `daysTo_add_cycle`: 400 years have 146097 days.
-/
import Mathlib.Tactic

namespace Calendar

def IsLeap (year : ℤ) : Prop := year % 4 = 0 ∧ (year % 100 ≠ 0 ∨ year % 400 = 0)

instance (year : ℤ) : Decidable (IsLeap year) := inferInstanceAs (Decidable (_ ∧ _))

def yearLength (year : ℤ) : ℤ := if IsLeap year then 366 else 365

def monthLength (leap : Bool) (month : ℕ) : ℤ :=
  if month = 2 then (if leap then 29 else 28)
  else if month = 4 ∨ month = 6 ∨ month = 9 ∨ month = 11 then 30
  else 31

/-- days of the months before `month` in its year -/
def daysBeforeMonth (leap : Bool) (month : ℕ) : ℤ := ∑ m ∈ Finset.Ico 1 month, monthLength leap m

/-- days from the start of `epoch` to the start of `year`, negative before the epoch -/
noncomputable def daysBeforeYear (epoch year : ℤ) : ℤ :=
  if epoch ≤ year then ∑ y ∈ Finset.Ico epoch year, yearLength y else -∑ y ∈ Finset.Ico year epoch, yearLength y

/-- a date of the calendar -/
structure Date where
  year : ℤ
  month : ℕ
  day : ℤ
  month_pos : 1 ≤ month
  month_le : month ≤ 12
  day_pos : 1 ≤ day
  day_le : day ≤ monthLength (IsLeap year) month

/-- days from the first of January of `epoch` to the date -/
noncomputable def Date.dayNumber (epoch : ℤ) (d : Date) : ℤ :=
  daysBeforeYear epoch d.year + daysBeforeMonth (IsLeap d.year) d.month + (d.day - 1)

/-! ## Years -/

/-- days from the first of January of the year 1 to the start of a year -/
def daysTo (year : ℤ) : ℤ := 365 * (year - 1) + (year - 1) / 4 - (year - 1) / 100 + (year - 1) / 400

theorem daysTo_succ (year : ℤ) : daysTo (year + 1) = daysTo year + yearLength year := by
  simp only [daysTo, yearLength, IsLeap]
  split_ifs <;> omega

theorem yearLength_pos (year : ℤ) : 0 < yearLength year := by
  unfold yearLength
  split_ifs <;> decide

theorem daysTo_strictMono : StrictMono daysTo :=
  strictMono_int_of_lt_succ fun year => by linarith [daysTo_succ year, yearLength_pos year]

theorem sum_yearLength {a b : ℤ} (h : a ≤ b) : ∑ y ∈ Finset.Ico a b, yearLength y = daysTo b - daysTo a := by
  induction b, h using Int.leInduction with
  | base => simp
  | succ b hb ih =>
    rw [← Finset.sum_Ico_add_eq_sum_Ico_add_one hb, ih, daysTo_succ]
    ring

theorem daysBeforeYear_eq (epoch year : ℤ) : daysBeforeYear epoch year = daysTo year - daysTo epoch := by
  unfold daysBeforeYear
  split_ifs with h
  · exact sum_yearLength h
  · rw [sum_yearLength (not_le.1 h).le]
    ring

theorem daysTo_add_cycle (year cycles : ℤ) : daysTo (year + 400 * cycles) = daysTo year + 146097 * cycles := by
  unfold daysTo
  omega

theorem isLeap_add_cycle (year cycles : ℤ) : IsLeap (year + 400 * cycles) ↔ IsLeap year := by
  unfold IsLeap
  omega

/-- the years that follow a leap year, up to four, start one day later than 365 days each -/
theorem daysTo_after_leap {year j : ℤ} (hleap : IsLeap year) (hj : 1 ≤ j) (hj4 : j ≤ 4) :
    daysTo (year + j) = daysTo year + 365 * j + 1 := by
  obtain ⟨h4, h⟩ := hleap
  unfold daysTo
  omega

/-- up to eight of them, where the next year divisible by four is not a leap year -/
theorem daysTo_after_leap_long {year j : ℤ} (hleap : IsLeap year) (hnext : ¬ IsLeap (year + 4)) (hj : 1 ≤ j)
    (hj8 : j ≤ 8) : daysTo (year + j) = daysTo year + 365 * j + 1 := by
  obtain ⟨h4, h⟩ := hleap
  unfold IsLeap at hnext
  unfold daysTo
  omega

/-! ## Months -/

theorem monthLength_pos (leap : Bool) (month : ℕ) : 0 < monthLength leap month := by
  unfold monthLength
  split_ifs <;> decide

theorem monthLength_le (leap : Bool) (month : ℕ) : monthLength leap month ≤ 31 := by
  unfold monthLength
  split_ifs <;> decide

theorem daysBeforeMonth_succ {leap : Bool} {month : ℕ} (h : 1 ≤ month) :
    daysBeforeMonth leap (month + 1) = daysBeforeMonth leap month + monthLength leap month :=
  Finset.sum_Ico_succ_top h _

theorem daysBeforeMonth_mono (leap : Bool) : Monotone (daysBeforeMonth leap) := by
  intro m n h
  refine Finset.sum_le_sum_of_subset_of_nonneg (Finset.Ico_subset_Ico_right h) ?_
  exact fun k _ _ => (monthLength_pos leap k).le

theorem daysBeforeMonth_thirteen (year : ℤ) : daysBeforeMonth (IsLeap year) 13 = yearLength year := by
  by_cases h : IsLeap year
  · simp only [h, decide_true, yearLength, if_true]
    decide
  · simp only [h, decide_false, yearLength, if_false]
    decide

/-! ## Dates -/

/-- the day in its year, counted from zero -/
def Date.dayOfYear (d : Date) : ℤ := daysBeforeMonth (IsLeap d.year) d.month + (d.day - 1)

theorem Date.dayNumber_eq (epoch : ℤ) (d : Date) : d.dayNumber epoch = daysTo d.year - daysTo epoch + d.dayOfYear := by
  rw [Date.dayNumber, daysBeforeYear_eq, Date.dayOfYear]
  ring

/-- a day lies in its month -/
theorem Date.dayOfYear_lt_month (d : Date) : d.dayOfYear < daysBeforeMonth (IsLeap d.year) (d.month + 1) := by
  rw [daysBeforeMonth_succ d.month_pos, Date.dayOfYear]
  linarith [d.day_le]

theorem Date.month_le_dayOfYear (d : Date) : daysBeforeMonth (IsLeap d.year) d.month ≤ d.dayOfYear := by
  rw [Date.dayOfYear]
  linarith [d.day_pos]

/-- a day lies in its year -/
theorem Date.dayOfYear_lt (d : Date) : d.dayOfYear < yearLength d.year := by
  calc d.dayOfYear < daysBeforeMonth (IsLeap d.year) (d.month + 1) := d.dayOfYear_lt_month
    _ ≤ daysBeforeMonth (IsLeap d.year) 13 := daysBeforeMonth_mono _ (Nat.succ_le_succ d.month_le)
    _ = yearLength d.year := daysBeforeMonth_thirteen d.year

theorem Date.dayOfYear_nonneg (d : Date) : 0 ≤ d.dayOfYear := by
  have hfirst : (0 : ℤ) ≤ daysBeforeMonth (IsLeap d.year) d.month :=
    Finset.sum_nonneg fun m _ => (monthLength_pos _ m).le
  exact hfirst.trans d.month_le_dayOfYear

theorem Date.dayNumber_lt_of_year {epoch : ℤ} {d e : Date} (h : d.year < e.year) :
    d.dayNumber epoch < e.dayNumber epoch := by
  rw [Date.dayNumber_eq, Date.dayNumber_eq]
  have hyears : daysTo (d.year + 1) ≤ daysTo e.year := daysTo_strictMono.monotone h
  rw [daysTo_succ] at hyears
  linarith [d.dayOfYear_lt, e.dayOfYear_nonneg]

theorem Date.dayOfYear_lt_of_month {d e : Date} (hyear : d.year = e.year) (h : d.month < e.month) :
    d.dayOfYear < e.dayOfYear := by
  calc d.dayOfYear < daysBeforeMonth (IsLeap d.year) (d.month + 1) := d.dayOfYear_lt_month
    _ ≤ daysBeforeMonth (IsLeap d.year) e.month := daysBeforeMonth_mono _ h
    _ = daysBeforeMonth (IsLeap e.year) e.month := by rw [hyear]
    _ ≤ e.dayOfYear := e.month_le_dayOfYear

theorem Date.ext_fields {d e : Date} (hy : d.year = e.year) (hm : d.month = e.month) (hd : d.day = e.day) : d = e := by
  cases d
  cases e
  subst hy hm hd
  rfl

/-- a day number belongs to one date only -/
theorem Date.dayNumber_injective (epoch : ℤ) : Function.Injective (Date.dayNumber epoch) := by
  intro d e h
  have hyear : d.year = e.year := by
    rcases lt_trichotomy d.year e.year with hlt | heq | hlt
    · exact absurd h (dayNumber_lt_of_year hlt).ne
    · exact heq
    · exact absurd h.symm (dayNumber_lt_of_year hlt).ne
  have hday : d.dayOfYear = e.dayOfYear := by
    rw [Date.dayNumber_eq, Date.dayNumber_eq, hyear] at h
    linarith
  have hmonth : d.month = e.month := by
    rcases lt_trichotomy d.month e.month with hlt | heq | hlt
    · exact absurd hday (dayOfYear_lt_of_month hyear hlt).ne
    · exact heq
    · exact absurd hday.symm (dayOfYear_lt_of_month hyear.symm hlt).ne
  refine Date.ext_fields hyear hmonth ?_
  rw [Date.dayOfYear, Date.dayOfYear, hyear, hmonth] at hday
  linarith

end Calendar

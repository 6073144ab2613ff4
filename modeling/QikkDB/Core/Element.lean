/-
Element types of columns and blocks: what the templates `BlockBase<T>` and `ColumnBase<T>` use of T.

`Element` collects std::numeric_limits, the operators and the statistics specialisation of T (BlockBase.cpp). The
integer types are `IntN w` with wrapping addition, strings are byte lists. The float average is carried as its 32 bits
and computed in single precision; no statement depends on its value.
-/
import Mathlib.Tactic

namespace QikkDB

/-! ## Element types -/

/-- the specialisations of updateBlockStatistics and setBlockStatistics -/
inductive Statistics where
  /-- int32_t, int64_t, float, double: recomputed from the null mask in nullable blocks -/
  | nullAware
  /-- int8_t: counted row by row, the null mask is not read -/
  | incremental
  /-- std::string: as int8_t, without sum and average -/
  | text
  /-- Point, ComplexPolygon: the default value, rows are only counted -/
  | geo
deriving DecidableEq, Repr

/-- what the block and column templates use of an element type -/
class Element (α : Type) where
  statistics : Statistics
  /-- whether `new T[n]` default-constructs its elements -/
  classType : Bool
  /-- std::numeric_limits<T>::lowest() -/
  lowest : α
  /-- std::numeric_limits<T>::max() -/
  max : α
  /-- T{} -/
  zero : α
  /-- the value that Point and ComplexPolygon blocks carry as statistics -/
  placeholder : α
  lt : α → α → Bool
  add : α → α → α
  /-- conversion to float -/
  avgOf : α → UInt32
  /-- sum divided by a row count -/
  avgRatio : α → ℕ → UInt32
  /-- float average plus an element -/
  avgAdd : UInt32 → α → UInt32
  /-- float average divided by a row count -/
  avgDivide : UInt32 → ℕ → UInt32

/-! ## Signed integers of w bits -/

/-- a signed integer of w bits -/
structure IntN (w : ℕ) where
  val : ℤ
  lo : -(2 ^ (w - 1) : ℤ) ≤ val
  hi : val < 2 ^ (w - 1)
deriving DecidableEq, Repr

abbrev Int8T := IntN 8
abbrev Int32T := IntN 32
abbrev Int64T := IntN 64

namespace IntN

variable {w : ℕ}

@[ext] theorem ext {a b : IntN w} (h : a.val = b.val) : a = b := by
  cases a; cases b; simp_all

instance : LinearOrder (IntN w) := LinearOrder.lift' IntN.val fun _ _ => IntN.ext

theorem le_def {a b : IntN w} : a ≤ b ↔ a.val ≤ b.val := Iff.rfl

theorem lt_def {a b : IntN w} : a < b ↔ a.val < b.val := Iff.rfl

/-- the two's complement value of n -/
def wrap (w : ℕ) (n : ℤ) : IntN w where
  val := (n + 2 ^ (w - 1)) % 2 ^ (w - 1 + 1) - 2 ^ (w - 1)
  lo := by
    have h₁ : (0 : ℤ) < 2 ^ (w - 1 + 1) := by positivity
    have h₂ := Int.emod_nonneg (n + 2 ^ (w - 1)) h₁.ne'
    omega
  hi := by
    have h₁ : (0 : ℤ) < 2 ^ (w - 1 + 1) := by positivity
    have h₂ := Int.emod_lt_of_pos (n + 2 ^ (w - 1)) h₁
    rw [pow_succ] at h₂ ⊢
    omega

theorem wrap_val (a : IntN w) : wrap w a.val = a := by
  have hlo := a.lo
  have hhi := a.hi
  apply ext
  simp only [wrap]
  rw [Int.emod_eq_of_lt (by omega) (by rw [pow_succ]; omega)]
  omega

/-- an integer in range is its own two's complement value -/
theorem val_wrap {n : ℤ} (hlo : -(2 ^ (w - 1)) ≤ n) (hhi : n < 2 ^ (w - 1)) : (wrap w n).val = n :=
  congrArg IntN.val (wrap_val ⟨n, hlo, hhi⟩)

/-- congruent integers have the same w bits -/
theorem wrap_emod (hw : 0 < w) (n : ℤ) : wrap w (n % 2 ^ w) = wrap w n := by
  have hpow : w - 1 + 1 = w := by omega
  apply ext
  simp only [wrap, hpow, Int.emod_add_emod]

instance (n : ℕ) : OfNat (IntN w) n := ⟨wrap w n⟩

def lowest (w : ℕ) : IntN w := ⟨-(2 ^ (w - 1)), le_rfl, by
  have : (0 : ℤ) < 2 ^ (w - 1) := by positivity
  omega⟩

def max (w : ℕ) : IntN w := ⟨2 ^ (w - 1) - 1, by
  have : (0 : ℤ) < 2 ^ (w - 1) := by positivity
  omega, by omega⟩

theorem lowest_le (a : IntN w) : lowest w ≤ a := a.lo

theorem le_max (a : IntN w) : a ≤ max w := by
  have := a.hi
  simp only [le_def, max]
  omega

end IntN

/-- statistics specialisation of the integer type of w bits -/
def intStatistics (w : ℕ) : Statistics := if w = 8 then .incremental else .nullAware

instance (w : ℕ) : Element (IntN w) where
  statistics := intStatistics w
  classType := false
  lowest := IntN.lowest w
  max := IntN.max w
  zero := IntN.wrap w 0
  placeholder := IntN.wrap w 0
  lt a b := a < b
  add a b := IntN.wrap w (a.val + b.val)
  avgOf a := (Float32.ofInt a.val).toBits
  avgRatio a n := (Float32.ofInt a.val / Float32.ofNat n).toBits
  avgAdd f a := (Float32.ofBits f + Float32.ofInt a.val).toBits
  avgDivide f n := (Float32.ofBits f / Float32.ofNat n).toBits

/-- std::string -/
abbrev Str := List UInt8

instance : Element Str where
  statistics := .text
  classType := true
  lowest := []
  max := []
  zero := []
  placeholder := []
  lt a b := a < b
  add a b := a ++ b
  avgOf _ := 0
  avgRatio _ _ := 0
  avgAdd f _ := f
  avgDivide f _ := f

end QikkDB

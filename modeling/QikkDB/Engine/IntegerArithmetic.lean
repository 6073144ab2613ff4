/-
Arithmetic on integer columns (QueryEngine/GPUCore/GPUBinary.cuh, `add`, `sub`, `mul`, `div`, `mod`,
`kernel_arithmetic`; ArithmeticUnaryOperations.h, `minus`, `absolute`; GPUUnary.cuh, `kernel_arithmetic_unary`; the
dispatch tables of GpuSqlDispatcherBinaryFunctions.cu and GpuSqlDispatcherUnaryFunctions.cu).

A number is computed in the type that C++ converts the operands to, where int8_t becomes int, and a value that leaves
that type is undefined. The guards of + - * compare the left operand with what the right one leaves of the range of
the result. Division has no such guard, and the kernel of the unary operators has no error flag.

- `add_eq`, `sub_eq`, `mul_eq`: the guard is defined and tells whether the result is in range.
- `overflow_detected`: that for all three.
- `never_another_number_iff`: when / % - and ABS give the exact result or an error.
-/
import Mathlib.Tactic

namespace QikkDB.IntegerArithmetic

/-! ## Model -/

inductive IntType where
  | int8
  | int32
  | int64
deriving DecidableEq, Repr

namespace IntType

def size : IntType → ℕ
  | int8 => 1
  | int32 => 4
  | int64 => 8

/-- numeric_limits::max -/
def max : IntType → ℤ
  | int8 => 127
  | int32 => 2147483647
  | int64 => 9223372036854775807

/-- numeric_limits::min, also the null constant -/
def min (t : IntType) : ℤ := -t.max - 1

def Holds (t : IntType) (z : ℤ) : Prop := t.min ≤ z ∧ z ≤ t.max

instance (t : IntType) (z : ℤ) : Decidable (t.Holds z) := inferInstanceAs (Decidable (_ ∧ _))

/-- integral promotion -/
def promote : IntType → IntType
  | int8 => int32
  | t => t

/-- the type in which C++ computes with operands of two types -/
def common (l r : IntType) : IntType := if r.promote.size ≤ l.promote.size then l.promote else r.promote

/-- ResultType of `Binary` for two integral operands -/
def resultType (l r : IntType) : IntType := if r.size ≤ l.size then l else r

/-- a value of the type -/
abbrev Value (t : IntType) := {z : ℤ // t.Holds z}

/-- a computation in the type, undefined where the value leaves it -/
def exact (t : IntType) (z : ℤ) : Option ℤ := if t.Holds z then some z else none

/-- operator / of C++ -/
def quotient (t : IntType) (a b : ℤ) : Option ℤ := if b = 0 then none else t.exact (a.tdiv b)

/-- operator % of C++, undefined together with the quotient -/
def remainder (t : IntType) (a b : ℤ) : Option ℤ := (t.quotient a b).map fun _ => a.tmod b

/-- conversion to the type -/
def convert (t : IntType) (z : ℤ) : ℤ := (z - t.min) % (t.max - t.min + 1) + t.min

end IntType

/-- && with an operand that may be undefined -/
def both (p : Bool) (q : Option Bool) : Option Bool := if p then q else some false

/-- || -/
def either (p q : Option Bool) : Option Bool := p.bind fun b => if b then some true else q

inductive QueryEngineErrorType where
  | GPU_EXTENSION_SUCCESS
  | GPU_DIVISION_BY_ZERO_ERROR
  | GPU_INTEGER_OVERFLOW_ERROR
deriving DecidableEq, Repr

open QueryEngineErrorType

/-- what a functor leaves: the error flag it has set and the value it returns -/
structure Result where
  errorFlag : QueryEngineErrorType
  value : ℤ
deriving DecidableEq, Repr

section Functors

variable (l r : IntType)

/-- the null constant with an error -/
def failed (e : QueryEngineErrorType) : Result := ⟨e, (IntType.resultType l r).min⟩

/-- return of a value, which is converted to the type of the result -/
def returned (z : ℤ) : Result := ⟨GPU_EXTENSION_SUCCESS, (IntType.resultType l r).convert z⟩

def add (a b : ℤ) : Option Result := do
  let out := IntType.resultType l r
  let overflow ← either
    (both (0 < b) do let d ← (out.common r).exact (out.max - b); some (d < a))
    (both (b < 0) do let d ← (out.common r).exact (out.min - b); some (a < d))
  if overflow then some (failed l r GPU_INTEGER_OVERFLOW_ERROR) else (l.common r).exact (a + b) >>= some ∘ returned l r

def sub (a b : ℤ) : Option Result := do
  let out := IntType.resultType l r
  let overflow ← either
    (both (0 < b) do let d ← (out.common r).exact (out.min + b); some (a < d))
    (both (b < 0) do let d ← (out.common r).exact (out.max + b); some (d < a))
  if overflow then some (failed l r GPU_INTEGER_OVERFLOW_ERROR) else (l.common r).exact (a - b) >>= some ∘ returned l r

def mul (a b : ℤ) : Option Result := do
  let out := IntType.resultType l r
  let overflow ←
    if 0 < a then
      if 0 < b then do let d ← (out.common r).quotient out.max b; some (decide (d < a))
      else do let d ← (out.common l).quotient out.min a; some (decide (b < d))
    else
      if 0 < b then do let d ← (out.common r).quotient out.min b; some (decide (a < d))
      else both (a ≠ 0) do let d ← (out.common l).quotient out.max a; some (decide (b < d))
  if overflow then some (failed l r GPU_INTEGER_OVERFLOW_ERROR) else (l.common r).exact (a * b) >>= some ∘ returned l r

def div (a b : ℤ) : Option Result :=
  if b = 0 then some (failed l r GPU_DIVISION_BY_ZERO_ERROR)
  else (l.common r).quotient a b >>= some ∘ returned l r

def mod (a b : ℤ) : Option Result :=
  if b = 0 then some (failed l r GPU_DIVISION_BY_ZERO_ERROR)
  else (l.common r).remainder a b >>= some ∘ returned l r

end Functors

/-- ArithmeticUnaryOperations::minus, whose result has the type of the operand -/
def minus (t : IntType) (a : ℤ) : Option Result := t.promote.exact (-a) >>= some ∘ returned t t

/-- ArithmeticUnaryOperations::absolute -/
def absolute (t : IntType) (a : ℤ) : Option Result := t.promote.exact |a| >>= some ∘ returned t t

inductive Error where
  | invalidOperands
  | queryEngine (e : QueryEngineErrorType)
deriving DecidableEq, Repr

/-- the error flag after the rows have been computed in some order; atomicExch keeps the last error -/
def errorFlag (results : List (Option Result)) (order : List ℕ) : QueryEngineErrorType :=
  order.foldl (fun flag i =>
    match results[i]? with
    | some (some w) => if w.errorFlag = GPU_EXTENSION_SUCCESS then flag else w.errorFlag
    | _ => flag) GPU_EXTENSION_SUCCESS

/-- the operands of a row and whether the result is NULL; the kernels compute the number either way -/
abbrev Row (α : Type) := α × Bool

/-- the Binary instruction: the dispatch table, the kernel and the exception of ErrorFlagSwapper::Swap; a number that
C++ leaves undefined is `none` -/
def binary (op : IntType → IntType → ℤ → ℤ → Option Result) (l r : IntType) (rows : List (Row (l.Value × r.Value)))
    (order : List ℕ) : Except Error (List (Option ℤ)) :=
  if l = .int8 ∨ r = .int8 then .error .invalidOperands
  else
    let results := rows.map fun row => op l r row.1.1 row.1.2
    if errorFlag results order = GPU_EXTENSION_SUCCESS then .ok (results.map (Option.map Result.value))
    else .error (.queryEngine (errorFlag results order))

/-- the Unary instruction -/
def unary (op : IntType → ℤ → Option Result) (t : IntType) (rows : List (Row t.Value)) :
    Except Error (List (Option ℤ)) :=
  if t = .int8 then .error .invalidOperands else .ok (rows.map fun row => (op t row.1).map Result.value)

/-! ## What the operators should give -/

inductive Additive where
  | add
  | sub
  | mul
deriving DecidableEq, Repr

def Additive.functor : Additive → IntType → IntType → ℤ → ℤ → Option Result
  | add => IntegerArithmetic.add
  | sub => IntegerArithmetic.sub
  | mul => IntegerArithmetic.mul

def Additive.value : Additive → ℤ → ℤ → ℤ
  | add => (· + ·)
  | sub => (· - ·)
  | mul => (· * ·)

inductive Division where
  | div
  | mod
deriving DecidableEq, Repr

def Division.functor : Division → IntType → IntType → ℤ → ℤ → Option Result
  | div => IntegerArithmetic.div
  | mod => IntegerArithmetic.mod

def Division.value : Division → ℤ → ℤ → ℤ
  | div => Int.tdiv
  | mod => Int.tmod

inductive Sign where
  | minus
  | absolute
deriving DecidableEq, Repr

def Sign.functor : Sign → IntType → ℤ → Option Result
  | minus => IntegerArithmetic.minus
  | absolute => IntegerArithmetic.absolute

def Sign.value : Sign → ℤ → ℤ
  | minus => (- ·)
  | absolute => (|·|)

/-- a number that the device can leave for a computation: any of the type where C++ says nothing -/
def Yields (t : IntType) : Option ℤ → ℤ → Prop
  | some w, z => z = w
  | none, z => t.Holds z

/-- an error, or rows that can hold the given numbers only where they are not NULL -/
def NeverAnother (t : IntType) : Except Error (List (Option ℤ)) → List (Row ℤ) → Prop
  | .error _, _ => True
  | .ok values, expected =>
    List.Forall₂ (fun v e => e.2 = false → ∀ z, Yields t v z → z = e.1) values expected

/-- the Binary instruction for / and %, and the Unary instruction for - and ABS, with the rows of a block -/
inductive Instruction where
  | binary (op : Division) (l r : IntType) (rows : List (Row (l.Value × r.Value)))
  | unary (op : Sign) (t : IntType) (rows : List (Row t.Value))

namespace Instruction

def rowCount : Instruction → ℕ
  | binary _ _ _ rows => rows.length
  | unary _ _ rows => rows.length

def resultType : Instruction → IntType
  | binary _ l r _ => IntType.resultType l r
  | unary _ t _ => t

/-- the rows are computed in the given order -/
def execute (order : List ℕ) : Instruction → Except Error (List (Option ℤ))
  | binary op l r rows => IntegerArithmetic.binary op.functor l r rows order
  | unary op t rows => IntegerArithmetic.unary op.functor t rows

/-- the numbers of mathematics -/
def expected : Instruction → List (Row ℤ)
  | binary op _ _ rows => rows.map fun row => (op.value row.1.1 row.1.2, row.2)
  | unary op _ rows => rows.map fun row => (op.value row.1, row.2)

/-- int8_t, which the dispatch tables reject, a zero divisor, or no row that is not NULL holds the smallest value of the
type, for / and % together with the divisor -1 -/
def Guarded : Instruction → Prop
  | binary _ l r rows => l = .int8 ∨ r = .int8 ∨ (∃ row ∈ rows, row.1.2.1 = 0) ∨
      ∀ row ∈ rows, row.2 = false → ¬(row.1.1.1 = (IntType.resultType l r).min ∧ row.1.2.1 = -1)
  | unary _ t rows => t = .int8 ∨ ∀ row ∈ rows, row.2 = false → row.1.1 ≠ t.min

end Instruction

/-! ## Lemmas -/

namespace IntType

variable {l r t : IntType} {z : ℤ}

theorem max_pos (t : IntType) : 0 < t.max := by
  cases t <;> decide

theorem holds_left (h : l.Holds z) : (resultType l r).Holds z := by
  cases l <;> cases r <;> simp [resultType, size, Holds, min, max] at h ⊢ <;> omega

theorem holds_right (h : r.Holds z) : (resultType l r).Holds z := by
  cases l <;> cases r <;> simp [resultType, size, Holds, min, max] at h ⊢ <;> omega

theorem holds_promote (h : t.Holds z) : t.promote.Holds z := by
  cases t <;> simp [promote, Holds, min, max] at h ⊢ <;> omega

theorem holds_common_left (h : l.Holds z) : (l.common r).Holds z := by
  cases l <;> cases r <;> simp [common, promote, size, Holds, min, max] at h ⊢ <;> omega

theorem holds_common (h : (resultType l r).Holds z) : (l.common r).Holds z := by
  cases l <;> cases r <;> simp [resultType, common, promote, size, Holds, min, max] at h ⊢ <;> omega

theorem exact_of_holds (h : t.Holds z) : t.exact z = some z := if_pos h

theorem exact_of_not_holds (h : ¬t.Holds z) : t.exact z = none := if_neg h

theorem convert_of_holds (h : t.Holds z) : t.convert z = z := by
  obtain ⟨h1, h2⟩ := h
  rw [convert, Int.emod_eq_of_lt (by omega) (by omega)]
  omega

end IntType

section Quotients

variable {m c x : ℤ}

/-! the truncated quotient m / c compared with x, for the signs that the guards of * use -/

theorem tdiv_lt_iff (hm : 0 ≤ m) (hc : 0 < c) : m.tdiv c < x ↔ m < x * c := by
  rw [Int.tdiv_eq_ediv_of_nonneg hm, Int.ediv_lt_iff_lt_mul hc]

theorem lt_tdiv_iff (hm : m ≤ 0) (hc : 0 < c) : x < m.tdiv c ↔ x * c < m := by
  have h := tdiv_lt_iff (x := -x) (neg_nonneg.2 hm) hc
  rw [Int.neg_tdiv, neg_lt_neg_iff, neg_mul, neg_lt_neg_iff] at h
  exact h

theorem lt_tdiv_iff_of_neg (hm : 0 ≤ m) (hc : c < 0) : x < m.tdiv c ↔ m < x * c := by
  have h := tdiv_lt_iff (x := -x) hm (neg_pos.2 hc)
  rw [Int.tdiv_neg, neg_lt_neg_iff, neg_mul_neg] at h
  exact h

theorem tdiv_bounds (hm : 0 ≤ m) (c : ℤ) : -m ≤ m.tdiv c ∧ m.tdiv c ≤ m := by
  have h := Int.natAbs_tdiv_le_natAbs m c
  omega

theorem tdiv_bounds_of_nonpos (hm : m ≤ 0) (hc : 0 < c) : m ≤ m.tdiv c ∧ m.tdiv c ≤ 0 := by
  have h := Int.natAbs_tdiv_le_natAbs m c
  have h0 : ¬0 < m.tdiv c := fun hlt => by
    have := (lt_tdiv_iff hm hc).1 hlt
    omega
  omega

end Quotients

/-! ## + - * -/

/-- the result in range, or the overflow error -/
def checked (l r : IntType) (z : ℤ) : Result :=
  if (IntType.resultType l r).Holds z then ⟨GPU_EXTENSION_SUCCESS, z⟩ else failed l r GPU_INTEGER_OVERFLOW_ERROR

section Additive

open IntType

variable {l r t : IntType} {a b m c z : ℤ}

/-- the guard of + and -, whose two values lie in the type where they are computed -/
theorem guard_eq {up down : ℤ} {p q : ℤ → Bool} (hup : 0 < b → t.Holds up) (hdown : b < 0 → t.Holds down) :
    either (both (0 < b) do let d ← t.exact up; some (p d)) (both (b < 0) do let d ← t.exact down; some (q d)) =
      some (decide (0 < b) && p up || decide (b < 0) && q down) := by
  rcases lt_trichotomy b 0 with hneg | rfl | hpos
  · simp [both, either, hneg, not_lt.2 hneg.le, exact_of_holds (hdown hneg)]
  · simp [both, either]
  · cases h : p up <;> simp [both, either, hpos, not_lt.2 hpos.le, exact_of_holds (hup hpos), h]

theorem guarded_eq (overflow : Bool) (h : overflow = true ↔ ¬(resultType l r).Holds z) :
    (if overflow then some (failed l r GPU_INTEGER_OVERFLOW_ERROR)
      else (l.common r).exact z >>= some ∘ returned l r) = some (checked l r z) := by
  by_cases hz : (resultType l r).Holds z
  · rw [if_neg fun ho => h.1 ho hz, exact_of_holds (holds_common hz), checked, if_pos hz]
    exact congrArg (fun w => some (Result.mk GPU_EXTENSION_SUCCESS w)) (convert_of_holds hz)
  · rw [if_pos (h.2 hz), checked, if_neg hz]

theorem add_eq (ha : l.Holds a) (hb : r.Holds b) : add l r a b = some (checked l r (a + b)) := by
  obtain ⟨ha1, ha2⟩ := holds_left (r := r) ha
  obtain ⟨hb1, hb2⟩ := holds_right (l := l) hb
  have hmin : (resultType l r).min = -(resultType l r).max - 1 := rfl
  have hup : 0 < b → ((resultType l r).common r).Holds ((resultType l r).max - b) := fun _ =>
    holds_common_left ⟨by omega, by omega⟩
  have hdown : b < 0 → ((resultType l r).common r).Holds ((resultType l r).min - b) := fun _ =>
    holds_common_left ⟨by omega, by omega⟩
  rw [add]
  simp only [guard_eq (p := fun d => d < a) (q := fun d => a < d) hup hdown]
  refine guarded_eq _ ?_
  simp only [Bool.or_eq_true, Bool.and_eq_true, decide_eq_true_iff, Holds]
  omega

theorem sub_eq (ha : l.Holds a) (hb : r.Holds b) : sub l r a b = some (checked l r (a - b)) := by
  obtain ⟨ha1, ha2⟩ := holds_left (r := r) ha
  obtain ⟨hb1, hb2⟩ := holds_right (l := l) hb
  have hmin : (resultType l r).min = -(resultType l r).max - 1 := rfl
  have hup : 0 < b → ((resultType l r).common r).Holds ((resultType l r).min + b) := fun _ =>
    holds_common_left ⟨by omega, by omega⟩
  have hdown : b < 0 → ((resultType l r).common r).Holds ((resultType l r).max + b) := fun _ =>
    holds_common_left ⟨by omega, by omega⟩
  rw [sub]
  simp only [guard_eq (p := fun d => a < d) (q := fun d => d < a) hup hdown]
  refine guarded_eq _ ?_
  simp only [Bool.or_eq_true, Bool.and_eq_true, decide_eq_true_iff, Holds]
  omega

theorem quotient_of_holds (hc : c ≠ 0) (h : t.Holds (m.tdiv c)) : t.quotient m c = some (m.tdiv c) :=
  (if_neg hc).trans (exact_of_holds h)

theorem max_quotient (hc : c ≠ 0) :
    ((resultType l r).common t).quotient (resultType l r).max c = some ((resultType l r).max.tdiv c) := by
  have hmin : (resultType l r).min = -(resultType l r).max - 1 := rfl
  obtain ⟨h1, h2⟩ := tdiv_bounds (max_pos (resultType l r)).le c
  exact quotient_of_holds hc (holds_common_left ⟨by omega, h2⟩)

theorem min_quotient (hc : 0 < c) :
    ((resultType l r).common t).quotient (resultType l r).min c = some ((resultType l r).min.tdiv c) := by
  have hmax := max_pos (resultType l r)
  have hmin : (resultType l r).min = -(resultType l r).max - 1 := rfl
  obtain ⟨h1, h2⟩ := tdiv_bounds_of_nonpos (m := (resultType l r).min) (by omega) hc
  exact quotient_of_holds hc.ne' (holds_common_left ⟨h1, by omega⟩)

theorem mul_eq (a b : ℤ) : mul l r a b = some (checked l r (a * b)) := by
  have hmax := max_pos (resultType l r)
  have hmin : (resultType l r).min = -(resultType l r).max - 1 := rfl
  -- the sign of the product says which end of the range it can leave
  rcases lt_or_ge 0 a with ha | ha <;> rcases lt_or_ge 0 b with hb | hb
  · have h0 := mul_pos ha hb
    simp only [mul, if_pos ha, if_pos hb, max_quotient hb.ne', Option.bind_eq_bind, Option.bind_some]
    refine guarded_eq _ ?_
    rw [decide_eq_true_iff, tdiv_lt_iff hmax.le hb, Holds]
    omega
  · have h0 := mul_nonpos_of_nonneg_of_nonpos ha.le hb
    simp only [mul, if_pos ha, if_neg hb.not_gt, min_quotient ha, Option.bind_eq_bind, Option.bind_some]
    refine guarded_eq _ ?_
    rw [decide_eq_true_iff, lt_tdiv_iff (by omega) ha, mul_comm b a, Holds]
    omega
  · have h0 := mul_nonpos_of_nonpos_of_nonneg ha hb.le
    simp only [mul, if_neg ha.not_gt, if_pos hb, min_quotient hb, Option.bind_eq_bind, Option.bind_some]
    refine guarded_eq _ ?_
    rw [decide_eq_true_iff, lt_tdiv_iff (by omega) hb, Holds]
    omega
  · have h0 := mul_nonneg_of_nonpos_of_nonpos ha hb
    rcases ha.eq_or_lt with rfl | ha'
    · refine Eq.trans ?_ (guarded_eq false ?_)
      · simp [mul, both, hb.not_gt]
      · simp [Holds]
        omega
    · simp only [mul, if_neg ha.not_gt, if_neg hb.not_gt, both, ne_eq, ha'.ne, not_false_eq_true, decide_true, if_true,
        max_quotient ha'.ne, Option.bind_eq_bind, Option.bind_some]
      refine guarded_eq _ ?_
      rw [decide_eq_true_iff, lt_tdiv_iff_of_neg hmax.le ha', mul_comm b a, Holds]
      omega

end Additive

/-- + - * of any two integer types: the guard computes nothing outside its type and sets the error flag exactly when the
result is outside the range of its type; else the result is exact -/
theorem overflow_detected (op : Additive) (l r : IntType) (a : l.Value) (b : r.Value) :
    ∃ w, op.functor l r a.1 b.1 = some w ∧
      (w.errorFlag = GPU_INTEGER_OVERFLOW_ERROR ↔ ¬(IntType.resultType l r).Holds (op.value a.1 b.1)) ∧
      (w.errorFlag = GPU_EXTENSION_SUCCESS ↔ (IntType.resultType l r).Holds (op.value a.1 b.1)) ∧
      (w.errorFlag = GPU_EXTENSION_SUCCESS → w.value = op.value a.1 b.1) := by
  have hop : op.functor l r a.1 b.1 = some (checked l r (op.value a.1 b.1)) := by
    cases op with
    | add => exact add_eq a.2 b.2
    | sub => exact sub_eq a.2 b.2
    | mul => exact mul_eq a.1 b.1
  refine ⟨_, hop, ?_⟩
  by_cases h : (IntType.resultType l r).Holds (op.value a.1 b.1) <;> simp [checked, failed, h]

-- the sum fits int, in which the operands are added, but not the int8_t of the result
example : add .int8 .int8 127 1 = some ⟨GPU_INTEGER_OVERFLOW_ERROR, -128⟩ := by decide

/-! ## / % - ABS -/

/-- C++ says nothing about the number: the smallest value of the type divided by -1 -/
def Division.Undefined (t : IntType) (a b : ℤ) : Prop := a = t.min ∧ b = -1

instance (t : IntType) (a b : ℤ) : Decidable (Division.Undefined t a b) := inferInstanceAs (Decidable (_ ∧ _))

section Division

open IntType

variable {l r t : IntType} {a b : ℤ}

/-- a quotient above the range could only be that of the smallest value by -1 -/
theorem tdiv_le_max (ha : t.Holds a) (hb : b ≠ 0) (h : ¬Division.Undefined t a b) : a.tdiv b ≤ t.max := by
  obtain ⟨ha1, ha2⟩ := ha
  have hmin : t.min = -t.max - 1 := rfl
  have hle := Int.natAbs_tdiv_le_natAbs a b
  rcases lt_or_ge a 0 with hneg | hnonneg
  · rcases lt_or_gt_of_ne hb with hb' | hb'
    · by_cases hb1 : b = -1
      · have hne : a ≠ t.min := fun heq => h ⟨heq, hb1⟩
        omega
      · have hmul : (t.max + 1) * 2 ≤ (t.max + 1) * -b := mul_le_mul_of_nonneg_left (by omega) (by omega)
        have hlt : (-a).tdiv (-b) < t.max + 1 := (tdiv_lt_iff (by omega) (by omega)).2 (by omega)
        rw [Int.neg_tdiv_neg] at hlt
        omega
    · have hq := tdiv_bounds_of_nonpos hneg.le hb'
      omega
  · omega

/-- the quotient leaves the type of its operands only where it would be the negative of the smallest value -/
theorem quotient_eq (ha : t.Holds a) (hb : b ≠ 0) :
    t.quotient a b = if Division.Undefined t a b then none else some (a.tdiv b) := by
  have hmin : t.min = -t.max - 1 := rfl
  rw [quotient, if_neg hb]
  split
  case isTrue h =>
    obtain ⟨rfl, rfl⟩ := h
    refine exact_of_not_holds fun hq => ?_
    have h2 : t.min.tdiv (-1) ≤ t.max := hq.2
    rw [Int.tdiv_neg, Int.tdiv_one] at h2
    omega
  case isFalse h =>
    have hle := Int.natAbs_tdiv_le_natAbs a b
    have hmax := tdiv_le_max ha hb h
    obtain ⟨ha1, ha2⟩ := ha
    exact exact_of_holds ⟨by omega, hmax⟩

theorem common_eq (hl : l ≠ int8) (hr : r ≠ int8) : l.common r = resultType l r := by
  cases l <;> cases r <;> simp_all [common, promote, resultType, size]

theorem tmod_holds (hb : t.Holds b) (h0 : b ≠ 0) : t.Holds (a.tmod b) := by
  obtain ⟨hb1, hb2⟩ := hb
  have hmin : t.min = -t.max - 1 := rfl
  have habs := Int.natAbs_tmod a b
  have hlt : a.natAbs % b.natAbs < b.natAbs := Nat.mod_lt _ (by omega)
  exact ⟨by omega, by omega⟩

theorem functor_eq (op : Division) (hl : l ≠ int8) (hr : r ≠ int8) (ha : l.Holds a) (hb : r.Holds b) :
    op.functor l r a b = if b = 0 then some (failed l r GPU_DIVISION_BY_ZERO_ERROR)
      else if Division.Undefined (resultType l r) a b then none
      else some ⟨GPU_EXTENSION_SUCCESS, op.value a b⟩ := by
  have hq : b ≠ 0 → (l.common r).quotient a b =
      if Division.Undefined (resultType l r) a b then none else some (a.tdiv b) := by
    rw [common_eq hl hr]
    exact quotient_eq (holds_left ha)
  by_cases h0 : b = 0
  · cases op <;> simp [Division.functor, div, mod, h0]
  have hdef : ∀ z, (resultType l r).Holds z → returned l r z = ⟨GPU_EXTENSION_SUCCESS, z⟩ := fun z hz =>
    congrArg (Result.mk GPU_EXTENSION_SUCCESS) (convert_of_holds hz)
  by_cases hu : Division.Undefined (resultType l r) a b
  · cases op <;> simp [Division.functor, div, mod, remainder, h0, hq h0, hu]
  · cases op with
    | div =>
      have hz : (resultType l r).Holds (a.tdiv b) := by
        have hle := Int.natAbs_tdiv_le_natAbs a b
        obtain ⟨ha1, ha2⟩ := holds_left (r := r) ha
        have hmin : (resultType l r).min = -(resultType l r).max - 1 := rfl
        exact ⟨by omega, tdiv_le_max ⟨ha1, ha2⟩ h0 hu⟩
      simp [Division.functor, Division.value, div, h0, hq h0, hu, hdef _ hz]
    | mod =>
      simp [Division.functor, Division.value, mod, remainder, h0, hq h0, hu, hdef _ (tmod_holds (holds_right hb) h0)]

end Division

/-- the undefined values of the unary operators -/
theorem sign_functor_eq (op : Sign) {t : IntType} {a : ℤ} (ht : t ≠ .int8) (ha : t.Holds a) :
    op.functor t a = if a = t.min then none else some ⟨GPU_EXTENSION_SUCCESS, op.value a⟩ := by
  have hmax := t.max_pos
  have hmin : t.min = -t.max - 1 := rfl
  have hpromote : t.promote = t := by cases t <;> simp_all [IntType.promote]
  have hvalue : t.Holds (op.value a) ↔ a ≠ t.min := by
    obtain ⟨ha1, ha2⟩ := ha
    cases op <;> simp only [Sign.value, IntType.Holds, ne_eq]
    · omega
    · rcases abs_cases a with h | h <;> omega
  have hout : IntType.resultType t t = t := if_pos le_rfl
  by_cases h : a = t.min
  · have hn := IntType.exact_of_not_holds fun hz => hvalue.1 hz h
    cases op <;> simp_all [Sign.functor, minus, absolute, Sign.value]
  · have hs := IntType.exact_of_holds (hvalue.2 h)
    have hc := IntType.convert_of_holds (hvalue.2 h)
    cases op <;> simp_all [Sign.functor, minus, absolute, Sign.value, returned]

/-! ## The instructions -/

/-- a number is the only one the device can leave exactly when C++ defines it so -/
theorem yields_only_iff {t : IntType} {v : Option ℤ} {e : ℤ} : (∀ z, Yields t v z → z = e) ↔ v = some e := by
  have hmax := t.max_pos
  have hmin : t.min = -t.max - 1 := rfl
  cases v with
  | none =>
    refine ⟨fun h => ?_, fun h => nomatch h⟩
    have h0 := h 0 ⟨by omega, by omega⟩
    have h1 := h 1 ⟨by omega, by omega⟩
    omega
  | some w => exact ⟨fun h => congrArg some (h w rfl), fun h z hz => hz.trans (Option.some.inj h)⟩

theorem neverAnother_map {α : Type} {t : IntType} {rows : List (Row α)} {f : α → Option ℤ} {g : α → ℤ} :
    NeverAnother t (.ok (rows.map fun row => f row.1)) (rows.map fun row => (g row.1, row.2)) ↔
      ∀ row ∈ rows, row.2 = false → f row.1 = some (g row.1) := by
  simp only [NeverAnother, List.forall₂_map_left_iff, List.forall₂_map_right_iff, List.forall₂_same, yields_only_iff]

theorem foldl_errorFlag {results : List (Option Result)} (order : List ℕ) (flag : QueryEngineErrorType) :
    order.foldl (fun flag i =>
      match results[i]? with
      | some (some w) => if w.errorFlag = GPU_EXTENSION_SUCCESS then flag else w.errorFlag
      | _ => flag) flag = GPU_EXTENSION_SUCCESS ↔
      flag = GPU_EXTENSION_SUCCESS ∧
        ∀ i ∈ order, ∀ w, results[i]? = some (some w) → w.errorFlag = GPU_EXTENSION_SUCCESS := by
  induction order generalizing flag with
  | nil => simp
  | cons i order ih =>
    rw [List.foldl_cons, ih, List.forall_mem_cons, ← and_assoc]
    refine and_congr_left fun _ => ?_
    match h : results[i]? with
    | none => simp
    | some none => simp
    | some (some w) => by_cases hw : w.errorFlag = GPU_EXTENSION_SUCCESS <;> simp [hw]

theorem errorFlag_eq_success (results : List (Option Result)) (order : List ℕ)
    (horder : order.Perm (List.range results.length)) :
    errorFlag results order = GPU_EXTENSION_SUCCESS ↔ ∀ w, some w ∈ results → w.errorFlag = GPU_EXTENSION_SUCCESS := by
  rw [errorFlag, foldl_errorFlag, eq_self, true_and]
  constructor
  · intro h w hw
    obtain ⟨i, hi, hiw⟩ := List.mem_iff_getElem.1 hw
    exact h i (horder.mem_iff.2 (List.mem_range.2 hi)) w (hiw ▸ List.getElem?_eq_getElem hi)
  · exact fun h i _ w hiw => h w (List.mem_of_getElem? hiw)

/-- / and % of a block: the exact numbers, or an error -/
theorem division_iff (op : Division) (l r : IntType) (rows : List (Row (l.Value × r.Value))) (order : List ℕ)
    (horder : order.Perm (List.range rows.length)) :
    NeverAnother (IntType.resultType l r) (binary op.functor l r rows order)
        (rows.map fun row => (op.value row.1.1 row.1.2, row.2)) ↔
      l = .int8 ∨ r = .int8 ∨ (∃ row ∈ rows, row.1.2.1 = 0) ∨
        ∀ row ∈ rows, row.2 = false → ¬Division.Undefined (IntType.resultType l r) row.1.1 row.1.2 := by
  by_cases hl : l = .int8
  · simp [binary, hl, NeverAnother]
  by_cases hr : r = .int8
  · simp [binary, hr, NeverAnother]
  have hop : ∀ row : Row (l.Value × r.Value), op.functor l r row.1.1 row.1.2 = _ := fun row =>
    functor_eq op hl hr row.1.1.2 row.1.2.2
  have hflag := errorFlag_eq_success (rows.map fun row => op.functor l r row.1.1 row.1.2) order
    (by rwa [List.length_map])
  rw [binary, if_neg (not_or.2 ⟨hl, hr⟩)]
  simp only [hl, hr, false_or]
  by_cases hz : ∃ row ∈ rows, row.1.2.1 = 0
  · -- the error flag of the row with the zero divisor is raised
    obtain ⟨row, hmem, h0⟩ := hz
    rw [if_neg fun hs => ?_]
    · exact iff_of_true trivial (.inl ⟨row, hmem, h0⟩)
    · have hw := hflag.1 hs (failed l r GPU_DIVISION_BY_ZERO_ERROR)
        (List.mem_map.2 ⟨row, hmem, by rw [hop, if_pos h0]⟩)
      exact absurd hw (by simp [failed])
  · have hne : ∀ row ∈ rows, row.1.2.1 ≠ 0 := fun row hmem h0 => hz ⟨row, hmem, h0⟩
    rw [if_pos (hflag.2 ?_), List.map_map]
    · simp only [hz, false_or]
      refine (neverAnother_map (f := fun ab : l.Value × r.Value => (op.functor l r ab.1 ab.2).map Result.value)
        (g := fun ab => op.value ab.1 ab.2)).trans (forall₂_congr fun row hmem => imp_congr_right fun _ => ?_)
      rw [hop, if_neg (hne row hmem)]
      split <;> simp_all
    · intro w hw
      obtain ⟨row, hmem, hrow⟩ := List.mem_map.1 hw
      rw [hop, if_neg (hne row hmem)] at hrow
      split at hrow
      · cases hrow
      · exact (Option.some.inj hrow) ▸ rfl

/-- - and ABS of a block: no error but that of the dispatch table -/
theorem sign_iff (op : Sign) (t : IntType) (rows : List (Row t.Value)) :
    NeverAnother t (unary op.functor t rows) (rows.map fun row => (op.value row.1, row.2)) ↔
      t = .int8 ∨ ∀ row ∈ rows, row.2 = false → row.1.1 ≠ t.min := by
  by_cases ht : t = .int8
  · simp [unary, ht, NeverAnother]
  · rw [unary, if_neg ht, or_iff_right ht]
    refine (neverAnother_map (f := fun a : t.Value => (op.functor t a).map Result.value)
      (g := fun a => op.value a)).trans (forall₂_congr fun row _ => imp_congr_right fun _ => ?_)
    rw [sign_functor_eq op ht row.1.2]
    split <;> simp_all

/-- the instruction gives the exact numbers or an error exactly when it is guarded -/
theorem never_another_number_iff (i : Instruction) (order : List ℕ) (horder : order.Perm (List.range i.rowCount)) :
    NeverAnother i.resultType (i.execute order) i.expected ↔ i.Guarded := by
  cases i with
  | binary op l r rows => exact division_iff op l r rows order horder
  | unary op t rows => exact sign_iff op t rows

/-- -7 % 2 -/
theorem never_another_number_seven :
    NeverAnother .int64 (binary Division.mod.functor .int32 .int64 [((⟨-7, by decide⟩, ⟨2, by decide⟩), false)] [0])
        [(-1, false)] ↔
      (Instruction.binary .mod .int32 .int64 [((⟨-7, by decide⟩, ⟨2, by decide⟩), false)]).Guarded :=
  never_another_number_iff (.binary .mod .int32 .int64 [((⟨-7, by decide⟩, ⟨2, by decide⟩), false)]) [0] (by decide)

/-- the smallest int32_t: divided by -1, modulo -1, negated, and its absolute value -/
theorem smallest_is_another_number :
    ¬NeverAnother .int32 (binary Division.div.functor .int32 .int32
        [((⟨-2147483648, by decide⟩, ⟨-1, by decide⟩), false)] [0]) [(2147483648, false)] ∧
      ¬NeverAnother .int32 (binary Division.mod.functor .int32 .int32
        [((⟨-2147483648, by decide⟩, ⟨-1, by decide⟩), false)] [0]) [(0, false)] ∧
      ¬NeverAnother .int32 (unary Sign.minus.functor .int32 [(⟨-2147483648, by decide⟩, false)]) [(2147483648, false)] ∧
      ¬NeverAnother .int32 (unary Sign.absolute.functor .int32 [(⟨-2147483648, by decide⟩, false)])
        [(2147483648, false)] := by
  have hdiv := fun op => division_iff op .int32 .int32 [((⟨-2147483648, by decide⟩, ⟨-1, by decide⟩), false)] [0]
    (by decide)
  have hsign := fun op => sign_iff op .int32 [(⟨-2147483648, by decide⟩, false)]
  exact ⟨(hdiv .div).not.2 (by decide), (hdiv .mod).not.2 (by decide), (hsign .minus).not.2 (by decide),
    (hsign .absolute).not.2 (by decide)⟩

end QikkDB.IntegerArithmetic

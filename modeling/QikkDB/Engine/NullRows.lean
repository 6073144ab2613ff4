/-
NULL rows in expressions: the error flag of arithmetic, and WHERE in three-valued logic.

The kernels compute every row, also those with a NULL operand, from the placeholders stored there; the null masks are
combined beside the data. A comparison with a NULL operand gives 0 and drops its mask, so that NOT above it gives 1.

Results:
- `stored_inRange`: every value that is stored is within the type of its register.
- `error_flag_iff`: when the error flag is that of the rows without a NULL operand.
- `null_row_fails`: a row whose only operand is NULL makes `a - 1` fail.
- `truth_iff`: Kleene's logic, with UNKNOWN as FALSE or TRUE according to the number of NOTs above it.
- `where_truth_iff`: when the filter byte of a row is the three-valued result.
- `not_null_selected`: `NOT a > 5` selects a row in which a is NULL.
-/
import Mathlib.Tactic
import QikkDB.Engine.Expressions

namespace QikkDB.NullRows

open Reuse Expressions

/-! ## Stored values -/

variable {R : Rows}

theorem inRange_of_bits_le {s t : IntType} (h : s.bits ≤ t.bits) {x : ℤ} (hx : s.InRange x) : t.InRange x := by
  obtain ⟨hlo, hhi⟩ := hx
  have hmax : s.max ≤ t.max := by
    cases s <;> cases t <;> first | decide | exact absurd h (by decide)
  have hs := s.min_eq
  have ht := t.min_eq
  constructor <;> omega

theorem left_bits_le (l r : IntType) : l.bits ≤ (resultType l r).bits := by
  unfold resultType
  split
  · exact le_rfl
  · omega

theorem toInt8_inRange (b : Bool) : IntType.int8.InRange (toInt8 b) := by
  cases b <;> decide

theorem stored_inRange (e : Expr) {i : ℕ} (hi : i < R.size) : (typeOf R e).InRange (stored R i e) := by
  induction e with
  | leaf l =>
    cases l with
    | column t c =>
      have hlt : i < (R.column t c).data.length := by
        rw [R.length]
        exact hi
      have hmem : stored R i (.leaf (.column t c)) ∈ (R.column t c).data := by
        simp only [stored, Rows.load, Argument.deref_column, List.getD_eq_getElem?_getD,
          List.getElem?_eq_getElem hlt, Option.getD_some]
        exact List.getElem_mem hlt
      exact R.inRange t c _ hmem
    | const t v hv => exact hv
  | unary u t ih =>
    cases u
    exact toInt8_inRange _
  | binary op l r ihl ihr =>
    cases op with
    | filter op => exact toInt8_inRange _
    | arithmetic op =>
      simp only [stored, typeOf]
      cases hx : arithmetic op (resultType (typeOf R l) (typeOf R r)) (stored R i l) (stored R i r) with
      | none =>
        have hmin := (resultType (typeOf R l) (typeOf R r)).min_eq
        have hmax := (resultType (typeOf R l) (typeOf R r)).max_pos
        simp only [Option.getD_none, getNullConstant, IntType.InRange]
        omega
      | some x => exact arithmetic_inRange (inRange_of_bits_le (left_bits_le _ _) ihl) hx

/-! ## Operations of a tree -/

/-- some arithmetic operation of a tree has property P on row i: of the operation, its type, the stored operands and
whether one of them is NULL -/
def anyOperation (R : Rows) (i : ℕ) (P : ArithmeticOp → IntType → ℤ → ℤ → Bool → Prop) : Expr → Prop
  | .leaf _ => False
  | .unary _ t => anyOperation R i P t
  | .binary (.arithmetic op) l r => anyOperation R i P l ∨ anyOperation R i P r ∨
      P op (resultType (typeOf R l) (typeOf R r)) (stored R i l) (stored R i r) (nullAt R i l || nullAt R i r)
  | .binary (.filter _) l r => anyOperation R i P l ∨ anyOperation R i P r

theorem anyOperation_congr {P Q : ArithmeticOp → IntType → ℤ → ℤ → Bool → Prop}
    (h : ∀ op out a b null, IntType.InRange out a → (P op out a b null ↔ Q op out a b null)) (e : Expr) {i : ℕ}
    (hi : i < R.size) : anyOperation R i P e ↔ anyOperation R i Q e := by
  induction e with
  | leaf l => exact Iff.rfl
  | unary u t ih => exact ih
  | binary op l r ihl ihr =>
    cases op with
    | filter op => exact or_congr ihl ihr
    | arithmetic op =>
      have hleft := inRange_of_bits_le (left_bits_le (typeOf R l) (typeOf R r)) (stored_inRange l hi)
      exact or_congr ihl (or_congr ihr (h _ _ _ _ _ hleft))

theorem anyOperation_or {P Q : ArithmeticOp → IntType → ℤ → ℤ → Bool → Prop} (e : Expr) (i : ℕ) :
    anyOperation R i (fun op out a b null => P op out a b null ∨ Q op out a b null) e ↔
      anyOperation R i P e ∨ anyOperation R i Q e := by
  induction e with
  | leaf l => simp [anyOperation]
  | unary u t ih => exact ih
  | binary op l r ihl ihr =>
    cases op with
    | filter op =>
      simp only [anyOperation, ihl, ihr]
      tauto
    | arithmetic op =>
      simp only [anyOperation, ihl, ihr]
      tauto

theorem flagged_iff (e : Expr) (i : ℕ) :
    flagged R i e ↔ anyOperation R i (fun op out a b _ => arithmetic op out a b = none) e := by
  induction e with
  | leaf l => exact Iff.rfl
  | unary u t ih => exact ih
  | binary op l r ihl ihr =>
    cases op with
    | filter op => exact or_congr ihl ihr
    | arithmetic op => exact or_congr ihl (or_congr ihr Iff.rfl)

/-! ## The error flag -/

/-- some operation whose operands are not NULL divides by zero or leaves its type on row i -/
def Breaks (R : Rows) (i : ℕ) (e : Expr) : Prop :=
  anyOperation R i (fun op out a b null => null = false ∧ Fails op out a b) e

/-- some operation whose operands are not NULL is found to divide by zero or to leave its type -/
def Found (R : Rows) (i : ℕ) (e : Expr) : Prop :=
  anyOperation R i (fun op out a b null => null = false ∧ arithmetic op out a b = none) e

/-- some operation with a NULL operand fails on the placeholders -/
def PlaceholderFails (R : Rows) (i : ℕ) (e : Expr) : Prop :=
  anyOperation R i (fun op out a b null => null = true ∧ arithmetic op out a b = none) e

/-- some operation divides the smallest value of its type, not NULL, by -1 -/
def MinByMinusOne (R : Rows) (i : ℕ) (e : Expr) : Prop :=
  anyOperation R i (fun op out a b null => null = false ∧ op = .div ∧ a = out.min ∧ b = -1) e

theorem flagged_split (e : Expr) (i : ℕ) : flagged R i e ↔ Found R i e ∨ PlaceholderFails R i e := by
  rw [flagged_iff, Found, PlaceholderFails, ← anyOperation_or]
  have hsplit : (fun (op : ArithmeticOp) (out : IntType) (a b : ℤ) (_ : Bool) => arithmetic op out a b = none) =
      fun op out a b null =>
        (null = false ∧ arithmetic op out a b = none) ∨ (null = true ∧ arithmetic op out a b = none) := by
    funext op out a b null
    cases null <;> simp
  rw [hsplit]

theorem breaks_split (e : Expr) {i : ℕ} (hi : i < R.size) : Breaks R i e ↔ Found R i e ∨ MinByMinusOne R i e := by
  rw [Breaks, Found, MinByMinusOne, ← anyOperation_or]
  refine anyOperation_congr ?_ e hi
  intro op out a b null ha
  rw [fails_iff ha, and_or_left]

theorem value_error_iff (names : String → String → String) {e : Expr} (hid : Identified (machine R names) e.nodes) :
    value (machine R names) e = .error () ↔ ∃ i < R.size, flagged R i e := by
  rw [value_eq_eval hid]
  obtain ⟨herr, hok⟩ := eval_spec names (R := R) e
  constructor
  · intro h
    by_contra hno
    obtain ⟨a, ha, -⟩ := hok fun i hi hf => hno ⟨i, hi, hf⟩
    rw [h] at ha
    cases ha
  · exact herr

/-- NULL rows and the error flag: the flag is that of the rows without NULL operands when one of these is found to
fail, or when a failing placeholder and a smallest value divided by -1 occur both or not at all -/
theorem error_flag_iff (R : Rows) (names : String → String → String) (e : Expr)
    (hid : Identified (machine R names) e.nodes) :
    ((value (machine R names) e = .error () ↔ ∃ i < R.size, Breaks R i e) ↔
      (∃ i < R.size, Found R i e) ∨ ((∃ i < R.size, PlaceholderFails R i e) ↔ ∃ i < R.size, MinByMinusOne R i e)) ∧
    ∀ a, value (machine R names) e = .ok a → ∀ i < R.size, bit a.nullMask i = nullAt R i e := by
  constructor
  · have hcode : (value (machine R names) e = .error ()) ↔
        (∃ i < R.size, Found R i e) ∨ ∃ i < R.size, PlaceholderFails R i e := by
      rw [value_error_iff names hid]
      simp only [flagged_split, and_or_left, exists_or]
    have hspec : (∃ i < R.size, Breaks R i e) ↔ (∃ i < R.size, Found R i e) ∨ ∃ i < R.size, MinByMinusOne R i e := by
      constructor
      · rintro ⟨i, hi, h⟩
        rcases (breaks_split e hi).1 h with h | h
        · exact Or.inl ⟨i, hi, h⟩
        · exact Or.inr ⟨i, hi, h⟩
      · rintro (⟨i, hi, h⟩ | ⟨i, hi, h⟩)
        · exact ⟨i, hi, (breaks_split e hi).2 (Or.inl h)⟩
        · exact ⟨i, hi, (breaks_split e hi).2 (Or.inr h)⟩
    rw [hcode, hspec]
    by_cases hfound : ∃ i < R.size, Found R i e
    · simp only [hfound, true_or]
    · simp only [hfound, false_or]
  · intro a ha i hi
    rw [value_eq_eval hid] at ha
    obtain ⟨herr, hok⟩ := eval_spec names (R := R) e
    by_cases hf : ∃ i < R.size, flagged R i e
    · rw [herr hf] at ha
      cases ha
    · obtain ⟨b, hb, hagrees⟩ := hok fun i hi hfl => hf ⟨i, hi, hfl⟩
      obtain rfl : b = a := Except.ok.inj (hb.symm.trans ha)
      exact hagrees.null i hi

/-- a nullable int32 column a, NULL in its only row, where INSERT stored the null constant -/
def nullRow : Rows where
  size := 1
  column _ _ := ⟨.int32, [getNullConstant .int32], some [true]⟩
  length _ _ := rfl
  maskLength _ _ bits h := by
    obtain rfl := Option.some.inj h
    rfl
  inRange _ _ := by decide

/-- a - 1 -/
def aMinusOne : Expr := .binary (.arithmetic .sub) (.leaf (.column "T" "a")) (.leaf (.const .int32 1 (by decide)))

/-- the query fails, although no operation has operands that are not NULL -/
theorem null_row_fails :
    ¬ (value (machine nullRow fun _ c => c) aMinusOne = .error () ↔
      ∃ i < nullRow.size, Breaks nullRow i aMinusOne) := by
  have hcode : value (machine nullRow fun _ c => c) aMinusOne = .error () := rfl
  intro h
  obtain ⟨i, hi, hbreaks⟩ := h.1 hcode
  obtain rfl : i = 0 := Nat.lt_one_iff.1 hi
  rcases hbreaks with h | h | ⟨hnull, -⟩
  · exact h
  · exact h
  · exact absurd hnull (by decide)

/-- the theorem on a block without NULL: a = 5 and a - 1 -/
def fiveRow : Rows where
  size := 1
  column _ _ := ⟨.int32, [5], some [false]⟩
  length _ _ := rfl
  maskLength _ _ bits h := by
    obtain rfl := Option.some.inj h
    rfl
  inRange _ _ := by decide

theorem aMinusOne_identified (R : Rows) : Identified (machine R fun _ c => c) aMinusOne.nodes := by
  intro s hs t ht _
  rw [List.mem_singleton.1 hs, List.mem_singleton.1 ht]

theorem error_flag_five :
    ((value (machine fiveRow fun _ c => c) aMinusOne = .error () ↔ ∃ i < fiveRow.size, Breaks fiveRow i aMinusOne) ↔
      (∃ i < fiveRow.size, Found fiveRow i aMinusOne) ∨
        ((∃ i < fiveRow.size, PlaceholderFails fiveRow i aMinusOne) ↔
          ∃ i < fiveRow.size, MinByMinusOne fiveRow i aMinusOne)) ∧
    ∀ a, value (machine fiveRow fun _ c => c) aMinusOne = .ok a →
      ∀ i < fiveRow.size, bit a.nullMask i = nullAt fiveRow i aMinusOne :=
  error_flag_iff fiveRow (fun _ c => c) aMinusOne (aMinusOne_identified fiveRow)

/-! ## WHERE conditions -/

inductive Comparison where
  | greater
  | less
  | greaterEqual
  | lessEqual
  | equal
  | notEqual
deriving DecidableEq, Repr

def Comparison.op : Comparison → FilterOp
  | .greater => .greater
  | .less => .less
  | .greaterEqual => .greaterEqual
  | .lessEqual => .lessEqual
  | .equal => .equal
  | .notEqual => .notEqual

/-- comparisons of columns and constants under AND, OR and NOT -/
inductive Condition where
  | compare (op : Comparison) (l r : Operand)
  | and (l r : Condition)
  | or (l r : Condition)
  | not (c : Condition)
deriving DecidableEq

def Condition.expr : Condition → Expr
  | .compare op l r => .binary (.filter op.op) (.leaf l) (.leaf r)
  | .and l r => .binary (.filter .logicalAnd) l.expr r.expr
  | .or l r => .binary (.filter .logicalOr) l.expr r.expr
  | .not c => .unary .logicalNot c.expr

/-- three-valued results, none for UNKNOWN -/
abbrev Truth := Option Bool

def Truth.and : Truth → Truth → Truth
  | some false, _ => some false
  | _, some false => some false
  | some true, some true => some true
  | _, _ => none

def Truth.or : Truth → Truth → Truth
  | some true, _ => some true
  | _, some true => some true
  | some false, some false => some false
  | _, _ => none

def Truth.not : Truth → Truth
  | some b => some (!b)
  | none => none

def operandNull (R : Rows) (i : ℕ) (l r : Operand) : Bool := nullAt R i (.leaf l) || nullAt R i (.leaf r)

/-- the comparison of the stored operands -/
def compared (R : Rows) (i : ℕ) (op : Comparison) (l r : Operand) : Bool :=
  filter op.op (stored R i (.leaf l)) (stored R i (.leaf r))

/-- a condition in three-valued logic -/
def truth (R : Rows) (i : ℕ) : Condition → Truth
  | .compare op l r => if operandNull R i l r then none else some (compared R i op l r)
  | .and l r => (truth R i l).and (truth R i r)
  | .or l r => (truth R i l).or (truth R i r)
  | .not c => (truth R i c).not

/-- a condition in two-valued logic, where a comparison with a NULL operand is given a value according to whether an odd
number of NOTs stands above it -/
def classical (R : Rows) (i : ℕ) (unknown : Bool → Bool) : Bool → Condition → Bool
  | odd, .compare op l r => if operandNull R i l r then unknown odd else compared R i op l r
  | odd, .and l r => classical R i unknown odd l && classical R i unknown odd r
  | odd, .or l r => classical R i unknown odd l || classical R i unknown odd r
  | odd, .not c => !(classical R i unknown (!odd) c)

theorem Truth.and_iff (a b : Truth) : (a.and b = some true ↔ a = some true ∧ b = some true) ∧
    (a.and b ≠ some false ↔ a ≠ some false ∧ b ≠ some false) := by
  rcases a with _ | _ | _ <;> rcases b with _ | _ | _ <;> decide

theorem Truth.or_iff (a b : Truth) : (a.or b = some true ↔ a = some true ∨ b = some true) ∧
    (a.or b ≠ some false ↔ a ≠ some false ∨ b ≠ some false) := by
  rcases a with _ | _ | _ <;> rcases b with _ | _ | _ <;> decide

theorem Truth.not_iff (a : Truth) :
    (a.not = some true ↔ ¬ a ≠ some false) ∧ (a.not ≠ some false ↔ ¬ a = some true) := by
  rcases a with _ | _ | _ <;> decide

/-- Kleene's logic: UNKNOWN counts as FALSE under an even number of NOTs and as TRUE under an odd one -/
theorem truth_iff (i : ℕ) (c : Condition) :
    (classical R i id false c = true ↔ truth R i c = some true) ∧
      (classical R i id true c = true ↔ truth R i c ≠ some false) := by
  induction c with
  | compare op l r =>
    simp only [classical, truth]
    by_cases hnull : operandNull R i l r = true
    · simp [hnull]
    · simp [hnull]
  | and l r ihl ihr =>
    simp only [classical, truth, Bool.and_eq_true, ihl.1, ihl.2, ihr.1, ihr.2, (Truth.and_iff _ _).1,
      (Truth.and_iff _ _).2, and_self]
  | or l r ihl ihr =>
    simp only [classical, truth, Bool.or_eq_true, ihl.1, ihl.2, ihr.1, ihr.2, (Truth.or_iff _ _).1,
      (Truth.or_iff _ _).2, and_self]
  | not c ih =>
    simp only [classical, truth, Bool.not_false, Bool.not_true, Bool.not_eq_true', ← Bool.not_eq_true, ih.1, ih.2,
      (Truth.not_iff _).1, (Truth.not_iff _).2, and_self]

theorem nullAt_condition (i : ℕ) (c : Condition) : nullAt R i c.expr = false := by
  cases c <;> rfl

/-- the code: UNKNOWN counts as FALSE everywhere -/
theorem stored_condition (i : ℕ) (c : Condition) (odd : Bool) :
    stored R i c.expr = toInt8 (classical R i (fun _ => false) odd c) := by
  induction c generalizing odd with
  | compare op l r =>
    simp only [Condition.expr, stored, classical, operandNull, compared]
    by_cases hnull : (nullAt R i (.leaf l) || nullAt R i (.leaf r)) = true
    · simp [hnull]
    · rw [Bool.not_eq_true] at hnull
      simp [hnull]
  | and l r ihl ihr =>
    simp only [Condition.expr, stored, nullAt_condition, ihl odd, ihr odd, classical, filter]
    cases classical R i (fun _ => false) odd l <;> cases classical R i (fun _ => false) odd r <;> rfl
  | or l r ihl ihr =>
    simp only [Condition.expr, stored, nullAt_condition, ihl odd, ihr odd, classical, filter]
    cases classical R i (fun _ => false) odd l <;> cases classical R i (fun _ => false) odd r <;> rfl
  | not c ih =>
    simp only [Condition.expr, stored, nullAt_condition, ih (!odd), classical]
    cases classical R i (fun _ => false) (!odd) c <;> rfl

theorem not_flagged (i : ℕ) (c : Condition) : ¬ flagged R i c.expr := by
  induction c with
  | compare op l r => simp [Condition.expr, flagged]
  | and l r ihl ihr => simp [Condition.expr, flagged, ihl, ihr]
  | or l r ihl ihr => simp [Condition.expr, flagged, ihl, ihr]
  | not c ih => simpa [Condition.expr, flagged] using ih

/-- the filter byte of a row is the three-valued result exactly when it makes no difference whether the comparisons with
a NULL operand under an odd number of NOTs are FALSE or TRUE -/
theorem where_truth_iff (R : Rows) (names : String → String → String) (c : Condition)
    (hid : Identified (machine R names) c.expr.nodes) {i : ℕ} (hi : i < R.size) :
    ∃ a, value (machine R names) c.expr = .ok a ∧
      (a.deref i = (if truth R i c = some true then 1 else 0) ↔
        classical R i (fun _ => false) false c = classical R i id false c) := by
  obtain ⟨a, ha, hagrees⟩ := (eval_spec names (R := R) c.expr).2 fun i _ => not_flagged i c
  refine ⟨a, by rw [value_eq_eval hid, ha], ?_⟩
  have htruth := (truth_iff (R := R) i c).1
  rw [hagrees.value i hi, stored_condition i c false]
  by_cases htrue : truth R i c = some true
  · rw [if_pos htrue, htruth.2 htrue]
    cases classical R i (fun _ => false) false c <;> decide
  · have hfalse : classical R i id false c = false := by
      rw [← Bool.not_eq_true, htruth]
      exact htrue
    rw [if_neg htrue, hfalse]
    cases classical R i (fun _ => false) false c <;> decide

/-- NOT a > 5 -/
def notGreaterFive : Condition := .not (.compare .greater (.column "T" "a") (.const .int32 5 (by decide)))

/-- the comparison and the negation have different registers -/
theorem notGreaterFive_identified (R : Rows) : Identified (machine R fun _ c => c) notGreaterFive.expr.nodes := by
  have hall : ∀ s ∈ notGreaterFive.expr.nodes, ∀ t ∈ notGreaterFive.expr.nodes,
      register (fun _ c => c) s = register (fun _ c => c) t → s = t := by decide
  exact hall

/-- a row in which a is NULL is selected, although the condition is UNKNOWN -/
theorem not_null_selected :
    ∃ a, value (machine nullRow fun _ c => c) notGreaterFive.expr = .ok a ∧
      a.deref 0 ≠ (if truth nullRow 0 notGreaterFive = some true then 1 else 0) :=
  ⟨.column ⟨.int8, [1], none⟩, rfl, by decide⟩

theorem where_truth_five :
    ∃ a, value (machine fiveRow fun _ c => c) notGreaterFive.expr = .ok a ∧
      (a.deref 0 = (if truth fiveRow 0 notGreaterFive = some true then 1 else 0) ↔
        classical fiveRow 0 (fun _ => false) false notGreaterFive = classical fiveRow 0 id false notGreaterFive) :=
  where_truth_iff fiveRow (fun _ c => c) notGreaterFive (notGreaterFive_identified fiveRow) (by decide)

end QikkDB.NullRows

/-
Expressions over the int columns of a block (GpuSqlParser/Dispatcher/GpuSqlDispatcherBinaryFunctions.h,
GpuSqlDispatcherUnaryFunctions.h, QueryEngine/GPUCore/GPUBinary.cuh, GPUFilter.cuh, GPULogic.cuh; register names from
GpuSqlListener.cpp, `exitBinaryOperation`, `exitUnaryOperation`, `TrimReg`).

Each inner node is an instruction that fills the register of its name, row by row, and combines the null masks of its
operands; a comparison, AND, OR and NOT drop the mask of their result again. A register that is allocated already is
not computed again. Registers are not freed (the register memory is not exceeded).

Results:
- `arithmetic_none`: the rows for which + - * / % set the error flag.
- `eval_ok`, `eval_error`: an expression evaluates to the row-wise values of its tree, or sets the error flag.
-/
import Mathlib.Tactic
import QikkDB.Lib.Reuse

namespace QikkDB.Expressions

open Reuse

/-! ## Model -/

/-- the integral types of registers and constants -/
inductive IntType where
  | int8
  | int32
  | int64
deriving DecidableEq, Repr

/-- sizeof, in bits -/
def IntType.bits : IntType → ℕ
  | .int8 => 8
  | .int32 => 32
  | .int64 => 64

/-- std::numeric_limits -/
def IntType.min (t : IntType) : ℤ := -2 ^ (t.bits - 1)

def IntType.max (t : IntType) : ℤ := 2 ^ (t.bits - 1) - 1

def IntType.InRange (t : IntType) (x : ℤ) : Prop := t.min ≤ x ∧ x ≤ t.max

instance (t : IntType) (x : ℤ) : Decidable (t.InRange x) := inferInstanceAs (Decidable (t.min ≤ x ∧ x ≤ t.max))

/-- GetNullConstant -/
def getNullConstant (t : IntType) : ℤ := t.min

/-- conversion of an out-of-range value, as the target does it -/
def IntType.wrap (t : IntType) (x : ℤ) : ℤ := (x - t.min) % 2 ^ t.bits + t.min

/-- a register or a loaded column: its rows and, if it has one, its null mask -/
structure Register where
  type : IntType
  data : List ℤ
  nullMask : Option (List Bool)
deriving DecidableEq, Repr

/-- `InstructionArgument`: a pointer to a column or a constant -/
inductive Argument where
  | column (r : Register)
  | const (type : IntType) (value : ℤ)
deriving DecidableEq, Repr

def Argument.type : Argument → IntType
  | .column r => r.type
  | .const t _ => t

/-- `maybe_deref` -/
def Argument.deref (a : Argument) (i : ℕ) : ℤ :=
  match a with
  | .column r => r.data.getD i 0
  | .const _ v => v

theorem Argument.deref_column (r : Register) (i : ℕ) : (Argument.column r).deref i = r.data.getD i 0 := rfl

theorem Argument.type_column (r : Register) : (Argument.column r).type = r.type := rfl

inductive ArithmeticOp where
  | add
  | sub
  | mul
  | div
  | mod
deriving DecidableEq, Repr

inductive FilterOp where
  | greater
  | less
  | greaterEqual
  | lessEqual
  | equal
  | notEqual
  | logicalAnd
  | logicalOr
deriving DecidableEq, Repr

inductive BinaryOp where
  | arithmetic (op : ArithmeticOp)
  | filter (op : FilterOp)
deriving DecidableEq, Repr

inductive UnaryOp where
  | logicalNot
deriving DecidableEq, Repr

/-- the functor of an arithmetic operation on one row; none when it sets the error flag -/
def arithmetic (op : ArithmeticOp) (out : IntType) (a b : ℤ) : Option ℤ :=
  match op with
  | .add => if (0 < b ∧ out.max - b < a) ∨ (b < 0 ∧ a < out.min - b) then none else some (a + b)
  | .sub => if (0 < b ∧ a < out.min + b) ∨ (b < 0 ∧ out.max + b < a) then none else some (a - b)
  | .mul =>
    if 0 < a then
      if 0 < b then if out.max.tdiv b < a then none else some (a * b)
      else if b < out.min.tdiv a then none else some (a * b)
    else
      if 0 < b then if a < out.min.tdiv b then none else some (a * b)
      else if a ≠ 0 ∧ b < out.max.tdiv a then none else some (a * b)
  | .div => if b = 0 then none else some (out.wrap (a.tdiv b))
  | .mod => if b = 0 then none else some (a.tmod b)

/-- the functor of a filter operation on one row -/
def filter (op : FilterOp) (a b : ℤ) : Bool :=
  match op with
  | .greater => decide (b < a)
  | .less => decide (a < b)
  | .greaterEqual => decide (b ≤ a)
  | .lessEqual => decide (a ≤ b)
  | .equal => decide (a = b)
  | .notEqual => decide (a ≠ b)
  | .logicalAnd => decide (a ≠ 0) && decide (b ≠ 0)
  | .logicalOr => decide (a ≠ 0) || decide (b ≠ 0)

/-- the larger of the operand types, the left one of equal ones -/
def resultType (l r : IntType) : IntType := if r.bits ≤ l.bits then l else r

/-- bit i of a mask, 0 without one -/
def bit (mask : Option (List Bool)) (i : ℕ) : Bool :=
  match mask with
  | none => false
  | some bits => bits.getD i false

/-- the mask of a result of two columns -/
def combineMasks (retSize : ℕ) (l r : Option (List Bool)) : Option (List Bool) :=
  match l, r with
  | some a, some b => some ((List.zipWith (fun x y => x || y) a b).take retSize)
  | some a, none => some (a.take retSize)
  | none, some b => some (b.take retSize)
  | none, none => none

/-- element count of the result of one argument; `blockSize` is that of the block, for a constant -/
def Argument.size (blockSize : ℕ) : Argument → ℕ
  | .column r => r.data.length
  | .const _ _ => blockSize

/-- element count of the result of two arguments -/
def retSize (blockSize : ℕ) : Argument → Argument → ℕ
  | .column l, .column r => Nat.min l.data.length r.data.length
  | .column l, .const _ _ => l.data.length
  | .const _ _, .column r => r.data.length
  | .const _ _, .const _ _ => blockSize

/-- the mask of an argument -/
def Argument.nullMask : Argument → Option (List Bool)
  | .column r => r.nullMask
  | .const _ _ => none

theorem Argument.nullMask_column (r : Register) : (Argument.column r).nullMask = r.nullMask := rfl

def toInt8 (b : Bool) : ℤ := if b then 1 else 0

/-- `Binary`; the error is that of a row that set the error flag -/
def binary (blockSize : ℕ) (op : BinaryOp) (left right : Argument) : Except Unit Argument :=
  let size := retSize blockSize left right
  let mask := combineMasks size left.nullMask right.nullMask
  match op with
  | .arithmetic op =>
    let out := resultType left.type right.type
    match (List.range size).mapM fun i => arithmetic op out (left.deref i) (right.deref i) with
    | none => .error ()
    | some data => .ok (.column ⟨out, data, mask⟩)
  | .filter op =>
    let data := (List.range size).map fun i => toInt8 (filter op (left.deref i) (right.deref i) && !(bit mask i))
    -- FreeRegisterNullMask
    .ok (.column ⟨.int8, data, none⟩)

/-- `Unary` -/
def unary (blockSize : ℕ) (op : UnaryOp) (left : Argument) : Except Unit Argument :=
  match op with
  | .logicalNot =>
    let data := (List.range (left.size blockSize)).map fun i =>
      toInt8 (decide (left.deref i = 0) && !(bit left.nullMask i))
    .ok (.column ⟨.int8, data, none⟩)

/-- an operand of an expression: a column or an integer literal of a type that holds it -/
inductive Operand where
  | column (table column : String)
  | const (type : IntType) (value : ℤ) (fits : type.InRange value)
deriving DecidableEq

abbrev Expr := Tree Operand UnaryOp BinaryOp

def BinaryOp.text : BinaryOp → String
  | .arithmetic .add => "+"
  | .arithmetic .sub => "-"
  | .arithmetic .mul => "*"
  | .arithmetic .div => "/"
  | .arithmetic .mod => "%"
  | .filter .greater => ">"
  | .filter .less => "<"
  | .filter .greaterEqual => ">="
  | .filter .lessEqual => "<="
  | .filter .equal => "="
  | .filter .notEqual => "!="
  | .filter .logicalAnd => "AND"
  | .filter .logicalOr => "OR"

def UnaryOp.text : UnaryOp → String
  | .logicalNot => "!"

/-- what `TrimReg` makes of the name of a node; shortColumnNames_ tells how a column was written -/
def trimmed (shortColumnNames : String → String → String) : Expr → String
  | .leaf (.column table column) => shortColumnNames table column
  | .leaf (.const _ value _) => toString value
  | .unary op t => op.text ++ trimmed shortColumnNames t
  | .binary op l r => trimmed shortColumnNames l ++ op.text ++ trimmed shortColumnNames r

/-- register of a node -/
def register (shortColumnNames : String → String → String) (e : Expr) : String := "$" ++ trimmed shortColumnNames e

/-- a block of rows: the columns of the tables, all with as many rows, each value within its type -/
structure Rows where
  size : ℕ
  column : String → String → Register
  length : ∀ t c, (column t c).data.length = size
  maskLength : ∀ t c bits, (column t c).nullMask = some bits → bits.length = size
  inRange : ∀ t c, ∀ x ∈ (column t c).data, (column t c).type.InRange x

def Rows.load (R : Rows) : Operand → Argument
  | .column t c => .column (R.column t c)
  | .const t v _ => .const t v

/-- the dispatcher on a block -/
def machine (R : Rows) (shortColumnNames : String → String → String) :
    Machine Operand UnaryOp BinaryOp String Argument Unit where
  name := register shortColumnNames
  leaf := R.load
  unary := unary R.size
  binary := binary R.size

/-! ## Values of a row -/

/-- the type of the register of a node -/
def typeOf (R : Rows) : Expr → IntType
  | .leaf l => (R.load l).type
  | .unary .logicalNot _ => .int8
  | .binary (.arithmetic _) l r => resultType (typeOf R l) (typeOf R r)
  | .binary (.filter _) _ _ => .int8

/-- whether the register of a node has a mask with the bit of row i set -/
def nullAt (R : Rows) (i : ℕ) : Expr → Bool
  | .leaf l => bit (R.load l).nullMask i
  | .unary .logicalNot _ => false
  | .binary (.arithmetic _) l r => nullAt R i l || nullAt R i r
  | .binary (.filter _) _ _ => false

/-- the value stored for row i, the null constant where an operation sets the error flag -/
def stored (R : Rows) (i : ℕ) : Expr → ℤ
  | .leaf l => (R.load l).deref i
  | .unary .logicalNot t => toInt8 (decide (stored R i t = 0) && !(nullAt R i t))
  | .binary (.arithmetic op) l r =>
    (arithmetic op (resultType (typeOf R l) (typeOf R r)) (stored R i l) (stored R i r)).getD
      (getNullConstant (resultType (typeOf R l) (typeOf R r)))
  | .binary (.filter op) l r => toInt8 (filter op (stored R i l) (stored R i r) && !(nullAt R i l || nullAt R i r))

/-- some operation sets the error flag on row i -/
def flagged (R : Rows) (i : ℕ) : Expr → Prop
  | .leaf _ => False
  | .unary _ t => flagged R i t
  | .binary (.arithmetic op) l r => flagged R i l ∨ flagged R i r ∨
      arithmetic op (resultType (typeOf R l) (typeOf R r)) (stored R i l) (stored R i r) = none
  | .binary (.filter _) l r => flagged R i l ∨ flagged R i r

/-! ## Rows of an instruction -/

theorem mapM_eq_none {f : ℕ → Option ℤ} {l : List ℕ} : l.mapM f = none ↔ ∃ i ∈ l, f i = none := by
  induction l with
  | nil => simp
  | cons i l ih =>
    rw [List.mapM_cons]
    cases hi : f i with
    | none => simp [hi]
    | some x =>
      cases hl : l.mapM f with
      | none =>
        obtain ⟨j, hj, hnone⟩ := ih.1 hl
        simp only [Option.bind_eq_bind, Option.bind_some, Option.bind_none, List.mem_cons, true_iff]
        exact ⟨j, Or.inr hj, hnone⟩
      | some xs =>
        simp only [Option.bind_eq_bind, Option.bind_some, Option.pure_def, reduceCtorEq, List.mem_cons, false_iff]
        rintro ⟨j, rfl | hj, hnone⟩
        · rw [hi] at hnone
          cases hnone
        · have hmap := ih.2 ⟨j, hj, hnone⟩
          rw [hl] at hmap
          cases hmap

theorem mapM_eq_some {f : ℕ → Option ℤ} {l : List ℕ} {xs : List ℤ} (h : l.mapM f = some xs) :
    xs = l.map fun i => (f i).getD 0 := by
  induction l generalizing xs with
  | nil => simpa using h.symm
  | cons i l ih =>
    rw [List.mapM_cons] at h
    obtain ⟨x, hx, h⟩ := Option.bind_eq_some_iff.1 h
    obtain ⟨ys, hys, h⟩ := Option.bind_eq_some_iff.1 h
    obtain rfl := Option.some.inj h
    rw [List.map_cons, hx, ih hys, Option.getD_some]

theorem getD_map_range {n i : ℕ} (hi : i < n) (f : ℕ → ℤ) : ((List.range n).map f).getD i 0 = f i := by
  simp [List.getD_eq_getElem?_getD, List.getElem?_range hi]

theorem bit_combineMasks {n i : ℕ} (hi : i < n) {l r : Option (List Bool)}
    (hl : ∀ bits, l = some bits → bits.length = n) (hr : ∀ bits, r = some bits → bits.length = n) : bit (combineMasks n l r) i = (bit l i || bit r i) := by
  cases l with
  | none =>
    cases r with
    | none => rfl
    | some b => simp [combineMasks, bit, List.getD_eq_getElem?_getD, hi]
  | some a =>
    cases r with
    | none => simp [combineMasks, bit, List.getD_eq_getElem?_getD, hi]
    | some b =>
      have ha := hl a rfl
      have hb := hr b rfl
      have hia : i < a.length := by omega
      have hib : i < b.length := by omega
      simp [combineMasks, bit, List.getD_eq_getElem?_getD, hi, List.getElem?_eq_getElem hia,
        List.getElem?_eq_getElem hib, List.getElem?_zipWith]

theorem length_combineMasks {n : ℕ} {l r : Option (List Bool)} (hl : ∀ bits, l = some bits → bits.length = n)
    (hr : ∀ bits, r = some bits → bits.length = n) {bits : List Bool} (h : combineMasks n l r = some bits) :
    bits.length = n := by
  cases l with
  | none =>
    cases r with
    | none => cases h
    | some b =>
      obtain rfl := Option.some.inj h
      simp [hr b rfl]
  | some a =>
    cases r with
    | none =>
      obtain rfl := Option.some.inj h
      simp [hl a rfl]
    | some b =>
      obtain rfl := Option.some.inj h
      simp [hl a rfl, hr b rfl]

/-! ## The error flag of one operation -/

/-- the result of an operation in the integers, truncating division -/
def exactResult (op : ArithmeticOp) (a b : ℤ) : ℤ :=
  match op with
  | .add => a + b
  | .sub => a - b
  | .mul => a * b
  | .div => a.tdiv b
  | .mod => a.tmod b

def ArithmeticOp.divides : ArithmeticOp → Bool
  | .div => true
  | .mod => true
  | _ => false

/-- the operation divides by zero or its result is outside of the type -/
def Fails (op : ArithmeticOp) (out : IntType) (a b : ℤ) : Prop :=
  (op.divides = true ∧ b = 0) ∨ ¬ out.InRange (exactResult op a b)

theorem IntType.min_eq (t : IntType) : t.min = -t.max - 1 := by
  simp only [IntType.min, IntType.max]
  ring

theorem IntType.max_pos (t : IntType) : 0 < t.max := by
  cases t <;> decide

theorem IntType.inRange_zero (t : IntType) : t.InRange 0 := by
  have hmin := t.min_eq
  have hmax := t.max_pos
  constructor <;> omega

/-- a product of two positive factors is checked by dividing the bound -/
theorem tdiv_lt_iff {m a b : ℤ} (hm : 0 ≤ m) (hb : 0 < b) : m.tdiv b < a ↔ m < a * b := by
  rw [Int.tdiv_eq_ediv_of_nonneg hm]
  exact Int.ediv_lt_iff_lt_mul hb

theorem lt_neg_tdiv_iff {m a b : ℤ} (hm : 0 ≤ m) (ha : 0 < a) : b < (-m).tdiv a ↔ a * b < -m := by
  rw [Int.neg_tdiv]
  have hdiv := tdiv_lt_iff (a := -b) hm ha
  have hmul : -b * a = -(a * b) := by ring
  rw [hmul] at hdiv
  omega

theorem mul_none {out : IntType} (a b : ℤ) : arithmetic .mul out a b = none ↔ ¬ out.InRange (a * b) := by
  have hmin := out.min_eq
  have hmax := out.max_pos
  have hneg : out.min = -(out.max + 1) := by omega
  simp only [arithmetic, IntType.InRange]
  split_ifs with ha hb hlt hlt hb hlt hlt
  · rw [tdiv_lt_iff hmax.le hb] at hlt
    simp only [true_iff]
    omega
  · rw [tdiv_lt_iff hmax.le hb] at hlt
    have hpos : 0 < a * b := Int.mul_pos ha hb
    simp only [false_iff, not_not]
    omega
  · rw [hneg, lt_neg_tdiv_iff (by omega) ha] at hlt
    simp only [true_iff]
    omega
  · rw [hneg, lt_neg_tdiv_iff (by omega) ha] at hlt
    have hnonpos : a * b ≤ 0 := Int.mul_nonpos_of_nonneg_of_nonpos ha.le (by omega)
    simp only [false_iff, not_not]
    omega
  · rw [hneg, lt_neg_tdiv_iff (by omega) hb, Int.mul_comm] at hlt
    simp only [true_iff]
    omega
  · rw [hneg, lt_neg_tdiv_iff (by omega) hb, Int.mul_comm] at hlt
    have hnonpos : a * b ≤ 0 := Int.mul_nonpos_of_nonpos_of_nonneg (by omega) hb.le
    simp only [false_iff, not_not]
    omega
  · -- both factors negative: the bound is divided by -a
    obtain ⟨hne, hlt⟩ := hlt
    have hdiv := lt_neg_tdiv_iff (b := b) hmax.le (show 0 < -a by omega)
    rw [Int.neg_tdiv, Int.tdiv_neg, neg_neg] at hdiv
    have hmul : -a * b = -(a * b) := by ring
    rw [hmul] at hdiv
    have := hdiv.1 hlt
    simp only [true_iff]
    omega
  · have hnonneg : 0 ≤ a * b := Int.mul_nonneg_of_nonpos_of_nonpos (by omega) (by omega)
    simp only [false_iff, not_not]
    by_cases hzero : a = 0
    · rw [hzero, Int.zero_mul]
      omega
    · have hdiv := lt_neg_tdiv_iff (b := b) hmax.le (show 0 < -a by omega)
      rw [Int.neg_tdiv, Int.tdiv_neg, neg_neg] at hdiv
      have hmul : -a * b = -(a * b) := by ring
      rw [hmul] at hdiv
      have hle : ¬ b < out.max.tdiv a := fun h => hlt ⟨hzero, h⟩
      rw [hdiv] at hle
      omega

/-- the operations that set the error flag: a division by zero, or a sum, difference or product outside of the type -/
theorem arithmetic_none {op : ArithmeticOp} {out : IntType} {a b : ℤ} (ha : out.InRange a) :
    arithmetic op out a b = none ↔
      (op.divides = true ∧ b = 0) ∨ (op.divides = false ∧ ¬ out.InRange (exactResult op a b)) := by
  have hmin := out.min_eq
  have hmax := out.max_pos
  cases op with
  | add =>
    obtain ⟨hlo, hhi⟩ := ha
    simp only [arithmetic, ArithmeticOp.divides, exactResult, IntType.InRange, ite_eq_left_iff, reduceCtorEq, imp_false]
    simp only [false_and, true_and, false_or]
    omega
  | sub =>
    obtain ⟨hlo, hhi⟩ := ha
    simp only [arithmetic, ArithmeticOp.divides, exactResult, IntType.InRange, ite_eq_left_iff, reduceCtorEq, imp_false]
    simp only [false_and, true_and, false_or]
    omega
  | mul =>
    rw [mul_none]
    simp [ArithmeticOp.divides, exactResult]
  | div => simp [arithmetic, ArithmeticOp.divides]
  | mod => simp [arithmetic, ArithmeticOp.divides]

/-- a quotient leaves the type only when the smallest value is divided by -1 -/
theorem div_inRange {out : IntType} {a b : ℤ} (ha : out.InRange a) :
    ¬ out.InRange (a.tdiv b) ↔ a = out.min ∧ b = -1 := by
  have hmin := out.min_eq
  have hmax := out.max_pos
  obtain ⟨hlo, hhi⟩ := ha
  have habs : (a.tdiv b).natAbs = a.natAbs / b.natAbs := Int.natAbs_tdiv a b
  constructor
  · intro hout
    have hle : a.natAbs / b.natAbs ≤ a.natAbs := Nat.div_le_self _ _
    -- the quotient is as large as the smallest value, so the divisor is 1 or -1
    have hbig : a = out.min ∧ a.natAbs / b.natAbs = a.natAbs := by
      simp only [IntType.InRange] at hout
      omega
    obtain ⟨haeq, hself⟩ := hbig
    have hpos : 0 < a.natAbs := by omega
    have hone : b.natAbs = 1 := by
      by_contra hne
      rcases Nat.lt_or_gt_of_ne hne with hlt | hgt
      · have hzero : b.natAbs = 0 := by omega
        rw [hzero, Nat.div_zero] at hself
        omega
      · have hlt := Nat.div_lt_self hpos hgt
        omega
    refine ⟨haeq, ?_⟩
    rcases Int.natAbs_eq b with hb | hb
    · rw [hone] at hb
      simp only [hb, Nat.cast_one, Int.tdiv_one, IntType.InRange] at hout
      omega
    · rw [hone] at hb
      exact_mod_cast hb
  · rintro ⟨rfl, rfl⟩ ⟨-, hle⟩
    rw [Int.tdiv_neg, Int.tdiv_one] at hle
    omega

theorem mod_inRange {out : IntType} {a : ℤ} (b : ℤ) (ha : out.InRange a) : out.InRange (a.tmod b) := by
  have hmin := out.min_eq
  have hmax := out.max_pos
  obtain ⟨hlo, hhi⟩ := ha
  rcases lt_or_ge a 0 with hneg | hpos
  · have hsign : a.tmod b ≤ 0 := by
      have hmod := Int.tmod_nonneg b (show 0 ≤ -a by omega)
      rw [Int.neg_tmod] at hmod
      omega
    have habs : a ≤ a.tmod b := by
      have hnat : (a.tmod b).natAbs = a.natAbs % b.natAbs := Int.natAbs_tmod a b
      have hle := Nat.mod_le a.natAbs b.natAbs
      omega
    constructor <;> omega
  · have hsign : 0 ≤ a.tmod b := Int.tmod_nonneg b hpos
    have habs : a.tmod b ≤ a := by
      have hnat : (a.tmod b).natAbs = a.natAbs % b.natAbs := Int.natAbs_tmod a b
      have hle := Nat.mod_le a.natAbs b.natAbs
      omega
    constructor <;> omega

/-- an operation that fails sets the error flag, or divides the smallest value by -1 -/
theorem fails_iff {op : ArithmeticOp} {out : IntType} {a b : ℤ} (ha : out.InRange a) :
    Fails op out a b ↔ arithmetic op out a b = none ∨ (op = .div ∧ a = out.min ∧ b = -1) := by
  rw [Fails, arithmetic_none ha]
  cases op with
  | add => simp [ArithmeticOp.divides]
  | sub => simp [ArithmeticOp.divides]
  | mul => simp [ArithmeticOp.divides]
  | div => simp [ArithmeticOp.divides, exactResult, div_inRange ha]
  | mod => simp [ArithmeticOp.divides, exactResult, mod_inRange b ha]

/-- a result that is stored is within its type -/
theorem arithmetic_inRange {op : ArithmeticOp} {out : IntType} {a b x : ℤ} (ha : out.InRange a)
    (h : arithmetic op out a b = some x) : out.InRange x := by
  have hnone : ¬ arithmetic op out a b = none := by
    rw [h]
    simp
  cases op with
  | add =>
    rw [arithmetic_none ha] at hnone
    simp only [arithmetic] at h
    split at h
    · cases h
    · obtain rfl := Option.some.inj h
      simpa [ArithmeticOp.divides, exactResult] using hnone
  | sub =>
    rw [arithmetic_none ha] at hnone
    simp only [arithmetic] at h
    split at h
    · cases h
    · obtain rfl := Option.some.inj h
      simpa [ArithmeticOp.divides, exactResult] using hnone
  | mul =>
    rw [arithmetic_none ha] at hnone
    have hx : x = a * b := by
      simp only [arithmetic] at h
      split_ifs at h <;> exact (Option.some.inj h).symm
    rw [hx]
    simpa [ArithmeticOp.divides, exactResult] using hnone
  | div =>
    simp only [arithmetic] at h
    split at h
    · cases h
    · obtain rfl := Option.some.inj h
      have hpow : (2 : ℤ) ^ out.bits = out.max - out.min + 1 := by cases out <;> decide
      have hpos : (0 : ℤ) < 2 ^ out.bits := by positivity
      have hlo := Int.emod_nonneg (a.tdiv b - out.min) hpos.ne'
      have hhi := Int.emod_lt_of_pos (a.tdiv b - out.min) hpos
      simp only [IntType.InRange, IntType.wrap]
      constructor <;> omega
  | mod =>
    simp only [arithmetic] at h
    split at h
    · cases h
    · obtain rfl := Option.some.inj h
      exact mod_inRange b ha

/-! ## Evaluation of a tree -/

/-- an argument holds the values of a node, row by row -/
structure Agrees (R : Rows) (e : Expr) (a : Argument) : Prop where
  type : a.type = typeOf R e
  value : ∀ i < R.size, a.deref i = stored R i e
  null : ∀ i < R.size, bit a.nullMask i = nullAt R i e
  length : ∀ r, a = .column r → r.data.length = R.size
  maskLength : ∀ bits, a.nullMask = some bits → bits.length = R.size

variable {R : Rows}

theorem agrees_leaf (l : Operand) : Agrees R (.leaf l) (R.load l) := by
  refine ⟨rfl, fun i _ => rfl, fun i _ => rfl, ?_, ?_⟩
  · intro r hr
    cases l with
    | column t c =>
      obtain rfl : R.column t c = r := Argument.column.inj hr
      exact R.length t c
    | const t v _ => cases hr
  · intro bits hbits
    cases l with
    | column t c => exact R.maskLength t c bits hbits
    | const t v _ => cases hbits

theorem retSize_of_agrees {e f : Expr} {a b : Argument} (ha : Agrees R e a) (hb : Agrees R f b) :
    retSize R.size a b = R.size := by
  cases a with
  | column r =>
    have hr := ha.length r rfl
    cases b with
    | column s =>
      have hs := hb.length s rfl
      simp [retSize, hr, hs]
    | const t v => exact hr
  | const t v =>
    cases b with
    | column s => exact hb.length s rfl
    | const t v => rfl

theorem binary_agrees (op : BinaryOp) {l r : Expr} {a b : Argument} (ha : Agrees R l a) (hb : Agrees R r b)
    (hl : ∀ i < R.size, ¬ flagged R i l) (hr : ∀ i < R.size, ¬ flagged R i r) :
    ((∃ i < R.size, flagged R i (.binary op l r)) → binary R.size op a b = .error ()) ∧
      ((∀ i < R.size, ¬ flagged R i (.binary op l r)) →
        ∃ c, binary R.size op a b = .ok c ∧ Agrees R (.binary op l r) c) := by
  have hsize := retSize_of_agrees ha hb
  have hmask := fun i (hi : i < R.size) => bit_combineMasks hi ha.maskLength hb.maskLength
  cases op with
  | filter op =>
    constructor
    · rintro ⟨i, hi, h | h⟩
      · exact absurd h (hl i hi)
      · exact absurd h (hr i hi)
    · intro _
      refine ⟨_, rfl, rfl, ?_, fun i _ => rfl, ?_, ?_⟩
      · intro i hi
        simp only [hsize, Argument.deref_column, getD_map_range hi, hmask i hi, ha.value i hi, hb.value i hi,
          ha.null i hi, hb.null i hi, stored]
      · intro s hs
        obtain rfl := Argument.column.inj hs
        simp [hsize]
      · intro bits hbits
        cases hbits
  | arithmetic op =>
    have hfun : ∀ i < R.size, arithmetic op (resultType a.type b.type) (a.deref i) (b.deref i) =
        arithmetic op (resultType (typeOf R l) (typeOf R r)) (stored R i l) (stored R i r) := by
      intro i hi
      rw [ha.type, hb.type, ha.value i hi, hb.value i hi]
    constructor
    · rintro ⟨i, hi, h | h | h⟩
      · exact absurd h (hl i hi)
      · exact absurd h (hr i hi)
      · have hnone : ((List.range R.size).mapM fun i =>
            arithmetic op (resultType a.type b.type) (a.deref i) (b.deref i)) = none :=
          mapM_eq_none.2 ⟨i, List.mem_range.2 hi, (hfun i hi).trans h⟩
        simp only [binary, hsize, hnone]
    · intro hok
      cases hmap : (List.range R.size).mapM fun i =>
          arithmetic op (resultType a.type b.type) (a.deref i) (b.deref i) with
      | none =>
        obtain ⟨i, hi, hnone⟩ := mapM_eq_none.1 hmap
        have hlt := List.mem_range.1 hi
        exact absurd (Or.inr (Or.inr ((hfun i hlt).symm.trans hnone))) (hok i hlt)
      | some data =>
        refine ⟨.column ⟨resultType a.type b.type, data, combineMasks R.size a.nullMask b.nullMask⟩,
          ?_, ?_, ?_, ?_, ?_, ?_⟩
        · simp only [binary, hsize, hmap]
        · simp only [Argument.type_column, typeOf, ha.type, hb.type]
        · intro i hi
          simp only [Argument.deref_column, mapM_eq_some hmap, getD_map_range hi, hfun i hi, stored]
          have hne : arithmetic op (resultType (typeOf R l) (typeOf R r)) (stored R i l) (stored R i r) ≠ none :=
            fun hnone => hok i hi (Or.inr (Or.inr hnone))
          obtain ⟨x, hx⟩ := Option.ne_none_iff_exists'.1 hne
          rw [hx, Option.getD_some, Option.getD_some]
        · intro i hi
          simp only [Argument.nullMask_column, hmask i hi, ha.null i hi, hb.null i hi, nullAt]
        · intro s hs
          obtain rfl := Argument.column.inj hs
          simp [mapM_eq_some hmap]
        · intro bits hbits
          exact length_combineMasks ha.maskLength hb.maskLength hbits

theorem unary_agrees {t : Expr} {a : Argument} (ha : Agrees R t a) :
    ∃ c, unary R.size .logicalNot a = .ok c ∧ Agrees R (.unary .logicalNot t) c := by
  have hsize : a.size R.size = R.size := by
    cases a with
    | column r => exact ha.length r rfl
    | const t v => rfl
  refine ⟨_, rfl, rfl, ?_, fun i _ => rfl, ?_, ?_⟩
  · intro i hi
    simp only [hsize, Argument.deref_column, getD_map_range hi, ha.value i hi, ha.null i hi, stored]
  · intro s hs
    obtain rfl := Argument.column.inj hs
    simp [hsize]
  · intro bits hbits
    cases hbits

variable (names : String → String → String)

/-- evaluation of a tree: an error when some row sets the error flag in some node, and else the row-wise values -/
theorem eval_spec (e : Expr) :
    ((∃ i < R.size, flagged R i e) → eval (machine R names) e = .error ()) ∧
      ((∀ i < R.size, ¬ flagged R i e) → ∃ a, eval (machine R names) e = .ok a ∧ Agrees R e a) := by
  induction e with
  | leaf l =>
    refine ⟨?_, fun _ => ⟨_, rfl, agrees_leaf l⟩⟩
    rintro ⟨i, -, h⟩
    exact h.elim
  | unary u t ih =>
    cases u
    constructor
    · rintro ⟨i, hi, h⟩
      simp only [eval, ih.1 ⟨i, hi, h⟩, bind, Except.bind]
    · intro h
      obtain ⟨a, heval, ha⟩ := ih.2 h
      obtain ⟨c, hc, hagrees⟩ := unary_agrees ha
      exact ⟨c, by simp only [eval, heval, bind, Except.bind]; exact hc, hagrees⟩
  | binary op l r ihl ihr =>
    have hsub : ∀ i, flagged R i l ∨ flagged R i r → flagged R i (.binary op l r) := by
      intro i h
      cases op with
      | arithmetic op => exact h.elim Or.inl fun h => Or.inr (Or.inl h)
      | filter op => exact h
    by_cases hl : ∃ i < R.size, flagged R i l
    · refine ⟨fun _ => by simp only [eval, ihl.1 hl, bind, Except.bind], fun h => ?_⟩
      obtain ⟨i, hi, hf⟩ := hl
      exact absurd (hsub i (Or.inl hf)) (h i hi)
    have hlok : ∀ i < R.size, ¬ flagged R i l := fun i hi hf => hl ⟨i, hi, hf⟩
    obtain ⟨a, hevall, ha⟩ := ihl.2 hlok
    by_cases hr : ∃ i < R.size, flagged R i r
    · refine ⟨fun _ => by simp only [eval, hevall, ihr.1 hr, bind, Except.bind], fun h => ?_⟩
      obtain ⟨i, hi, hf⟩ := hr
      exact absurd (hsub i (Or.inr hf)) (h i hi)
    have hrok : ∀ i < R.size, ¬ flagged R i r := fun i hi hf => hr ⟨i, hi, hf⟩
    obtain ⟨b, hevalr, hb⟩ := ihr.2 hrok
    obtain ⟨herr, hok⟩ := binary_agrees op ha hb hlok hrok
    have heval : eval (machine R names) (.binary op l r) = binary R.size op a b := by
      simp only [eval, hevall, hevalr, bind, Except.bind]
      rfl
    rw [heval]
    exact ⟨herr, hok⟩

end QikkDB.Expressions

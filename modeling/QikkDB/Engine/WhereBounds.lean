/-
The evaluation of WHERE on the minimum and maximum of a block (GpuSqlParser/CpuWhereListener.cpp, CpuSqlDispatcher.cpp,
CpuSqlDispatcher.h, DispatcherCpu/*.h; operators from QueryEngine/GPUCore/ArithmeticOperations.h,
ArithmeticUnaryOperations.h, DateOperations.h, StringOperations.h, GPUFilterConditions.cuh).

A column is a register with the two statistics of the block, an inner node a register with what the operator makes of
them, and a mark that the two values say nothing about the rows in between. The answer is whether one of the two values
of the WHERE clause is not zero. Registers are found by name; AllocateRegister computes into new memory, and the map
keeps the entry that it has.

Here are the integer types and strings. Arguments are handed to the instructions directly (the argument stream is left
out), a block is there for every column, and no column is called like another one with `_min` or `_max` behind it.
SIGN of a long is stored as a long and read as an int, which is the same number.
-/
import Mathlib.Tactic
import QikkDB.Core.Element
import QikkDB.Engine.Expressions
import QikkDB.Lib.Reuse

namespace QikkDB.WhereBounds

open Expressions (IntType)
open Reuse

/-! ## Operators -/

inductive CompareOp where
  | greater
  | less
  | greaterEq
  | lessEq
  | equals
  | notEquals
  | notEqualsGtLt
  deriving DecidableEq, Repr

inductive LogicOp where
  | and
  | or
  deriving DecidableEq, Repr

inductive ArithOp where
  | mul
  | div
  | add
  | sub
  | mod
  | bitOr
  | bitAnd
  | xor
  | lShift
  | rShift
  deriving DecidableEq, Repr

inductive DateOp where
  | year
  | month
  | day
  | hour
  | minute
  | second
  | weekday
  | dayOfWeek
  deriving DecidableEq, Repr

inductive TextOp where
  | ltrim
  | rtrim
  | lower
  | upper
  deriving DecidableEq, Repr

inductive BinaryOp where
  | compare (op : CompareOp)
  | logic (op : LogicOp)
  | arith (op : ArithOp)
  | left
  | right
  | concat
  deriving DecidableEq, Repr

inductive UnaryOp where
  | logicalNot
  | minus
  | abs
  | sign
  | date (op : DateOp)
  | text (op : TextOp)
  | len
  | cast (t : IntType)
  deriving DecidableEq, Repr

/-- operands: columns by table and name, and literals as they are written -/
inductive Operand where
  | intColumn (table column : String) (t : IntType)
  | textColumn (table column : String)
  | intLiteral (text : String) (t : IntType) (value : ℤ)
  | textLiteral (text : String) (value : Str)
  deriving DecidableEq, Repr

abbrev Expr := Tree Operand UnaryOp BinaryOp

/-! ## What operators compute -/

inductive Error where
  /-- InvalidOperandsException of the dispatch tables -/
  | invalidOperands
  /-- integer division by zero -/
  | divisionByZero
  /-- std::out_of_range of std::string::substr -/
  | outOfRange
  /-- std::out_of_range of allocatedPointers_.at -/
  | registerNotFound
  deriving DecidableEq, Repr

def CompareOp.test {α : Type} [LT α] [LE α] [DecidableLT α] [DecidableLE α] [DecidableEq α] (op : CompareOp) (a b : α) :
    Bool :=
  match op with
  | .greater => b < a
  | .less => a < b
  | .greaterEq => b ≤ a
  | .lessEq => a ≤ b
  | .equals => a = b
  | .notEquals => a ≠ b
  | .notEqualsGtLt => a ≠ b

def LogicOp.test (op : LogicOp) (a b : ℤ) : Bool :=
  match op with
  | .and => a ≠ 0 && b ≠ 0
  | .or => a ≠ 0 || b ≠ 0

/-- ArithmeticOperations::isMonotonous -/
def ArithOp.isMonotonous : ArithOp → Bool
  | .mul | .div | .add | .sub | .mod => true
  | .bitOr | .bitAnd | .xor | .lShift | .rShift => false

/-- two's complement digits of a value -/
def bits (t : IntType) (v : ℤ) : BitVec 64 := BitVec.ofInt 64 (t.wrap v)

/-- ArithmeticOperations on the result type; shift counts are taken modulo the width -/
def ArithOp.apply (op : ArithOp) (t : IntType) (a b : ℤ) : Except Error ℤ :=
  match op with
  | .mul => .ok (t.wrap (a * b))
  | .add => .ok (t.wrap (a + b))
  | .sub => .ok (t.wrap (a - b))
  | .div => if b = 0 then .error .divisionByZero else .ok (t.wrap (a.tdiv b))
  | .mod => if b = 0 then .error .divisionByZero else .ok (t.wrap (a.tmod b))
  | .bitOr => .ok (t.wrap (bits t a ||| bits t b).toInt)
  | .bitAnd => .ok (t.wrap (bits t a &&& bits t b).toInt)
  | .xor => .ok (t.wrap (bits t a ^^^ bits t b).toInt)
  | .lShift => .ok (t.wrap (a * 2 ^ (b % t.bits).toNat))
  | .rShift => .ok (t.wrap (a / 2 ^ (b % t.bits).toNat))

/-- `ResultType` of two integral operands: the larger one -/
def resultType (t u : IntType) : IntType := if u.bits ≤ t.bits then t else u

/-- the dispatch tables have arithmetic for int and long -/
def numeric : IntType → Bool
  | .int8 => false
  | .int32 | .int64 => true

def startDaysOfLeapYears : List ℤ :=
  [0, 1461, 2922, 4383, 5844, 7305, 8766, 10227, 11688, 13149, 14610,
   16071, 17532, 18993, 20454, 21915, 23376, 24837, 26298, 27759, 29220, 30681,
   32142, 33603, 35064, 37985, 39446, 40907, 42368, 43829, 45290, 46751, 48212,
   49673, 51134, 52595, 54056, 55517, 56978, 58439, 59900, 61361, 62822, 64283,
   65744, 67205, 68666, 70127, 71588, 74509, 75970, 77431, 78892, 80353, 81814,
   83275, 84736, 86197, 87658, 89119, 90580, 92041, 93502, 94963, 96424, 97885,
   99346, 100807, 102268, 103729, 105190, 106651, 108112, 111033, 112494, 113955, 115416,
   116877, 118338, 119799, 121260, 122721, 124182, 125643, 127104, 128565, 130026, 131487,
   132948, 134409, 135870, 137331, 138792, 140253, 141714, 143175, 144636]

def startDaysOfMonths : List ℤ :=
  [0, 31, 60, 91, 121, 152, 182, 213, 244, 274, 305, 335, 366, 397, 425, 456,
   486, 517, 547, 578, 609, 639, 670, 700, 731, 762, 790, 821, 851, 882, 912, 943,
   974, 1004, 1035, 1065, 1096, 1127, 1155, 1186, 1216, 1247, 1277, 1308, 1339, 1369, 1400, 1430,
   1461, 1492, 1520, 1551, 1581, 1612, 1642, 1673, 1704, 1734, 1765, 1795, 1826, 1857, 1885, 1916,
   1946, 1977, 2007, 2038, 2069, 2099, 2130, 2160, 2191, 2222, 2250, 2281, 2311, 2342, 2372, 2403,
   2434, 2464, 2495, 2525, 2556, 2587, 2615, 2646, 2676, 2707, 2737, 2768, 2799, 2829, 2860, 2890]

/-- the loop `while (table[index] > value) --index` -/
def descend (table : List ℤ) (value : ℤ) : ℕ → ℕ
  | 0 => 0
  | index + 1 => if table.getD (index + 1) 0 > value then descend table value index else index + 1

def daysIn400Years : ℤ := 146097

def secondsIn400Years : ℤ := daysIn400Years * 86400

/-- days from the start of the 400-year cycle -/
def dayOfCycle (dateTime : ℤ) : ℤ :=
  let value := dateTime + 11676096000
  if value < 0 then ((value + 1).tmod secondsIn400Years + secondsIn400Years - 1).tdiv 86400
  else (value.tdiv 86400).tmod daysIn400Years

def leapIndex (value : ℤ) : ℕ := descend startDaysOfLeapYears value (min 96 (value * 97 / daysIn400Years + 1).toNat)

/-- days from the start of the cycle between two leap years -/
def dayOfLeapCycle (value : ℤ) : ℤ := value - startDaysOfLeapYears.getD (leapIndex value) 0

def monthIndex (value : ℤ) : ℕ := descend startDaysOfMonths value (min 95 (value * 96 / 2921 + 1).toNat)

def dayNumber (dateTime : ℤ) : ℤ := (if dateTime < 0 then dateTime - 86400 + 1 else dateTime).tdiv 86400

/-- DateOperations -/
def DateOp.apply : DateOp → ℤ → ℤ
  | .year, dateTime =>
    let value := dateTime + 11676096000
    let year400 := if value < 0 then (value - secondsIn400Years + 1).tdiv secondsIn400Years
      else value.tdiv secondsIn400Years
    let start := startDaysOfLeapYears.getD (leapIndex (dayOfCycle dateTime)) 0
    let index := min 7 ((dayOfLeapCycle (dayOfCycle dateTime) * 8).tdiv 2921)
    1600 + year400 * 400 + (start + 730).tdiv 1461 * 4 + index
  | .month, dateTime => (monthIndex (dayOfLeapCycle (dayOfCycle dateTime)) : ℤ) % 12 + 1
  | .day, dateTime =>
    let value := dayOfLeapCycle (dayOfCycle dateTime)
    value - startDaysOfMonths.getD (monthIndex value) 0 + 1
  | .hour, dateTime =>
    if dateTime < 0 then ((dateTime + 1).tmod 86400 + 86399).tdiv 3600 else (dateTime.tdiv 3600).tmod 24
  | .minute, dateTime =>
    if dateTime < 0 then ((dateTime + 1).tmod 3600 + 3599).tdiv 60 else (dateTime.tdiv 60).tmod 60
  | .second, dateTime => if dateTime < 0 then (dateTime + 1).tmod 60 + 59 else dateTime.tmod 60
  | .weekday, dateTime => (dayNumber dateTime + 3).tmod 7
  | .dayOfWeek, dateTime => (dayNumber dateTime + 4).tmod 7 + 1

/-- MINUS, ABS, SIGN on an operand of type t -/
def unaryArith (op : UnaryOp) (t : IntType) (a : ℤ) : ℤ :=
  match op with
  | .minus => t.wrap (-a)
  | .abs => t.wrap |a|
  | .sign => a.sign
  | _ => a

def isSpace (c : UInt8) : Bool := c == 32 || (9 ≤ c && c ≤ 13)

def toLower (c : UInt8) : UInt8 := if 65 ≤ c && c ≤ 90 then c + 32 else c

def toUpper (c : UInt8) : UInt8 := if 97 ≤ c && c ≤ 122 then c - 32 else c

/-- StringUnaryOperationsCpu, with boost's trim and case conversion in the C locale -/
def TextOp.apply (op : TextOp) (s : Str) : Str :=
  match op with
  | .ltrim => s.dropWhile isSpace
  | .rtrim => (s.reverse.dropWhile isSpace).reverse
  | .lower => s.map toLower
  | .upper => s.map toUpper

/-- `substr(0, arg)`: a negative argument is a huge size -/
def leftOf (s : Str) (arg : ℤ) : Str := if arg < 0 then s else s.take arg.toNat

/-- `substr(len - arg)` -/
def rightOf (s : Str) (arg : ℤ) : Except Error Str :=
  let pos := (s.length : ℤ) - arg
  if 0 ≤ pos ∧ pos ≤ s.length then .ok (s.drop pos.toNat) else .error .outOfRange

/-! ## Registers -/

/-- an operand of an instruction: a constant, or the two registers of a column (`raw`) or of a node, with the mark that
says that their values do not bound the rows. The bytes of a text register include what the code stores behind the
text; constants do not. -/
inductive Arg where
  | constInt (t : IntType) (value : ℤ)
  | constText (value : Str)
  | colInt (raw : Bool) (t : IntType) (lo hi : ℤ) (mark : Bool)
  | colText (raw : Bool) (lo hi : Str) (mark : Bool)
  deriving DecidableEq, Repr

/-- the registers of a comparison or a logical operation -/
def mask (lo hi mark : Bool) : Arg := .colInt false .int8 lo.toInt hi.toInt mark

/-- the characters up to the terminator -/
def cString (bytes : Str) : Str := bytes.takeWhile (· ≠ 0)

/-- `FilterConditions::compareStrings` on lengths without the terminator -/
def CompareOp.compareStrings (op : CompareOp) (a b : Str) : Bool :=
  match op with
  | .equals => a = b
  | .notEquals => a ≠ b
  | .notEqualsGtLt => a ≠ b
  | .greater => false
  | .less => false
  | .greaterEq => false
  | .lessEq => false

/-- `CpuFilterInterval::INNER` and `OUTER` -/
def CompareOp.interval : CompareOp → Bool
  | .equals | .notEquals | .notEqualsGtLt => true
  | .greater | .less | .greaterEq | .lessEq => false

/-- FilterColConst and FilterConstCol: both compare the column with the constant, in this order -/
def filterInt (op : CompareOp) (lo hi : ℤ) (mark : Bool) (cnst : ℤ) : Arg :=
  if op.interval then
    let inside : Bool := lo ≤ cnst ∧ cnst ≤ hi
    mask inside inside mark
  else mask (op.test lo cnst) (op.test hi cnst) mark

/-- FilterStringColConst and FilterStringConstCol -/
def filterText (op : CompareOp) (lo hi : Str) (mark : Bool) (cnst : Str) : Arg :=
  if op.interval then
    let inside : Bool := cString lo ≤ cnst ∧ cnst ≤ cString hi
    mask inside inside mark
  else mask (op.compareStrings lo.dropLast cnst) (op.compareStrings hi.dropLast cnst) mark

def filter (op : CompareOp) : Arg → Arg → Except Error Arg
  | .constInt _ a, .constInt _ b => .ok (mask (op.test a b) (op.test a b) false)
  | .colInt _ _ lo hi mark, .constInt _ c => .ok (filterInt op lo hi mark c)
  | .constInt _ c, .colInt _ _ lo hi mark => .ok (filterInt op lo hi mark c)
  | .colInt raw _ lo hi mark, .colInt raw' _ lo' hi' mark' =>
    if raw && raw' then .ok (mask true true true)
    else .ok (mask (op.test lo lo') (op.test hi hi') (mark || mark'))
  | .constText a, .constText b => .ok (mask (op.compareStrings a b) (op.compareStrings a b) false)
  | .colText _ lo hi mark, .constText c => .ok (filterText op lo hi mark c)
  | .constText c, .colText _ lo hi mark => .ok (filterText op lo hi mark c)
  | .colText raw lo hi mark, .colText raw' lo' hi' mark' =>
    if raw && raw' then .ok (mask true true true)
    else .ok (mask (op.compareStrings lo.dropLast lo'.dropLast) (op.compareStrings hi.dropLast hi'.dropLast)
      (mark || mark'))
  | _, _ => .error .invalidOperands

/-- LogicalColConst, LogicalConstCol, LogicalColCol, LogicalConstConst -/
def logical (op : LogicOp) : Arg → Arg → Except Error Arg
  | .constInt _ a, .constInt _ b => .ok (mask (op.test a b) (op.test a b) false)
  | .colInt raw _ lo hi mark, .constInt _ c => .ok (mask (op.test lo c) (op.test hi c) (raw && mark))
  | .constInt _ c, .colInt raw _ lo hi mark => .ok (mask (op.test c lo) (op.test c hi) (raw && mark))
  | .colInt raw _ lo hi mark, .colInt raw' _ lo' hi' mark' =>
    if raw && raw' then .ok (mask true true true)
    else if raw || raw' then .ok (mask (op.test lo lo') (op.test hi hi') (mark || mark'))
    else
      let merged := op.test (LogicOp.or.test lo hi).toInt (LogicOp.or.test lo' hi').toInt
      .ok (mask merged merged false)
  | _, _ => .error .invalidOperands

/-- the two results of an arithmetic instruction -/
def arithRegisters (op : ArithOp) (t : IntType) (lo lo' hi hi' : ℤ) (mark : Bool) : Except Error Arg := do
  let resultMin ← op.apply t lo lo'
  let resultMax ← op.apply t hi hi'
  .ok (.colInt false t resultMin resultMax mark)

/-- ArithmeticColConst, arithmeticConstCol, arithmeticColCol, arithmeticConstConst -/
def arithmetic (op : ArithOp) : Arg → Arg → Except Error Arg
  | .constInt t a, .constInt u b =>
    if numeric t && numeric u then arithRegisters op (resultType t u) a b a b false else .error .invalidOperands
  | .colInt _ t lo hi mark, .constInt u c =>
    if numeric t && numeric u then arithRegisters op (resultType t u) lo c hi c (mark || !op.isMonotonous)
    else .error .invalidOperands
  | .constInt t c, .colInt _ u lo hi mark =>
    if numeric t && numeric u then arithRegisters op (resultType t u) c lo c hi (mark || !op.isMonotonous)
    else .error .invalidOperands
  | .colInt raw t lo hi mark, .colInt raw' u lo' hi' mark' =>
    if numeric t && numeric u then
      if raw && raw' then .ok (.colInt false (resultType t u) 1 1 true)
      else arithRegisters op (resultType t u) lo lo' hi hi' (mark || mark' || !op.isMonotonous)
    else .error .invalidOperands
  | _, _ => .error .invalidOperands

/-- the terminator that StringUnaryCol and its like write behind a result -/
def terminated (s : Str) : Str := s ++ [0]

/-- LEFT: StringBinaryNumericColConst and its like; the length of a register counts its terminator -/
def left : Arg → Arg → Except Error Arg
  | .constText s, .constInt t n =>
    if numeric t then .ok (.colText false (terminated (leftOf s n)) (terminated (leftOf s n)) false)
    else .error .invalidOperands
  | .colText _ lo hi mark, .constInt t n =>
    if numeric t then .ok (.colText false (terminated (leftOf lo n)) (terminated (leftOf hi n)) mark)
    else .error .invalidOperands
  | .constText s, .colInt _ t lo hi mark =>
    if numeric t then .ok (.colText false (terminated (leftOf s lo)) (terminated (leftOf s hi)) mark)
    else .error .invalidOperands
  | .colText raw lo hi mark, .colInt raw' t lo' hi' mark' =>
    if numeric t then
      if raw && raw' then .ok (.colText false [97] [97] true)
      else .ok (.colText false (terminated (leftOf lo lo')) (terminated (leftOf hi hi')) (mark || mark'))
    else .error .invalidOperands
  | _, _ => .error .invalidOperands

/-- RIGHT, which is not monotonous -/
def right : Arg → Arg → Except Error Arg
  | .constText s, .constInt t n =>
    if numeric t then do
      let result ← rightOf s n
      .ok (.colText false (terminated result) (terminated result) true)
    else .error .invalidOperands
  | .colText _ lo hi _, .constInt t n =>
    if numeric t then do
      let resultMin ← rightOf lo n
      let resultMax ← rightOf hi n
      .ok (.colText false (terminated resultMin) (terminated resultMax) true)
    else .error .invalidOperands
  | .constText s, .colInt _ t lo hi _ =>
    if numeric t then do
      let resultMin ← rightOf s lo
      let resultMax ← rightOf s hi
      .ok (.colText false (terminated resultMin) (terminated resultMax) true)
    else .error .invalidOperands
  | .colText raw lo hi _, .colInt raw' t lo' hi' _ =>
    if numeric t then
      if raw && raw' then .ok (.colText false [97] [97] true)
      else do
        let resultMin ← rightOf lo lo'
        let resultMax ← rightOf hi hi'
        .ok (.colText false (terminated resultMin) (terminated resultMax) true)
    else .error .invalidOperands
  | _, _ => .error .invalidOperands

/-- CONCAT; StringBinaryConstCol puts the column first as well -/
def concat : Arg → Arg → Except Error Arg
  | .constText a, .constText b => .ok (.colText false (terminated (a ++ b)) (terminated (a ++ b)) true)
  | .colText _ lo hi _, .constText c => .ok (.colText false (terminated (lo ++ c)) (terminated (hi ++ c)) true)
  | .constText c, .colText _ lo hi _ => .ok (.colText false (terminated (lo ++ c)) (terminated (hi ++ c)) true)
  | .colText raw lo hi _, .colText raw' lo' hi' _ =>
    if raw && raw' then .ok (.colText false [97] [97] true)
    else .ok (.colText false (terminated (lo ++ lo')) (terminated (hi ++ hi')) true)
  | _, _ => .error .invalidOperands

/-- AddBinaryOperation and the functions it pushes -/
def binary : BinaryOp → Arg → Arg → Except Error Arg
  | .compare op => filter op
  | .logic op => logical op
  | .arith op => arithmetic op
  | .left => left
  | .right => right
  | .concat => concat

/-- LogicalNotCol, LogicalNotConst -/
def logicalNot : Arg → Except Error Arg
  | .constInt _ c => .ok (mask (c = 0) (c = 0) false)
  | .colInt _ _ lo hi mark => .ok (mask (lo = 0) (hi = 0) mark)
  | _ => .error .invalidOperands

/-- ArithmeticUnaryOperations::isMonotonous of MINUS, ABS and SIGN -/
def unaryIsMonotonous : UnaryOp → Bool
  | .abs => false
  | _ => true

/-- ArithmeticUnaryCol, ArithmeticUnaryConst; the listener takes the result of SIGN for an int -/
def arithmeticUnary (op : UnaryOp) (result : IntType → IntType) : Arg → Except Error Arg
  | .constInt t c =>
    if numeric t then
      .ok (.colInt false (result t) (unaryArith op t c) (unaryArith op t c) (!unaryIsMonotonous op))
    else .error .invalidOperands
  | .colInt _ t lo hi mark =>
    if numeric t then
      .ok (.colInt false (result t) (unaryArith op t lo) (unaryArith op t hi) (mark || !unaryIsMonotonous op))
    else .error .invalidOperands
  | _ => .error .invalidOperands

/-- DateExtractCol, DateExtractConst: only for long -/
def dateExtract (op : DateOp) : Arg → Except Error Arg
  | .constInt .int64 c => .ok (.colInt false .int32 (op.apply c) (op.apply c) true)
  | .colInt _ .int64 lo hi _ => .ok (.colInt false .int32 (op.apply lo) (op.apply hi) true)
  | _ => .error .invalidOperands

/-- StringUnaryCol, StringUnaryConst -/
def stringUnary (op : TextOp) : Arg → Except Error Arg
  | .constText s => .ok (.colText false (terminated (op.apply s)) (terminated (op.apply s)) true)
  | .colText _ lo hi _ => .ok (.colText false (terminated (op.apply lo)) (terminated (op.apply hi)) true)
  | _ => .error .invalidOperands

/-- StringUnaryNumericCol, StringUnaryNumericConst of LEN -/
def stringLen : Arg → Except Error Arg
  | .constText s => .ok (.colInt false .int32 s.length s.length true)
  | .colText _ lo hi _ => .ok (.colInt false .int32 lo.length hi.length true)
  | _ => .error .invalidOperands

/-- CastNumericCol, CastNumericConst; there is none to or from int8_t -/
def castNumeric (out : IntType) : Arg → Except Error Arg
  | .constInt t c =>
    if numeric t && numeric out then .ok (.colInt false out (out.wrap c) (out.wrap c) false)
    else .error .invalidOperands
  | .colInt _ t lo hi mark =>
    if numeric t && numeric out then .ok (.colInt false out (out.wrap lo) (out.wrap hi) mark)
    else .error .invalidOperands
  | _ => .error .invalidOperands

/-- AddUnaryOperation, AddCastOperation and the functions they push -/
def unary : UnaryOp → Arg → Except Error Arg
  | .logicalNot => logicalNot
  | .minus => arithmeticUnary .minus id
  | .abs => arithmeticUnary .abs id
  | .sign => arithmeticUnary .sign fun _ => .int32
  | .date op => dateExtract op
  | .text op => stringUnary op
  | .len => stringLen
  | .cast t => castNumeric t

/-! ## Names -/

def CompareOp.text : CompareOp → String
  | .greater => ">"
  | .less => "<"
  | .greaterEq => ">="
  | .lessEq => "<="
  | .equals => "="
  | .notEquals => "!="
  | .notEqualsGtLt => "<>"

def LogicOp.text : LogicOp → String
  | .and => "AND"
  | .or => "OR"

def ArithOp.text : ArithOp → String
  | .mul => "*"
  | .div => "/"
  | .add => "+"
  | .sub => "-"
  | .mod => "%"
  | .bitOr => "|"
  | .bitAnd => "&"
  | .xor => "^"
  | .lShift => "<<"
  | .rShift => ">>"

def DateOp.text : DateOp → String
  | .year => "YEAR"
  | .month => "MONTH"
  | .day => "DAY"
  | .hour => "HOUR"
  | .minute => "MINUTE"
  | .second => "SECOND"
  | .weekday => "WEEKDAY"
  | .dayOfWeek => "DAYOFWEEK"

def TextOp.text : TextOp → String
  | .ltrim => "LTRIM"
  | .rtrim => "RTRIM"
  | .lower => "LOWER"
  | .upper => "UPPER"

/-- the names of the types in CAST -/
def typeText : IntType → String
  | .int8 => "BOOL"
  | .int32 => "INT"
  | .int64 => "LONG"

/-- what the listener has on its stack for an operand -/
def Operand.name : Operand → String
  | .intColumn table column _ => table ++ "." ++ column
  | .textColumn table column => table ++ "." ++ column
  | .intLiteral text _ _ => text
  | .textLiteral text _ => text

/-- `TrimReg` -/
def trimReg (shortColumnNames : String → Option String) (reg : String) : String :=
  match reg.toList with
  | '$' :: rest => String.ofList rest
  | _ => (shortColumnNames reg).getD reg

/-- exitBinaryOperation, exitUnaryOperation, exitCastOperation: the register of a node -/
def register (shortColumnNames : String → Option String) : Expr → String
  | .leaf l => l.name
  | .unary op e =>
    let operand := trimReg shortColumnNames (register shortColumnNames e)
    match op with
    | .logicalNot => "$!" ++ operand
    | .minus => "$-" ++ operand
    | .abs => "$ABS(" ++ operand ++ ")"
    | .sign => "$SIGN(" ++ operand ++ ")"
    | .date d => "$" ++ d.text ++ "(" ++ operand ++ ")"
    | .text t => "$" ++ t.text ++ "(" ++ operand ++ ")"
    | .len => "$LEN(" ++ operand ++ ")"
    | .cast t => "$CAST(" ++ operand ++ "AS" ++ typeText t ++ ")"
  | .binary op l r =>
    let leftOperand := trimReg shortColumnNames (register shortColumnNames l)
    let rightOperand := trimReg shortColumnNames (register shortColumnNames r)
    match op with
    | .compare c => "$" ++ leftOperand ++ c.text ++ rightOperand
    | .logic c => "$" ++ leftOperand ++ c.text ++ rightOperand
    | .arith c => "$" ++ leftOperand ++ c.text ++ rightOperand
    | .left => "$LEFT(" ++ leftOperand ++ "," ++ rightOperand ++ ")"
    | .right => "$RIGHT(" ++ leftOperand ++ "," ++ rightOperand ++ ")"
    | .concat => "$CONCAT(" ++ leftOperand ++ "," ++ rightOperand ++ ")"

/-! ## Execute -/

/-- GetBlockMin and GetBlockMax of the columns of one block -/
structure Block where
  intMin : String → String → ℤ
  intMax : String → String → ℤ
  textMin : String → String → Str
  textMax : String → String → Str

/-- LoadCol for columns -/
def Block.operand (block : Block) : Operand → Arg
  | .intColumn table column t => .colInt true t (block.intMin table column) (block.intMax table column) false
  | .textColumn table column =>
    .colText true (terminated (block.textMin table column)) (terminated (block.textMax table column)) false
  | .intLiteral _ t value => .constInt t value
  | .textLiteral _ value => .constText value

def Block.machine (block : Block) (shortColumnNames : String → Option String) :
    Machine Operand UnaryOp BinaryOp String Arg Error where
  name := register shortColumnNames
  leaf := block.operand
  unary := unary
  binary := binary

/-- WhereResultCol -/
def whereResultCol (lo hi : ℤ) (mark : Bool) : ℤ :=
  let whereResultMin := if mark then 1 else lo
  let whereResultMax := if mark then 1 else hi
  (whereResultMin ≠ 0 || whereResultMax ≠ 0 : Bool).toInt

/-- `Execute`: the instructions of the WHERE clause, and WhereResult on what they leave. A column that stands alone has
no register. -/
def execute (block : Block) (shortColumnNames : String → Option String) (e : Expr) : Except Error ℤ := do
  match ← insertedValue (block.machine shortColumnNames) e with
  | .constInt _ value => .ok value
  | .constText _ => .error .invalidOperands
  | .colInt raw _ lo hi mark => if raw then .error .registerNotFound else .ok (whereResultCol lo hi mark)
  | .colText _ _ _ _ => .error .invalidOperands

/-! ## Rows -/

inductive Value where
  | int (t : IntType) (value : ℤ)
  | text (value : Str)
  deriving DecidableEq, Repr

/-- a row without NULL in the columns of the expression -/
structure Row where
  int : String → String → ℤ
  text : String → String → Str

def Row.operand (row : Row) : Operand → Value
  | .intColumn table column t => .int t (row.int table column)
  | .textColumn table column => .text (row.text table column)
  | .intLiteral _ t value => .int t value
  | .textLiteral _ value => .text value

/-- what a binary operator makes of a row; texts are compared byte by byte -/
def rowBinary : BinaryOp → Value → Value → Except Error Value
  | .compare op, .int _ a, .int _ b => .ok (.int .int8 (op.test a b).toInt)
  | .compare op, .text a, .text b => .ok (.int .int8 (op.test a b).toInt)
  | .logic op, .int _ a, .int _ b => .ok (.int .int8 (op.test a b).toInt)
  | .arith op, .int t a, .int u b =>
    if numeric t && numeric u then do
      let result ← op.apply (resultType t u) a b
      .ok (.int (resultType t u) result)
    else .error .invalidOperands
  | .left, .text s, .int _ n => if n < 0 then .error .outOfRange else .ok (.text (s.take n.toNat))
  | .right, .text s, .int _ n =>
    if n < 0 then .error .outOfRange else .ok (.text (s.drop (s.length - n.toNat)))
  | .concat, .text a, .text b => .ok (.text (a ++ b))
  | _, _, _ => .error .invalidOperands

/-- what a unary operator makes of a row -/
def rowUnary : UnaryOp → Value → Except Error Value
  | .logicalNot, .int _ a => .ok (.int .int8 (a = 0 : Bool).toInt)
  | .minus, .int t a => if numeric t then .ok (.int t (unaryArith .minus t a)) else .error .invalidOperands
  | .abs, .int t a => if numeric t then .ok (.int t (unaryArith .abs t a)) else .error .invalidOperands
  | .sign, .int t a => if numeric t then .ok (.int .int32 (unaryArith .sign t a)) else .error .invalidOperands
  | .date op, .int .int64 a => .ok (.int .int32 (op.apply a))
  | .text op, .text s => .ok (.text (op.apply s))
  | .len, .text s => .ok (.int .int32 s.length)
  | .cast out, .int t a =>
    if numeric t && numeric out then .ok (.int out (out.wrap a)) else .error .invalidOperands
  | _, _ => .error .invalidOperands

def Row.machine (row : Row) : Machine Operand UnaryOp BinaryOp Unit Value Error where
  name _ := ()
  leaf := row.operand
  unary := rowUnary
  binary := rowBinary

/-- the value of an expression in a row -/
def rowValue (row : Row) (e : Expr) : Except Error Value := eval row.machine e

/-- the row passes the WHERE clause -/
def Satisfies (row : Row) (e : Expr) : Prop := ∃ t v, rowValue row e = .ok (.int t v) ∧ v ≠ 0

/-- the statistics of the block bound a column -/
def Block.Bounds (block : Block) (row : Row) : Operand → Prop
  | .intColumn table column _ =>
    block.intMin table column ≤ row.int table column ∧ row.int table column ≤ block.intMax table column
  | .textColumn table column =>
    block.textMin table column ≤ row.text table column ∧ row.text table column ≤ block.textMax table column ∧
      (0 : UInt8) ∉ block.textMin table column ∧ (0 : UInt8) ∉ block.textMax table column
  | _ => True

instance (block : Block) (row : Row) : (l : Operand) → Decidable (block.Bounds row l)
  | .intColumn _ _ _ => inferInstanceAs (Decidable (_ ∧ _))
  | .textColumn _ _ => inferInstanceAs (Decidable (_ ∧ _ ∧ _ ∧ _))
  | .intLiteral _ _ _ => inferInstanceAs (Decidable True)
  | .textLiteral _ _ => inferInstanceAs (Decidable True)

/-- the statistics of the block bound the columns of the expression in every row -/
def Bounded (block : Block) (rows : List Row) (e : Expr) : Prop := ∀ row ∈ rows, ∀ l ∈ e.leaves, block.Bounds row l

instance (block : Block) (rows : List Row) (e : Expr) : Decidable (Bounded block rows e) :=
  inferInstanceAs (Decidable (∀ row ∈ rows, ∀ l ∈ e.leaves, block.Bounds row l))

end QikkDB.WhereBounds

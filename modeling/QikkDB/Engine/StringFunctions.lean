/-
String functions (QueryEngine/GPUCore/GPUStringUnary.cuh, GPUStringUnary.cu, GPUStringBinary.cuh, GPUStringBinary.cu;
GPUUnary.cuh, `GPUUnary` of `len`; GPUBinary.cuh, `GPUBinary` of string operations; StringFactory.cpp,
`PrepareGPUString`).

Each function predicts the lengths of its results, takes their prefix sums as indices, allocates the characters and
copies them. The kernels read and write buffers of fixed size and may run over the rows in any order; a read or write
outside of a buffer, a buffer of size 0 and a cell that is never written have no result (`none`).

`string_functions_iff`: when a function returns the strings or numbers of its rows.
-/
import Mathlib.Data.List.DropRight
import Mathlib.Data.List.GetD
import Mathlib.Tactic
import QikkDB.Engine.ReorderColumn
import QikkDB.Lib.Scatter

namespace QikkDB.StringFunctions

open PrefixSum Scatter
open ReorderColumn (toInt32)

/-! ## Model -/

/-- GPUString -/
structure GPUString where
  allChars : List Char
  stringIndices : List ℤ
deriving DecidableEq, Repr

/-- `PrefixSum` -/
def prefixSums (l : List ℤ) : List ℤ := (List.range l.length).map fun i => (l.take (i + 1)).sum

/-- `GetStringIndex` -/
def getStringIndex (indices : List ℤ) (i : ℕ) : Option ℤ := if i = 0 then some 0 else indices[i - 1]?

/-- `GetStringLength` -/
def getStringLength (indices : List ℤ) (i : ℕ) : Option ℤ := do
  let stop ← indices[i]?
  let start ← getStringIndex indices i
  some (stop - start)

/-- allChars[p] -/
def charAt (s : GPUString) (p : ℤ) : Option Char := if 0 ≤ p then s.allChars[p.toNat]? else none

/-- the orders of the rows and of the characters in the kernels -/
structure Order where
  predict : List ℕ
  copy : List ℕ
  chars : List ℕ

/-- the allocator throws for size 0, and a negative count is too large -/
def allocChars (totalCharCount : ℤ) : Option ℕ := if totalCharCount ≤ 0 then none else some totalCharCount.toNat

/-- the loops that copy characters -/
def copyChars (s : GPUString) (start out count : ℤ) : Option (List (ℤ × Char)) :=
  (List.range count.toNat).mapM fun (j : ℕ) => do
    let c ← charAt s (start + j)
    some (out + j, c)

/-- new indices from the predicted lengths, and the characters -/
def build (order : List ℕ) (newLengths : List ℤ) (row : List ℤ → ℕ → Option (List (ℤ × Char))) : Option GPUString := do
  let stringIndices := prefixSums newLengths
  let totalCharCount ← stringIndices[newLengths.length - 1]?
  let size ← allocChars totalCharCount
  let allChars ← kernel size order (row stringIndices)
  some ⟨allChars, stringIndices⟩

/-! ### LTRIM, RTRIM -/

inductive Trim where
  | ltrim
  | rtrim
deriving DecidableEq, Repr

def Trim.getStringIndex : Trim → ℤ → ℤ → ℤ
  | .ltrim, j, _ => j
  | .rtrim, j, length => length - 1 - j

def Trim.getOffset : Trim → ℤ → ℤ → ℤ
  | .ltrim, inLength, outLength => inLength - outLength
  | .rtrim, _, _ => 0

/-- the loop over blanks; the character is read before the length is compared -/
def countBlanks (read : ℕ → Option Char) : ℕ → ℕ → Option ℕ
  | 0, j => do
    let _ ← read j
    some j
  | left + 1, j => do
    let c ← read j
    if c = ' ' then countBlanks read left (j + 1) else some j

/-- kernel_predict_length_xtrim -/
def predictLengthXtrim (op : Trim) (order : List ℕ) (inCol : GPUString) (stringCount : ℕ) : Option (List ℤ) :=
  kernel stringCount order fun i => do
    let index ← getStringIndex inCol.stringIndices i
    let length ← getStringLength inCol.stringIndices i
    let j ← countBlanks (fun j => charAt inCol (index + op.getStringIndex j length)) length.toNat 0
    some [((i : ℤ), length - j)]

/-- a row of kernel_string_xtrim -/
def stringXtrim (op : Trim) (inCol : GPUString) (outIndices : List ℤ) (i : ℕ) : Option (List (ℤ × Char)) := do
  let inIndex ← getStringIndex inCol.stringIndices i
  let inLength ← getStringLength inCol.stringIndices i
  let outIndex ← getStringIndex outIndices i
  let outLength ← getStringLength outIndices i
  copyChars inCol (inIndex + op.getOffset inLength outLength) outIndex outLength

/-- `variable` -/
def xtrim (op : Trim) (order : Order) (input : GPUString) (stringCount : ℕ) : Option GPUString :=
  if 0 < stringCount then do
    let newLengths ← predictLengthXtrim op order.predict input stringCount
    build order.copy newLengths (stringXtrim op input)
  else some ⟨[], []⟩

/-! ### LOWER, UPPER, REVERSE -/

def lower (c : Char) : Char := if 'A' ≤ c ∧ c ≤ 'Z' then Char.ofNat (c.toNat ||| 0x20) else c

def upper (c : Char) : Char := if 'a' ≤ c ∧ c ≤ 'z' then Char.ofNat (c.toNat &&& 0xDF) else c

/-- `fixed`, with its kernel -/
def fixed (callKernel : ℕ → Option (List Char)) (input : GPUString) (stringCount : ℕ) : Option GPUString :=
  if 0 < stringCount then do
    let totalCharCount ← input.stringIndices[stringCount - 1]?
    let size ← allocChars totalCharCount
    let allChars ← callKernel size
    some ⟨allChars, input.stringIndices.take stringCount⟩
  else some ⟨[], []⟩

/-- kernel_per_char_unary -/
def perCharUnary (op : Char → Char) (order : Order) (input : GPUString) (size : ℕ) : Option (List Char) :=
  kernel size order.chars fun i => do
    let c ← charAt input i
    some [((i : ℤ), op c)]

/-- kernel_reverse_string -/
def reverseString (order : Order) (input : GPUString) (size : ℕ) : Option (List Char) :=
  kernel size order.copy fun i => do
    let firstCharIndex ← getStringIndex input.stringIndices i
    let stop ← input.stringIndices[i]?
    (List.range (stop - firstCharIndex).toNat).mapM fun (j : ℕ) => do
      let c ← charAt input (stop - 1 - j)
      some (firstCharIndex + j, c)

/-! ### LEN -/

/-- kernel_lengths_from_indices -/
def lengthsFromIndices (order : Order) (inIndices : List ℤ) (dataElementCount : ℕ) : Option (List ℤ) :=
  kernel dataElementCount order.predict fun i => do
    let length ← getStringLength inIndices i
    some [((i : ℤ), length)]

/-- the length of a constant is written to the first of the rows -/
def lenConstant (inCol : GPUString) (dataElementCount : ℕ) : Option (List ℤ) := do
  let hostIndex ← inCol.stringIndices[0]?
  fill dataElementCount [(0, hostIndex)]

/-! ### LEFT, RIGHT -/

inductive Side where
  | left
  | right
deriving DecidableEq, Repr

/-- the first character of the piece -/
def Side.start : Side → ℤ → List ℤ → ℕ → Option ℤ
  | .left, _, _, _ => some 0
  | .right, newLength, oldIndices, i => do
    let length ← getStringLength oldIndices i
    some (length - newLength)

/-- kernel_predict_length_cut -/
def predictLengthCut (order : List ℕ) (inCol : GPUString) (stringCount : ℕ) (lengthLimit : ℕ → Option ℤ)
    (numberCount : ℕ) : Option (List ℤ) :=
  kernel (if 1 < stringCount then stringCount else numberCount) order fun i => do
    let length ← getStringLength inCol.stringIndices (if 1 < stringCount then i else 0)
    let limit ← lengthLimit i
    some [((i : ℤ), min length (toInt32 limit))]

/-- a row of kernel_string_cut -/
def stringCut (op : Side) (newLengths : List ℤ) (outStringCount : ℕ) (inCol : GPUString) (inStringCount : ℕ)
    (outIndices : List ℤ) (i : ℕ) : Option (List (ℤ × Char)) := do
  let inI := if 1 < inStringCount then i else 0
  let outI := if 1 < outStringCount then i else 0
  let newLength ← newLengths[outI]?
  let outIndex ← getStringIndex outIndices outI
  let inIndex ← getStringIndex inCol.stringIndices inI
  let start ← op.start newLength inCol.stringIndices inI
  copyChars inCol (inIndex + start) outIndex newLength

/-- `GPUStringBinary::Run` of a string and a number -/
def runCut (op : Side) (order : Order) (ACol : GPUString) (stringCount : ℕ) (BCol : ℕ → Option ℤ) (numberCount : ℕ) :
    Option GPUString :=
  if stringCount < 1 ∨ numberCount < 1 then none
  else if 1 < stringCount ∧ 1 < numberCount ∧ stringCount ≠ numberCount then none
  else do
    let newLengths ← predictLengthCut order.predict ACol stringCount BCol numberCount
    build order.copy newLengths (stringCut op newLengths (max stringCount numberCount) ACol stringCount)

/-! ### CONCAT -/

/-- kernel_predict_length_concat -/
def predictLengthConcat (order : List ℕ) (inputA : GPUString) (isACol : Bool) (inputB : GPUString) (isBCol : Bool)
    (dataElementCount : ℕ) : Option (List ℤ) :=
  kernel dataElementCount order fun i => do
    let a ← getStringLength inputA.stringIndices (if isACol then i else 0)
    let b ← getStringLength inputB.stringIndices (if isBCol then i else 0)
    some [((i : ℤ), a + b)]

/-- a row of kernel_string_concat -/
def stringConcat (inputA : GPUString) (isACol : Bool) (inputB : GPUString) (isBCol : Bool) (outIndices : List ℤ)
    (i : ℕ) : Option (List (ℤ × Char)) := do
  let aI := if isACol then i else 0
  let aIndex ← getStringIndex inputA.stringIndices aI
  let aLength ← getStringLength inputA.stringIndices aI
  let bI := if isBCol then i else 0
  let bIndex ← getStringIndex inputB.stringIndices bI
  let bLength ← getStringLength inputB.stringIndices bI
  let outIndex ← getStringIndex outIndices i
  let a ← copyChars inputA aIndex outIndex aLength
  let b ← copyChars inputB bIndex (outIndex + aLength) bLength
  some (a ++ b)

/-- `GPUStringBinary::Run` of two strings -/
def runConcat (order : Order) (inputA : GPUString) (isACol : Bool) (inputB : GPUString) (isBCol : Bool)
    (dataElementCount : ℕ) : Option GPUString := do
  let newLengths ← predictLengthConcat order.predict inputA isACol inputB isBCol dataElementCount
  build order.copy newLengths (stringConcat inputA isACol inputB isBCol)

/-! ### Operands -/

/-- a column or a constant -/
inductive Operand (α : Type) where
  | column (rows : List α)
  | constant (value : α)

namespace Operand

variable {α : Type}

/-- the rows; a constant is repeated -/
def rows (n : ℕ) : Operand α → List α
  | .column rows => rows
  | .constant value => List.replicate n value

def isColumn : Operand α → Bool
  | .column _ => true
  | .constant _ => false

/-- `maybe_deref` -/
def deref : Operand α → ℕ → Option α
  | .column rows, i => rows[i]?
  | .constant value, _ => some value

end Operand

/-- the strings on the device -/
def ofRows (rows : List (List Char)) : GPUString := ⟨rows.flatten, prefixSums (rows.map fun r => (r.length : ℤ))⟩

/-- `InsertConstCompositeDataType` repeats a constant as well -/
def load (n : ℕ) (a : Operand (List Char)) : GPUString := ofRows (a.rows n)

/-- the functions with their operands -/
inductive Call where
  | trim (op : Trim) (a : Operand (List Char))
  | lower (a : Operand (List Char))
  | upper (a : Operand (List Char))
  | reverse (a : Operand (List Char))
  | len (a : Operand (List Char))
  | cut (op : Side) (a : Operand (List Char)) (k : Operand ℤ)
  | concat (a b : Operand (List Char))

inductive Result where
  | strings (s : GPUString)
  | numbers (l : List ℤ)
deriving DecidableEq, Repr

/-- `Binary` of a string and an integer: the counts that tell columns from constants -/
def binaryCut (op : Side) (order : Order) (n : ℕ) (a : Operand (List Char)) (k : Operand ℤ) : Option GPUString :=
  match a, k with
  | .column _, .column _ => runCut op order (load n a) n k.deref n
  | .column _, .constant _ => runCut op order (load n a) n k.deref 1
  | .constant _, .column _ => runCut op order (load n a) 1 k.deref n
  | .constant _, .constant _ => runCut op order (load n a) n k.deref 1

/-- `Binary` of two strings -/
def binaryConcat (order : Order) (n : ℕ) (a b : Operand (List Char)) : Option GPUString :=
  if a.isColumn || b.isColumn then runConcat order (load n a) a.isColumn (load n b) b.isColumn n
  else runConcat order (load n a) true (load n b) true n

/-- a call over n rows -/
def run (order : Order) (n : ℕ) : Call → Option Result
  | .trim op a => (xtrim op order (load n a) n).map .strings
  | .lower a => (fixed (perCharUnary lower order (load n a)) (load n a) n).map .strings
  | .upper a => (fixed (perCharUnary upper order (load n a)) (load n a) n).map .strings
  | .reverse a => (fixed (reverseString order (load n a)) (load n a) n).map .strings
  | .len (.column rows) => (lengthsFromIndices order (ofRows rows).stringIndices n).map .numbers
  | .len (.constant value) => (lenConstant (load n (.constant value)) n).map .numbers
  | .cut op a k => (binaryCut op order n a k).map .strings
  | .concat a b => (binaryConcat order n a b).map .strings

/-! ## Rows -/

/-- the function on a row -/
def Trim.apply : Trim → List Char → List Char
  | .ltrim, s => s.dropWhile (· = ' ')
  | .rtrim, s => s.rdropWhile (· = ' ')

/-- the function on a row; a negative length gives the empty string -/
def Side.apply : Side → List Char → ℤ → List Char
  | .left, s, k => s.take k.toNat
  | .right, s, k => s.drop (s.length - k.toNat)

/-- the strings or numbers of the rows -/
def Call.expected (n : ℕ) : Call → Result
  | .trim op a => .strings (ofRows ((a.rows n).map op.apply))
  | .lower a => .strings (ofRows ((a.rows n).map fun s => s.map Char.toLower))
  | .upper a => .strings (ofRows ((a.rows n).map fun s => s.map Char.toUpper))
  | .reverse a => .strings (ofRows ((a.rows n).map List.reverse))
  | .len a => .numbers ((a.rows n).map fun s => (s.length : ℤ))
  | .cut op a k => .strings (ofRows (List.zipWith op.apply (a.rows n) (k.rows n)))
  | .concat a b => .strings (ofRows (List.zipWith (· ++ ·) (a.rows n) (b.rows n)))

/-! ## The device -/

section Device

variable {l m : List ℤ} {i : ℕ} {rows texts : List (List Char)} {s : GPUString}

@[simp] theorem length_prefixSums (l : List ℤ) : (prefixSums l).length = l.length := by
  simp [prefixSums]

theorem getElem?_prefixSums (hi : i < l.length) : (prefixSums l)[i]? = some (l.take (i + 1)).sum := by
  rw [prefixSums, List.getElem?_map, List.getElem?_range hi, Option.map_some]

theorem getStringIndex_prefixSums (hi : i ≤ l.length) : getStringIndex (prefixSums l) i = some (l.take i).sum := by
  cases i with
  | zero => rfl
  | succ i => exact getElem?_prefixSums hi

theorem getStringLength_prefixSums (hi : i < l.length) : getStringLength (prefixSums l) i = some l[i] := by
  have hsum : (l.take (i + 1)).sum = (l.take i).sum + l[i] := by
    rw [List.take_add_one, List.getElem?_eq_getElem hi, List.sum_append, Option.toList_some, List.sum_singleton]
  simp [getStringLength, getElem?_prefixSums hi, getStringIndex_prefixSums hi.le, hsum]

/-- the indices determine the lengths -/
theorem prefixSums_injective : Function.Injective prefixSums := by
  intro l m h
  have hlen : l.length = m.length := by rw [← length_prefixSums l, h, length_prefixSums]
  refine List.ext_getElem hlen fun i hl hm => ?_
  have hget := getStringLength_prefixSums hl
  rw [h, getStringLength_prefixSums hm] at hget
  exact (Option.some.inj hget).symm

theorem last_prefixSums (hne : l ≠ []) : (prefixSums l)[l.length - 1]? = some l.sum := by
  have hpos := List.length_pos_iff.2 hne
  rw [getElem?_prefixSums (by omega), List.take_of_length_le (by omega)]

theorem sum_take_lengths (rows : List (List Char)) (i : ℕ) :
    ((rows.map fun r => (r.length : ℤ)).take i).sum = (offset rows i : ℤ) := by
  rw [offset, ← List.map_take]
  induction rows.take i with
  | nil => rfl
  | cons r rows ih => simp [ih]

theorem sum_lengths (rows : List (List Char)) :
    (rows.map fun r => (r.length : ℤ)).sum = (rows.flatten.length : ℤ) := by
  have hall := sum_take_lengths rows rows.length
  rwa [List.take_of_length_le (by rw [List.length_map]), offset_length] at hall

theorem getStringIndex_ofRows (hi : i ≤ rows.length) :
    getStringIndex (ofRows rows).stringIndices i = some (offset rows i : ℤ) := by
  rw [ofRows, getStringIndex_prefixSums (by rwa [List.length_map]), sum_take_lengths]

theorem getStringLength_ofRows (hi : i < rows.length) :
    getStringLength (ofRows rows).stringIndices i = some (rows[i].length : ℤ) := by
  rw [ofRows, getStringLength_prefixSums (by rwa [List.length_map]), List.getElem_map]

theorem charAt_ofRows (hi : i < rows.length) {j : ℕ} (hj : j < rows[i].length) :
    charAt (ofRows rows) (offset rows i + j) = some rows[i][j] := by
  rw [charAt, if_pos (by omega)]
  have hpos : ((offset rows i : ℤ) + j).toNat = offset rows i + j := by omega
  rw [hpos, ofRows, getElem?_flatten hi hj, List.getElem?_eq_getElem hj]

theorem charAt_eq_none_iff {p : ℤ} : charAt (ofRows rows) p = none ↔ p < 0 ∨ (rows.flatten.length : ℤ) ≤ p := by
  unfold charAt ofRows
  by_cases hp : 0 ≤ p
  · rw [if_pos hp, List.getElem?_eq_none_iff]
    change rows.flatten.length ≤ p.toNat ↔ _
    omega
  · rw [if_neg hp]
    exact ⟨fun _ => Or.inl (not_le.1 hp), fun _ => rfl⟩

/-- characters that are there are copied -/
theorem copyChars_eq {chars : List Char} {start : ℤ} (out : ℕ)
    (h : ∀ j (hj : j < chars.length), charAt s (start + j) = some chars[j]) :
    copyChars s start out chars.length = some (place out chars) := by
  have hplace := mapM_place out h
  rw [copyChars, Int.toNat_natCast]
  rw [← hplace]
  refine Traverse.mapM_congr fun j _ => ?_
  cases charAt s (start + j) <;> simp

variable (texts) in
/-- the predicted lengths are those of the texts, and each row writes its text: without characters nothing is built -/
theorem build_ofRows (order : List ℕ) (row : List ℤ → ℕ → Option (List (ℤ × Char))) (hne : texts ≠ [])
    (horder : order.Perm (List.range texts.length))
    (hrow : ∀ i (hi : i < texts.length), ∃ ws,
      row (prefixSums (texts.map fun r => (r.length : ℤ))) i = some ws ∧ ws.Perm (place (offset texts i) texts[i])) :
    build order (texts.map fun r => (r.length : ℤ)) row = if texts.flatten = [] then none else some (ofRows texts) := by
  have hlast := last_prefixSums (l := texts.map fun r => (r.length : ℤ)) (by simpa using hne)
  rw [sum_lengths] at hlast
  unfold build
  simp only [hlast, Option.bind_eq_bind, Option.bind_some, allocChars]
  by_cases hempty : texts.flatten = []
  · simp [hempty]
  · have hpos := List.length_pos_iff.2 hempty
    have hchars : kernel texts.flatten.length order (row (prefixSums (texts.map fun r => (r.length : ℤ)))) =
        some texts.flatten := by
      refine kernel_eq horder rfl fun i hi => ?_
      rw [List.getD_eq_getElem _ _ hi]
      exact hrow i hi
    rw [if_neg (by omega), if_neg hempty, Option.bind_some, Int.toNat_natCast, hchars]
    rfl

/-- whatever is built has the predicted lengths -/
theorem indices_of_build {order : List ℕ} {row : List ℤ → ℕ → Option (List (ℤ × Char))}
    (h : build order l row = some s) : s.stringIndices = prefixSums l := by
  obtain ⟨total, -, h⟩ := Option.bind_eq_some_iff.1 h
  obtain ⟨size, -, h⟩ := Option.bind_eq_some_iff.1 h
  obtain ⟨chars, -, h⟩ := Option.bind_eq_some_iff.1 h
  exact (congrArg GPUString.stringIndices (Option.some.inj h)).symm

/-- a kernel that computes a number for each row -/
theorem kernel_numbers {order : List ℕ} {n : ℕ} {f : ℕ → Option ℤ} (hn : l.length = n)
    (horder : order.Perm (List.range n)) (h : ∀ i (hi : i < l.length), f i = some l[i]) :
    kernel n order (fun i => (f i).bind fun v => some [((i : ℤ), v)]) = some l := by
  subst hn
  exact kernel_values horder fun i hi => by rw [h i hi]; rfl

end Device

/-! ## LTRIM, RTRIM -/

section Trim

variable {op : Trim} {order : Order} {n i : ℕ} {rows : List (List Char)} {r : List Char} {read : ℕ → Option Char}

def Blank (s : List Char) : Prop := ∀ c ∈ s, c = ' '

instance (s : List Char) : Decidable (Blank s) := inferInstanceAs (Decidable (∀ c ∈ s, c = ' '))

/-- the characters in the order in which they are looked at -/
def Trim.scan : Trim → List Char → List Char
  | .ltrim, s => s
  | .rtrim, s => s.reverse

/-- the blanks that are taken away -/
def Trim.blanks (op : Trim) (s : List Char) : List Char := (op.scan s).takeWhile (· = ' ')

variable (read) in
theorem countBlanks_eq (l : List Char) (j : ℕ) (h : ∀ i (hi : i < l.length), read (j + i) = some l[i]) :
    countBlanks read l.length j =
      if Blank l then (read (j + l.length)).map fun _ => j + l.length
      else some (j + (l.takeWhile (· = ' ')).length) := by
  induction l generalizing j with
  | nil =>
    rw [if_pos (by simp [Blank]), List.length_nil, Nat.add_zero, countBlanks]
    cases read j <;> rfl
  | cons c l ih =>
    have hc : read j = some c := h 0 (Nat.succ_pos _)
    have hl : ∀ i (hi : i < l.length), read (j + 1 + i) = some l[i] := by
      intro i hi
      rw [add_assoc, add_comm 1 i]
      exact h (i + 1) (Nat.succ_lt_succ hi)
    rw [List.length_cons, countBlanks, hc]
    simp only [Option.bind_eq_bind, Option.bind_some]
    by_cases hblank : c = ' '
    · have hpos : j + (l.length + 1) = j + 1 + l.length := by omega
      have hall : Blank (c :: l) ↔ Blank l := by simp [Blank, hblank]
      rw [if_pos hblank, ih (j + 1) hl, hpos, if_congr hall rfl rfl, List.takeWhile_cons_of_pos (by simpa using hblank),
        List.length_cons]
      split
      · rfl
      · rw [add_assoc, add_comm 1]
    · have hall : ¬ Blank (c :: l) := fun hall => hblank (hall c List.mem_cons_self)
      rw [if_neg hblank, if_neg hall, List.takeWhile_cons_of_neg (by simpa using hblank)]
      rfl

theorem length_scan (op : Trim) (s : List Char) : (op.scan s).length = s.length := by
  cases op
  · rfl
  · exact List.length_reverse

theorem blank_scan : Blank (op.scan r) ↔ Blank r := by
  cases op
  · rfl
  · simp [Trim.scan, Blank]

/-- what is taken away and what is left -/
theorem ltrim_append (s : List Char) : Trim.ltrim.blanks s ++ Trim.ltrim.apply s = s := List.takeWhile_append_dropWhile

theorem rtrim_append (s : List Char) : Trim.rtrim.apply s ++ (Trim.rtrim.blanks s).reverse = s := by
  change (s.reverse.dropWhile _).reverse ++ (s.reverse.takeWhile _).reverse = s
  rw [← List.reverse_append, List.takeWhile_append_dropWhile, List.reverse_reverse]

theorem length_blanks (op : Trim) (s : List Char) : (op.blanks s).length + (op.apply s).length = s.length := by
  cases op with
  | ltrim => rw [← List.length_append, ltrim_append]
  | rtrim => rw [add_comm, ← @List.length_reverse _ (Trim.rtrim.blanks s), ← List.length_append, rtrim_append]

theorem blanks_of_blank (h : Blank r) : (op.blanks r).length = r.length := by
  have hall : (op.scan r).takeWhile (· = ' ') = op.scan r :=
    List.takeWhile_eq_self_iff.2 fun c hc => by simpa using blank_scan.2 h c hc
  rw [Trim.blanks, hall, length_scan]

/-- a character that is no blank is left -/
theorem apply_ne_nil (h : ¬ Blank r) : op.apply r ≠ [] := by
  intro hnil
  have hlen := length_blanks op r
  rw [hnil, List.length_nil, Nat.add_zero] at hlen
  have hself : (op.scan r).takeWhile (· = ' ') = op.scan r :=
    (List.takeWhile_prefix _).eq_of_length (by rw [length_scan]; exact hlen)
  have hscan : Blank (op.scan r) := by
    intro c hc
    simpa using List.takeWhile_eq_self_iff.1 hself c hc
  exact h (blank_scan.1 hscan)

/-- where the loop over a blank row looks at last -/
def Trim.lastRead (op : Trim) (rows : List (List Char)) (i : ℕ) (length : ℕ) : ℤ :=
  offset rows i + op.getStringIndex length length

/-- the loop over the blanks of a row -/
theorem countBlanks_ofRows (op : Trim) (hi : i < rows.length) :
    countBlanks (fun j => charAt (ofRows rows) (offset rows i + op.getStringIndex j rows[i].length)) rows[i].length 0 =
      if Blank rows[i] then (charAt (ofRows rows) (op.lastRead rows i rows[i].length)).map fun _ => rows[i].length
      else some (op.blanks rows[i]).length := by
  have hread : ∀ j (hj : j < (op.scan rows[i]).length),
      charAt (ofRows rows) (offset rows i + op.getStringIndex (0 + j : ℕ) rows[i].length) =
        some (op.scan rows[i])[j] := by
    intro j hj
    rw [length_scan] at hj
    cases op with
    | ltrim =>
      rw [zero_add]
      exact charAt_ofRows hi hj
    | rtrim =>
      have hlt : rows[i].length - 1 - j < rows[i].length := by omega
      have hpos : (Trim.rtrim).getStringIndex (0 + j : ℕ) rows[i].length = ((rows[i].length - 1 - j : ℕ) : ℤ) := by
        simp only [Trim.getStringIndex]
        omega
      rw [hpos, charAt_ofRows hi hlt]
      simp [Trim.scan]
  have hcount := countBlanks_eq (fun j => charAt (ofRows rows) (offset rows i + op.getStringIndex j rows[i].length))
    (op.scan rows[i]) 0 hread
  rw [length_scan, zero_add] at hcount
  rw [hcount, if_congr blank_scan rfl rfl, zero_add]
  rfl

/-- the read behind a blank row, for each of the functions -/
def ReadsInside (op : Trim) (rows : List (List Char)) : Prop :=
  ∀ i (hi : i < rows.length), Blank rows[i] → charAt (ofRows rows) (op.lastRead rows i rows[i].length) ≠ none

theorem predictLengthXtrim_row (op : Trim) (hi : i < rows.length) :
    (do
      let index ← getStringIndex (ofRows rows).stringIndices i
      let length ← getStringLength (ofRows rows).stringIndices i
      let j ← countBlanks (fun j => charAt (ofRows rows) (index + op.getStringIndex j length)) length.toNat 0
      some [((i : ℤ), length - j)]) =
      if Blank rows[i] ∧ charAt (ofRows rows) (op.lastRead rows i rows[i].length) = none then none
      else some [((i : ℤ), ((op.apply rows[i]).length : ℤ))] := by
  have hlen := length_blanks op rows[i]
  simp only [getStringIndex_ofRows hi.le, getStringLength_ofRows hi, Option.bind_eq_bind, Option.bind_some,
    Int.toNat_natCast, countBlanks_ofRows op hi]
  by_cases hblank : Blank rows[i]
  · have hall : (op.blanks rows[i]).length = rows[i].length := blanks_of_blank hblank
    cases hread : charAt (ofRows rows) (op.lastRead rows i rows[i].length) with
    | none => simp [hblank]
    | some c =>
      have hzero : (op.apply rows[i]).length = 0 := by omega
      simp [hblank, hzero]
  · have hdiff : (rows[i].length : ℤ) - (op.blanks rows[i]).length = (op.apply rows[i]).length := by omega
    simp [hblank, hdiff]

theorem predictLengthXtrim_eq (hn : rows.length = n) (horder : order.predict.Perm (List.range n))
    (h : ReadsInside op rows) :
    predictLengthXtrim op order.predict (ofRows rows) n = some (rows.map fun r => ((op.apply r).length : ℤ)) := by
  subst hn
  have hlen : (rows.map fun r => ((op.apply r).length : ℤ)).length = rows.length := List.length_map _
  unfold predictLengthXtrim
  conv_lhs => rw [← hlen]
  refine kernel_values (by rwa [hlen]) fun i hi => ?_
  rw [hlen] at hi
  rw [predictLengthXtrim_row op hi, if_neg fun hout => h i hi hout.1 hout.2, List.getElem_map]

theorem predictLengthXtrim_none (hn : rows.length = n) (horder : order.predict.Perm (List.range n))
    (h : ¬ ReadsInside op rows) : predictLengthXtrim op order.predict (ofRows rows) n = none := by
  subst hn
  unfold ReadsInside at h
  push Not at h
  obtain ⟨i, hi, hblank, hout⟩ := h
  have hmem : i ∈ order.predict := horder.mem_iff.2 (List.mem_range.2 hi)
  have hrow := (predictLengthXtrim_row op hi).trans (if_pos ⟨hblank, hout⟩)
  rw [predictLengthXtrim, kernel, Traverse.mapM_none hmem hrow]
  rfl

/-- a row of the copy -/
theorem stringXtrim_row (op : Trim) (hi : i < rows.length) :
    stringXtrim op (ofRows rows) (prefixSums ((rows.map op.apply).map fun r => (r.length : ℤ))) i =
      some (place (offset (rows.map op.apply) i) (op.apply rows[i])) := by
  have hi' : i < (rows.map op.apply).length := by rwa [List.length_map]
  have hstart : getStringIndex (prefixSums ((rows.map op.apply).map fun r => (r.length : ℤ))) i =
      some (offset (rows.map op.apply) i : ℤ) := getStringIndex_ofRows hi'.le
  have hlength : getStringLength (prefixSums ((rows.map op.apply).map fun r => (r.length : ℤ))) i =
      some ((op.apply rows[i]).length : ℤ) := by
    have hget := getStringLength_ofRows hi'
    rwa [List.getElem_map] at hget
  simp only [stringXtrim, getStringIndex_ofRows hi.le, getStringLength_ofRows hi, hstart, hlength, Option.bind_eq_bind,
    Option.bind_some]
  refine copyChars_eq _ fun j hj => ?_
  have hlen := length_blanks op rows[i]
  cases op with
  | ltrim =>
    have hlt : (Trim.ltrim.blanks rows[i]).length + j < rows[i].length := by omega
    have hpos : (offset rows i : ℤ) + Trim.ltrim.getOffset rows[i].length (Trim.ltrim.apply rows[i]).length + j =
        offset rows i + ((Trim.ltrim.blanks rows[i]).length + j : ℕ) := by
      change (offset rows i : ℤ) + (rows[i].length - (Trim.ltrim.apply rows[i]).length) + j = _
      omega
    rw [hpos, charAt_ofRows hi hlt]
    have hget : (Trim.ltrim.blanks rows[i] ++ Trim.ltrim.apply rows[i])[(Trim.ltrim.blanks rows[i]).length + j]? =
        (Trim.ltrim.apply rows[i])[j]? := by
      rw [List.getElem?_append_right (by omega), Nat.add_sub_cancel_left]
    rwa [ltrim_append, List.getElem?_eq_getElem hlt, List.getElem?_eq_getElem hj] at hget
  | rtrim =>
    have hlt : j < rows[i].length := by omega
    have hget := @List.getElem?_append_left _ _ (Trim.rtrim.blanks rows[i]).reverse _ hj
    rw [rtrim_append, List.getElem?_eq_getElem hlt, List.getElem?_eq_getElem hj] at hget
    change charAt (ofRows rows) (offset rows i + 0 + j) = _
    rw [add_zero, charAt_ofRows hi hlt]
    exact hget

/-- The row that is looked at last is not blank: the last row of LTRIM, the first of RTRIM. -/
def TrimFine (op : Trim) (rows : List (List Char)) : Prop :=
  match op with
  | .ltrim => ∃ r ∈ rows.getLast?, ¬ Blank r
  | .rtrim => ∃ r ∈ rows.head?, ¬ Blank r

theorem readsInside_iff (op : Trim) (hne : rows ≠ []) : ReadsInside op rows ↔ TrimFine op rows := by
  have hpos := List.length_pos_iff.2 hne
  unfold TrimFine
  cases op with
  | ltrim =>
    have hlast : rows.length - 1 < rows.length := by omega
    have hend : offset rows (rows.length - 1) + (rows[rows.length - 1]).length = rows.flatten.length := by
      rw [← offset_succ hlast, Nat.sub_add_cancel hpos, offset_length]
    simp only [List.getLast?_eq_some_getLast hne, List.getLast_eq_getElem, Option.mem_some_iff, exists_eq_left']
    constructor
    · intro h hblank
      refine h _ hlast hblank (charAt_eq_none_iff.2 (Or.inr ?_))
      simp only [Trim.lastRead, Trim.getStringIndex]
      omega
    · intro h i hi hblank hout
      have hne' : i ≠ rows.length - 1 := by
        rintro rfl
        exact h hblank
      -- the last row lies behind the blank one, and has characters
      have hsome : 0 < (rows[rows.length - 1]).length := by
        rw [List.length_pos_iff]
        intro hnil
        exact h (by simp [hnil, Blank])
      have hbefore : offset rows i + (rows[i]).length ≤ offset rows (rows.length - 1) := by
        rw [← offset_succ hi]
        exact offset_mono rows (by omega)
      rcases charAt_eq_none_iff.1 hout with hneg | hlarge <;> simp only [Trim.lastRead, Trim.getStringIndex] at *
      · omega
      · omega
  | rtrim =>
    simp only [List.head?_eq_some_head hne, List.head_eq_getElem, Option.mem_some_iff, exists_eq_left']
    constructor
    · intro h hblank
      refine h 0 hpos hblank (charAt_eq_none_iff.2 (Or.inl ?_))
      simp only [Trim.lastRead, Trim.getStringIndex, offset, List.take_zero, List.map_nil, List.sum_nil]
      omega
    · intro h i hi hblank hout
      have hne' : i ≠ 0 := by
        rintro rfl
        exact h hblank
      -- the first row lies before the blank one, and has characters
      have hsome : 0 < (rows[0]).length := by
        rw [List.length_pos_iff]
        intro hnil
        exact h (by simp [hnil, Blank])
      have hbefore : offset rows 0 + (rows[0]).length ≤ offset rows i := by
        rw [← offset_succ hpos]
        exact offset_mono rows (by omega)
      have hwindow := window_le hi
      rcases charAt_eq_none_iff.1 hout with hneg | hlarge <;> simp only [Trim.lastRead, Trim.getStringIndex] at *
      · omega
      · omega

theorem xtrim_iff (op : Trim) (hne : rows ≠ []) (hn : rows.length = n) (hpredict : order.predict.Perm (List.range n))
    (hcopy : order.copy.Perm (List.range n)) :
    xtrim op order (ofRows rows) n = some (ofRows (rows.map op.apply)) ↔ TrimFine op rows := by
  have hpos : 0 < n := by rw [← hn]; exact List.length_pos_iff.2 hne
  rw [xtrim, if_pos hpos]
  by_cases hinside : ReadsInside op rows
  · have hfine : TrimFine op rows := (readsInside_iff op hne).1 hinside
    refine iff_of_true ?_ hfine
    have hlengths : (rows.map fun r => ((op.apply r).length : ℤ)) =
        (rows.map op.apply).map fun r => (r.length : ℤ) := by
      rw [List.map_map]
      rfl
    have hsome : (rows.map op.apply).flatten ≠ [] := by
      intro hnil
      rw [List.flatten_eq_nil_iff] at hnil
      cases op with
      | ltrim =>
        obtain ⟨r, hr, hblank⟩ := hfine
        exact apply_ne_nil hblank (hnil _ (List.mem_map_of_mem (List.mem_of_getLast? hr)))
      | rtrim =>
        obtain ⟨r, hr, hblank⟩ := hfine
        exact apply_ne_nil hblank (hnil _ (List.mem_map_of_mem (List.mem_of_head? hr)))
    have hbuild := build_ofRows (rows.map op.apply) order.copy (stringXtrim op (ofRows rows))
      (by simpa using hne) (by rwa [List.length_map, hn]) fun i hi => by
        rw [List.length_map] at hi
        rw [List.getElem_map]
        exact ⟨_, stringXtrim_row op hi, List.Perm.refl _⟩
    rw [predictLengthXtrim_eq hn hpredict hinside, hlengths, Option.bind_eq_bind, Option.bind_some, hbuild,
      if_neg hsome]
  · refine iff_of_false ?_ fun hfine => hinside ((readsInside_iff op hne).2 hfine)
    rw [predictLengthXtrim_none hn hpredict hinside]
    simp

end Trim

/-! ## LOWER, UPPER, REVERSE -/

section Fixed

variable {order : Order} {n : ℕ} {rows texts : List (List Char)}

/-- the indices are kept, and the characters of all rows are computed -/
theorem fixed_iff {callKernel : ℕ → Option (List Char)} (hne : rows ≠ []) (hn : rows.length = n)
    (hlengths : texts.map List.length = rows.map List.length)
    (hkernel : callKernel rows.flatten.length = some texts.flatten) :
    fixed callKernel (ofRows rows) n = some (ofRows texts) ↔ ∃ r ∈ rows, r ≠ [] := by
  have hpos : 0 < n := by rw [← hn]; exact List.length_pos_iff.2 hne
  have hlast := last_prefixSums (l := rows.map fun r => (r.length : ℤ)) (by simpa using hne)
  rw [List.length_map, hn, sum_lengths] at hlast
  have hindices : (ofRows rows).stringIndices.take n = prefixSums (texts.map fun r => (r.length : ℤ)) := by
    have hcast : ∀ l : List (List Char), (l.map fun r => (r.length : ℤ)) = (l.map List.length).map Nat.cast := by
      intro l
      rw [List.map_map]
      rfl
    rw [ofRows, List.take_of_length_le (by simp [hn]), hcast, hcast, hlengths]
  have hsome : (∃ r ∈ rows, r ≠ []) ↔ rows.flatten ≠ [] := by
    rw [Ne, List.flatten_eq_nil_iff]
    push Not
    rfl
  have hlast' : (ofRows rows).stringIndices[n - 1]? = some (rows.flatten.length : ℤ) := hlast
  rw [hsome, fixed, if_pos hpos]
  simp only [hlast', Option.bind_eq_bind, Option.bind_some, allocChars, hindices]
  by_cases hempty : rows.flatten = []
  · simp [hempty]
  · have htotal := List.length_pos_iff.2 hempty
    rw [if_neg (by omega), Option.bind_some, Int.toNat_natCast, hkernel]
    exact iff_of_true rfl hempty

theorem perCharUnary_eq (op : Char → Char) (hchars : order.chars.Perm (List.range rows.flatten.length)) :
    perCharUnary op order (ofRows rows) rows.flatten.length = some (rows.map fun r => r.map op).flatten := by
  have hflat : (rows.map fun r => r.map op).flatten = rows.flatten.map op := List.map_flatten.symm
  have hlen : (rows.flatten.map op).length = rows.flatten.length := List.length_map _
  rw [hflat]
  unfold perCharUnary
  conv_lhs => rw [← hlen]
  refine kernel_values (by rwa [hlen]) fun i hi => ?_
  rw [hlen] at hi
  have hread : charAt (ofRows rows) i = some rows.flatten[i] := by
    rw [charAt, if_pos (Int.natCast_nonneg i), Int.toNat_natCast]
    exact List.getElem?_eq_getElem hi
  rw [hread, List.getElem_map]
  rfl

theorem reverseString_eq (hcopy : order.copy.Perm (List.range rows.length)) :
    reverseString order (ofRows rows) rows.flatten.length = some (rows.map List.reverse).flatten := by
  have hlengths : (rows.map List.reverse).map List.length = rows.map List.length := by
    rw [List.map_map]
    exact List.map_congr_left fun r _ => List.length_reverse
  have hsize : rows.flatten.length = (rows.map List.reverse).flatten.length := by
    rw [List.length_flatten, List.length_flatten, hlengths]
  refine kernel_eq (by rwa [List.length_map]) hsize fun i hi => ?_
  rw [List.length_map] at hi
  have hoffset : offset (rows.map List.reverse) i = offset rows i := by rw [offset_eq, offset_eq, hlengths]
  have hstop : (ofRows rows).stringIndices[i]? = some ((offset rows i + rows[i].length : ℕ) : ℤ) := by
    rw [← offset_succ hi]
    exact getStringIndex_ofRows (i := i + 1) hi
  have hcount : (((offset rows i + rows[i].length : ℕ) : ℤ) - (offset rows i : ℕ)).toNat = rows[i].reverse.length := by
    rw [List.length_reverse]
    omega
  have hread : ∀ j (hj : j < rows[i].reverse.length),
      charAt (ofRows rows) (((offset rows i + rows[i].length : ℕ) : ℤ) - 1 - j) = some rows[i].reverse[j] := by
    intro j hj
    rw [List.length_reverse] at hj
    have hlt : rows[i].length - 1 - j < rows[i].length := by omega
    have hpos : ((offset rows i + rows[i].length : ℕ) : ℤ) - 1 - j =
        offset rows i + (rows[i].length - 1 - j : ℕ) := by omega
    rw [hpos, charAt_ofRows hi hlt, List.getElem_reverse]
  refine ⟨place (offset rows i : ℕ) rows[i].reverse, ?_, ?_⟩
  · have hplace := mapM_place (offset rows i) hread
    simp only [getStringIndex_ofRows hi.le, hstop, Option.bind_eq_bind, Option.bind_some, hcount]
    rw [← hplace]
    refine Traverse.mapM_congr fun j _ => ?_
    push_cast
    rfl
  · rw [hoffset, List.getD_eq_getElem _ _ (by rwa [List.length_map]), List.getElem_map]

theorem char_cases {p q : ℕ} {f g : Char → Char} (h : ∀ n < q, p ≤ n → f (Char.ofNat n) = g (Char.ofNat n)) {c : Char}
    (hp : p ≤ c.toNat) (hq : c.toNat < q) : f c = g c := by
  have hc := h c.toNat hq hp
  rwa [Char.ofNat_toNat] at hc

theorem lower_eq (c : Char) : lower c = c.toLower := by
  by_cases hc : 'A' ≤ c ∧ c ≤ 'Z'
  · exact char_cases (p := 65) (q := 91) (by decide) hc.1 (Nat.lt_succ_of_le hc.2)
  · have hval : ¬ (c.val ≥ 'A'.val ∧ c.val ≤ 'Z'.val) := hc
    rw [lower, if_neg hc]
    delta Char.toLower
    rw [dif_neg hval]

theorem upper_eq (c : Char) : upper c = c.toUpper := by
  by_cases hc : 'a' ≤ c ∧ c ≤ 'z'
  · exact char_cases (p := 97) (q := 123) (by decide) hc.1 (Nat.lt_succ_of_le hc.2)
  · have hval : ¬ ('a'.val ≤ c.val ∧ c.val ≤ 'z'.val) := hc
    rw [upper, if_neg hc]
    delta Char.toUpper
    rw [dif_neg hval]

end Fixed

/-! ## LEN -/

section Len

variable {order : Order} {n : ℕ} {rows : List (List Char)}

theorem lengthsFromIndices_eq (hn : rows.length = n) (hpredict : order.predict.Perm (List.range n)) :
    lengthsFromIndices order (ofRows rows).stringIndices n = some (rows.map fun r => (r.length : ℤ)) := by
  subst hn
  have hlen : (rows.map fun r => (r.length : ℤ)).length = rows.length := List.length_map _
  unfold lengthsFromIndices
  conv_lhs => rw [← hlen]
  refine kernel_values (by rwa [hlen]) fun i hi => ?_
  rw [hlen] at hi
  rw [getStringLength_ofRows hi, List.getElem_map]
  rfl

/-- Only the first row is written. -/
theorem lenConstant_iff (hpos : 0 < n) (value : List Char) :
    lenConstant (ofRows (List.replicate n value)) n = some (List.replicate n (value.length : ℤ)) ↔ n = 1 := by
  have hfirst : (ofRows (List.replicate n value)).stringIndices[0]? = some (value.length : ℤ) := by
    have hget := getElem?_prefixSums (l := (List.replicate n value).map fun r => (r.length : ℤ)) (i := 0) (by simpa)
    rw [ofRows, hget, List.map_replicate, List.take_replicate, Nat.min_eq_left hpos]
    simp
  simp only [lenConstant, hfirst, Option.bind_eq_bind, Option.bind_some]
  obtain ⟨n, rfl⟩ := Nat.exists_eq_succ_of_ne_zero hpos.ne'
  cases n with
  | zero => exact iff_of_true rfl rfl
  | succ n =>
    refine iff_of_false ?_ (by omega)
    have hwrite : [((0 : ℤ), (value.length : ℤ))].foldlM write (List.replicate (n + 2) none) =
        some (some (value.length : ℤ) :: none :: List.replicate n none) := by
      rw [List.foldlM_cons, write, if_pos (by simp; omega)]
      rfl
    have hnone : (some (value.length : ℤ) :: none :: List.replicate n none).mapM id = none :=
      Traverse.mapM_none (a := none) (by simp) rfl
    rw [fill, hwrite, Option.bind_some, hnone]
    simp

end Len

/-! ## LEFT, RIGHT -/

section Cut

variable {op : Side} {order : Order} {n i : ℕ} {rows : List (List Char)} {ks : List ℤ}

/-- a length that is not changed by the cast to int32_t, or whose cast cuts the string in the same place -/
def CutFits (r : List Char) (k : ℤ) : Prop :=
  (0 ≤ k ∧ k < 2 ^ 31) ∨ (2 ^ 31 ≤ k ∧ r.length ≤ toInt32 k) ∨
    (k < 0 ∧ (toInt32 k = 0 ∨ r = [] ∧ 0 ≤ toInt32 k))

instance (r : List Char) (k : ℤ) : Decidable (CutFits r k) := inferInstanceAs (Decidable (_ ∨ _))

theorem length_apply (op : Side) (r : List Char) (k : ℤ) : (op.apply r k).length = min r.length k.toNat := by
  cases op with
  | left =>
    rw [Side.apply, List.length_take]
    exact min_comm _ _
  | right =>
    rw [Side.apply, List.length_drop]
    omega

/-- the predicted length is that of the piece -/
theorem cutFits_iff (op : Side) (r : List Char) (k : ℤ) :
    min (r.length : ℤ) (toInt32 k) = (op.apply r k).length ↔ CutFits r k := by
  have hlow : -2 ^ 31 ≤ toInt32 k := Int.le_bmod (by decide)
  have hhigh : toInt32 k < 2 ^ 31 := Int.bmod_lt (by decide)
  have hsame : 0 ≤ k → k < 2 ^ 31 → toInt32 k = k := fun h₀ h₁ => Int.bmod_eq_of_le (by omega) (by omega)
  have hempty : r = [] ↔ r.length = 0 := List.length_eq_zero_iff.symm
  rw [length_apply, CutFits, hempty]
  by_cases hneg : k < 0
  · omega
  · by_cases hlarge : k < 2 ^ 31
    · have heq := hsame (not_lt.1 hneg) hlarge
      omega
    · omega

/-- the predicted lengths -/
def cutLengths (rows : List (List Char)) (ks : List ℤ) : List ℤ :=
  List.zipWith (fun r k => min (r.length : ℤ) (toInt32 k)) rows ks

/-- the counts of a call: n rows come out, and each row has its string -/
structure Counts (rows : List (List Char)) (n stringCount numberCount : ℕ) : Prop where
  strings : 0 < stringCount
  numbers : 0 < numberCount
  agree : ¬ (1 < stringCount ∧ 1 < numberCount ∧ stringCount ≠ numberCount)
  output : max stringCount numberCount = n
  predicted : (if 1 < stringCount then stringCount else numberCount) = n
  row : ∀ i < n, rows[if 1 < stringCount then i else 0]? = rows[i]?

variable {stringCount numberCount : ℕ} {BCol : ℕ → Option ℤ}

theorem predictLengthCut_eq (hcounts : Counts rows n stringCount numberCount) (hrows : rows.length = n)
    (hks : ks.length = n) (hB : ∀ i < n, BCol i = ks[i]?) (hpredict : order.predict.Perm (List.range n)) :
    predictLengthCut order.predict (ofRows rows) stringCount BCol numberCount = some (cutLengths rows ks) := by
  have hlen : (cutLengths rows ks).length = n := by
    rw [cutLengths, List.length_zipWith, hrows, hks, Nat.min_self]
  unfold predictLengthCut
  rw [hcounts.predicted]
  conv_lhs => rw [← hlen]
  refine kernel_values (by rwa [hlen]) fun i hi => ?_
  rw [hlen] at hi
  have hi₁ : i < rows.length := hrows ▸ hi
  have hi₂ : i < ks.length := hks ▸ hi
  have hsame := hcounts.row i hi
  rw [List.getElem?_eq_getElem hi₁] at hsame
  obtain ⟨hinI, hrow⟩ := List.getElem?_eq_some_iff.1 hsame
  rw [getStringLength_ofRows hinI, hrow, hB i hi, List.getElem?_eq_getElem hi₂]
  simp [cutLengths]

/-- a row whose length is predicted is cut -/
theorem stringCut_row (hcounts : Counts rows n stringCount numberCount) (hrows : rows.length = n) (hks : ks.length = n)
    (hfits : cutLengths rows ks = (List.zipWith op.apply rows ks).map fun r => (r.length : ℤ)) (hi : i < n) :
    stringCut op (cutLengths rows ks) n (ofRows rows) stringCount
        (prefixSums ((List.zipWith op.apply rows ks).map fun r => (r.length : ℤ))) i =
      some (place (offset (List.zipWith op.apply rows ks) i)
        (op.apply (rows.get ⟨i, hrows ▸ hi⟩) (ks.get ⟨i, hks ▸ hi⟩))) := by
  have hi₁ : i < rows.length := hrows ▸ hi
  have hi₂ : i < ks.length := hks ▸ hi
  have hi₃ : i < (List.zipWith op.apply rows ks).length := by
    rw [List.length_zipWith]
    omega
  have hsame := hcounts.row i hi
  rw [List.getElem?_eq_getElem hi₁] at hsame
  obtain ⟨hinI, hrow⟩ := List.getElem?_eq_some_iff.1 hsame
  have hout : (if 1 < n then i else 0) = i := by
    split <;> omega
  have hnew : (cutLengths rows ks)[i]? = some ((op.apply rows[i] ks[i]).length : ℤ) := by
    rw [hfits, List.getElem?_map, List.getElem?_eq_getElem hi₃, List.getElem_zipWith, Option.map_some]
  have hstart : getStringIndex (prefixSums ((List.zipWith op.apply rows ks).map fun r => (r.length : ℤ))) i =
      some (offset (List.zipWith op.apply rows ks) i : ℤ) := getStringIndex_ofRows hi₃.le
  have hread : ∀ j (hj : j < rows[i].length),
      charAt (ofRows rows) (offset rows (if 1 < stringCount then i else 0) + j) = some rows[i][j] := by
    intro j hj
    rw [charAt_ofRows hinI (by rwa [hrow])]
    simp only [hrow]
  have hlen := length_apply op rows[i] ks[i]
  simp only [stringCut, hout, hnew, hstart, getStringIndex_ofRows hinI.le, Option.bind_eq_bind, Option.bind_some,
    List.get_eq_getElem]
  cases op with
  | left =>
    simp only [Side.start, Option.bind_some]
    refine copyChars_eq _ fun j hj => ?_
    rw [add_zero, hread j (by omega)]
    simp [Side.apply]
  | right =>
    simp only [Side.start, getStringLength_ofRows hinI, hrow, Option.bind_eq_bind, Option.bind_some]
    refine copyChars_eq _ fun j hj => ?_
    have hpos : (offset rows (if 1 < stringCount then i else 0) : ℤ) +
        (rows[i].length - (Side.right.apply rows[i] ks[i]).length) + j =
        offset rows (if 1 < stringCount then i else 0) + (rows[i].length - ks[i].toNat + j : ℕ) := by
      omega
    rw [hpos, hread _ (by omega)]
    simp [Side.apply]

/-- all lengths fit, and a row has characters left -/
def CutFine (rows : List (List Char)) (ks : List ℤ) : Prop :=
  (∀ p ∈ rows.zip ks, CutFits p.1 p.2) ∧ ∃ p ∈ rows.zip ks, p.1 ≠ [] ∧ 0 < p.2

variable (op) in
theorem cutLengths_eq_iff :
    (cutLengths rows ks = (List.zipWith op.apply rows ks).map fun r => (r.length : ℤ)) ↔
      ∀ p ∈ rows.zip ks, CutFits p.1 p.2 := by
  have hzip₁ : cutLengths rows ks = (rows.zip ks).map fun p => min (p.1.length : ℤ) (toInt32 p.2) := by
    rw [cutLengths, List.zip, List.map_zipWith]
  have hzip₂ : ((List.zipWith op.apply rows ks).map fun r => (r.length : ℤ)) =
      (rows.zip ks).map fun p => ((op.apply p.1 p.2).length : ℤ) := by
    rw [List.zip, List.map_zipWith, List.map_zipWith]
  rw [hzip₁, hzip₂, List.map_inj_left]
  exact forall₂_congr fun p _ => cutFits_iff op p.1 p.2

theorem apply_ne_nil_iff (op : Side) (r : List Char) (k : ℤ) : op.apply r k ≠ [] ↔ r ≠ [] ∧ 0 < k := by
  rw [← List.length_pos_iff, length_apply, ← List.length_pos_iff]
  omega

theorem runCut_iff (hcounts : Counts rows n stringCount numberCount) (hrows : rows.length = n) (hks : ks.length = n)
    (hpos : 0 < n) (hB : ∀ i < n, BCol i = ks[i]?) (hpredict : order.predict.Perm (List.range n))
    (hcopy : order.copy.Perm (List.range n)) :
    runCut op order (ofRows rows) stringCount BCol numberCount = some (ofRows (List.zipWith op.apply rows ks)) ↔
      CutFine rows ks := by
  have hcount : ¬ (stringCount < 1 ∨ numberCount < 1) := by
    have hs := hcounts.strings
    have hk := hcounts.numbers
    omega
  rw [runCut, if_neg hcount, if_neg hcounts.agree, predictLengthCut_eq hcounts hrows hks hB hpredict, hcounts.output]
  simp only [Option.bind_eq_bind, Option.bind_some]
  have hlen : (List.zipWith op.apply rows ks).length = n := by rw [List.length_zipWith, hrows, hks, Nat.min_self]
  by_cases hfits : ∀ p ∈ rows.zip ks, CutFits p.1 p.2
  · have hlengths := (cutLengths_eq_iff op).2 hfits
    have hbuild := build_ofRows (List.zipWith op.apply rows ks) order.copy
      (stringCut op (cutLengths rows ks) n (ofRows rows) stringCount)
      (by rw [Ne, ← List.length_eq_zero_iff]; omega) (by rwa [hlen]) fun i hi => by
        rw [hlen] at hi
        rw [List.getElem_zipWith]
        exact ⟨_, stringCut_row hcounts hrows hks hlengths hi, List.Perm.refl _⟩
    have hsome : (∃ p ∈ rows.zip ks, p.1 ≠ [] ∧ 0 < p.2) ↔ (List.zipWith op.apply rows ks).flatten ≠ [] := by
      have hzip : List.zipWith op.apply rows ks = (rows.zip ks).map fun p => op.apply p.1 p.2 := by
        rw [List.zip, List.map_zipWith]
      rw [hzip, Ne, List.flatten_eq_nil_iff]
      simp only [List.forall_mem_map, not_forall, ← apply_ne_nil_iff op, exists_prop, Ne]
    rw [← hlengths] at hbuild
    rw [hbuild, CutFine, hsome]
    by_cases hempty : (List.zipWith op.apply rows ks).flatten = []
    · simp [hempty]
    · rw [if_neg hempty]
      exact iff_of_true rfl ⟨hfits, hempty⟩
  · refine iff_of_false (fun hbuild => hfits ?_) fun hfine => hfits hfine.1
    have hindices := indices_of_build hbuild
    exact (cutLengths_eq_iff op).1 (prefixSums_injective hindices).symm

end Cut

/-! ## CONCAT -/

section Concat

variable {order : Order} {n i : ℕ} {A B : List (List Char)} {isACol isBCol : Bool}

/-- a constant is read from its first copy -/
def SameRow (rows : List (List Char)) (isCol : Bool) (n : ℕ) : Prop := ∀ i < n, rows[if isCol then i else 0]? = rows[i]?

theorem runConcat_iff (hA : A.length = n) (hB : B.length = n) (hpos : 0 < n) (hrowA : SameRow A isACol n)
    (hrowB : SameRow B isBCol n) (hpredict : order.predict.Perm (List.range n))
    (hcopy : order.copy.Perm (List.range n)) :
    runConcat order (ofRows A) isACol (ofRows B) isBCol n = some (ofRows (List.zipWith (· ++ ·) A B)) ↔
      (∃ r ∈ A, r ≠ []) ∨ ∃ r ∈ B, r ≠ [] := by
  have hlen : (List.zipWith (· ++ ·) A B).length = n := by rw [List.length_zipWith, hA, hB, Nat.min_self]
  have hread : ∀ {rows : List (List Char)} {isCol : Bool}, rows.length = n → SameRow rows isCol n → ∀ i (hi : i < n)
      (hi' : i < rows.length), ∃ hin : (if isCol then i else 0) < rows.length,
        rows[if isCol then i else 0] = rows[i] := by
    intro rows isCol _ hsame i hi hi'
    have hrow := hsame i hi
    rw [List.getElem?_eq_getElem hi'] at hrow
    exact List.getElem?_eq_some_iff.1 hrow
  have hnew : predictLengthConcat order.predict (ofRows A) isACol (ofRows B) isBCol n =
      some ((List.zipWith (· ++ ·) A B).map fun r => (r.length : ℤ)) := by
    have hlen' : ((List.zipWith (· ++ ·) A B).map fun r => (r.length : ℤ)).length = n := by rw [List.length_map, hlen]
    unfold predictLengthConcat
    conv_lhs => rw [← hlen']
    refine kernel_values (by rwa [hlen']) fun i hi => ?_
    rw [hlen'] at hi
    obtain ⟨ha, haeq⟩ := hread hA hrowA i hi (hA ▸ hi)
    obtain ⟨hb, hbeq⟩ := hread hB hrowB i hi (hB ▸ hi)
    rw [getStringLength_ofRows ha, getStringLength_ofRows hb, haeq, hbeq]
    simp
  have hbuild := build_ofRows (List.zipWith (· ++ ·) A B) order.copy
    (stringConcat (ofRows A) isACol (ofRows B) isBCol)
    (by rw [Ne, ← List.length_eq_zero_iff]; omega) (by rwa [hlen]) fun i hi => by
      have hi' := hi
      rw [hlen] at hi'
      obtain ⟨ha, haeq⟩ := hread hA hrowA i hi' (hA ▸ hi')
      obtain ⟨hb, hbeq⟩ := hread hB hrowB i hi' (hB ▸ hi')
      have hstart : getStringIndex (prefixSums ((List.zipWith (· ++ ·) A B).map fun r => (r.length : ℤ))) i =
          some (offset (List.zipWith (· ++ ·) A B) i : ℤ) := getStringIndex_ofRows hi.le
      have hcopyA := copyChars_eq (offset (List.zipWith (· ++ ·) A B) i) fun j hj => charAt_ofRows ha (j := j) hj
      have hcopyB := copyChars_eq (offset (List.zipWith (· ++ ·) A B) i + A[if isACol then i else 0].length)
        fun j hj => charAt_ofRows hb (j := j) hj
      push_cast at hcopyB
      refine ⟨_, ?_, List.Perm.refl _⟩
      simp only [stringConcat, getStringIndex_ofRows ha.le, getStringLength_ofRows ha, getStringIndex_ofRows hb.le,
        getStringLength_ofRows hb, hstart, hcopyA, hcopyB, Option.bind_eq_bind, Option.bind_some]
      rw [List.getElem_zipWith, place_append, haeq, hbeq]
  have hsome : ((∃ r ∈ A, r ≠ []) ∨ ∃ r ∈ B, r ≠ []) ↔ (List.zipWith (· ++ ·) A B).flatten ≠ [] := by
    rw [Ne, List.flatten_eq_nil_iff]
    constructor
    · rintro (⟨r, hr, hne⟩ | ⟨r, hr, hne⟩) hall
      · obtain ⟨i, hi, rfl⟩ := List.getElem_of_mem hr
        have hnil := hall (A[i] ++ B.get ⟨i, by omega⟩) (List.mem_iff_getElem.2 ⟨i, by omega, by simp⟩)
        exact hne (List.append_eq_nil_iff.1 hnil).1
      · obtain ⟨i, hi, rfl⟩ := List.getElem_of_mem hr
        have hnil := hall (A.get ⟨i, by omega⟩ ++ B[i]) (List.mem_iff_getElem.2 ⟨i, by omega, by simp⟩)
        exact hne (List.append_eq_nil_iff.1 hnil).2
    · intro hall
      push Not at hall
      obtain ⟨r, hr, hne⟩ := hall
      obtain ⟨i, hi, rfl⟩ := List.getElem_of_mem hr
      rw [List.length_zipWith] at hi
      rw [List.getElem_zipWith, Ne, List.append_eq_nil_iff, not_and_or] at hne
      rcases hne with hne | hne
      · exact Or.inl ⟨_, List.getElem_mem _, hne⟩
      · exact Or.inr ⟨_, List.getElem_mem _, hne⟩
  rw [runConcat, hnew, Option.bind_eq_bind, Option.bind_some, hbuild, hsome]
  by_cases hempty : (List.zipWith (· ++ ·) A B).flatten = []
  · simp [hempty]
  · rw [if_neg hempty]
    exact iff_of_true rfl hempty

end Concat

/-! ## All functions -/

section Calls

variable {n : ℕ} {order : Order} {call : Call}

/-- the operand that is a string; the first of CONCAT -/
def Call.text : Call → Operand (List Char)
  | .trim _ a | .lower a | .upper a | .reverse a | .len a | .cut _ a _ | .concat a _ => a

/-- a column has the n rows of the block -/
def Operand.HasRows {α : Type} (n : ℕ) (a : Operand α) : Prop := (a.rows n).length = n

def Call.HasRows (n : ℕ) : Call → Prop
  | .cut _ a k => a.HasRows n ∧ k.HasRows n
  | .concat a b => a.HasRows n ∧ b.HasRows n
  | call => call.text.HasRows n

/-- the rows for which nothing goes wrong -/
def Call.Fine (n : ℕ) : Call → Prop
  | .trim op a => TrimFine op (a.rows n)
  | .lower a | .upper a | .reverse a => ∃ r ∈ a.rows n, r ≠ []
  | .len a => a.isColumn ∨ n = 1
  | .cut _ a k => CutFine (a.rows n) (k.rows n)
  | .concat a b => (∃ r ∈ a.rows n, r ≠ []) ∨ ∃ r ∈ b.rows n, r ≠ []

/-- every row and every character gets its thread -/
structure Order.Covers (order : Order) (n chars : ℕ) : Prop where
  predict : order.predict.Perm (List.range n)
  copy : order.copy.Perm (List.range n)
  chars : order.chars.Perm (List.range chars)

theorem rows_constant {α : Type} (value : α) (n : ℕ) : (Operand.constant value).rows n = List.replicate n value := rfl

/-- all copies of a constant are the same -/
theorem replicate_row {α : Type} (value : α) {i n : ℕ} (hi : i < n) :
    (List.replicate n value)[0]? = (List.replicate n value)[i]? := by
  have hpos : 0 < n := by omega
  rw [List.getElem?_replicate_of_lt hpos, List.getElem?_replicate_of_lt hi]

theorem deref_eq {α : Type} {k : Operand α} {i : ℕ} (hi : i < n) : k.deref i = (k.rows n)[i]? := by
  cases k with
  | column rows => rfl
  | constant value => exact (List.getElem?_replicate_of_lt hi).symm

theorem sameRow (a : Operand (List Char)) : SameRow (a.rows n) a.isColumn n := by
  intro i hi
  cases a with
  | column rows => rfl
  | constant value => exact replicate_row value hi

/-- equal counts -/
theorem counts_column {rows : List (List Char)} (hpos : 0 < n) : Counts rows n n n where
  strings := hpos
  numbers := hpos
  agree h := h.2.2 rfl
  output := max_self n
  predicted := ite_self n
  row i hi := by
    split
    · rfl
    · rw [show i = 0 by omega]

/-- one number for all strings -/
theorem counts_number {rows : List (List Char)} (hpos : 0 < n) : Counts rows n n 1 where
  strings := hpos
  numbers := one_pos
  agree h := absurd h.2.1 (lt_irrefl 1)
  output := max_eq_left hpos
  predicted := by
    split <;> omega
  row i hi := by
    split
    · rfl
    · rw [show i = 0 by omega]

/-- one string for all numbers -/
theorem counts_string (value : List Char) (hpos : 0 < n) : Counts (List.replicate n value) n 1 n where
  strings := one_pos
  numbers := hpos
  agree h := absurd h.1 (lt_irrefl 1)
  output := max_eq_right hpos
  predicted := if_neg (lt_irrefl 1)
  row i hi := by
    rw [if_neg (lt_irrefl 1)]
    exact replicate_row value hi

theorem binaryCut_iff (op : Side) (order : Order) {a : Operand (List Char)} {k : Operand ℤ} (hpos : 0 < n)
    (ha : a.HasRows n) (hk : k.HasRows n) (hpredict : order.predict.Perm (List.range n))
    (hcopy : order.copy.Perm (List.range n)) :
    binaryCut op order n a k = some (ofRows (List.zipWith op.apply (a.rows n) (k.rows n))) ↔
      CutFine (a.rows n) (k.rows n) := by
  have hB : ∀ i < n, k.deref i = (k.rows n)[i]? := fun _ => deref_eq
  cases a with
  | column rows =>
    cases k with
    | column ks => exact runCut_iff (counts_column hpos) ha hk hpos hB hpredict hcopy
    | constant k => exact runCut_iff (counts_number hpos) ha hk hpos hB hpredict hcopy
  | constant value =>
    cases k with
    | column ks => exact runCut_iff (counts_string value hpos) ha hk hpos hB hpredict hcopy
    | constant k => exact runCut_iff (counts_number hpos) ha hk hpos hB hpredict hcopy

theorem binaryConcat_iff (order : Order) {a b : Operand (List Char)} (hpos : 0 < n) (ha : a.HasRows n)
    (hb : b.HasRows n) (hpredict : order.predict.Perm (List.range n)) (hcopy : order.copy.Perm (List.range n)) :
    binaryConcat order n a b = some (ofRows (List.zipWith (· ++ ·) (a.rows n) (b.rows n))) ↔
      (∃ r ∈ a.rows n, r ≠ []) ∨ ∃ r ∈ b.rows n, r ≠ [] := by
  unfold binaryConcat
  split
  · exact runConcat_iff ha hb hpos (sameRow a) (sameRow b) hpredict hcopy
  · exact runConcat_iff ha hb hpos (fun _ _ => rfl) (fun _ _ => rfl) hpredict hcopy

theorem map_strings_iff {s : Option GPUString} {t : GPUString} :
    s.map Result.strings = some (.strings t) ↔ s = some t := by
  cases s <;> simp

theorem map_numbers_iff {l : Option (List ℤ)} {m : List ℤ} :
    l.map Result.numbers = some (.numbers m) ↔ l = some m := by
  cases l <;> simp

def inOrder (n chars : ℕ) : Order := ⟨List.range n, List.range n, List.range chars⟩

end Calls

end QikkDB.StringFunctions

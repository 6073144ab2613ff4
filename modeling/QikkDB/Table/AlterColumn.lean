/-
ALTER COLUMN of numbers and texts (GpuSqlParser/GpuSqlDispatcher.cpp, `AlterTable`; ColumnBase.h, `CopyDataToColumn`;
ColumnBase.cpp, `CopyDataToColumn` of std::string; Table.cpp, `CreateColumn`, `EraseColumn`, `RenameColumn`).

A column of the new type is made under the name with `_temp` behind it. The blocks of the old column are cast one after
the other, and each of them is erased once its copy stands in the new column; then the new column takes the name. A
std::runtime_error erases the new column; the other exceptions of a copy, std::length_error and std::out_of_range, are
not caught.

- The columns of a table are of the four types or of any others (`U`); what is copied into these is a parameter.
- isValidCast holds for each pair of the four types, and long has 64 bits.
- Unlike `Column.copyDataToColumn` this model has the rows cast to int8_t, which look at the NULL flag before the text.

Results:
- `copyGroups_cases`: a copy as a whole.
- `copyDataToColumn_taken`: a copy into a column that is already there.
- `alter_column_keeps_iff`: when the rows are kept, or the table stays as it was.
-/
import Mathlib.Data.List.AList
import Mathlib.Tactic
import QikkDB.Core.Column
import QikkDB.Core.PackedMask
import QikkDB.Lib.Numeral
import QikkDB.Lib.Traverse
import QikkDB.Storage.MaskCoverage
import QikkDB.Table.BlockBuffers

namespace QikkDB.AlterColumn

open NullValues
open BlockBuffers (ColumnTypes StoredColumn)
open BlockBuffers.ColumnTypes (Elem)

/-! ## Model -/

/-- how a copy can end other than by returning -/
inductive Thrown where
  | runtimeError
  | lengthError
  | outOfRange
  /-- behaviour the language does not define -/
  | undefined
deriving DecidableEq, Repr

inductive ColumnType where
  | int
  | long
  | int8
  | string
deriving DecidableEq, Repr

/-- what a column of the type holds -/
abbrev ColumnType.Value : ColumnType → Type
  | .int => Int32T
  | .long => Int64T
  | .int8 => Int8T
  | .string => Str

instance : (t : ColumnType) → Element t.Value
  | .int => inferInstanceAs (Element Int32T)
  | .long => inferInstanceAs (Element Int64T)
  | .int8 => inferInstanceAs (Element Int8T)
  | .string => inferInstanceAs (Element Str)

instance : (t : ColumnType) → DecidableEq t.Value
  | .int => inferInstanceAs (DecidableEq Int32T)
  | .long => inferInstanceAs (DecidableEq Int64T)
  | .int8 => inferInstanceAs (DecidableEq Int8T)
  | .string => inferInstanceAs (DecidableEq Str)

/-- the four types and the others -/
instance {U : Type} [ColumnTypes U] : ColumnTypes (ColumnType ⊕ U) where
  Elem
    | .inl t => t.Value
    | .inr u => Elem u
  element
    | .inl t => inferInstanceAs (Element t.Value)
    | .inr u => ColumnTypes.element u
  decEq
    | .inl t => inferInstanceAs (DecidableEq t.Value)
    | .inr u => ColumnTypes.decEq u
  kind
    | .inl .string => .text
    | .inl _ => .number
    | .inr u => ColumnTypes.kind u

/-! ### Rows -/

/-- the range of long -/
def FitsLong (z : ℤ) : Prop := -2 ^ 63 ≤ z ∧ z < 2 ^ 63

instance (z : ℤ) : Decidable (FitsLong z) := inferInstanceAs (Decidable (_ ∧ _))

/-- std::stol and std::stoll: `none` is std::invalid_argument -/
def stol (s : Str) : Except Thrown (Option ℤ) :=
  match Numeral.front s with
  | none => .ok none
  | some z => if FitsLong z then .ok (some z) else .error .outOfRange

/-- GetConcreteBitFromBitmask, of a mask that may not be there -/
def getConcreteBit (mask : Option Mask) (j : ℕ) : Except Thrown Bool :=
  match mask with
  | none => .error .undefined
  | some mask => .ok (getBit mask j)

/-- a text cast to int32_t or int64_t; the second part is the bit in newNullMask -/
def castText (w : ℕ) (mask : Option Mask) (j : ℕ) (s : Str) : Except Thrown (IntN w × Bool) := do
  match ← stol s with
  | none => .ok (IntN.lowest w, true)
  | some z =>
    let bit ← getConcreteBit mask j
    .ok (IntN.wrap w z, bit)

/-- ::toupper -/
def toupper (b : UInt8) : UInt8 := if 97 ≤ b ∧ b ≤ 122 then b - 32 else b

/-- "TRUE" -/
def trueText : Str := [84, 82, 85, 69]

/-- "FALSE" -/
def falseText : Str := [70, 65, 76, 83, 69]

/-- a text cast to int8_t -/
def castBool (mask : Option Mask) (j : ℕ) (s : Str) : Except Thrown (Int8T × Bool) := do
  let upperStr := s.map toupper
  let bit ← getConcreteBit mask j
  if bit then .ok (IntN.lowest 8, bit)
  else if upperStr = trueText then .ok (1, bit)
  else if upperStr = falseText then .ok (0, bit)
  else
    match ← stol s with
    | none => .ok (IntN.lowest 8, true)
    | some z => .ok (if (IntN.wrap 8 z).val = 0 then 0 else 1, bit)

/-- static_cast of an integer, std::to_string -/
def castInt {w : ℕ} (x : IntN w) : (d : ColumnType) → d.Value
  | .int => IntN.wrap 32 x.val
  | .long => IntN.wrap 64 x.val
  | .int8 => IntN.wrap 8 x.val
  | .string => Numeral.text x.val

/-- one of the cases of CopyDataToColumn -/
structure Copy (α β : Type) where
  /-- a row by its mask, its position and its value -/
  row : Option Mask → ℕ → α → Except Thrown (β × Bool)
  /-- numbers copy the words of their mask, texts have a new mask -/
  copiesMask : Bool

/-- a case for numbers -/
def numbers {w : ℕ} (d : ColumnType) : Copy (IntN w) d.Value := ⟨fun _ _ x => .ok (castInt x d, false), true⟩

def copyInto : (s d : ColumnType) → Option (Copy s.Value d.Value)
  | .int, d => some (numbers (w := 32) d)
  | .long, d => some (numbers (w := 64) d)
  | .int8, d => some (numbers (w := 8) d)
  | .string, .int => some ⟨castText 32, false⟩
  | .string, .long => some ⟨castText 64, false⟩
  | .string, .int8 => some ⟨castBool, false⟩
  | .string, .string => none

/-! ### CopyDataToColumn -/

section CopyDataToColumn

variable {α β : Type} [Element β] (k : Copy α β)

/-- castedDataToCopy and newNullMask -/
def castRows (b : Block α) : Except Thrown (List (β × Bool)) :=
  b.rows.zipIdx.mapM fun row => k.row b.bitMask row.2 row.1

/-- SetNullBitmask of the new block -/
def setMask (b : Block α) (rows : List (β × Bool)) (new : Block β) : Except Thrown (Block β) :=
  if k.copiesMask then
    match b.bitMask with
    | none => if b.size = 0 then (new.setNullBitmask []).mapError fun _ => .undefined else .error .undefined
    | some mask => (new.setNullBitmask (mask.take (getNullBitMaskSize b.size))).mapError fun _ => .undefined
  else .ok (new.moveNullBitmask (rows.zipIdx.foldl (fun m row => setBit m row.2 row.1.2) (zeroMask b.size)))

/-- one block -/
def copyBlock (groupId : ℤ) (b : Block α) (dst : Column β) : Column β × Option Thrown :=
  match castRows k b with
  | .error e => (dst, some e)
  | .ok rows =>
    match Block.ofData dst.blockSize (rows.map Prod.fst) dst.isNullable true true UINT32_MAX with
    | .error _ => (dst.setGroup groupId (dst.group groupId), some .lengthError)
    | .ok new =>
      let added := { dst.setGroup groupId (dst.group groupId ++ [new]) with size := dst.size + rows.length }
      match setMask k b rows new with
      | .error e => (added, some e)
      | .ok new => ({ dst.setGroup groupId (dst.group groupId ++ [new]) with size := dst.size + rows.length }, none)

/-- the blocks of a group: those that are left, and the other column -/
def copyBlocks (groupId : ℤ) : List (Block α) → Column β → List (Block α) × Column β × Option Thrown
  | [], dst => ([], dst, none)
  | b :: bs, dst =>
    match copyBlock k groupId b dst with
    | (dst, none) => copyBlocks groupId bs dst
    | (dst, some e) => (b :: bs, dst, some e)

def copyGroups : List (ℤ × List (Block α)) → Column β → List (ℤ × List (Block α)) × Column β × Option Thrown
  | [], dst => ([], dst, none)
  | g :: gs, dst =>
    match copyBlocks k g.1 g.2 dst with
    | (bs, dst, none) =>
      let r := copyGroups gs dst
      ((g.1, bs) :: r.1, r.2)
    | (bs, dst, some e) => ((g.1, bs) :: gs, dst, some e)

/-- CopyDataToColumn: both columns afterwards; `none` is the default case -/
def copyDataToColumn (k : Option (Copy α β)) (src : Column α) (dst : Column β) : Column α × Column β × Option Thrown :=
  match k with
  | none => (src, dst, some .runtimeError)
  | some k =>
    let r := copyGroups k src.blocks dst
    ({ src with blocks := r.1 }, r.2)

end CopyDataToColumn

/-! ### AlterTable -/

variable {U : Type} [ColumnTypes U]

structure Table (U : Type) [ColumnTypes U] where
  blockSize : ℕ
  columns : AList fun _ : String => StoredColumn (ColumnType ⊕ U)

/-- the case for a column of any type -/
def copyTo (other : (s : ColumnType) → (u : U) → Option (Copy s.Value (Elem u))) (s : ColumnType) :
    (d : ColumnType ⊕ U) → Option (Copy s.Value (Elem d))
  | .inl d => copyInto s d
  | .inr u => other s u

/-- Context::CheckColumnsLimit throws; the community build has a limit -/
def AtLimit (columnsLimit : Option ℕ) (t : Table U) : Prop :=
  ∃ limit ∈ columnsLimit, (limit : ℤ) ≤ t.columns.entries.length - 1

instance (columnsLimit : Option ℕ) (t : Table U) : Decidable (AtLimit columnsLimit t) :=
  match columnsLimit with
  | none => .isFalse fun ⟨_, h, _⟩ => nomatch h
  | some limit =>
    if h : (limit : ℤ) ≤ t.columns.entries.length - 1 then .isTrue ⟨limit, rfl, h⟩
    else .isFalse fun ⟨_, hlimit, hle⟩ => h (Option.some.inj hlimit ▸ hle)

/-- CreateColumn of a nullable column -/
def create (name : String) (d : ColumnType) (blockSize : ℕ) : StoredColumn (ColumnType ⊕ U) :=
  ⟨.inl d, { Column.fresh name blockSize with isNullable := true }⟩

def tempName (name : String) : String := name ++ "_temp"

inductive Result (U : Type) [ColumnTypes U] where
  | done (t : Table U)
  /-- left by an exception -/
  | thrown (t : Table U)
  | undefined

/-- the table after the copy; only a std::runtime_error is caught -/
def afterCopy (t : Table U) (name : String) (originType : ColumnType) (type : ColumnType ⊕ U)
    (r : Column originType.Value × Column (Elem type) × Option Thrown) : Result U :=
  let temp := tempName name
  let copied := (t.columns.insert name ⟨.inl originType, r.1⟩).insert temp ⟨type, r.2.1⟩
  match r.2.2 with
  | none => .done { t with columns := ((copied.erase name).erase temp).insert name ⟨type, { r.2.1 with name := name }⟩ }
  | some .runtimeError => .thrown { t with columns := copied.erase temp }
  | some .undefined => .undefined
  | some _ => .thrown { t with columns := copied }

/-- ALTER COLUMN of AlterTable for the column that has the name; CreateColumn leaves a column that has the new name -/
def alterColumn (columnsLimit : Option ℕ) (other : (s : ColumnType) → (u : U) → Option (Copy s.Value (Elem u)))
    (t : Table U) (name : String) (originType : ColumnType) (oldColumn : Column originType.Value)
    (alterColumnDataType : ColumnType) : Result U :=
  if originType = alterColumnDataType then .done t
  else if AtLimit columnsLimit t then .thrown t
  else
    let temp := tempName name
    let newColumn := (t.columns.lookup temp).getD (create temp alterColumnDataType t.blockSize)
    afterCopy t name originType newColumn.type
      (copyDataToColumn (copyTo other originType newColumn.type) oldColumn newColumn.column)

/-! ## What is to be kept -/

/-- the number that a value is -/
def number : (t : ColumnType) → t.Value → Option ℤ
  | .int, x => some (IntN.val (w := 32) x)
  | .long, x => some (IntN.val (w := 64) x)
  | .int8, x => some (IntN.val (w := 8) x)
  | .string, s => Numeral.numeral s

/-- the numbers that a type can hold -/
def Representable : ColumnType → ℤ → Prop
  | .int, z => -2 ^ 31 ≤ z ∧ z < 2 ^ 31
  | .long, z => -2 ^ 63 ≤ z ∧ z < 2 ^ 63
  | .int8, z => -2 ^ 7 ≤ z ∧ z < 2 ^ 7
  | .string, _ => True

/-- a text that does not begin with a number -/
def NoNumber : (s : ColumnType) → s.Value → Prop
  | .string, x => Numeral.front x = none
  | _, _ => False

/-- The NULL flag is kept, though a text without a number may become NULL, and a number that can be held is held. -/
structure Kept (s d : ColumnType) (isNull : Bool) (x : s.Value) (isNull' : Bool) (y : d.Value) : Prop where
  flag : isNull' = isNull ∨ isNull' = true ∧ NoNumber s x
  value : isNull = false → ∀ z, number s x = some z → Representable d z → isNull' = false ∧ number d y = some z

/-- the block has as many rows, each of them kept -/
structure BlockKept {s d : ColumnType} (b : Block s.Value) (b' : Block d.Value) : Prop where
  size : b'.size = b.size
  rows : ∀ i < b.size, ∃ x y, b.rows[i]? = some x ∧ b'.rows[i]? = some y ∧ Kept s d (b.isNull i) x (b'.isNull i) y

/-- block by block, in every group -/
structure ColumnKept {s d : ColumnType} (c : Column s.Value) (c' : Column d.Value) : Prop where
  size : c'.size = (c.getBlocksList.map Block.size).sum
  blocks : ∀ groupId, List.Forall₂ BlockKept (c.group groupId) (c'.group groupId)

/-- as before, with the same blocks in every group -/
structure Same {α : Type} (c c' : Column α) : Prop where
  fields : { c' with blocks := c.blocks } = c
  groups : ∀ groupId, c'.group groupId = c.group groupId

/-- the same column -/
def SameColumn (a b : StoredColumn (ColumnType ⊕ U)) : Prop :=
  ∃ type c c', a = ⟨type, c⟩ ∧ b = ⟨type, c'⟩ ∧ Same c c'

/-- the change succeeds and keeps the rows, or throws and leaves the table as it was -/
def Keeps (t : Table U) (name : String) {s : ColumnType} (c : Column s.Value) (d : ColumnType) : Result U → Prop
  | .done t' =>
    (∃ c', t'.columns.lookup name = some ⟨.inl d, c'⟩ ∧ ColumnKept c c') ∧
      ∀ x ≠ name, t'.columns.lookup x = t.columns.lookup x
  | .thrown t' => ∀ x, Option.Rel SameColumn (t.columns.lookup x) (t'.columns.lookup x)
  | .undefined => False

/-- a block whose array has its rows, and whose mask a bit for each of them -/
structure SoundBlock {α : Type} (b : Block α) : Prop where
  rows : b.rows.length = b.size
  masks : ∀ m ∈ b.bitMask, getNullBitMaskSize b.size ≤ m.length

structure Sound {α : Type} (c : Column α) : Prop where
  sorted : c.Sorted
  blocks : ∀ b ∈ c.getBlocksList, SoundBlock b

/-- the columns that the operations keep are sound -/
theorem sound_of_valid {α : Type} {c : Column α} (hs : c.Sorted) (hv : c.Valid) : Sound c := by
  refine ⟨hs, fun b hb => ⟨(hv.blocks b hb).rows_length, fun m hm => ?_⟩⟩
  rw [(hv.blocks b hb).mask m hm]
  exact getNullBitMaskSize_le_of_le (hv.blocks b hb).size_le

/-! ## When they are kept -/

/-- Texts: where a number is found at the front it is no larger than a long, and the NULL flag can be read. For int8_t
the NULL flag is always read, a NULL is not looked at any further, and a number that int8_t can hold is 0 or 1. -/
def TextFine (d : ColumnType) (mask : Option Mask) (j : ℕ) (s : Str) : Prop :=
  match d with
  | .int8 => ∃ m ∈ mask, getBit m j = true ∨ s.map toupper = trueText ∨ s.map toupper = falseText ∨
      (∀ z ∈ Numeral.front s, FitsLong z) ∧
        ∀ z ∈ Numeral.numeral s, Representable .int8 z → z = 0 ∨ z = 1
  | _ => ∀ z ∈ Numeral.front s, FitsLong z ∧ mask.isSome

/-- numbers only need their mask -/
def RowFine : (s d : ColumnType) → Option Mask → ℕ → s.Value → Prop
  | .string, d, mask, j, x => TextFine d mask j x
  | _, _, mask, _, _ => mask.isSome

/-- the rows fit into a block of the table and are fine -/
def BlockFine (s d : ColumnType) (blockSize : ℕ) (b : Block s.Value) : Prop :=
  b.size ≤ blockSize ∧ ∀ row ∈ b.rows.zipIdx, RowFine s d b.bitMask row.2 row.1

/-- a block is refused by an exception that is not caught: by that of its first row without a cast, or for its length -/
def Refused {α β : Type} (k : Copy α β) (b : Block α) (blockSize : ℕ) : Prop :=
  (∃ before row after, b.rows.zipIdx = before ++ row :: after ∧
      (∀ r ∈ before, ∃ y, k.row b.bitMask r.2 r.1 = .ok y) ∧
      (k.row b.bitMask row.2 row.1 = .error .outOfRange ∨ k.row b.bitMask row.2 row.1 = .error .lengthError)) ∨
    (∀ r ∈ b.rows.zipIdx, ∃ y, k.row b.bitMask r.2 r.1 = .ok y) ∧ blockSize < b.rows.length

/-- the first block is refused -/
def RefusedAtOnce {α β : Type} (k : Option (Copy α β)) (c : Column α) (blockSize : ℕ) : Prop :=
  ∃ k' ∈ k, ∃ b ∈ c.getBlocksList.head?, Refused k' b blockSize

/-- The table has no column of the new name and all blocks are fine. Or it has one, and the first block is refused. -/
def Fine (columnsLimit : Option ℕ) (other : (s : ColumnType) → (u : U) → Option (Copy s.Value (Elem u))) (t : Table U)
    (name : String) {s : ColumnType} (c : Column s.Value) (d : ColumnType) : Prop :=
  AtLimit columnsLimit t ∨
    match t.columns.lookup (tempName name) with
    | none => ∀ b ∈ c.getBlocksList, BlockFine s d t.blockSize b
    | some temp => RefusedAtOnce (copyTo other s temp.type) c temp.column.blockSize

/-! ## Rows -/

section Rows

variable {s d : ColumnType} {mask : Option Mask} {j : ℕ}

/-- the NULL flag of a row, 0 without a mask -/
def nullBit (mask : Option Mask) (j : ℕ) : Bool := mask.elim false fun m => getBit m j

theorem isNull_eq {α : Type} (b : Block α) (i : ℕ) : b.isNull i = nullBit b.bitMask i := by
  unfold Block.isNull nullBit
  cases b.bitMask <;> rfl

/-- an integer that is cast is held where it can be -/
theorem number_castInt {w : ℕ} (x : IntN w) (d : ColumnType) (h : Representable d x.val) :
    number d (castInt x d) = some x.val := by
  cases d with
  | int => exact congrArg some (IntN.val_wrap h.1 h.2)
  | long => exact congrArg some (IntN.val_wrap h.1 h.2)
  | int8 => exact congrArg some (IntN.val_wrap h.1 h.2)
  | string => exact Numeral.numeral_text x.val

/-- the outcomes of a text cast to an integer -/
theorem castText_eq (w : ℕ) (mask : Option Mask) (j : ℕ) (x : Str) : castText w mask j x =
    match Numeral.front x, mask with
    | none, _ => .ok (IntN.lowest w, true)
    | some z, none => if FitsLong z then .error .undefined else .error .outOfRange
    | some z, some m => if FitsLong z then .ok (IntN.wrap w z, getBit m j) else .error .outOfRange := by
  unfold castText stol
  cases Numeral.front x with
  | none => rfl
  | some z =>
    by_cases hz : FitsLong z
    · cases mask <;> simp [hz, getConcreteBit, bind, Except.bind]
    · cases mask <;> simp [hz, bind, Except.bind]

/-- a text that is cast to an integer of w bits -/
theorem castText_iff (w : ℕ) (x : Str) :
    (∃ y bit, castText w mask j x = .ok (y, bit) ∧ (bit = nullBit mask j ∨ bit = true ∧ Numeral.front x = none) ∧
      (nullBit mask j = false → ∀ z, Numeral.numeral x = some z → -(2 ^ (w - 1)) ≤ z ∧ z < 2 ^ (w - 1) →
        bit = false ∧ y.val = z)) ↔ ∀ z ∈ Numeral.front x, FitsLong z ∧ mask.isSome := by
  rw [castText_eq]
  cases hfront : Numeral.front x with
  | none =>
    refine iff_of_true ⟨_, _, rfl, Or.inr ⟨rfl, rfl⟩, fun _ z hz => ?_⟩ (by simp)
    rw [Numeral.front_eq hz] at hfront
    cases hfront
  | some z =>
    cases mask with
    | none =>
      by_cases hz : FitsLong z <;> simp [hz]
    | some m =>
      by_cases hz : FitsLong z
      · refine iff_of_true ⟨IntN.wrap w z, getBit m j, by simp [hz], Or.inl rfl, fun hnull z' hz' hrep => ⟨hnull, ?_⟩⟩ ?_
        · rw [Numeral.front_eq hz'] at hfront
          obtain rfl := Option.some.inj hfront
          exact IntN.val_wrap hrep.1 hrep.2
        · simpa using hz
      · simp [hz]

/-- no digit is in TRUE or FALSE -/
theorem letters : (∀ b ∈ trueText, Numeral.isDigit b = false) ∧ ∀ b ∈ falseText, Numeral.isDigit b = false := by
  simp [trueText, falseText, Numeral.isDigit]

/-- a number is neither TRUE nor FALSE -/
theorem map_toupper_ne {x t : Str} {z : ℤ} (hx : Numeral.numeral x = some z)
    (ht : ∀ b ∈ t, Numeral.isDigit b = false) : x.map toupper ≠ t := by
  intro heq
  unfold Numeral.numeral at hx
  simp only at hx
  split_ifs at hx with hdigits
  obtain ⟨b, hb⟩ := List.exists_mem_of_ne_nil _ hdigits.1
  have hdigit := List.all_eq_true.1 hdigits.2 b hb
  have hmem : b ∈ x := by
    unfold Numeral.signed at hb
    split at hb
    · exact List.mem_cons_of_mem _ hb
    · exact List.mem_cons_of_mem _ hb
    · exact hb
  have hupper : toupper b = b := by
    rw [Numeral.isDigit_iff] at hdigit
    rw [toupper, if_neg]
    rw [UInt8.le_iff_toNat_le]
    change ¬ (97 ≤ b.toNat ∧ _)
    omega
  have hmap : b ∈ t := by
    rw [← heq, ← hupper]
    exact List.mem_map_of_mem hmem
  rw [ht b hmap] at hdigit
  cases hdigit

/-- a number that is cast -/
theorem numbers_iff {w : ℕ} (x : IntN w) (z₀ : ℤ) (hz₀ : x.val = z₀) (other : Prop) :
    (∃ y bit, (numbers d).row mask j x = .ok (y, bit) ∧ ((numbers (w := w) d).copiesMask = true → mask.isSome) ∧
      ((if (numbers (w := w) d).copiesMask then nullBit mask j else bit) = nullBit mask j ∨
        (if (numbers (w := w) d).copiesMask then nullBit mask j else bit) = true ∧ other) ∧
        (nullBit mask j = false → ∀ z, some z₀ = some z → Representable d z →
          (if (numbers (w := w) d).copiesMask then nullBit mask j else bit) = false ∧ number d y = some z)) ↔
      mask.isSome := by
  constructor
  · rintro ⟨y, bit, -, hmask, -⟩
    exact hmask rfl
  · intro hmask
    refine ⟨castInt x d, false, rfl, fun _ => hmask, Or.inl rfl, fun hnull z hz hrep => ⟨hnull, ?_⟩⟩
    obtain rfl := Option.some.inj hz
    rw [← hz₀] at hrep ⊢
    exact number_castInt x d hrep

/-- the outcomes of a text cast to int8_t -/
theorem castBool_iff (x : Str) :
    (∃ y bit, castBool mask j x = .ok (y, bit) ∧ (bit = nullBit mask j ∨ bit = true ∧ Numeral.front x = none) ∧
      (nullBit mask j = false → ∀ z, Numeral.numeral x = some z → Representable .int8 z →
        bit = false ∧ IntN.val (w := 8) y = z)) ↔ TextFine .int8 mask j x := by
  have hnumeral : ∀ z, Numeral.numeral x = some z → Numeral.front x = some z := fun z hz => Numeral.front_eq hz
  cases mask with
  | none => simp [castBool, getConcreteBit, TextFine, bind, Except.bind]
  | some m =>
    have hfine : TextFine .int8 (some m) j x ↔ getBit m j = true ∨ x.map toupper = trueText ∨
        x.map toupper = falseText ∨ (∀ z ∈ Numeral.front x, FitsLong z) ∧
          ∀ z ∈ Numeral.numeral x, Representable .int8 z → z = 0 ∨ z = 1 := by
      simp [TextFine]
    have hnull : nullBit (some m) j = getBit m j := rfl
    rw [hfine, hnull]
    unfold castBool
    simp only [getConcreteBit, bind, Except.bind]
    by_cases hbit : getBit m j = true
    · simp [hbit]
    rw [Bool.not_eq_true] at hbit
    simp only [hbit, Bool.false_eq_true, if_false, false_or, true_implies]
    by_cases htrue : x.map toupper = trueText
    · rw [if_pos htrue]
      refine iff_of_true ⟨_, _, rfl, Or.inl rfl, fun z hz => ?_⟩ (Or.inl htrue)
      exact absurd htrue (map_toupper_ne hz letters.1)
    by_cases hfalse : x.map toupper = falseText
    · rw [if_neg htrue, if_pos hfalse]
      refine iff_of_true ⟨_, _, rfl, Or.inl rfl, fun z hz => ?_⟩ (Or.inr (Or.inl hfalse))
      exact absurd hfalse (map_toupper_ne hz letters.2)
    rw [if_neg htrue, if_neg hfalse]
    simp only [htrue, hfalse, false_or, stol]
    cases hfront : Numeral.front x with
    | none =>
      have hno : ∀ z, Numeral.numeral x ≠ some z := fun z hz => by
        have hz' := hnumeral z hz
        rw [hfront] at hz'
        cases hz'
      simp [hno]
    | some z =>
      have honly : ∀ z', Numeral.numeral x = some z' → z' = z := fun z' hz' => by
        have hz := hnumeral z' hz'
        rw [hfront] at hz
        exact (Option.some.inj hz).symm
      by_cases hrange : FitsLong z
      · have hvalue : ∀ z', Numeral.numeral x = some z' → Representable .int8 z' →
            (IntN.val (w := 8) (if (IntN.wrap 8 z).val = 0 then 0 else 1) = z' ↔ z' = 0 ∨ z' = 1) := by
          intro z' hz' hrep
          obtain rfl := honly z' hz'
          rw [IntN.val_wrap hrep.1 hrep.2]
          by_cases hzero : z' = 0
          · rw [if_pos hzero, hzero]
            decide
          · rw [if_neg hzero]
            change (1 : ℤ) = z' ↔ _
            omega
        simp only [hrange, if_true]
        constructor
        · rintro ⟨y, bit, hok, -, hkept⟩
          obtain ⟨rfl, rfl⟩ := Prod.mk.inj (Except.ok.inj hok)
          refine ⟨by simpa using hrange, fun z' hz' hrep => ?_⟩
          exact (hvalue z' hz' hrep).1 (hkept z' hz' hrep).2
        · rintro ⟨-, hbits⟩
          exact ⟨_, _, rfl, Or.inl rfl, fun z' hz' hrep => ⟨rfl, (hvalue z' hz' hrep).2 (hbits z' hz' hrep)⟩⟩
      · simp [hrange]

/-- a row is cast and kept if and only if it is fine -/
theorem row_iff {k : Copy s.Value d.Value} (hk : copyInto s d = some k) (x : s.Value) :
    (∃ y bit, k.row mask j x = .ok (y, bit) ∧ (k.copiesMask = true → mask.isSome) ∧
      Kept s d (nullBit mask j) x (if k.copiesMask then nullBit mask j else bit) y) ↔ RowFine s d mask j x := by
  have hkept : ∀ isNull x isNull' y, Kept s d isNull x isNull' y ↔ (isNull' = isNull ∨ isNull' = true ∧ NoNumber s x) ∧
      (isNull = false → ∀ z, number s x = some z → Representable d z → isNull' = false ∧ number d y = some z) :=
    fun _ _ _ _ => ⟨fun h => ⟨h.flag, h.value⟩, fun h => ⟨h.1, h.2⟩⟩
  simp only [hkept]
  cases s with
  | int =>
    obtain rfl := Option.some.inj hk
    exact numbers_iff (w := 32) x _ rfl False
  | long =>
    obtain rfl := Option.some.inj hk
    exact numbers_iff (w := 64) x _ rfl False
  | int8 =>
    obtain rfl := Option.some.inj hk
    exact numbers_iff (w := 8) x _ rfl False
  | string =>
    cases d with
    | string => cases hk
    | int8 =>
      obtain rfl := Option.some.inj hk
      refine Iff.trans (exists₂_congr fun y bit => ?_) (castBool_iff (j := j) x)
      simp only [Bool.false_eq_true, if_false, false_implies, true_and, number, NoNumber, Option.some.injEq]
    | int =>
      obtain rfl := Option.some.inj hk
      refine Iff.trans (exists₂_congr fun y bit => ?_) (castText_iff (j := j) 32 x)
      simp only [Bool.false_eq_true, if_false, false_implies, true_and, number, NoNumber, Option.some.injEq]
      exact Iff.rfl
    | long =>
      obtain rfl := Option.some.inj hk
      refine Iff.trans (exists₂_congr fun y bit => ?_) (castText_iff (j := j) 64 x)
      simp only [Bool.false_eq_true, if_false, false_implies, true_and, number, NoNumber, Option.some.injEq]
      exact Iff.rfl

end Rows

/-! ## Blocks -/

section Blocks

variable {α β : Type} [Element β] {k : Copy α β} {b : Block α} {dst : Column β} {rows : List (β × Bool)}

omit [Element β] in
/-- the bits that are set one after the other -/
theorem getBit_setBits (rows : List (β × Bool)) (start : ℕ) (mask : Mask)
    (hlen : getNullBitMaskSize (start + rows.length) ≤ mask.length) (i : ℕ) (hi : i < rows.length) :
    getBit ((rows.zipIdx start).foldl (fun m row => setBit m row.2 row.1.2) mask) (start + i) = rows[i].2 := by
  induction rows generalizing start mask i with
  | nil => cases hi
  | cons r rows ih =>
    rw [List.zipIdx_cons, List.foldl_cons]
    rw [List.length_cons] at hlen hi
    cases i with
    | zero =>
      have hword : start / 64 < mask.length := (div_lt_getNullBitMaskSize (by omega)).trans_le hlen
      obtain ⟨-, hkept⟩ := MaskCoverage.foldl_setBit (rows.zipIdx (start + 1)) (setBit mask start r.2)
      rw [add_zero, hkept start, getBit_setBit mask start start r.2 hword, if_pos rfl, List.getElem_cons_zero]
      intro row hrow heq
      have hle := List.le_snd_of_mem_zipIdx hrow
      omega
    | succ i =>
      have hlen' : getNullBitMaskSize (start + 1 + rows.length) ≤ (setBit mask start r.2).length := by
        rw [length_setBit]
        exact le_trans (by rw [add_assoc, add_comm 1]) hlen
      have hbit := ih (start + 1) (setBit mask start r.2) hlen' i (by omega)
      rw [List.getElem_cons_succ, ← hbit]
      congr 1
      omega

/-- the new block, when the rows fit -/
theorem ofData_fits (dst : Column β) (data : List β) (h : data.length ≤ dst.blockSize) :
    ∃ new, Block.ofData dst.blockSize data dst.isNullable true true UINT32_MAX = .ok new ∧ new.rows = data ∧
      new.size = data.length := by
  obtain ⟨new, hnew, -, hrows, hsize, -⟩ := Block.ofData_ok data true UINT32_MAX h
  exact ⟨new, hnew, hrows, hsize⟩

/-- SetNullBitmask of a mask that fits -/
theorem setNullBitmask_ok {new : Block β} {zeros m : Mask} (hmask : new.bitMask = some zeros)
    (hlen : m.length ≤ zeros.length) : ∃ new', new.setNullBitmask m = .ok new' ∧ new'.size = new.size ∧
      new'.rows = new.rows ∧ new'.bitMask = some (m ++ zeros.drop m.length) := by
  have hstore := Block.setBlockStatistics_store { new with bitMask := some (m ++ zeros.drop m.length) } 0 0
  have hsize := Block.setBlockStatistics_size { new with bitMask := some (m ++ zeros.drop m.length) } 0 0 (Nat.zero_le _)
  refine ⟨_, by rw [Block.setNullBitmask, hmask]; exact if_neg (not_lt.2 hlen), hsize, ?_, hstore.bitMask⟩
  rw [Block.rows, Block.rows, hstore.data, hsize]
  rfl

/-- the other column with the copy of a block -/
def appended (dst : Column β) (groupId : ℤ) (new : Block β) : Column β :=
  { dst.setGroup groupId (dst.group groupId ++ [new]) with size := dst.size + new.size }

/-- a block whose rows are cast, that fits and whose mask is there -/
theorem copyBlock_ok (groupId : ℤ) (hrows : castRows k b = .ok rows) (hlen : rows.length = b.size) (hfit : b.size ≤ dst.blockSize)
    (hnullable : dst.isNullable = true) (hmask : k.copiesMask = true → b.size = 0 ∨ b.bitMask.isSome)
    (hwords : ∀ m ∈ b.bitMask, getNullBitMaskSize b.size ≤ m.length) :
    ∃ new, copyBlock k groupId b dst = (appended dst groupId new, none) ∧ new.size = b.size ∧
      new.rows = rows.map Prod.fst ∧
        ∀ i (hi : i < rows.length), new.isNull i = if k.copiesMask then nullBit b.bitMask i else rows[i].2 := by
  obtain ⟨new, hnew, hnewRows, hnewSize⟩ := ofData_fits dst (rows.map Prod.fst) (by rw [List.length_map]; omega)
  have hzeros : new.bitMask = some (zeroMask dst.blockSize) := by
    rw [MaskCoverage.ofData_mask hnew, hnullable, if_pos rfl]
  rw [List.length_map] at hnewSize
  have hset : ∃ new', setMask k b rows new = .ok new' ∧ new'.size = new.size ∧ new'.rows = new.rows ∧
      ∀ i (hi : i < rows.length), new'.isNull i = if k.copiesMask then nullBit b.bitMask i else rows[i].2 := by
    cases hcopies : k.copiesMask with
    | false =>
      obtain ⟨hdata, hsize, -, -, -, hbits⟩ := new.moveNullBitmask_store
        (rows.zipIdx.foldl (fun m row => setBit m row.2 row.1.2) (zeroMask b.size))
      refine ⟨_, by rw [setMask, hcopies]; rfl, hsize, by rw [Block.rows, Block.rows, hdata, hsize], ?_⟩
      intro i hi
      have hbit := getBit_setBits rows 0 (zeroMask b.size) (by rw [zero_add, hlen, length_zeroMask]) i hi
      rw [zero_add] at hbit
      rw [isNull_eq, hbits, hzeros]
      exact hbit
    | true =>
      have hle : getNullBitMaskSize b.size ≤ getNullBitMaskSize dst.blockSize := getNullBitMaskSize_le_of_le hfit
      cases hold : b.bitMask with
      | none =>
        have hzero : b.size = 0 := (hmask hcopies).resolve_right (by simp [hold])
        obtain ⟨new', hok, hsize, hrows', -⟩ := setNullBitmask_ok hzeros (m := []) (Nat.zero_le _)
        refine ⟨new', ?_, hsize, hrows', fun i hi => absurd hi (by omega)⟩
        simp only [setMask, hcopies, hold, hzero, if_true, hok]
        rfl
      | some mask =>
        have htake : (mask.take (getNullBitMaskSize b.size)).length = getNullBitMaskSize b.size := by
          rw [List.length_take, Nat.min_eq_left (hwords mask hold)]
        obtain ⟨new', hok, hsize, hrows', hbits⟩ := setNullBitmask_ok hzeros
          (m := mask.take (getNullBitMaskSize b.size)) (by rw [htake, length_zeroMask]; exact hle)
        refine ⟨new', ?_, hsize, hrows', fun i hi => ?_⟩
        · simp only [setMask, hcopies, hold, if_true, hok]
          rfl
        · have hword : i / 64 < getNullBitMaskSize b.size := div_lt_getNullBitMaskSize (by omega)
          rw [isNull_eq, hbits]
          change getBit (mask.take (getNullBitMaskSize b.size) ++ _) i = getBit mask i
          rw [getBit_append_of_lt (by rw [htake]; omega), getBit_take (by omega)]
  obtain ⟨new', hmasked, hsize, hrows', hbits⟩ := hset
  refine ⟨new', ?_, by rw [hsize, hnewSize, hlen], by rw [hrows', hnewRows], hbits⟩
  simp only [copyBlock, hrows, hnew, hmasked]
  rw [appended, hsize, hnewSize]

end Blocks

/-! ## Blocks of the four types -/

section Cases

variable {s d : ColumnType} {k : Copy s.Value d.Value} {b : Block s.Value} {dst : Column d.Value}

theorem stol_error {x : Str} {e : Thrown} (h : stol x = .error e) : e ≠ .runtimeError := by
  unfold stol at h
  split at h
  · cases h
  · split at h
    · cases h
    · obtain rfl := Except.error.inj h
      exact nofun

theorem getConcreteBit_error {mask : Option Mask} {j : ℕ} {e : Thrown} (h : getConcreteBit mask j = .error e) :
    e ≠ .runtimeError := by
  unfold getConcreteBit at h
  split at h
  · obtain rfl := Except.error.inj h
    exact nofun
  · cases h

theorem castText_error {w : ℕ} {mask : Option Mask} {j : ℕ} {x : Str} {e : Thrown}
    (h : castText w mask j x = .error e) : e ≠ .runtimeError := by
  rintro rfl
  rw [castText_eq] at h
  split at h
  · cases h
  · split at h <;> cases h
  · split at h <;> cases h

theorem castBool_error {mask : Option Mask} {j : ℕ} {x : Str} {e : Thrown} (h : castBool mask j x = .error e) :
    e ≠ .runtimeError := by
  unfold castBool at h
  cases hread : getConcreteBit mask j with
  | error e' =>
    simp only [hread, bind, Except.bind] at h
    obtain rfl := Except.error.inj h
    exact getConcreteBit_error hread
  | ok bit =>
    simp only [hread, bind, Except.bind] at h
    split_ifs at h
    cases hnumber : stol x with
    | error e' =>
      simp only [hnumber] at h
      obtain rfl := Except.error.inj h
      exact stol_error hnumber
    | ok z =>
      simp only [hnumber] at h
      split at h <;> cases h

/-- no case throws a std::runtime_error for a row -/
theorem row_error (hk : copyInto s d = some k) {mask : Option Mask} {j : ℕ} {x : s.Value} {e : Thrown}
    (h : k.row mask j x = .error e) : e ≠ .runtimeError := by
  cases s with
  | int =>
    obtain rfl := Option.some.inj hk
    cases h
  | long =>
    obtain rfl := Option.some.inj hk
    cases h
  | int8 =>
    obtain rfl := Option.some.inj hk
    cases h
  | string =>
    cases d with
    | string => cases hk
    | int =>
      obtain rfl := Option.some.inj hk
      exact castText_error h
    | long =>
      obtain rfl := Option.some.inj hk
      exact castText_error h
    | int8 =>
      obtain rfl := Option.some.inj hk
      exact castBool_error h

/-- the rows of a block that are cast are those of its fine rows and others -/
theorem castRows_error (hk : copyInto s d = some k) {e : Thrown} (h : castRows k b = .error e) :
    e ≠ .runtimeError ∧ ∀ blockSize, ¬ BlockFine s d blockSize b := by
  obtain ⟨before, row, after, hsplit, -, hrow⟩ := Traverse.mapM_error_iff.1 h
  have hmem : row ∈ b.rows.zipIdx := by simp [hsplit]
  refine ⟨row_error hk hrow, fun blockSize hfine => ?_⟩
  obtain ⟨y, bit, hok, -⟩ := (row_iff hk row.1).2 (hfine.2 row hmem)
  rw [hrow] at hok
  cases hok

/-- a copy whose flags are those of the casts keeps the block if and only if the block is fine -/
theorem blockKept_iff (hk : copyInto s d = some k) (hlen : b.rows.length = b.size) (hfit : b.size ≤ dst.blockSize)
    {rows : List (d.Value × Bool)} (hrows : castRows k b = .ok rows)
    (hmask : k.copiesMask = true → b.size = 0 ∨ b.bitMask.isSome) {new : Block d.Value} (hsize : new.size = b.size)
    (hnew : new.rows = rows.map Prod.fst)
    (hbits : ∀ i (hi : i < rows.length), new.isNull i = if k.copiesMask then nullBit b.bitMask i else rows[i].2) :
    BlockKept b new ↔ BlockFine s d dst.blockSize b := by
  have hcast := Traverse.mapM_ok_iff.1 hrows
  have hlength : rows.length = b.size := by rw [← hcast.length_eq, List.length_zipIdx, hlen]
  have hrow : ∀ i (hi : i < b.size), k.row b.bitMask i (b.rows.get ⟨i, hlen ▸ hi⟩) =
      .ok (rows.get ⟨i, hlength ▸ hi⟩) := by
    intro i hi
    have hget := hcast.get (i := i) (by rw [List.length_zipIdx, hlen]; exact hi) (by rw [hlength]; exact hi)
    simpa using hget
  have hkept : ∀ i (hi : i < b.size),
      (∃ x y, b.rows[i]? = some x ∧ new.rows[i]? = some y ∧ Kept s d (b.isNull i) x (new.isNull i) y) ↔
        RowFine s d b.bitMask i (b.rows.get ⟨i, hlen ▸ hi⟩) := by
    intro i hi
    have hi₁ : i < b.rows.length := hlen ▸ hi
    have hi₂ : i < rows.length := hlength ▸ hi
    have hsome : k.copiesMask = true → b.bitMask.isSome := fun hcopies => (hmask hcopies).resolve_left (by omega)
    have hx : b.rows[i]? = some (b.rows.get ⟨i, hi₁⟩) := List.getElem?_eq_getElem hi₁
    have hy : new.rows[i]? = some rows[i].1 := by
      rw [hnew, List.getElem?_map, List.getElem?_eq_getElem hi₂, Option.map_some]
    rw [← row_iff hk, hx, hy, hbits i hi₂, isNull_eq, hrow i hi]
    constructor
    · rintro ⟨x, y, hx', hy', h⟩
      obtain rfl := Option.some.inj hx'
      obtain rfl := Option.some.inj hy'
      exact ⟨_, _, rfl, hsome, h⟩
    · rintro ⟨y, bit, hok, -, h⟩
      obtain ⟨rfl, rfl⟩ := Prod.mk.inj (Except.ok.inj hok)
      exact ⟨_, _, rfl, rfl, h⟩
  constructor
  · rintro ⟨-, hall⟩
    refine ⟨hfit, fun row hmem => ?_⟩
    obtain ⟨i, hi, heq⟩ := List.getElem_of_mem hmem
    have hi' : i < b.size := by rwa [List.length_zipIdx, hlen] at hi
    rw [List.getElem_zipIdx, zero_add] at heq
    subst heq
    exact (hkept i hi').1 (hall i hi')
  · rintro ⟨-, hall⟩
    refine ⟨hsize, fun i hi => (hkept i hi).2 ?_⟩
    have hi₁ : i < b.rows.length := hlen ▸ hi
    exact hall (b.rows.get ⟨i, hi₁⟩, i) (List.mem_zipIdx_iff_getElem?.2 (List.getElem?_eq_getElem hi₁))

/-- One block is copied, and kept if and only if it is fine. Or it is not fine, and an exception leaves that AlterTable
does not catch. -/
theorem copyBlock_cases (groupId : ℤ) (hk : copyInto s d = some k) (hb : SoundBlock b) (hnullable : dst.isNullable = true) :
    (∃ new, copyBlock k groupId b dst = (appended dst groupId new, none) ∧ new.size = b.size ∧
      (BlockKept b new ↔ BlockFine s d dst.blockSize b)) ∨
    ∃ dst' e, copyBlock k groupId b dst = (dst', some e) ∧ e ≠ .runtimeError ∧ ¬ BlockFine s d dst.blockSize b := by
  cases hrows : castRows k b with
  | error e =>
    obtain ⟨hne, hfine⟩ := castRows_error hk hrows
    exact Or.inr ⟨dst, e, by simp only [copyBlock, hrows], hne, hfine _⟩
  | ok rows =>
    have hlength : rows.length = b.size := by
      rw [← (Traverse.mapM_ok_iff.1 hrows).length_eq, List.length_zipIdx, hb.rows]
    by_cases hfit : b.size ≤ dst.blockSize
    · by_cases hmask : k.copiesMask = true → b.size = 0 ∨ b.bitMask.isSome
      · obtain ⟨new, hcopy, hsize, hnew, hbits⟩ := copyBlock_ok groupId hrows hlength hfit hnullable hmask
          hb.masks
        exact Or.inl ⟨new, hcopy, hsize, blockKept_iff hk hb.rows hfit hrows hmask hsize hnew hbits⟩
      · push Not at hmask
        obtain ⟨hcopies, hne, hnone⟩ := hmask
        obtain ⟨new, hnew, -⟩ := ofData_fits dst (rows.map Prod.fst) (by rw [List.length_map]; omega)
        have hnull : b.bitMask = none := by simpa using hnone
        have hset : setMask k b rows new = .error .undefined := by
          simp only [setMask, hcopies, hnull, hne, if_true, if_false]
        have hcopy : (copyBlock k groupId b dst).2 = some .undefined := by simp only [copyBlock, hrows, hnew, hset]
        refine Or.inr ⟨_, .undefined, Prod.ext rfl hcopy, nofun, fun hfine => ?_⟩
        -- the first row needs the mask
        have hpos : 0 < b.rows.length := by rw [hb.rows]; omega
        have hfirst := hfine.2 (b.rows.get ⟨0, hpos⟩, 0) (List.mem_zipIdx_iff_getElem?.2 (List.getElem?_eq_getElem hpos))
        obtain ⟨-, -, -, hmask, -⟩ := (row_iff hk _).2 hfirst
        exact hnone (hmask hcopies)
    · have hlong : Block.ofData dst.blockSize (rows.map Prod.fst) dst.isNullable true true UINT32_MAX =
          .error (.lengthError "Attempted to insert data larger than remaining block size") :=
        if_pos (by rw [List.length_map]; omega)
      have hcopy : (copyBlock k groupId b dst).2 = some .lengthError := by simp only [copyBlock, hrows, hlong]
      exact Or.inr ⟨_, .lengthError, Prod.ext rfl hcopy, nofun, fun hfine => hfit hfine.1⟩

end Cases

/-! ## The whole copy -/

section Copies

variable {s d : ColumnType} {k : Copy s.Value d.Value} {dst dst' : Column d.Value}

/-- what a copy leaves of the other column, and what it adds -/
structure Grown (dst dst' : Column d.Value) (rows : ℕ) : Prop where
  blockSize : dst'.blockSize = dst.blockSize
  isNullable : dst'.isNullable = dst.isNullable
  size : dst'.size = dst.size + rows

theorem grown_appended (groupId : ℤ) (new : Block d.Value) : Grown dst (appended dst groupId new) new.size :=
  ⟨rfl, rfl, rfl⟩

theorem Grown.trans {m n : ℕ} {dst'' : Column d.Value} (h : Grown dst dst' m) (h' : Grown dst' dst'' n) :
    Grown dst dst'' (m + n) :=
  ⟨h'.blockSize.trans h.blockSize, h'.isNullable.trans h.isNullable, by rw [h'.size, h.size, add_assoc]⟩

/-- a block and its copy -/
def Copied (blockSize : ℕ) (b : Block s.Value) (new : Block d.Value) : Prop :=
  BlockKept b new ↔ BlockFine s d blockSize b

/-- the blocks of a group are copied, or one of them is not fine -/
theorem copyBlocks_cases (hk : copyInto s d = some k) (groupId : ℤ) (bs : List (Block s.Value))
    (hbs : ∀ b ∈ bs, SoundBlock b) (hnullable : dst.isNullable = true) :
    (∃ dst' news, copyBlocks k groupId bs dst = ([], dst', none) ∧ Grown dst dst' (bs.map Block.size).sum ∧
      dst'.group groupId = dst.group groupId ++ news ∧ (∀ g ≠ groupId, dst'.group g = dst.group g) ∧
        List.Forall₂ (Copied dst.blockSize) bs news) ∨
    ∃ left dst' e, copyBlocks k groupId bs dst = (left, dst', some e) ∧ e ≠ .runtimeError ∧
      ∃ b ∈ bs, ¬ BlockFine s d dst.blockSize b := by
  induction bs generalizing dst with
  | nil => exact Or.inl ⟨dst, [], rfl, ⟨rfl, rfl, rfl⟩, (List.append_nil _).symm, fun _ _ => rfl, .nil⟩
  | cons b bs ih =>
    rcases copyBlock_cases groupId hk (hbs b List.mem_cons_self) hnullable with
      ⟨new, hcopy, hsize, hkept⟩ | ⟨dst', e, hcopy, hne, hfine⟩
    · rcases @ih (appended dst groupId new) (fun b hb => hbs b (List.mem_cons_of_mem _ hb)) hnullable with
        ⟨dst', news, hrest, hgrown, hgroup, hothers, hall⟩ | ⟨left, dst', e, hrest, hne, b', hb', hfine⟩
      · refine Or.inl ⟨dst', new :: news, by rw [copyBlocks, hcopy]; exact hrest, ?_, ?_, fun g hg => ?_, .cons hkept hall⟩
        · rw [List.map_cons, List.sum_cons, ← hsize]
          exact (grown_appended groupId new).trans hgrown
        · rw [hgroup]
          have hnew : (appended dst groupId new).group groupId = dst.group groupId ++ [new] :=
            Column.group_setGroup dst groupId _
          rw [hnew, List.append_assoc, List.singleton_append]
        · rw [hothers g hg]
          exact Column.group_setGroup_of_ne dst hg _
      · exact Or.inr ⟨left, dst', e, by rw [copyBlocks, hcopy]; exact hrest, hne, b', List.mem_cons_of_mem _ hb', hfine⟩
    · exact Or.inr ⟨b :: bs, dst', e, by rw [copyBlocks, hcopy], hne, b, List.mem_cons_self, hfine⟩

/-- all groups are copied, or a block is not fine -/
theorem copyGroups_cases (hk : copyInto s d = some k) (gs : List (ℤ × List (Block s.Value)))
    (hnodup : (gs.map Prod.fst).Nodup) (hgs : ∀ b ∈ gs.flatMap Prod.snd, SoundBlock b)
    (hnullable : dst.isNullable = true) :
    (∃ left dst', copyGroups k gs dst = (left, dst', none) ∧
      Grown dst dst' ((gs.flatMap Prod.snd).map Block.size).sum ∧
      (∀ g ∉ gs.map Prod.fst, dst'.group g = dst.group g) ∧
        ∀ g ∈ gs, ∃ news, dst'.group g.1 = dst.group g.1 ++ news ∧ List.Forall₂ (Copied dst.blockSize) g.2 news) ∨
    ∃ left dst' e, copyGroups k gs dst = (left, dst', some e) ∧ e ≠ .runtimeError ∧
      ∃ b ∈ gs.flatMap Prod.snd, ¬ BlockFine s d dst.blockSize b := by
  induction gs generalizing dst with
  | nil => exact Or.inl ⟨[], dst, rfl, ⟨rfl, rfl, rfl⟩, fun _ _ => rfl, nofun⟩
  | cons g gs ih =>
    obtain ⟨hnew, hnodup⟩ := List.nodup_cons.1 hnodup
    simp only [List.flatMap_cons, List.mem_append] at hgs
    rcases copyBlocks_cases hk g.1 g.2 (fun b hb => hgs b (Or.inl hb)) hnullable with
      ⟨dst₁, news, hcopy, hgrown, hgroup, hothers, hall⟩ | ⟨left, dst', e, hcopy, hne, b, hb, hfine⟩
    · rcases @ih dst₁ hnodup (fun b hb => hgs b (Or.inr hb)) (hgrown.isNullable.trans hnullable) with
        ⟨left, dst', hrest, hgrown', hkept, hgroups⟩ | ⟨left, dst', e, hrest, hne, b, hb, hfine⟩
      · refine Or.inl ⟨(g.1, []) :: left, dst', by simp only [copyGroups, hcopy, hrest], ?_, ?_, ?_⟩
        · rw [List.flatMap_cons, List.map_append, List.sum_append]
          exact hgrown.trans hgrown'
        · intro x hx
          rw [List.map_cons, List.mem_cons, not_or] at hx
          rw [hkept x hx.2, hothers x hx.1]
        · intro x hx
          rcases List.mem_cons.1 hx with rfl | hx
          · exact ⟨news, by rw [hkept _ hnew, hgroup], hall⟩
          · obtain ⟨news', hnews, hforall⟩ := hgroups x hx
            have hne : x.1 ≠ g.1 := fun heq => hnew (heq ▸ List.mem_map_of_mem hx)
            rw [hgrown.blockSize] at hforall
            exact ⟨news', by rw [hnews, hothers _ hne], hforall⟩
      · rw [hgrown.blockSize] at hfine
        have hthrown : (copyGroups k (g :: gs) dst).2 = (dst', some e) := by simp only [copyGroups, hcopy, hrest]
        exact Or.inr ⟨_, dst', e, Prod.ext rfl hthrown, hne, b, List.mem_append_right _ hb, hfine⟩
    · have hthrown : (copyGroups k (g :: gs) dst).2 = (dst', some e) := by simp only [copyGroups, hcopy]
      exact Or.inr ⟨_, dst', e, Prod.ext rfl hthrown, hne, b, List.mem_append_left _ hb, hfine⟩

end Copies

/-! ## A new column -/

section New

variable {s d : ColumnType} {k : Copy s.Value d.Value} {c : Column s.Value} {dst : Column d.Value}

theorem copyInto_isSome {s d : ColumnType} (h : s ≠ d) : ∃ k, copyInto s d = some k := by
  cases s with
  | int => exact ⟨_, rfl⟩
  | long => exact ⟨_, rfl⟩
  | int8 => exact ⟨_, rfl⟩
  | string =>
    cases d with
    | string => exact absurd rfl h
    | int => exact ⟨_, rfl⟩
    | long => exact ⟨_, rfl⟩
    | int8 => exact ⟨_, rfl⟩

/-- A copy into an empty column keeps the rows if and only if all blocks are fine. Or it fails, and one of them is not
fine. -/
theorem copyDataToColumn_new (hk : copyInto s d = some k) (hc : Sound c) (hnullable : dst.isNullable = true)
    (hsize : dst.size = 0) (hempty : ∀ groupId, dst.group groupId = []) :
    (∃ c₁ c', copyDataToColumn (some k) c dst = (c₁, c', none) ∧
      ∀ name, ColumnKept c { c' with name := name } ↔ ∀ b ∈ c.getBlocksList, BlockFine s d dst.blockSize b) ∨
    ∃ c₁ c' e, copyDataToColumn (some k) c dst = (c₁, c', some e) ∧ e ≠ .runtimeError ∧
      ∃ b ∈ c.getBlocksList, ¬ BlockFine s d dst.blockSize b := by
  have hnodup : (c.blocks.map Prod.fst).Nodup := hc.sorted.imp ne_of_lt
  rcases copyGroups_cases hk c.blocks hnodup hc.blocks hnullable with
    ⟨left, c', hcopy, hgrown, hothers, hgroups⟩ | ⟨left, c', e, hcopy, hne, b, hb, hfine⟩
  · refine Or.inl ⟨{ c with blocks := left }, c', by simp only [copyDataToColumn, hcopy], fun name => ?_⟩
    have hgroup : ∀ g ∈ c.blocks, List.Forall₂ BlockKept (c.group g.1) (c'.group g.1) ↔
        ∀ b ∈ g.2, BlockFine s d dst.blockSize b := by
      intro g hg
      obtain ⟨news, hnews, hcopied⟩ := hgroups g hg
      rw [Column.group_of_mem hc.sorted hg, hnews, hempty, List.nil_append]
      exact Traverse.forall₂_iff_forall hcopied
    constructor
    · intro hkept b hb
      obtain ⟨g, hg, hb⟩ := List.mem_flatMap.1 hb
      exact (hgroup g hg).1 (hkept.blocks g.1) b hb
    · intro hfine
      refine ⟨?_, fun groupId => ?_⟩
      · change c'.size = _
        rw [hgrown.size, hsize, zero_add]
        rfl
      · change List.Forall₂ BlockKept (c.group groupId) (c'.group groupId)
        by_cases hin : groupId ∈ c.blocks.map Prod.fst
        · obtain ⟨g, hg, rfl⟩ := List.mem_map.1 hin
          exact (hgroup g hg).2 fun b hb => hfine b (List.mem_flatMap.2 ⟨g, hg, hb⟩)
        · rw [Column.group_of_notMem hin, hothers groupId hin, hempty]
          exact .nil
  · exact Or.inr ⟨{ c with blocks := left }, c', e, by simp only [copyDataToColumn, hcopy], hne, b, hb, hfine⟩

end New

/-! ## A column that is already there -/

section Taken

variable {α β : Type} [Element β]

theorem setMask_error {k : Copy α β} {b : Block α} {rows : List (β × Bool)} {new : Block β} {e : Thrown}
    (h : setMask k b rows new = .error e) : e = .undefined := by
  have hmap : ∀ r : Except Fault (Block β), (r.mapError fun _ => Thrown.undefined) = .error e → e = .undefined := by
    intro r hr
    cases r with
    | ok new => cases hr
    | error e' => exact (Except.error.inj hr).symm
  unfold setMask at h
  cases hcopies : k.copiesMask with
  | false => simp [hcopies] at h
  | true =>
    cases hmask : b.bitMask with
    | none =>
      simp only [hcopies, hmask, if_true] at h
      split_ifs at h
      · exact hmap _ h
      · exact (Except.error.inj h).symm
    | some mask =>
      simp only [hcopies, hmask, if_true] at h
      exact hmap _ h

/-- a block is refused by its cast or for its length -/
theorem refused_iff {α β : Type} (k : Copy α β) (b : Block α) (blockSize : ℕ) : Refused k b blockSize ↔
    castRows k b = .error .outOfRange ∨ castRows k b = .error .lengthError ∨
      ∃ rows, castRows k b = .ok rows ∧ blockSize < rows.length := by
  have hlength : (∃ rows, castRows k b = .ok rows ∧ blockSize < rows.length) ↔
      (∀ r ∈ b.rows.zipIdx, ∃ y, k.row b.bitMask r.2 r.1 = .ok y) ∧ blockSize < b.rows.length := by
    rw [← Traverse.exists_mapM_ok_iff]
    have hlen : ∀ rows, castRows k b = .ok rows → rows.length = b.rows.length := fun rows hrows => by
      rw [← (Traverse.mapM_ok_iff.1 hrows).length_eq, List.length_zipIdx]
    constructor
    · rintro ⟨rows, hrows, hlong⟩
      exact ⟨⟨rows, hrows⟩, hlen rows hrows ▸ hlong⟩
    · rintro ⟨⟨rows, hrows⟩, hlong⟩
      exact ⟨rows, hrows, hlen rows hrows ▸ hlong⟩
  unfold Refused
  rw [hlength, castRows, Traverse.mapM_error_iff, Traverse.mapM_error_iff, ← or_assoc]
  refine or_congr_left ?_
  constructor
  · rintro ⟨before, row, after, hsplit, hbefore, hrow | hrow⟩
    · exact Or.inl ⟨before, row, after, hsplit, hbefore, hrow⟩
    · exact Or.inr ⟨before, row, after, hsplit, hbefore, hrow⟩
  · rintro (⟨before, row, after, hsplit, hbefore, hrow⟩ | ⟨before, row, after, hsplit, hbefore, hrow⟩)
    · exact ⟨before, row, after, hsplit, hbefore, Or.inl hrow⟩
    · exact ⟨before, row, after, hsplit, hbefore, Or.inr hrow⟩

/-- The block is refused and the column as before. Or it is copied, or an exception comes that AlterTable catches or the
behaviour is not defined. -/
theorem copyBlock_first (k : Copy α β) (groupId : ℤ) (b : Block α) (dst : Column β) :
    (Refused k b dst.blockSize ∧ ∃ dst' e, copyBlock k groupId b dst = (dst', some e) ∧ Same dst dst' ∧
      (e = .lengthError ∨ e = .outOfRange)) ∨
    (¬ Refused k b dst.blockSize ∧ ∃ dst' e, copyBlock k groupId b dst = (dst', e) ∧
      (e = none ∨ e = some .runtimeError ∨ e = some .undefined)) := by
  have hsame : Same dst (dst.setGroup groupId (dst.group groupId)) := by
    refine ⟨rfl, fun g => ?_⟩
    by_cases hg : g = groupId
    · rw [hg, Column.group_setGroup]
    · exact Column.group_setGroup_of_ne dst hg _
  rw [refused_iff]
  cases hrows : castRows k b with
  | error e =>
    have hcopy : copyBlock k groupId b dst = (dst, some e) := by simp only [copyBlock, hrows]
    rw [hcopy]
    cases e with
    | lengthError => exact Or.inl ⟨Or.inr (Or.inl rfl), dst, _, rfl, ⟨rfl, fun _ => rfl⟩, Or.inl rfl⟩
    | outOfRange => exact Or.inl ⟨Or.inl rfl, dst, _, rfl, ⟨rfl, fun _ => rfl⟩, Or.inr rfl⟩
    | runtimeError => exact Or.inr ⟨by simp, dst, _, rfl, by simp⟩
    | undefined => exact Or.inr ⟨by simp, dst, _, rfl, by simp⟩
  | ok rows =>
    by_cases hlong : dst.blockSize < rows.length
    · have hnew : Block.ofData dst.blockSize (rows.map Prod.fst) dst.isNullable true true UINT32_MAX =
          .error (.lengthError "Attempted to insert data larger than remaining block size") :=
        if_pos (by rwa [List.length_map])
      have hcopy : copyBlock k groupId b dst = (dst.setGroup groupId (dst.group groupId), some .lengthError) := by
        simp only [copyBlock, hrows, hnew]
      exact Or.inl ⟨Or.inr (Or.inr ⟨rows, rfl, hlong⟩), _, _, hcopy, hsame, Or.inl rfl⟩
    · refine Or.inr ⟨by simpa using hlong, ?_⟩
      obtain ⟨new, hnew, -⟩ := ofData_fits dst (rows.map Prod.fst) (by rw [List.length_map]; omega)
      cases hset : setMask k b rows new with
      | ok new' =>
        have hcopy : (copyBlock k groupId b dst).2 = none := by simp only [copyBlock, hrows, hnew, hset]
        exact ⟨_, none, Prod.ext rfl hcopy, Or.inl rfl⟩
      | error e =>
        obtain rfl := setMask_error hset
        have hcopy : (copyBlock k groupId b dst).2 = some .undefined := by simp only [copyBlock, hrows, hnew, hset]
        exact ⟨_, some .undefined, Prod.ext rfl hcopy, Or.inr (Or.inr rfl)⟩

theorem copyBlocks_length (k : Copy α β) (groupId : ℤ) (bs : List (Block α)) (dst : Column β) :
    (copyBlocks k groupId bs dst).1.length ≤ bs.length := by
  induction bs generalizing dst with
  | nil => exact le_rfl
  | cons b bs ih =>
    rw [copyBlocks]
    split
    · exact (ih _).trans (Nat.le_succ _)
    · exact le_rfl

theorem copyGroups_keys (k : Copy α β) (gs : List (ℤ × List (Block α))) (dst : Column β) :
    (copyGroups k gs dst).1.map Prod.fst = gs.map Prod.fst := by
  induction gs generalizing dst with
  | nil => rfl
  | cons g gs ih =>
    rw [copyGroups]
    split
    · rw [List.map_cons, List.map_cons, ih]
    · rfl

/-- The first block is refused and nothing has changed. Or it is not refused, and the copy has taken something from the
old column or ends in another way. -/
theorem copyGroups_first (k : Copy α β) (gs : List (ℤ × List (Block α))) (dst : Column β) :
    ((∃ b ∈ (gs.flatMap Prod.snd).head?, Refused k b dst.blockSize) ∧ ∃ dst' e,
      copyGroups k gs dst = (gs, dst', some e) ∧ Same dst dst' ∧ (e = .lengthError ∨ e = .outOfRange)) ∨
    ((∀ b ∈ (gs.flatMap Prod.snd).head?, ¬ Refused k b dst.blockSize) ∧ ∃ left dst' e,
      copyGroups k gs dst = (left, dst', e) ∧
        (left ≠ gs ∨ e = none ∨ e = some .runtimeError ∨ e = some .undefined)) := by
  induction gs with
  | nil => exact Or.inr ⟨nofun, [], dst, none, rfl, Or.inr (Or.inl rfl)⟩
  | cons g gs ih =>
    obtain ⟨groupId, bs⟩ := g
    cases bs with
    | nil =>
      rcases ih with ⟨hfirst, dst', e, hcopy, hsame, he⟩ | ⟨hfirst, left, dst', e, hcopy, hend⟩
      · exact Or.inl ⟨hfirst, dst', e, by simp only [copyGroups, copyBlocks, hcopy], hsame, he⟩
      · refine Or.inr ⟨hfirst, (groupId, []) :: left, dst', e, by simp only [copyGroups, copyBlocks, hcopy], ?_⟩
        exact hend.imp_left fun hne heq => hne (List.cons.inj heq).2
    | cons b bs =>
      have hhead : ∀ P : Block α → Prop, (∃ b' ∈ (((groupId, b :: bs) :: gs).flatMap Prod.snd).head?, P b') ↔ P b := by
        simp
      have hhead' : ∀ P : Block α → Prop, (∀ b' ∈ (((groupId, b :: bs) :: gs).flatMap Prod.snd).head?, P b') ↔ P b := by
        simp
      rw [hhead, hhead']
      rcases copyBlock_first k groupId b dst with ⟨hrefused, dst', e, hcopy, hsame, he⟩ | ⟨hrefused, dst', e, hcopy, he⟩
      · exact Or.inl ⟨hrefused, dst', e, by simp only [copyGroups, copyBlocks, hcopy], hsame, he⟩
      · refine Or.inr ⟨hrefused, (copyGroups k ((groupId, b :: bs) :: gs) dst).1, _, _, Prod.ext rfl (Prod.ext rfl rfl), ?_⟩
        rcases he with rfl | rfl | rfl
        · -- the first block is gone
          left
          have hleft := copyBlocks_length k groupId bs dst'
          rcases hrest : copyBlocks k groupId bs dst' with ⟨left, dst'', e⟩
          rw [hrest] at hleft
          have hgroup : (copyGroups k ((groupId, b :: bs) :: gs) dst).1.head? = some (groupId, left) := by
            cases e <;> simp only [copyGroups, copyBlocks, hcopy, hrest, List.head?_cons]
          intro heq
          rw [heq, List.head?_cons] at hgroup
          obtain ⟨-, hbs⟩ := Prod.mk.inj (Option.some.inj hgroup)
          rw [← hbs, List.length_cons] at hleft
          exact absurd hleft (Nat.not_succ_le_self _)
        · exact Or.inr (Or.inr (Or.inl (by simp only [copyBlocks, hcopy])))
        · exact Or.inr (Or.inr (Or.inr (by simp only [copyBlocks, hcopy])))

/-- A copy into a column that is already there: refused at once, both columns as before. Or something is taken from the
old column, or the copy ends in another way. -/
theorem copyDataToColumn_taken (k : Option (Copy α β)) (c : Column α) (dst : Column β) (hs : c.Sorted) :
    (RefusedAtOnce k c dst.blockSize ∧ ∃ dst' e, copyDataToColumn k c dst = (c, dst', some e) ∧ Same dst dst' ∧
      (e = .lengthError ∨ e = .outOfRange)) ∨
    (¬ RefusedAtOnce k c dst.blockSize ∧ ∃ c' dst' e, copyDataToColumn k c dst = (c', dst', e) ∧
      (¬ Same c c' ∨ e = none ∨ e = some .runtimeError ∨ e = some .undefined)) := by
  cases k with
  | none => exact Or.inr ⟨nofun, c, dst, _, rfl, Or.inr (Or.inr (Or.inl rfl))⟩
  | some k =>
    rcases copyGroups_first k c.blocks dst with ⟨hfirst, dst', e, hcopy, hsame, he⟩ | ⟨hfirst, left, dst', e, hcopy, hend⟩
    · exact Or.inl ⟨⟨k, rfl, hfirst⟩, dst', e, by simp only [copyDataToColumn, hcopy], hsame, he⟩
    · refine Or.inr ⟨?_, { c with blocks := left }, dst', e, by simp only [copyDataToColumn, hcopy], ?_⟩
      · rintro ⟨k', hk', b, hb, hrefused⟩
        obtain rfl := Option.some.inj hk'
        exact hfirst b hb hrefused
      · refine hend.imp_left fun hne hsame => hne ?_
        have hkeys : left.map Prod.fst = c.blocks.map Prod.fst := by
          have hkeys := copyGroups_keys k c.blocks dst
          rwa [hcopy] at hkeys
        exact Column.blocks_ext hs hkeys hsame.groups

end Taken

/-! ## The table -/

section AlterTable

variable {columnsLimit : Option ℕ} {other : (s : ColumnType) → (u : U) → Option (Copy s.Value (Elem u))} {t : Table U}
  {name : String} {s d : ColumnType} {c : Column s.Value}

theorem tempName_ne (name : String) : tempName name ≠ name := by
  intro heq
  have hlength := congrArg String.length heq
  rw [tempName, String.length_append] at hlength
  have htemp : "_temp".length = 5 := by decide
  omega

theorem sameColumn_refl (a : StoredColumn (ColumnType ⊕ U)) : SameColumn a a :=
  ⟨a.type, a.column, a.column, rfl, rfl, rfl, fun _ => rfl⟩

theorem sameColumns_refl (a : Option (StoredColumn (ColumnType ⊕ U))) : Option.Rel SameColumn a a := by
  cases a with
  | none => exact .none
  | some a => exact .some (sameColumn_refl a)

/-- a new column is empty -/
theorem group_fresh {α : Type} (name : String) (blockSize : ℕ) (groupId : ℤ) :
    (Column.fresh name blockSize : Column α).group groupId = [] := by
  simp only [Column.group, Column.fresh, List.find?_cons, List.find?_nil]
  cases decide ((-1 : ℤ) = groupId) <;> rfl

theorem alterColumn_eq (hne : s ≠ d) (hlimit : ¬ AtLimit columnsLimit t) {newColumn : StoredColumn (ColumnType ⊕ U)}
    (hnew : (t.columns.lookup (tempName name)).getD (create (tempName name) d t.blockSize) = newColumn) :
    alterColumn columnsLimit other t name s c d = afterCopy t name s newColumn.type
      (copyDataToColumn (copyTo other s newColumn.type) c newColumn.column) := by
  subst hnew
  rw [alterColumn, if_neg hne, if_neg hlimit]

/-- the name with `_temp` is free: the rows are kept if and only if every block is fine -/
theorem keeps_new_iff (hc : Sound c) (hne : s ≠ d) (hlimit : ¬ AtLimit columnsLimit t)
    (hfree : t.columns.lookup (tempName name) = none) :
    Keeps t name c d (alterColumn columnsLimit other t name s c d) ↔
      ∀ b ∈ c.getBlocksList, BlockFine s d t.blockSize b := by
  obtain ⟨k, hk⟩ := copyInto_isSome hne
  set dst : Column d.Value := { Column.fresh (tempName name) t.blockSize with isNullable := true }
  have hnew : (t.columns.lookup (tempName name)).getD (create (tempName name) d t.blockSize) = ⟨.inl d, dst⟩ := by
    rw [hfree]
    rfl
  have hcase : copyTo other s (.inl d) = some k := hk
  rw [alterColumn_eq hne hlimit hnew, hcase]
  have hempty : ∀ groupId, dst.group groupId = [] := group_fresh (tempName name) t.blockSize
  rcases copyDataToColumn_new hk hc (rfl : dst.isNullable = true) rfl hempty with
    ⟨c₁, c', hcopy, hkept⟩ | ⟨c₁, c', e, hcopy, hthrown, b, hb, hfine⟩
  · rw [hcopy]
    refine Iff.trans ?_ (hkept name)
    constructor
    · rintro ⟨⟨c'', hlookup, hkept'⟩, -⟩
      rw [AList.lookup_insert] at hlookup
      cases Option.some.inj hlookup
      exact hkept'
    · intro hkept'
      refine ⟨⟨_, AList.lookup_insert _, hkept'⟩, fun x hx => ?_⟩
      rw [AList.lookup_insert_ne hx]
      by_cases htemp : x = tempName name
      · rw [htemp, AList.lookup_erase, hfree]
      · rw [AList.lookup_erase_ne htemp, AList.lookup_erase_ne hx, AList.lookup_insert_ne htemp,
          AList.lookup_insert_ne hx]
  · rw [hcopy]
    refine iff_of_false ?_ fun hall => hfine (hall b hb)
    have hleft : ∀ columns : AList fun _ : String => StoredColumn (ColumnType ⊕ U),
        columns.lookup (tempName name) ≠ none → ¬ Keeps t name c d (.thrown { t with columns := columns }) := by
      intro columns hsome hkeeps
      have hrel := hkeeps (tempName name)
      rw [hfree] at hrel
      cases hcolumn : columns.lookup (tempName name) with
      | none => exact hsome hcolumn
      | some _ =>
        simp only [hcolumn] at hrel
        cases hrel
    have htemp : (AList.insert (tempName name) ⟨.inl d, c'⟩
        (t.columns.insert name (⟨.inl s, c₁⟩ : StoredColumn (ColumnType ⊕ U)))).lookup (tempName name) ≠ none := by
      rw [AList.lookup_insert]
      exact nofun
    cases e with
    | runtimeError => exact absurd rfl hthrown
    | lengthError => exact hleft _ htemp
    | outOfRange => exact hleft _ htemp
    | undefined => exact id

/-- a column has the name with `_temp`: all stays as it is if and only if the first block is refused -/
theorem keeps_taken_iff (hs : c.Sorted) (hne : s ≠ d) (hlimit : ¬ AtLimit columnsLimit t)
    (hname : t.columns.lookup name = some ⟨.inl s, c⟩) {temp : StoredColumn (ColumnType ⊕ U)}
    (htemp : t.columns.lookup (tempName name) = some temp) :
    Keeps t name c d (alterColumn columnsLimit other t name s c d) ↔
      RefusedAtOnce (copyTo other s temp.type) c temp.column.blockSize := by
  rw [alterColumn_eq hne hlimit (show (t.columns.lookup (tempName name)).getD _ = temp by rw [htemp, Option.getD_some])]
  have hothers : ∀ (c₁ : Column s.Value) (dst : Column (Elem temp.type)) (x : String), x ≠ name → x ≠ tempName name →
      ((t.columns.insert name ⟨.inl s, c₁⟩).insert (tempName name) ⟨temp.type, dst⟩).lookup x = t.columns.lookup x := by
    intro c₁ dst x hx hx'
    rw [AList.lookup_insert_ne hx', AList.lookup_insert_ne hx]
  -- a result without the column of the new name
  have hgone : ∀ columns : AList fun _ : String => StoredColumn (ColumnType ⊕ U),
      columns.lookup (tempName name) = none → ¬ Keeps t name c d (.done { t with columns := columns }) ∧
        ¬ Keeps t name c d (.thrown { t with columns := columns }) := by
    intro columns hnone
    constructor
    · rintro ⟨-, hrest⟩
      have hlookup := hrest _ (tempName_ne name)
      rw [htemp] at hlookup
      exact absurd (hnone.symm.trans hlookup) nofun
    · intro hrel
      have hlookup := hrel (tempName name)
      rw [htemp] at hlookup
      simp only [hnone] at hlookup
      cases hlookup
  rcases copyDataToColumn_taken (copyTo other s temp.type) c temp.column hs with
    ⟨hrefused, dst', e, hcopy, hsame, he⟩ | ⟨hrefused, c', dst', e, hcopy, he⟩
  · rw [hcopy]
    refine iff_of_true ?_ hrefused
    have hthrown : Keeps t name c d (.thrown ⟨t.blockSize,
        (t.columns.insert name ⟨.inl s, c⟩).insert (tempName name) ⟨temp.type, dst'⟩⟩) := by
      intro x
      rcases eq_or_ne x (tempName name) with rfl | hx
      · rw [htemp, AList.lookup_insert]
        exact .some ⟨_, _, _, rfl, rfl, hsame⟩
      · rcases eq_or_ne x name with rfl | hx'
        · rw [hname, AList.lookup_insert_ne hx, AList.lookup_insert]
          exact .some (sameColumn_refl _)
        · rw [hothers _ _ _ hx' hx]
          exact sameColumns_refl _
    rcases he with rfl | rfl
    · exact hthrown
    · exact hthrown
  · rw [hcopy]
    refine iff_of_false ?_ hrefused
    have hdone : (AList.insert name (⟨temp.type, { dst' with name := name }⟩ : StoredColumn (ColumnType ⊕ U))
        ((((t.columns.insert name ⟨.inl s, c'⟩).insert (tempName name) ⟨temp.type, dst'⟩).erase name).erase
          (tempName name))).lookup (tempName name) = none := by
      rw [AList.lookup_insert_ne (tempName_ne name), AList.lookup_erase]
    have hcaught : (((t.columns.insert name ⟨.inl s, c'⟩).insert (tempName name) ⟨temp.type, dst'⟩).erase
        (tempName name)).lookup (tempName name) = none := AList.lookup_erase _ _
    have hleft : ¬ Same c c' → ¬ Keeps t name c d (.thrown ⟨t.blockSize,
        (t.columns.insert name ⟨.inl s, c'⟩).insert (tempName name) ⟨temp.type, dst'⟩⟩) := by
      intro hchanged hkeeps
      have hrel := hkeeps name
      simp only [hname, AList.lookup_insert_ne (tempName_ne name).symm, AList.lookup_insert] at hrel
      cases hrel with
      | some h =>
        obtain ⟨type, a, b, ha, hb, hsame⟩ := h
        cases ha
        cases hb
        exact hchanged hsame
    cases e with
    | none => exact (hgone _ hdone).1
    | some e =>
      cases e with
      | runtimeError => exact (hgone _ hcaught).2
      | undefined => exact id
      | lengthError => exact hleft (by simpa using he)
      | outOfRange => exact hleft (by simpa using he)

/-- Changing the type of a column keeps its rows, or throws and changes nothing, if and only if the change is fine. -/
theorem alter_column_keeps_iff (hname : t.columns.lookup name = some ⟨.inl s, c⟩) (hc : Sound c) (hne : s ≠ d) :
    Keeps t name c d (alterColumn columnsLimit other t name s c d) ↔ Fine columnsLimit other t name c d := by
  by_cases hlimit : AtLimit columnsLimit t
  · refine iff_of_true ?_ (Or.inl hlimit)
    rw [alterColumn, if_neg hne, if_pos hlimit]
    exact fun x => sameColumns_refl _
  · rw [Fine, or_iff_right hlimit]
    cases htemp : t.columns.lookup (tempName name) with
    | none => exact keeps_new_iff hc hne hlimit htemp
    | some temp => exact keeps_taken_iff hc.sorted hne hlimit hname htemp

end AlterTable

/-! ## Columns that keep their rows, and one that does not -/

instance : ColumnTypes Empty where
  Elem := nofun
  element := nofun
  decEq := nofun
  kind := nofun

/-- a table of one column -/
def oneColumn (s : ColumnType) (c : Column s.Value) : Table Empty :=
  ⟨4, AList.insert "a" (⟨.inl s, c⟩ : StoredColumn (ColumnType ⊕ Empty)) ∅⟩

/-- a nullable column of one block -/
def oneBlock {s : ColumnType} (rows : List s.Value) (mask : Mask) : Column s.Value :=
  { Column.fresh "a" 4 with
    size := rows.length
    blocks := [(-1, [{ (Block.empty 4 true true UINT32_MAX : Block s.Value) with
      data := rows, size := rows.length, bitMask := some mask }])]
    isNullable := true }

theorem sound_oneBlock {s : ColumnType} (rows : List s.Value) (word : BitVec 64) (h : rows.length ≤ 4) :
    Sound (oneBlock rows [word]) := by
  refine ⟨List.pairwise_singleton _ _, fun b hb => ?_⟩
  have hb : b = _ := List.mem_singleton.1 hb
  subst hb
  refine ⟨List.length_take_of_le le_rfl, fun m hm => ?_⟩
  obtain rfl := Option.some.inj hm
  exact getNullBitMaskSize_le_of_le (h.trans (by decide : 4 ≤ 64))

/-- two numbers, the second one NULL -/
theorem alter_column_keeps_numbers :
    let c : Column (ColumnType.Value .int) := oneBlock [IntN.wrap 32 5, IntN.wrap 32 0] [2]
    Keeps (oneColumn .int c) "a" c .long (alterColumn none (fun _ u => nomatch u) (oneColumn .int c) "a" .int c .long) := by
  intro c
  have hc : Sound c := sound_oneBlock (s := .int) [IntN.wrap 32 5, IntN.wrap 32 0] 2 (by decide)
  refine (alter_column_keeps_iff (AList.lookup_insert _) hc (by decide)).2 (Or.inr ?_)
  change ∀ b ∈ c.getBlocksList, BlockFine .int .long 4 b
  intro b hb
  have hb : b = _ := List.mem_singleton.1 hb
  subst hb
  exact ⟨by decide, fun _ _ => rfl⟩

/-- a text beyond the range of long -/
theorem alter_column_loses_texts :
    ¬ ∀ (columnsLimit : Option ℕ) (other : (s : ColumnType) → (u : Empty) → Option (Copy s.Value (Elem u)))
      (t : Table Empty) (name : String) (s d : ColumnType) (c : Column s.Value),
      t.columns.lookup name = some ⟨.inl s, c⟩ → Sound c → s ≠ d →
        Keeps t name c d (alterColumn columnsLimit other t name s c d) := by
  intro hall
  set c : Column (ColumnType.Value .string) := oneBlock [List.replicate 20 57] [0]
  have hc : Sound c := sound_oneBlock (s := .string) [List.replicate 20 57] 0 (by decide)
  have hkeeps := hall none (fun _ u => nomatch u) (oneColumn .string c) "a" .string .int c (AList.lookup_insert _) hc
    (by decide)
  have hlimit : ¬ AtLimit none (oneColumn .string c) := fun ⟨_, h, _⟩ => nomatch h
  rw [keeps_new_iff hc (by decide) hlimit (by rfl)] at hkeeps
  have hrow := (hkeeps _ (List.mem_singleton_self _)).2 (List.replicate 20 57, 0) (by decide)
  have hfits := (hrow (10 ^ 20 - 1) (by decide)).1
  exact absurd hfits (by decide)

end QikkDB.AlterColumn

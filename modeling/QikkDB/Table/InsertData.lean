/-
INSERT INTO as one step (Table.cpp: `InsertData`, `InsertValuesOnSpecificPosition`, `GetIndex` and what they call).

The constraints are checked before anything is changed. The limit on the rows is checked inside the insertion of each
column, and with a clustered index inside that of each row, so an exception can come when columns have grown already.
The number of rows is that of the vector which the map lists first.

- The order of the hash maps is that of the lists; the types and what the code does with their values are parameters.
- The pointer that dynamic_cast gives for a column of another type is used without a check: behaviour not defined.

Results:
- `insertValues_cases`, `insertValueAt_cases`: what the insertion of one column can do.
- `insertRows_cases`: what a run over the rows can do.
- `insertData_atomic_iff`: when a call is all or nothing.
-/
import Mathlib.Tactic
import QikkDB.Core.BlockInvariant
import QikkDB.Lib.Traverse
import QikkDB.Storage.RowCount
import QikkDB.Table.BlockBuffers

namespace QikkDB.InsertData

open NullValues RowCount BlockInvariant
open BlockBuffers (ColumnTypes StoredColumn)
open BlockBuffers.ColumnTypes (Elem)

/-! ## Model -/

/-- how a call can end other than by returning -/
inductive Thrown where
  | fault (e : Fault)
  | badAnyCast
  | outOfRange
deriving DecidableEq, Repr

abbrev Thrown.undefined : Thrown := .fault .undefined

/-- what a clustered index and the messages use of the types -/
class SortingTypes (T : Type) extends ColumnTypes T where
  /-- the types that CompareRows has a case for: int32_t, int64_t, double, float and std::string -/
  sortable : T → Bool
  /-- GetNullConstant, NullArray -/
  nullConstant : (t : T) → Elem t
  /-- std::to_string, WktFromPoint, WktFromPolygon, or the string itself -/
  text : (t : T) → Elem t → String

variable {T : Type} [DecidableEq T] [SortingTypes T]

/-- a std::any with a vector -/
abbrev Values (T : Type) [ColumnTypes T] := (t : T) × List (Elem t)

/-- a std::any with a value -/
abbrev Value (T : Type) [ColumnTypes T] := (t : T) × Elem t

omit [SortingTypes T] in
/-- std::any_cast -/
def anyCast {F : T → Type} (v : (t : T) × F t) (t : T) : Except Thrown (F t) :=
  if h : v.1 = t then .ok (h ▸ v.2) else .error .badAnyCast

structure Table (T : Type) [ColumnTypes T] where
  columns : List (String × StoredColumn T)
  sortingColumns : List String

abbrev Data (T : Type) [ColumnTypes T] := List (String × Values T)

abbrev NullMasks := List (String × Mask)

/-- GetConcreteBitFromBitmask of a vector -/
def readBit (mask : Mask) (i : ℕ) : Except Thrown Bool :=
  if i / 64 < mask.length then .ok (getBit mask i) else .error .undefined

/-- the bit of a mask that need not be there -/
def nullFlag (mask : Option Mask) (i : ℕ) : Except Thrown Bool :=
  match mask with
  | none => .ok false
  | some mask => readBit mask i

/-- GetDataSizeOfInsertedColumns: the size becomes an int -/
def getDataSizeOfInsertedColumns (data : Data T) : Except Thrown ℕ :=
  match data with
  | [] => .error .undefined
  | values :: _ => .ok (IntN.wrap 32 values.2.2.length).val.toNat

/-! ### The checks -/

def checkNullableConstraintInData (t : Table T) (nullMasks : NullMasks) (dataSize : ℕ) : Except Thrown Unit :=
  t.columns.forM fun c =>
    match nullMasks.lookup c.1 with
    | none => .ok ()
    | some mask =>
      if c.2.column.isNullable then .ok ()
      else (List.range dataSize).forM fun i => do
        if ← readBit mask i then
          .error (.fault (.constraintViolation ("Could not execute statement due to a NOT NULL constraint failure on " ++
            "column: " ++ c.1 ++ " trying to insert NULL value")))

/-- the rows of a column that must not be in the hash map, nor twice among them -/
def checkDuplicates (name : String) (t : T) (dataColumn : List (Elem t)) (dataSize : ℕ) (hashmap : List (Elem t)) :
    Except Thrown Unit := do
  let _ ← (List.range dataSize).foldlM (fun seen i =>
    match dataColumn[i]? with
    | none => .error .undefined
    | some x =>
      if x ∈ seen then
        .error (.fault (.constraintViolation ("Could not execute statement due to a UNIQUE constraint failure on " ++
          "column: " ++ name ++ ", column contains duplicate value: " ++ SortingTypes.text t x)))
      else .ok (x :: seen)) hashmap

def checkUniqueConstraintInData (t : Table T) (data : Data T) (dataSize : ℕ) : Except Thrown Unit :=
  t.columns.forM fun c =>
    match data.lookup c.1 with
    | some values =>
      if c.2.column.isUnique then do
        let dataColumn ← anyCast values c.2.type
        checkDuplicates c.1 c.2.type dataColumn dataSize c.2.column.uniqueHashmap
      else .ok ()
    | none =>
      if c.2.column.isUnique then
        .error (.fault (.constraintViolation ("Could not execute statement due to a UNIQUE constraint failure on " ++
          "column: " ++ c.1 ++ "trying to insert NULL value")))
      else .ok ()

/-- the checks before the first change -/
def checkConstraints (t : Table T) (data : Data T) (nullMasks : NullMasks) (dataSize : ℕ) : Except Thrown Unit := do
  if t.columns.any fun c => !c.2.column.isNullable then checkNullableConstraintInData t nullMasks dataSize
  if t.columns.any fun c => c.2.column.isUnique then checkUniqueConstraintInData t data dataSize

/-! ### The place of a row -/

section Index

/-- GetDataRangeInSortingColumn -/
def getDataRangeInSortingColumn (s : StoredColumn T) : ℕ :=
  if SortingTypes.sortable s.type then rowsIn s.column.getBlocksList else 0

/-- the loop of GetIndicesFromTotalIndex over the sizes of the blocks -/
def indicesFrom (positionDiff : ℕ) : List ℕ → ℕ → ℕ → Except Thrown (ℕ × ℕ)
  | [], _, _ => .error .undefined
  | size :: sizes, blockIndex, indexInBlock =>
    if size < indexInBlock + positionDiff then indicesFrom positionDiff sizes (blockIndex + 1) (indexInBlock - size)
    else .ok (blockIndex, indexInBlock)

/-- GetIndicesFromTotalIndex -/
def getIndicesFromTotalIndex (s : StoredColumn T) (index : ℕ) (positionToCompare : Bool) : Except Thrown (ℕ × ℕ) :=
  if SortingTypes.sortable s.type then
    indicesFrom (if positionToCompare then 1 else 0) (s.column.getBlocksList.map Block.size) 0 index
  else .ok (0, index)

/-- GetRowAndBitmaskOfInsertedData -/
def getRowAndBitmaskOfInsertedData (t : Table T) (data : Data T) (iterator : ℕ) (nullMasks : NullMasks) :
    Except Thrown (List (Value T) × List Bool) := do
  let row ← t.sortingColumns.mapM fun column => do
    let isNullValue ← nullFlag (nullMasks.lookup column) iterator
    match data.lookup column with
    | some values =>
      if SortingTypes.sortable values.1 then
        match values.2[iterator]? with
        | none => .error .undefined
        | some x => .ok ([(⟨values.1, x⟩ : Value T)], isNullValue)
      else .ok ([], isNullValue)
    | none =>
      match t.columns.lookup column with
      | none => .error .outOfRange
      | some s => .ok ([⟨s.type, SortingTypes.nullConstant s.type⟩], isNullValue)
  .ok (row.flatMap Prod.fst, row.map Prod.snd)

/-- GetRowAndBitmaskOnIndex; the mask of a block is read whether it has one or not -/
def getRowAndBitmaskOnIndex (t : Table T) (first : StoredColumn T) (index : ℕ) :
    Except Thrown (List (Value T) × List Bool) := do
  let position ← getIndicesFromTotalIndex first index true
  let row ← t.sortingColumns.mapM fun column =>
    match t.columns.lookup column with
    | none => .error .undefined
    | some s =>
      if SortingTypes.sortable s.type then
        match s.column.getBlocksList[position.1]? with
        | none => .error .undefined
        | some block =>
          match block.data[position.2]?, block.bitMask with
          | some x, some mask => .ok [((⟨s.type, x⟩ : Value T), getBit mask position.2)]
          | _, _ => .error .undefined
      else .ok []
  .ok (row.flatten.map Prod.fst, row.flatten.map Prod.snd)

inductive CompareResult where
  | greater
  | lower
  | equal
deriving DecidableEq, Repr

/-- the loop of CompareRows from column `i` on -/
def compareFrom (t : Table T) (rowToInsert rowToCompare : List (Value T)) (maskOfInsertRow maskOfCompareRow : List Bool) :
    ℕ → List String → Except Thrown CompareResult
  | _, [] => .ok .equal
  | i, column :: columns =>
    match maskOfInsertRow[i]?, maskOfCompareRow[i]? with
    | some true, some false => .ok .lower
    | some false, some true => .ok .greater
    | some true, some true => compareFrom t rowToInsert rowToCompare maskOfInsertRow maskOfCompareRow (i + 1) columns
    | some false, some false =>
      match t.columns.lookup column with
      | none => .error .undefined
      | some s =>
        if SortingTypes.sortable s.type then
          match rowToInsert[i]?, rowToCompare[i]? with
          | some x, some y => do
            let x ← anyCast x s.type
            let y ← anyCast y s.type
            if Element.lt x y then .ok .lower
            else if Element.lt y x then .ok .greater
            else compareFrom t rowToInsert rowToCompare maskOfInsertRow maskOfCompareRow (i + 1) columns
          | _, _ => .error .undefined
        else compareFrom t rowToInsert rowToCompare maskOfInsertRow maskOfCompareRow (i + 1) columns
    | _, _ => .error .undefined

/-- CompareRows -/
def compareRows (t : Table T) (first : StoredColumn T) (rowToInsert : List (Value T)) (maskOfInsertRow : List Bool)
    (index : ℕ) : Except Thrown CompareResult := do
  let row ← getRowAndBitmaskOnIndex t first index
  compareFrom t rowToInsert row.1 maskOfInsertRow row.2 0 t.sortingColumns

/-- the loop of GetIndex, the last index and the last result before it -/
def search (compare : ℕ → Except Thrown CompareResult) (left right : ℤ) (index : ℕ) (compareResult : CompareResult) :
    Except Thrown ℕ :=
  if _h : left ≤ right then
    let index := (left + right) / 2
    match compare index.toNat with
    | .error e => .error e
    | .ok .greater => search compare (index + 1) right index.toNat .greater
    | .ok .lower => search compare left (index - 1) index.toNat .lower
    | .ok .equal => .ok index.toNat
  else .ok (if compareResult = .greater then index + 1 else index)
termination_by (right + 1 - left).toNat
decreasing_by all_goals omega

/-- GetIndex -/
def getIndex (t : Table T) (rowToInsert : List (Value T)) (maskOfRow : List Bool) : Except Thrown (ℕ × ℕ) :=
  match t.sortingColumns.head?.bind fun column => t.columns.lookup column with
  | none => .error .undefined
  | some first =>
    let right := getDataRangeInSortingColumn first
    if right = 0 then .ok (0, 0)
    else do
      let index ← search (compareRows t first rowToInsert maskOfRow) 0 (right - 1) 0 .equal
      getIndicesFromTotalIndex first index false

/-- where row `i` of the data goes -/
def position (data : Data T) (nullMasks : NullMasks) (t : Table T) (i : ℕ) : Except Thrown (ℕ × ℕ) := do
  let row ← getRowAndBitmaskOfInsertedData t data i nullMasks
  getIndex t row.1 row.2

end Index

/-! ### The insertion -/

section Insert

variable {α : Type} [Element α] [DecidableEq α]

omit [Element α] in
/-- InsertIntoHashmap of a UNIQUE column -/
def insertIntoHashmap (c : Column α) (values : List α) : Column α :=
  if c.isUnique then { c with uniqueHashmap := values.foldl (fun seen x => seen.insert x) c.uniqueHashmap } else c

/-- ColumnBase::InsertData, with a mask or without; the limit is checked before the mask is read -/
def insertInto (rowsLimit : Option ℕ) (c : Column α) (columnData : List α) (mask : Option Mask) :
    Except Fault (Column α) :=
  match mask with
  | none => c.insertData rowsLimit columnData (-1) true UINT32_MAX
  | some mask => do
    checkRowsLimit rowsLimit (c.size + columnData.length - 1)
    c.insertDataMasked rowsLimit columnData mask (-1) true UINT32_MAX

end Insert

/-- one column of InsertData -/
def insertValues (rowsLimit : Option ℕ) (mask : Option Mask) (values : Values T) (s : StoredColumn T) :
    StoredColumn T × Option Thrown :=
  match anyCast values s.type with
  | .error _ => (s, some .undefined)
  | .ok columnData =>
    match insertInto rowsLimit s.column columnData mask with
    | .error e => (s, some (.fault e))
    | .ok c => (⟨s.type, insertIntoHashmap c columnData⟩, none)

/-- one column of InsertValuesOnSpecificPosition; an exception leaves the column as the insertion has left it -/
def insertValueAt (rowsLimit : Option ℕ) (mask : Option Mask) (values : Values T) (iterator : ℕ) (position : ℕ × ℕ)
    (s : StoredColumn T) : StoredColumn T × Option Thrown :=
  match nullFlag mask iterator with
  | .error e => (s, some e)
  | .ok isNullValue =>
    match anyCast values s.type with
    | .error _ => (s, some .undefined)
    | .ok columnData =>
      match columnData[iterator]? with
      | none => (s, some .undefined)
      | some x =>
        let r := s.column.insertDataOnSpecificPosition rowsLimit position.1 position.2 x (-1) isNullValue
        match r.2 with
        | some e => (⟨s.type, r.1⟩, some (.fault e))
        | none => (⟨s.type, insertIntoHashmap r.1 [x]⟩, none)

/-- a column of the table, changed if there are data for it -/
def withData (data : Data T) (insert : String → Values T → StoredColumn T → StoredColumn T × Option Thrown)
    (c : String × StoredColumn T) : (String × StoredColumn T) × Option Thrown :=
  match data.lookup c.1 with
  | none => (c, none)
  | some values =>
    let r := insert c.1 values c.2
    ((c.1, r.1), r.2)

/-- the columns, one after the other -/
def insertColumns (rowsLimit : Option ℕ) (data : Data T) (nullMasks : NullMasks) (t : Table T) :
    Table T × Option Thrown :=
  let r := Traverse.inPlace (withData data fun name => insertValues rowsLimit (nullMasks.lookup name)) t.columns
  ({ t with columns := r.1 }, r.2)

/-- GetIndex and InsertValuesOnSpecificPosition for one row -/
def insertRow (rowsLimit : Option ℕ) (data : Data T) (nullMasks : NullMasks) (t : Table T) (i : ℕ) :
    Table T × Option Thrown :=
  match position data nullMasks t i with
  | .error e => (t, some e)
  | .ok place =>
    let r := Traverse.inPlace
      (withData data fun name values => insertValueAt rowsLimit (nullMasks.lookup name) values i place) t.columns
    ({ t with columns := r.1 }, r.2)

/-- `n` rows from row `i` on -/
def insertRows (rowsLimit : Option ℕ) (data : Data T) (nullMasks : NullMasks) :
    ℕ → ℕ → Table T → Table T × Option Thrown
  | 0, _, t => (t, none)
  | n + 1, i, t =>
    match insertRow rowsLimit data nullMasks t i with
    | (t, none) => insertRows rowsLimit data nullMasks n (i + 1) t
    | (t, some e) => (t, some e)

inductive Result (T : Type) [ColumnTypes T] where
  | done (t : Table T)
  | thrown (t : Table T) (e : Thrown)
  | undefined

def finish (r : Table T × Option Thrown) : Result T :=
  match r.2 with
  | none => .done r.1
  | some e => if e = .undefined then .undefined else .thrown r.1 e

/-- Table::InsertData -/
def insertData (rowsLimit : Option ℕ) (t : Table T) (data : Data T) (nullMasks : NullMasks) : Result T :=
  match getDataSizeOfInsertedColumns data with
  | .error e => finish (t, some e)
  | .ok oneColumnDataSize =>
    match checkConstraints t data nullMasks oneColumnDataSize with
    | .error e => finish (t, some e)
    | .ok () =>
      if t.sortingColumns = [] then finish (insertColumns rowsLimit data nullMasks t)
      else finish (insertRows rowsLimit data nullMasks oneColumnDataSize 0 t)

/-! ## All or nothing -/

/-- the same blocks with the same rows and null flags, and the same hash map -/
structure Same {α : Type} (c c' : Column α) : Prop where
  size : c'.size = c.size
  uniqueHashmap : c'.uniqueHashmap = c.uniqueHashmap
  blocks : ∀ groupId, (c'.group groupId).map Block.cells = (c.group groupId).map Block.cells

def Unchanged (s s' : StoredColumn T) : Prop := ∃ type c c', s = ⟨type, c⟩ ∧ s' = ⟨type, c'⟩ ∧ Same c c'

/-- `n` rows more, by the counter of the column and by those of its blocks -/
structure GrownBy (n : ℕ) (s s' : StoredColumn T) : Prop where
  type : s'.type = s.type
  size : s'.column.size = s.column.size + n
  rows : rowsIn s'.column.getBlocksList = rowsIn s.column.getBlocksList + n

/-- A call that returns has made all columns it names longer by the same number of rows. A call that throws has changed
nothing. -/
def Atomic (t : Table T) (data : Data T) : Result T → Prop
  | .done t' => ∃ n, List.Forall₂ (fun c c' => c'.1 = c.1 ∧ ((data.lookup c.1).isSome → GrownBy n c.2 c'.2))
      t.columns t'.columns
  | .thrown t' _ => List.Forall₂ (fun c c' => c'.1 = c.1 ∧ Unchanged c.2 c'.2) t.columns t'.columns
  | .undefined => False

/-- the blocks have their rows in their arrays, and a mask just when the column is nullable -/
structure Sound {α : Type} (c : Column α) : Prop where
  sorted : c.Sorted
  fits : ∀ b ∈ c.getBlocksList, Fits c.blockSize b
  masked : All Masked c

/-- the columns that the operations keep are sound -/
theorem sound_of_valid {α : Type} {c : Column α} (hs : c.Sorted) (hv : c.Valid) : Sound c :=
  ⟨hs, fun b hb => ⟨(hv.blocks b hb).capacity, (hv.blocks b hb).stored, (hv.blocks b hb).room⟩,
    fun b hb => (hv.blocks b hb).nullable⟩

/-! ## When it is -/

section Conditions

/-- the rows can be appended to the column -/
structure Appends {α : Type} (rowsLimit : Option ℕ) (c : Column α) (columnData : List α) (mask : Option Mask) : Prop where
  limit : checkRowsLimit rowsLimit (c.size + columnData.length - 1) = .ok ()
  length : columnData.length < 2 ^ 31
  blockSize : 0 < c.blockSize
  words : ∀ m ∈ mask, getNullBitMaskSize columnData.length ≤ m.length
  nulls : c.isNullable = true ∨ ∀ m ∈ mask, ∀ i < columnData.length, getBit m i = false

/-- the block has room and the position is in its array; a NULL behind its rows needs a mask -/
structure TakesRow {α : Type} (b : Block α) (index : ℕ) (isNullValue : Bool) : Prop where
  room : b.emptyBlockSpace ≠ 0
  data : index ≤ b.data.length
  capacity : index < b.capacity
  null : b.isNullable = true ∨ index < b.size ∨ isNullValue = false

/-- the row can be put at the position -/
structure Puts {α : Type} [Element α] (rowsLimit : Option ℕ) (c : Column α) (place : ℕ × ℕ) (isNullValue : Bool) :
    Prop where
  limit : checkRowsLimit rowsLimit c.size = .ok ()
  block : ∃ b ∈ Column.targetBlock c (-1) place.1, TakesRow b place.2 isNullValue

variable (rowsLimit : Option ℕ) (mask : Option Mask) (values : Values T) (s : StoredColumn T)

/-- the column takes the values -/
def Takes : Prop :=
  ∃ columnData, anyCast values s.type = .ok columnData ∧ Appends rowsLimit s.column columnData mask

/-- the column refuses the values for the limit -/
def OverLimit : Prop :=
  ∃ columnData, anyCast values s.type = .ok columnData ∧
    ∃ e, checkRowsLimit rowsLimit (s.column.size + columnData.length - 1) = .error e

/-- the column takes row `i` of the values -/
def TakesAt (i : ℕ) (place : ℕ × ℕ) : Prop :=
  ∃ isNullValue, nullFlag mask i = .ok isNullValue ∧
    ∃ columnData, anyCast values s.type = .ok columnData ∧ i < columnData.length ∧
      Puts rowsLimit s.column place isNullValue

/-- the column refuses row `i` for the limit -/
def AtLimit (i : ℕ) : Prop :=
  (∃ isNullValue, nullFlag mask i = .ok isNullValue) ∧
    ∃ columnData, anyCast values s.type = .ok columnData ∧ i < columnData.length ∧
      ∃ e, checkRowsLimit rowsLimit s.column.size = .error e

variable (data : Data T) (nullMasks : NullMasks) (t : Table T)

/-- Without an index: each column takes its values, and these are as many for all columns. Or the limit refuses a column,
and there was nothing to insert into the columns before it. -/
def ColumnsFine : Prop :=
  ((∀ c ∈ t.columns, ∀ values ∈ data.lookup c.1, Takes rowsLimit (nullMasks.lookup c.1) values c.2) ∧
    ∃ n, ∀ c ∈ t.columns, ∀ values ∈ data.lookup c.1, values.2.length = n) ∨
  ∃ before c after, t.columns = before ++ c :: after ∧
    (∀ b ∈ before, ∀ values ∈ data.lookup b.1, Takes rowsLimit (nullMasks.lookup b.1) values b.2 ∧ values.2 = []) ∧
    ∃ values ∈ data.lookup c.1, OverLimit rowsLimit values c.2

/-- row `i` has a place, and each column takes it there -/
def RowFine (i : ℕ) : Prop :=
  ∃ place, position data nullMasks t i = .ok place ∧ ∀ c ∈ t.columns, ∀ values ∈ data.lookup c.1,
    TakesAt rowsLimit (nullMasks.lookup c.1) values c.2 i place

/-- row `i` is refused before a column has changed -/
def RowRefused (i : ℕ) : Prop :=
  (∃ e, position data nullMasks t i = .error e ∧ e ≠ .undefined) ∨
    (∃ place, position data nullMasks t i = .ok place) ∧ ∃ before c after, t.columns = before ++ c :: after ∧
      (∀ b ∈ before, data.lookup b.1 = none) ∧
      ∃ values ∈ data.lookup c.1, AtLimit rowsLimit (nullMasks.lookup c.1) values c.2 i

/-- each of `n` rows from row `i` on is fine in the table that the rows before it leave -/
def RowsFine : ℕ → ℕ → Table T → Prop
  | 0, _, _ => True
  | n + 1, i, t => RowFine rowsLimit data nullMasks t i ∧
      RowsFine n (i + 1) (insertRow rowsLimit data nullMasks t i).1

/-- a row is refused before anything has changed: the first one, or any one if no column has data -/
def RowsRefused (n i : ℕ) : Prop :=
  ∃ j < n, (j = 0 ∨ ∀ c ∈ t.columns, data.lookup c.1 = none) ∧
    (∀ k < j, ∃ place, position data nullMasks t (i + k) = .ok place) ∧ RowRefused rowsLimit data nullMasks t (i + j)

/-- Some column is named. The checks throw, or they pass and the insertion is fine. -/
def Fine : Prop :=
  ∃ oneColumnDataSize, getDataSizeOfInsertedColumns data = .ok oneColumnDataSize ∧
    match checkConstraints t data nullMasks oneColumnDataSize with
    | .error e => e ≠ .undefined
    | .ok () =>
      if t.sortingColumns = [] then ColumnsFine rowsLimit data nullMasks t
      else RowsFine rowsLimit data nullMasks oneColumnDataSize 0 t ∨
        RowsRefused rowsLimit data nullMasks t oneColumnDataSize 0

end Conditions

/-! ## Appending -/

section Appending

variable {α : Type} [Element α] {blockSize : ℕ}

/-- NULLs need a nullable column -/
def NullsFit (isNullable : Bool) (batch : List (α × Bool)) : Prop := isNullable = true ∨ ∀ row ∈ batch, row.2 = false

omit [Element α] in
theorem nullsFit_append {isNullable : Bool} (l l' : List (α × Bool)) :
    NullsFit isNullable (l ++ l') ↔ NullsFit isNullable l ∧ NullsFit isNullable l' := by
  unfold NullsFit
  rw [List.forall_mem_append, or_and_left]

omit [Element α] in
theorem setNullBits_cases (b : Block α) (start : ℕ) (rows : List (α × Bool)) :
    (NullsFit b.isNullable rows → ∃ b', Column.setNullBits b start (rows.map Prod.snd) = .ok b') ∧
      (¬ NullsFit b.isNullable rows → Column.setNullBits b start (rows.map Prod.snd) = .error .undefined) := by
  induction rows generalizing b start with
  | nil => exact ⟨fun _ => ⟨b, rfl⟩, fun h => absurd (Or.inr (by simp)) h⟩
  | cons row rows ih =>
    obtain ⟨x, bit⟩ := row
    cases bit with
    | false =>
      have hfit : NullsFit b.isNullable ((x, false) :: rows) ↔ NullsFit b.isNullable rows := by simp [NullsFit]
      rw [hfit]
      exact ih b (start + 1)
    | true =>
      have hfit : NullsFit b.isNullable ((x, true) :: rows) ↔ b.isNullable = true := by
        simp [NullsFit]
      rw [hfit]
      cases hmask : b.bitMask with
      | none =>
        have hset : Column.setNullBits b start (((x, true) :: rows).map Prod.snd) = .error .undefined := by
          simp [Column.setNullBits, Block.setNullBit, hmask, bind, Except.bind]
        exact ⟨fun h => by simp [Block.isNullable, hmask] at h, fun _ => hset⟩
      | some mask =>
        obtain ⟨b', hb'⟩ := (ih { b with bitMask := some (setBit mask start true) } (start + 1)).1 (Or.inl rfl)
        refine ⟨fun _ => ⟨b', ?_⟩, fun h => absurd (by simp [Block.isNullable, hmask]) h⟩
        simp only [List.map_cons, Column.setNullBits, if_true, Block.setNullBit, hmask, bind, Except.bind]
        exact hb'

omit [Element α] in
theorem setNullBits_shape {b b' : Block α} {start : ℕ} {bits : List Bool}
    (hok : Column.setNullBits b start bits = .ok b') : b'.data = b.data ∧ b'.size = b.size ∧ b'.capacity = b.capacity := by
  induction bits generalizing b start with
  | nil =>
    obtain rfl := Except.ok.inj hok
    exact ⟨rfl, rfl, rfl⟩
  | cons bit bits ih =>
    cases bit with
    | false => exact ih hok
    | true =>
      simp only [Column.setNullBits, ↓reduceIte] at hok
      obtain ⟨b₁, h₁, hok⟩ := bind_eq_ok.1 hok
      obtain ⟨hdata, hsize, hcapacity⟩ := ih hok
      unfold Block.setNullBit at h₁
      split at h₁
      · cases h₁
      · obtain rfl := Except.ok.inj h₁
        exact ⟨hdata, hsize, hcapacity⟩

theorem newChunk_cases (isNullable : Bool) {chunk : List (α × Bool)} (hlen : chunk.length ≤ blockSize) :
    (NullsFit isNullable chunk → ∃ b, Column.newChunk blockSize isNullable true UINT32_MAX chunk = .ok b) ∧
      (¬ NullsFit isNullable chunk → Column.newChunk blockSize isNullable true UINT32_MAX chunk = .error .undefined) := by
  obtain ⟨b, hb, -⟩ := @Block.ofData_ok _ _ blockSize isNullable (chunk.map Prod.fst) (decide (UINT32_MAX ≠ 0)) UINT32_MAX
    (by rwa [List.length_map])
  have hnew : Column.newChunk blockSize isNullable true UINT32_MAX chunk = Column.setNullBits b 0 (chunk.map Prod.snd) := by
    rw [Column.newChunk, hb]
    rfl
  rw [hnew, ← isNullable_ofData hb]
  exact setNullBits_cases b 0 chunk

theorem newBlocks_cases (isNullable : Bool) (hpos : 0 < blockSize) (batch : List (α × Bool)) :
    (NullsFit isNullable batch → ∃ new, (Chunks.chunks blockSize batch).mapM
      (Column.newChunk blockSize isNullable true UINT32_MAX) = .ok new) ∧
    (¬ NullsFit isNullable batch → (Chunks.chunks blockSize batch).mapM
      (Column.newChunk blockSize isNullable true UINT32_MAX) = .error .undefined) := by
  have hchunk : ∀ chunk ∈ Chunks.chunks blockSize batch, _ := fun chunk hchunk =>
    newChunk_cases isNullable (Chunks.mem_chunks_length hpos batch chunk hchunk).2
  have hfit : NullsFit isNullable batch ↔ ∀ chunk ∈ Chunks.chunks blockSize batch, NullsFit isNullable chunk := by
    cases isNullable with
    | true => simp [NullsFit]
    | false =>
      have hflat := Chunks.flatten_chunks hpos batch
      conv_lhs => rw [← hflat]
      simp only [NullsFit, Bool.false_eq_true, false_or, List.mem_flatten]
      constructor
      · exact fun h chunk hchunk row hrow => h row ⟨chunk, hchunk, hrow⟩
      · rintro h row ⟨chunk, hchunk, hrow⟩
        exact h chunk hchunk row hrow
  rw [hfit]
  refine ⟨fun h => Traverse.exists_mapM_ok_iff.2 fun chunk hmem => (hchunk chunk hmem).1 (h chunk hmem), fun h => ?_⟩
  cases hmap : (Chunks.chunks blockSize batch).mapM (Column.newChunk blockSize isNullable true UINT32_MAX) with
  | ok new =>
    refine absurd (fun chunk hmem => ?_) h
    by_contra hnot
    obtain ⟨b, hb⟩ := Traverse.exists_mapM_ok_iff.1 ⟨new, hmap⟩ chunk hmem
    rw [(hchunk chunk hmem).2 hnot] at hb
    cases hb
  | error e =>
    obtain ⟨before, chunk, after, hsplit, -, herror⟩ := Traverse.mapM_error_iff.1 hmap
    have hmem : chunk ∈ Chunks.chunks blockSize batch := by simp [hsplit]
    by_cases hnulls : NullsFit isNullable chunk
    · obtain ⟨b, hb⟩ := (hchunk chunk hmem).1 hnulls
      rw [herror] at hb
      cases hb
    · rw [(hchunk chunk hmem).2 hnulls] at herror
      obtain rfl := Except.error.inj herror
      rfl

/-- rows that go into the last block -/
theorem fill_cases {last : Block α} {rows : List (α × Bool)} (hlen : rows.length ≤ last.emptyBlockSpace) :
    (NullsFit last.isNullable rows → (∃ b, Column.fillWhole last rows = .ok b) ∧ ∃ b, Column.fillUp last rows = .ok b) ∧
      (¬ NullsFit last.isNullable rows → Column.fillWhole last rows = .error .undefined ∧
        Column.fillUp last rows = .error .undefined) := by
  have hinsert : ∀ b : Block α, b.emptyBlockSpace = last.emptyBlockSpace →
      ∃ b', b.insertData (rows.map Prod.fst) true = .ok b' := by
    intro b hb
    rw [Block.insertData, if_neg]
    · exact ⟨_, rfl⟩
    · rw [List.length_map, hb]
      exact not_lt.2 hlen
  obtain ⟨filled, hfilled⟩ := hinsert last rfl
  have hup : Column.fillUp last rows = Column.setNullBits filled last.size (rows.map Prod.snd) := by
    rw [Column.fillUp, hfilled]
    rfl
  have hbits := setNullBits_cases last last.size rows
  have hbits' := setNullBits_cases filled last.size rows
  rw [isNullable_insertData hfilled] at hbits'
  constructor
  · intro hnulls
    refine ⟨?_, by rw [hup]; exact hbits'.1 hnulls⟩
    obtain ⟨b, hb⟩ := hbits.1 hnulls
    obtain ⟨hdata, hsize, hcapacity⟩ := setNullBits_shape hb
    obtain ⟨b', hb'⟩ := hinsert b (by rw [Block.emptyBlockSpace, Block.emptyBlockSpace, hsize, hcapacity])
    exact ⟨b', bind_eq_ok.2 ⟨b, hb, hb'⟩⟩
  · intro hnulls
    refine ⟨?_, by rw [hup]; exact hbits'.2 hnulls⟩
    rw [Column.fillWhole, hbits.2 hnulls]
    rfl

/-- InsertData of the blocks of a group succeeds if and only if the NULLs fit -/
theorem appendRows_cases (isNullable : Bool) (hpos : 0 < blockSize) {bs : List (Block α)}
    (hbs : ∀ b ∈ bs, b.isNullable = isNullable) (batch : List (α × Bool)) :
    (NullsFit isNullable batch → ∃ bs', Column.appendRows blockSize isNullable true UINT32_MAX bs batch = .ok bs') ∧
      (¬ NullsFit isNullable batch →
        Column.appendRows blockSize isNullable true UINT32_MAX bs batch = .error .undefined) := by
  unfold Column.appendRows
  cases hlast : bs.getLast? with
  | none => exact newBlocks_cases isNullable hpos batch
  | some last =>
    have hmask : last.isNullable = isNullable := hbs last (List.mem_of_getLast? hlast)
    simp only
    split_ifs with hfull hfit
    · obtain ⟨hok, herror⟩ := newBlocks_cases isNullable hpos batch
      constructor
      · intro hnulls
        obtain ⟨new, hnew⟩ := hok hnulls
        exact ⟨bs ++ new, bind_eq_ok.2 ⟨new, hnew, rfl⟩⟩
      · intro hnulls
        rw [herror hnulls]
        rfl
    · obtain ⟨hok, herror⟩ := fill_cases hfit
      rw [hmask] at hok herror
      constructor
      · intro hnulls
        obtain ⟨⟨b, hb⟩, -⟩ := hok hnulls
        exact ⟨bs.dropLast ++ [b], bind_eq_ok.2 ⟨b, hb, rfl⟩⟩
      · intro hnulls
        rw [(herror hnulls).1]
        rfl
    · have htake : (batch.take last.emptyBlockSpace).length ≤ last.emptyBlockSpace := List.length_take_le _ _
      obtain ⟨hok, herror⟩ := fill_cases htake
      rw [hmask] at hok herror
      obtain ⟨hok', herror'⟩ := newBlocks_cases isNullable hpos (batch.drop last.emptyBlockSpace)
      have hboth : NullsFit isNullable batch ↔ NullsFit isNullable (batch.take last.emptyBlockSpace) ∧
          NullsFit isNullable (batch.drop last.emptyBlockSpace) := by
        rw [← nullsFit_append, List.take_append_drop]
      rw [hboth]
      constructor
      · rintro ⟨hnulls, hnulls'⟩
        obtain ⟨-, b, hb⟩ := hok hnulls
        obtain ⟨new, hnew⟩ := hok' hnulls'
        exact ⟨bs.dropLast ++ b :: new, bind_eq_ok.2 ⟨b, hb, bind_eq_ok.2 ⟨new, hnew, rfl⟩⟩⟩
      · intro hnot
        by_cases hnulls : NullsFit isNullable (batch.take last.emptyBlockSpace)
        · obtain ⟨-, b, hb⟩ := hok hnulls
          rw [hb, herror' fun hnulls' => hnot ⟨hnulls, hnulls'⟩]
          rfl
        · rw [(herror hnulls).2]
          rfl

/-! ### A column -/

variable {rowsLimit : Option ℕ} {c c' : Column α}

theorem checkRowsLimit_error {rowsCount : ℤ} {e : Fault} (h : checkRowsLimit rowsLimit rowsCount = .error e) :
    e ≠ .undefined := by
  unfold checkRowsLimit at h
  split at h
  · cases h
  · split_ifs at h
    obtain rfl := Except.error.inj h
    exact nofun

omit [Element α] in
/-- a group stored anew -/
theorem Sound.setGroup (h : Sound c) (groupId : ℤ) (size : ℕ) {bs : List (Block α)}
    (hfits : ∀ b ∈ bs, Fits c.blockSize b) (hmasked : ∀ b ∈ bs, b.isNullable = c.isNullable) :
    Sound { c.setGroup groupId bs with size := size } := by
  refine ⟨Column.sorted_setGroup h.sorted groupId bs, fun b hb => ?_, h.masked.setGroup groupId size hmasked⟩
  rcases Column.mem_setGroup hb with hb | hb
  · exact hfits b hb
  · exact h.fits b hb

omit [Element α] in
theorem rowsIn_setGroup (h : Sound c) (groupId : ℤ) (bs : List (Block α)) :
    rowsIn (c.setGroup groupId bs).getBlocksList + rowsIn (c.group groupId) = rowsIn c.getBlocksList + rowsIn bs :=
  Column.sum_setGroup h.sorted Block.size groupId bs

/-- `n` rows more, with the hash map as it was -/
structure Longer (c c' : Column α) (n : ℕ) : Prop where
  sound : Sound c'
  size : c'.size = c.size + n
  rows : rowsIn c'.getBlocksList = rowsIn c.getBlocksList + n
  uniqueHashmap : c'.uniqueHashmap = c.uniqueHashmap

omit [Element α] in
theorem cells_congr {b b' : Block α} (hdata : b'.data = b.data) (hmask : b'.bitMask = b.bitMask)
    (hsize : b'.size = b.size) : b'.cells = b.cells := by
  simp only [Block.cells, Block.rows, Block.isNull, hdata, hmask, hsize]

/-- an empty vector leaves the cells of all blocks -/
theorem cells_appendRows_nil {bs bs' : List (Block α)} {isNullable : Bool} (hbs : ∀ b ∈ bs, Fits blockSize b)
    (hok : Column.appendRows blockSize isNullable true UINT32_MAX bs [] = .ok bs') :
    bs'.map Block.cells = bs.map Block.cells := by
  have hnil : (Chunks.chunks blockSize ([] : List (α × Bool))).mapM
      (Column.newChunk blockSize isNullable true UINT32_MAX) = .ok [] := by
    rw [Chunks.chunks_nil]
    rfl
  unfold Column.appendRows at hok
  cases hlast : bs.getLast? with
  | none =>
    simp only [hlast, hnil] at hok
    obtain rfl := Except.ok.inj hok
    rw [List.getLast?_eq_none_iff.1 hlast]
  | some last =>
    simp only [hlast, hnil, List.length_nil, Nat.zero_le, if_true] at hok
    split_ifs at hok with hfull
    · obtain rfl := Except.ok.inj hok
      rw [List.append_nil]
    · obtain ⟨b, hb, hok⟩ := bind_eq_ok.1 hok
      obtain rfl := Except.ok.inj hok
      have hcells : b.cells = last.cells := by
        obtain ⟨b₁, h₁, hb⟩ := bind_eq_ok.1 hb
        obtain rfl := Except.ok.inj h₁
        rw [Block.insertData, if_neg (by simp)] at hb
        obtain rfl := Except.ok.inj hb
        set written : Block α := { last with data := last.rows ++ [] ++ last.data.drop (last.size + 0) } with hwritten
        have hdata : written.data = last.data := by
          simp [hwritten, Block.rows]
        have hstore := Block.setBlockStatistics_store written 0 last.size
        have hsize : (written.setBlockStatistics 0 last.size).size = last.size := by
          have hfits := hbs last (List.mem_of_getLast? hlast)
          exact Block.setBlockStatistics_size written 0 last.size (by rw [hdata]; exact hfits.stored)
        exact cells_congr (hstore.data.trans hdata) hstore.bitMask hsize
      have hsplit : bs = bs.dropLast ++ [last] := by
        obtain ⟨init, rfl⟩ := List.getLast?_eq_some_iff.1 hlast
        rw [List.dropLast_concat]
      conv_rhs => rw [hsplit]
      rw [List.map_append, List.map_append, List.map_singleton, List.map_singleton, hcells]

/-- the rows of InsertData with their null bits -/
def batchOf (columnData : List α) (mask : Option Mask) : List (α × Bool) :=
  match mask with
  | none => columnData.map fun x => (x, false)
  | some mask => Column.maskedBatch columnData mask

omit [Element α] in
theorem length_batchOf (columnData : List α) (mask : Option Mask) : (batchOf columnData mask).length = columnData.length := by
  cases mask with
  | none => exact List.length_map _
  | some mask => rw [batchOf, Column.maskedBatch, List.length_map, List.length_zipIdx]

omit [Element α] in
theorem nullsFit_batchOf {isNullable : Bool} (columnData : List α) (mask : Option Mask) :
    NullsFit isNullable (batchOf columnData mask) ↔
      isNullable = true ∨ ∀ m ∈ mask, ∀ i < columnData.length, getBit m i = false := by
  refine or_congr_right ?_
  cases mask with
  | none => simp [batchOf]
  | some m =>
    simp only [batchOf, Column.maskedBatch, List.forall_mem_map, Option.mem_some_iff, forall_eq']
    constructor
    · intro h i hi
      exact h (columnData.get ⟨i, hi⟩, i) (List.mem_zipIdx_iff_getElem?.2 (List.getElem?_eq_getElem hi))
    · intro h row hrow
      exact h row.2 (List.snd_lt_of_mem_zipIdx hrow)

/-- InsertData past the limit -/
theorem insertInto_eq {columnData : List α} {mask : Option Mask}
    (hlimit : checkRowsLimit rowsLimit (c.size + columnData.length - 1) = .ok ()) :
    insertInto rowsLimit c columnData mask =
      if (∃ m ∈ mask, m.length < getNullBitMaskSize columnData.length) ∨ 2 ^ 31 ≤ columnData.length ∨ c.blockSize = 0
      then .error .undefined
      else (Column.appendRows c.blockSize c.isNullable true UINT32_MAX (c.group (-1)) (batchOf columnData mask)).map
        fun bs => { c.setGroup (-1) bs with size := c.size + columnData.length } := by
  have hbatch : ∀ batch : List (α × Bool), batch.length = columnData.length →
      c.insertBatch rowsLimit batch (-1) true UINT32_MAX = if 2 ^ 31 ≤ columnData.length ∨ c.blockSize = 0
      then .error .undefined
      else (Column.appendRows c.blockSize c.isNullable true UINT32_MAX (c.group (-1)) batch).map
        fun bs => { c.setGroup (-1) bs with size := c.size + columnData.length } := by
    intro batch hlen
    rw [Column.insertBatch, hlen, hlimit]
    simp only [bind, Except.bind]
    split_ifs
    · rfl
    · cases Column.appendRows c.blockSize c.isNullable true UINT32_MAX (c.group (-1)) batch <;> rfl
  cases mask with
  | none =>
    simp only [insertInto, Column.insertData, Option.not_mem_none, false_and, exists_false, false_or]
    exact hbatch _ (length_batchOf columnData none)
  | some m =>
    have hwords : (∃ m' ∈ some m, m'.length < getNullBitMaskSize columnData.length) ↔
        m.length < getNullBitMaskSize columnData.length := by simp
    simp only [hwords, insertInto, hlimit, bind, Except.bind, Column.insertDataMasked]
    by_cases hshort : m.length < getNullBitMaskSize columnData.length
    · rw [if_pos hshort, if_pos (Or.inl hshort)]
    · simp only [hshort, if_false, false_or]
      exact hbatch _ (length_batchOf columnData (some m))

/-- InsertData of a column: the rows are appended, or the limit refuses them, or the behaviour is not defined. -/
theorem insertInto_cases (rowsLimit : Option ℕ) (hs : Sound c) (columnData : List α) (mask : Option Mask) :
    (Appends rowsLimit c columnData mask ∧ ∃ c', insertInto rowsLimit c columnData mask = .ok c' ∧
      Longer c c' columnData.length ∧ (columnData = [] → Same c c')) ∨
    ((∃ e, checkRowsLimit rowsLimit (c.size + columnData.length - 1) = .error e) ∧
      ∃ e ≠ Fault.undefined, insertInto rowsLimit c columnData mask = .error e) ∨
    (¬ Appends rowsLimit c columnData mask ∧
      (∀ e, checkRowsLimit rowsLimit (c.size + columnData.length - 1) ≠ .error e) ∧
      insertInto rowsLimit c columnData mask = .error .undefined) := by
  cases hlimit : checkRowsLimit rowsLimit (c.size + columnData.length - 1) with
  | error e =>
    refine Or.inr (Or.inl ⟨⟨e, rfl⟩, e, checkRowsLimit_error hlimit, ?_⟩)
    cases mask with
    | none =>
      rw [insertInto, Column.insertData, Column.insertBatch, List.length_map, hlimit]
      rfl
    | some m =>
      rw [insertInto, hlimit]
      rfl
  | ok _ =>
    rw [insertInto_eq hlimit]
    by_cases hdefined : (∃ m ∈ mask, m.length < getNullBitMaskSize columnData.length) ∨ 2 ^ 31 ≤ columnData.length ∨
        c.blockSize = 0
    · refine Or.inr (Or.inr ⟨fun h => ?_, nofun, if_pos hdefined⟩)
      rcases hdefined with ⟨m, hm, hshort⟩ | hlong | hzero
      · exact absurd (h.words m hm) (not_le.2 hshort)
      · exact absurd h.length (not_lt.2 hlong)
      · exact absurd h.blockSize (by rw [hzero]; exact lt_irrefl 0)
    · rw [if_neg hdefined]
      push Not at hdefined
      obtain ⟨hwords, hlength, hblockSize⟩ := hdefined
      have hpos : 0 < c.blockSize := Nat.pos_of_ne_zero hblockSize
      have hgroup : ∀ b ∈ c.group (-1), b.isNullable = c.isNullable := hs.masked.group (-1)
      have hfits : ∀ b ∈ c.group (-1), Fits c.blockSize b := fun b hb => hs.fits b (Column.mem_group hb)
      obtain ⟨hok, herror⟩ := appendRows_cases c.isNullable hpos hgroup (batchOf columnData mask)
      by_cases hnulls : NullsFit c.isNullable (batchOf columnData mask)
      · obtain ⟨bs, hbs⟩ := hok hnulls
        refine Or.inl ⟨⟨hlimit, hlength, hpos, hwords, (nullsFit_batchOf columnData mask).1 hnulls⟩, _,
          by rw [hbs]; rfl, ?_, fun hnil => ?_⟩
        · obtain ⟨hnewFits, hrows⟩ := fits_appendRows hpos hfits (Or.inl rfl) hbs
          have hall : All Masked { c.setGroup (-1) bs with size := c.size + columnData.length } := by
            have hinsert : c.insertBatch none (batchOf columnData mask) (-1) true UINT32_MAX =
                .ok { c.setGroup (-1) bs with size := c.size + columnData.length } := by
              rw [Column.insertBatch, length_batchOf]
              simp only [checkRowsLimit, bind, Except.bind, hbs]
              rw [if_neg (by push Not; exact ⟨hlength, hblockSize⟩)]
            exact all_insertBatch masked_kept hs.masked hinsert
          refine ⟨⟨Column.sorted_setGroup hs.sorted _ _, fun b hb => ?_, hall⟩, rfl, ?_, rfl⟩
          · rcases Column.mem_setGroup hb with hb | hb
            · exact hnewFits b hb
            · exact hs.fits b hb
          · have hsum := rowsIn_setGroup hs (-1) bs
            rw [length_batchOf] at hrows
            change rowsIn (c.setGroup (-1) bs).getBlocksList = _
            omega
        · subst hnil
          have hempty : batchOf ([] : List α) mask = [] := List.eq_nil_of_length_eq_zero (length_batchOf _ _)
          rw [hempty] at hbs
          refine ⟨rfl, rfl, fun groupId => ?_⟩
          change ((c.setGroup (-1) bs).group groupId).map _ = _
          by_cases hid : groupId = -1
          · rw [hid, Column.group_setGroup]
            exact cells_appendRows_nil hfits hbs
          · rw [Column.group_setGroup_of_ne c hid]
      · refine Or.inr (Or.inr ⟨fun h => hnulls ((nullsFit_batchOf columnData mask).2 h.nulls), nofun, ?_⟩)
        rw [herror hnulls]
        rfl

end Appending

/-! ## Putting a row at a position -/

section Putting

variable {α : Type} [Element α] {rowsLimit : Option ℕ} {c : Column α}

theorem takesRow_iff (b : Block α) (index : ℕ) (x : α) (isNullValue : Bool) :
    (∃ b', b.insertDataOnSpecificPosition index x isNullValue true = .ok b') ↔ TakesRow b index isNullValue := by
  unfold Block.insertDataOnSpecificPosition
  by_cases hroom : b.emptyBlockSpace = 0
  · rw [if_pos hroom]
    exact iff_of_false (by simp) fun h => h.room hroom
  rw [if_neg hroom]
  by_cases hplace : b.data.length < index ∨ b.capacity ≤ index
  · rw [if_pos hplace]
    refine iff_of_false (by simp) fun h => ?_
    rcases hplace with hdata | hcapacity
    · exact absurd h.data (not_le.2 hdata)
    · exact absurd h.capacity (not_lt.2 hcapacity)
  rw [if_neg hplace]
  push Not at hplace
  have hbind : (∃ b' : Block α, (do
      let bitMask ← b.putBit index isNullValue
      .ok { { b with data := b.putData index x, bitMask := bitMask }.updateBlockStatistics x isNullValue with
        saveNecessary := true }) = .ok b') ↔ ∃ m, b.putBit index isNullValue = .ok m := by
    cases b.putBit index isNullValue with
    | error e => exact iff_of_false (by simp [bind, Except.bind]) (by simp)
    | ok m => exact iff_of_true ⟨_, rfl⟩ ⟨m, rfl⟩
  rw [hbind]
  have hput : (∃ m, b.putBit index isNullValue = .ok m) ↔
      b.isNullable = true ∨ index < b.size ∨ isNullValue = false := by
    unfold Block.putBit
    cases hmask : b.bitMask with
    | some mask =>
      refine iff_of_true ?_ (Or.inl (by simp [Block.isNullable, hmask]))
      simp only
      split_ifs
      · exact ⟨_, rfl⟩
      · exact ⟨_, rfl⟩
      · exact ⟨_, rfl⟩
    | none =>
      have hnone : b.isNullable = false := by simp [Block.isNullable, hmask]
      rw [hnone]
      simp only [Bool.false_eq_true, false_or]
      split_ifs with hdefined
      · exact iff_of_true ⟨_, rfl⟩ hdefined
      · exact iff_of_false (by simp) hdefined
  rw [hput]
  exact ⟨fun h => ⟨hroom, hplace.1, hplace.2, h⟩, fun h => h.null⟩

/-- a block that fits can be split -/
theorem blockSplit_total {b : Block α} (hfits : Fits c.blockSize b) (hmasked : b.isNullable = c.isNullable) :
    ∃ halves, c.blockSplit b = .ok halves := by
  have hlen : b.rows.length ≤ c.blockSize := by
    have hle := hfits.stored.trans hfits.room
    rw [Block.rows, List.length_take]
    exact (Nat.min_le_left _ _).trans hle
  obtain ⟨block1, h₁, -⟩ := @Block.ofData_ok _ _ c.blockSize b.isNullable (b.rows.take (b.size / 2)) true UINT32_MAX
    ((List.length_take_le' _ _).trans hlen)
  obtain ⟨block2, h₂, -⟩ := @Block.ofData_ok _ _ c.blockSize b.isNullable (b.rows.drop (b.size / 2)) true UINT32_MAX
    (by rw [List.length_drop]; exact (Nat.sub_le _ _).trans hlen)
  simp only [Column.blockSplit, h₁, h₂, bind, Except.bind]
  cases hnullable : c.isNullable with
  | false => exact ⟨_, rfl⟩
  | true =>
    rw [hnullable, Block.isNullable, Option.isSome_iff_exists] at hmasked
    obtain ⟨mask, hmask⟩ := hmasked
    rw [hmask]
    exact ⟨_, rfl⟩

theorem insertIntoBlocks_iff {bs : List (Block α)} (hfits : ∀ b ∈ bs, Fits c.blockSize b)
    (hmasked : ∀ b ∈ bs, b.isNullable = c.isNullable) (indexBlock indexInBlock : ℕ) (x : α) (isNullValue : Bool) :
    (∃ bs', c.insertIntoBlocks bs indexBlock indexInBlock x (-1) isNullValue = .ok bs') ↔
      ∃ b ∈ bs[indexBlock]?, TakesRow b indexInBlock isNullValue := by
  unfold Column.insertIntoBlocks
  cases hblock : bs[indexBlock]? with
  | none => exact iff_of_false nofun fun ⟨_, h, _⟩ => nomatch h
  | some b =>
    have hmem : b ∈ bs := List.mem_of_getElem? hblock
    simp only [Option.mem_some_iff, exists_eq_left']
    rw [← takesRow_iff b indexInBlock x]
    cases hins : b.insertDataOnSpecificPosition indexInBlock x isNullValue true with
    | error e => exact iff_of_false nofun nofun
    | ok b' =>
      refine iff_of_true ?_ ⟨b', rfl⟩
      simp only [bind, Except.bind, if_true]
      split_ifs
      · have hmasked' : b'.isNullable = c.isNullable :=
          (isNullable_insertDataOnSpecificPosition hins).trans (hmasked b hmem)
        obtain ⟨halves, hhalves⟩ := blockSplit_total (fits_insertDataOnSpecificPosition (hfits b hmem) hins).1 hmasked'
        exact ⟨_, by rw [hhalves]⟩
      · exact ⟨_, rfl⟩

/-- the column that takes the row -/
theorem sound_prepared (hs : Sound c) : Sound (prepared c (-1)) ∧
    rowsIn (prepared c (-1)).getBlocksList = rowsIn c.getBlocksList ∧
      ∀ i, ((prepared c (-1)).group (-1))[i]? = Column.targetBlock c (-1) i := by
  have hgroup : ∀ b ∈ c.group (-1), Fits c.blockSize b := fun b hb => hs.fits b (Column.mem_group hb)
  have hentered : Sound (c.setGroup (-1) (c.group (-1))) :=
    hs.setGroup (-1) c.size hgroup (hs.masked.group (-1))
  have hrows : rowsIn (c.setGroup (-1) (c.group (-1))).getBlocksList = rowsIn c.getBlocksList :=
    Nat.add_right_cancel (rowsIn_setGroup hs (-1) (c.group (-1)))
  unfold prepared Column.targetBlock
  simp only [Column.group_setGroup]
  by_cases hempty : (c.group (-1)).isEmpty = true
  · have hnil : c.group (-1) = [] := by simpa using hempty
    rw [if_pos hempty]
    rw [hnil] at hentered hrows ⊢
    have hadd : (c.setGroup (-1) []).addBlock (-1) true UINT32_MAX =
        (c.setGroup (-1) []).setGroup (-1) [Block.empty c.blockSize c.isNullable true UINT32_MAX] := by
      rw [Column.addBlock, Column.group_setGroup]
      rfl
    rw [hadd]
    refine ⟨?_, ?_, fun i => ?_⟩
    · refine hentered.setGroup (-1) c.size (fun b hb => ?_) fun b hb => ?_
      · obtain rfl := List.mem_singleton.1 hb
        exact fits_empty _ _ _
      · obtain rfl := List.mem_singleton.1 hb
        exact masked_kept.empty c.blockSize c.isNullable true UINT32_MAX
    · have hsum := rowsIn_setGroup hentered (-1) [(Block.empty c.blockSize c.isNullable true UINT32_MAX : Block α)]
      rw [Column.group_setGroup] at hsum
      exact (Nat.add_right_cancel hsum).trans hrows
    · rw [Column.group_setGroup]
      rfl
  · rw [if_neg hempty]
    refine ⟨hentered, hrows, fun i => ?_⟩
    rw [Column.group_setGroup, if_neg hempty]

theorem prepared_shape (c : Column α) : (prepared c (-1)).blockSize = c.blockSize ∧
    (prepared c (-1)).isNullable = c.isNullable ∧ (prepared c (-1)).uniqueHashmap = c.uniqueHashmap := by
  simp only [prepared]
  split_ifs
  · exact ⟨rfl, rfl, rfl⟩
  · exact ⟨rfl, rfl, rfl⟩

/-- InsertDataOnSpecificPosition of a column: the row is put there, or the limit refuses it, or it is counted without
being put there. -/
theorem insertAt_cases (rowsLimit : Option ℕ) (hs : Sound c) (place : ℕ × ℕ) (x : α) (isNullValue : Bool) :
    (Puts rowsLimit c place isNullValue ∧ ∃ c', Longer c c' 1 ∧
      c.insertDataOnSpecificPosition rowsLimit place.1 place.2 x (-1) isNullValue = (c', none)) ∨
    ((∃ e, checkRowsLimit rowsLimit c.size = .error e) ∧ ∃ e ≠ Fault.undefined,
      c.insertDataOnSpecificPosition rowsLimit place.1 place.2 x (-1) isNullValue = (c, some e)) ∨
    (¬ Puts rowsLimit c place isNullValue ∧ (∀ e, checkRowsLimit rowsLimit c.size ≠ .error e) ∧ ∃ c' e,
      c.insertDataOnSpecificPosition rowsLimit place.1 place.2 x (-1) isNullValue = (c', some e) ∧
        c'.size = c.size + 1) := by
  cases hlimit : checkRowsLimit rowsLimit c.size with
  | error e =>
    refine Or.inr (Or.inl ⟨⟨e, rfl⟩, e, checkRowsLimit_error hlimit, ?_⟩)
    simp only [Column.insertDataOnSpecificPosition, hlimit]
  | ok _ =>
    obtain ⟨hprepared, hrows, htarget⟩ := sound_prepared hs
    obtain ⟨hblockSize, hnullable, hhashmap⟩ := prepared_shape c
    have hfits : ∀ b ∈ (prepared c (-1)).group (-1), Fits (prepared c (-1)).blockSize b :=
      fun b hb => hprepared.fits b (Column.mem_group hb)
    have hputs : Puts rowsLimit c place isNullValue ↔ ∃ bs, (prepared c (-1)).insertIntoBlocks
        ((prepared c (-1)).group (-1)) place.1 place.2 x (-1) isNullValue = .ok bs := by
      rw [insertIntoBlocks_iff hfits (hprepared.masked.group (-1)), htarget]
      exact ⟨fun h => h.block, fun h => ⟨hlimit, h⟩⟩
    rw [insertDataOnSpecificPosition_eq hlimit]
    cases hins : (prepared c (-1)).insertIntoBlocks ((prepared c (-1)).group (-1)) place.1 place.2 x (-1) isNullValue with
    | error e =>
      refine Or.inr (Or.inr ⟨fun h => ?_, by simp, _, e, rfl, rfl⟩)
      obtain ⟨bs, hbs⟩ := hputs.1 h
      rw [hins] at hbs
      cases hbs
    | ok bs =>
      refine Or.inl ⟨hputs.2 ⟨bs, hins⟩, _, ?_, rfl⟩
      obtain ⟨hnewFits, hnewRows⟩ := fits_insertIntoBlocks hfits hins
      have hall : All Masked ((prepared c (-1)).setGroup (-1) bs) := by
        have hwhole := all_insertDataOnSpecificPosition masked_kept hs.masked none place.1 place.2 x (-1) isNullValue
        rw [insertDataOnSpecificPosition_eq rfl, hins] at hwhole
        exact hwhole
      have hsum := rowsIn_setGroup hprepared (-1) bs
      refine ⟨⟨Column.sorted_setGroup hprepared.sorted _ _, fun b hb => ?_, hall⟩, rfl, ?_, hhashmap⟩
      · rcases Column.mem_setGroup hb with hb | hb
        · exact hnewFits b hb
        · exact hprepared.fits b hb
      · change rowsIn ((prepared c (-1)).setGroup (-1) bs).getBlocksList = _
        omega

end Putting

/-! ## One column of the table -/

section StoredColumns

variable {rowsLimit : Option ℕ} {mask : Option Mask} {values : Values T} {s : StoredColumn T}

omit [SortingTypes T] in
theorem anyCast_self {F : T → Type} (v : (t : T) × F t) : anyCast v v.1 = .ok v.2 := dif_pos rfl

omit [SortingTypes T] in
/-- a cast succeeds for the type that the value has -/
theorem anyCast_cases {F : T → Type} (v : (t : T) × F t) (t : T) :
    (∃ x : F t, v = ⟨t, x⟩ ∧ anyCast v t = .ok x) ∨ (v.1 ≠ t ∧ anyCast v t = .error .badAnyCast) := by
  obtain ⟨u, x⟩ := v
  by_cases h : u = t
  · subst h
    exact Or.inl ⟨x, rfl, dif_pos rfl⟩
  · exact Or.inr ⟨h, dif_neg h⟩

theorem insertIntoHashmap_nil {α : Type} [DecidableEq α] (c : Column α) : insertIntoHashmap c [] = c := by
  unfold insertIntoHashmap
  split_ifs <;> rfl

/-- the hash map apart, as before -/
theorem insertIntoHashmap_kept {α : Type} [DecidableEq α] (c : Column α) (xs : List α) :
    (insertIntoHashmap c xs).size = c.size ∧ (insertIntoHashmap c xs).blocks = c.blocks ∧
      (insertIntoHashmap c xs).blockSize = c.blockSize ∧ (insertIntoHashmap c xs).isNullable = c.isNullable := by
  unfold insertIntoHashmap
  split_ifs
  · exact ⟨rfl, rfl, rfl, rfl⟩
  · exact ⟨rfl, rfl, rfl, rfl⟩

theorem sound_insertIntoHashmap {α : Type} [DecidableEq α] {c : Column α} (hs : Sound c) (xs : List α) :
    Sound (insertIntoHashmap c xs) := by
  unfold insertIntoHashmap
  split_ifs
  · exact ⟨hs.sorted, hs.fits, hs.masked⟩
  · exact hs

theorem nullFlag_error {i : ℕ} {e : Thrown} (h : nullFlag mask i = .error e) : e = .undefined := by
  unfold nullFlag readBit at h
  split at h
  · cases h
  · split_ifs at h
    exact (Except.error.inj h).symm

theorem undefined_ne {e : Fault} (h : e ≠ .undefined) : Thrown.fault e ≠ .undefined :=
  fun heq => h (Thrown.fault.inj heq)

/-- One column of InsertData takes its values, or refuses them for the limit as they come, or the behaviour is not
defined. -/
theorem insertValues_cases (hs : Sound s.column) :
    (Takes rowsLimit mask values s ∧ ∃ s', insertValues rowsLimit mask values s = (s', none) ∧ Sound s'.column ∧
      GrownBy values.2.length s s' ∧ (values.2 = [] → Unchanged s s')) ∨
    (OverLimit rowsLimit values s ∧ ∃ e ≠ Thrown.undefined, insertValues rowsLimit mask values s = (s, some e)) ∨
    (¬ Takes rowsLimit mask values s ∧ ¬ OverLimit rowsLimit values s ∧ ∃ s',
      insertValues rowsLimit mask values s = (s', some .undefined)) := by
  rcases anyCast_cases values s.type with ⟨columnData, rfl, hcast⟩ | ⟨-, hcast⟩
  · have htakes : Takes rowsLimit mask ⟨s.type, columnData⟩ s ↔ Appends rowsLimit s.column columnData mask := by
      simp [Takes, hcast]
    have hover : OverLimit rowsLimit ⟨s.type, columnData⟩ s ↔
        ∃ e, checkRowsLimit rowsLimit (s.column.size + columnData.length - 1) = .error e := by
      simp [OverLimit, hcast]
    rw [htakes, hover]
    rcases insertInto_cases rowsLimit hs columnData mask with
      ⟨happends, c', hok, hlonger, hnil⟩ | ⟨hlimit, e, hne, herror⟩ | ⟨happends, hlimit, herror⟩
    · refine Or.inl ⟨happends, ⟨s.type, insertIntoHashmap c' columnData⟩, by simp only [insertValues, hcast, hok],
        sound_insertIntoHashmap hlonger.sound columnData, ?_, fun hempty => ?_⟩
      · obtain ⟨hsize, hblocks, -⟩ := insertIntoHashmap_kept c' columnData
        refine ⟨rfl, hsize.trans hlonger.size, ?_⟩
        change rowsIn ((insertIntoHashmap c' columnData).blocks.flatMap Prod.snd) = _
        rw [hblocks]
        exact hlonger.rows
      · have hempty : columnData = [] := hempty
        refine ⟨s.type, s.column, _, rfl, rfl, ?_⟩
        subst hempty
        rw [insertIntoHashmap_nil]
        exact hnil rfl
    · exact Or.inr (Or.inl ⟨hlimit, .fault e, undefined_ne hne, by simp only [insertValues, hcast, herror]⟩)
    · exact Or.inr (Or.inr ⟨happends, fun ⟨e, he⟩ => hlimit e he, s, by simp only [insertValues, hcast, herror]⟩)
  · refine Or.inr (Or.inr ⟨?_, ?_, s, by simp only [insertValues, hcast]⟩)
    · rintro ⟨columnData, hok, -⟩
      rw [hcast] at hok
      cases hok
    · rintro ⟨columnData, hok, -⟩
      rw [hcast] at hok
      cases hok

/-- One column of InsertValuesOnSpecificPosition takes its row, or refuses it for the limit as it comes, or has counted it
or done what is not defined. -/
theorem insertValueAt_cases (hs : Sound s.column) (i : ℕ) (place : ℕ × ℕ) :
    (TakesAt rowsLimit mask values s i place ∧ ∃ s', insertValueAt rowsLimit mask values i place s = (s', none) ∧
      Sound s'.column ∧ GrownBy 1 s s') ∨
    (AtLimit rowsLimit mask values s i ∧ ∃ e ≠ Thrown.undefined,
      insertValueAt rowsLimit mask values i place s = (s, some e)) ∨
    (¬ TakesAt rowsLimit mask values s i place ∧ ¬ AtLimit rowsLimit mask values s i ∧ ∃ s' e,
      insertValueAt rowsLimit mask values i place s = (s', some e) ∧ s.column.size ≤ s'.column.size ∧
        (e = .undefined ∨ s'.column.size = s.column.size + 1)) := by
  cases hflag : nullFlag mask i with
  | error e =>
    obtain rfl := nullFlag_error hflag
    refine Or.inr (Or.inr ⟨?_, ?_, s, .undefined, by simp only [insertValueAt, hflag], le_rfl, Or.inl rfl⟩)
    · rintro ⟨isNullValue, hok, -⟩
      rw [hflag] at hok
      cases hok
    · rintro ⟨⟨isNullValue, hok⟩, -⟩
      rw [hflag] at hok
      cases hok
  | ok isNullValue =>
    rcases anyCast_cases values s.type with ⟨columnData, rfl, hcast⟩ | ⟨-, hcast⟩
    · have htakes : TakesAt rowsLimit mask ⟨s.type, columnData⟩ s i place ↔
          i < columnData.length ∧ Puts rowsLimit s.column place isNullValue := by
        simp [TakesAt, hcast, hflag]
      have hat : AtLimit rowsLimit mask ⟨s.type, columnData⟩ s i ↔
          i < columnData.length ∧ ∃ e, checkRowsLimit rowsLimit s.column.size = .error e := by
        simp [AtLimit, hcast, hflag]
      rw [htakes, hat]
      by_cases hi : i < columnData.length
      · have hx : columnData[i]? = some columnData[i] := List.getElem?_eq_getElem hi
        simp only [hi, true_and]
        rcases insertAt_cases rowsLimit hs place columnData[i] isNullValue with
          ⟨hputs, c', hlonger, hput⟩ | ⟨hlimit, e, hne, hput⟩ | ⟨hputs, hlimit, c', e, hput, hsize⟩
        · refine Or.inl ⟨hputs, ⟨s.type, insertIntoHashmap c' [columnData[i]]⟩,
            by simp only [insertValueAt, hflag, hcast, hx, hput], sound_insertIntoHashmap hlonger.sound _, rfl, ?_, ?_⟩
          · exact (insertIntoHashmap_kept c' _).1.trans hlonger.size
          · change rowsIn ((insertIntoHashmap c' _).blocks.flatMap Prod.snd) = _
            rw [(insertIntoHashmap_kept c' _).2.1]
            exact hlonger.rows
        · exact Or.inr (Or.inl ⟨hlimit, .fault e, undefined_ne hne, by simp only [insertValueAt, hflag, hcast, hx, hput]⟩)
        · refine Or.inr (Or.inr ⟨hputs, fun ⟨e, he⟩ => hlimit e he, ⟨s.type, c'⟩, .fault e,
            by simp only [insertValueAt, hflag, hcast, hx, hput], ?_, Or.inr hsize⟩)
          exact (Nat.le_succ _).trans hsize.ge
      · have hx : columnData[i]? = none := List.getElem?_eq_none (not_lt.1 hi)
        exact Or.inr (Or.inr ⟨fun h => hi h.1, fun h => hi h.1, s, .undefined,
          by simp only [insertValueAt, hflag, hcast, hx], le_rfl, Or.inl rfl⟩)
    · refine Or.inr (Or.inr ⟨?_, ?_, s, .undefined, by simp only [insertValueAt, hflag, hcast], le_rfl, Or.inl rfl⟩)
      · rintro ⟨-, -, columnData, hok, -⟩
        rw [hcast] at hok
        cases hok
      · rintro ⟨-, columnData, hok, -⟩
        rw [hcast] at hok
        cases hok

theorem not_overLimit_of_takes (h : Takes rowsLimit mask values s) : ¬ OverLimit rowsLimit values s := by
  rintro ⟨columnData', hcast', e, he⟩
  obtain ⟨columnData, hcast, happends⟩ := h
  obtain rfl := Except.ok.inj (hcast.symm.trans hcast')
  rw [happends.limit] at he
  cases he

theorem not_atLimit_of_takesAt {i : ℕ} {place : ℕ × ℕ} (h : TakesAt rowsLimit mask values s i place) :
    ¬ AtLimit rowsLimit mask values s i := by
  rintro ⟨-, -, -, -, e, he⟩
  obtain ⟨isNullValue, -, columnData, -, -, hputs⟩ := h
  rw [hputs.limit] at he
  cases he

omit [DecidableEq T] in
theorem unchanged_refl (s : StoredColumn T) : Unchanged s s :=
  ⟨s.type, s.column, s.column, rfl, rfl, rfl, rfl, fun _ => rfl⟩

omit [DecidableEq T] in
theorem Unchanged.size {s' : StoredColumn T} (h : Unchanged s s') : s'.column.size = s.column.size := by
  obtain ⟨type, c, c', rfl, rfl, hsame⟩ := h
  exact hsame.size

end StoredColumns

/-! ## Without an index -/

section Columns

variable (rowsLimit : Option ℕ) (data : Data T) (nullMasks : NullMasks) {t : Table T}

/-- a column of the loop, with data or without -/
theorem column_cases (c : String × StoredColumn T) (hs : Sound c.2.column) :
    let r := withData data (fun name => insertValues rowsLimit (nullMasks.lookup name)) c
    ((∀ values ∈ data.lookup c.1, Takes rowsLimit (nullMasks.lookup c.1) values c.2) ∧ r.2 = none ∧ r.1.1 = c.1 ∧
      (∀ values ∈ data.lookup c.1, GrownBy values.2.length c.2 r.1.2) ∧
      ((∀ values ∈ data.lookup c.1, values.2 = []) → Unchanged c.2 r.1.2)) ∨
    ((∃ values ∈ data.lookup c.1, OverLimit rowsLimit values c.2) ∧ ∃ e ≠ Thrown.undefined, r = (c, some e)) ∨
    (¬ (∀ values ∈ data.lookup c.1, Takes rowsLimit (nullMasks.lookup c.1) values c.2) ∧
      ¬ (∃ values ∈ data.lookup c.1, OverLimit rowsLimit values c.2) ∧ r.2 = some .undefined) := by
  intro r
  cases hlookup : data.lookup c.1 with
  | none =>
    have hr : r = (c, none) := by simp only [r, withData, hlookup]
    rw [hr]
    exact Or.inl ⟨nofun, rfl, rfl, nofun, fun _ => unchanged_refl c.2⟩
  | some values =>
    have hr : r = ((c.1, (insertValues rowsLimit (nullMasks.lookup c.1) values c.2).1),
        (insertValues rowsLimit (nullMasks.lookup c.1) values c.2).2) := by simp only [r, withData, hlookup]
    simp only [Option.mem_some_iff, forall_eq', exists_eq_left']
    rw [hr]
    rcases insertValues_cases hs with ⟨htakes, s', hok, -, hgrown, hnil⟩ | ⟨hover, e, hne, herror⟩ |
      ⟨htakes, hover, s', herror⟩
    · rw [hok]
      exact Or.inl ⟨htakes, rfl, rfl, hgrown, hnil⟩
    · rw [herror]
      exact Or.inr (Or.inl ⟨hover, e, hne, rfl⟩)
    · rw [herror]
      exact Or.inr (Or.inr ⟨htakes, hover, rfl⟩)

/-- Without an index the call is all or nothing if and only if the columns are fine. -/
theorem columns_atomic_iff (hs : ∀ c ∈ t.columns, Sound c.2.column) :
    Atomic t data (finish (insertColumns rowsLimit data nullMasks t)) ↔ ColumnsFine rowsLimit data nullMasks t := by
  set f := withData data fun name => insertValues rowsLimit (nullMasks.lookup name) with hf
  have hcases := fun c hc => column_cases rowsLimit data nullMasks c (hs c hc)
  rw [← hf] at hcases
  have hdone : ∀ c ∈ t.columns, (f c).2 = none →
      (∀ values ∈ data.lookup c.1, Takes rowsLimit (nullMasks.lookup c.1) values c.2) ∧ (f c).1.1 = c.1 ∧
      (∀ values ∈ data.lookup c.1, GrownBy values.2.length c.2 (f c).1.2) ∧
      ((∀ values ∈ data.lookup c.1, values.2 = []) → Unchanged c.2 (f c).1.2) := by
    intro c hc hnone
    rcases hcases c hc with ⟨htakes, -, h⟩ | ⟨-, e, -, herror⟩ | ⟨-, -, herror⟩
    · exact ⟨htakes, h⟩
    · rw [herror] at hnone
      cases hnone
    · rw [herror] at hnone
      cases hnone
  have hexcludes : ∀ c ∈ t.columns, (∀ values ∈ data.lookup c.1, Takes rowsLimit (nullMasks.lookup c.1) values c.2) →
      ¬ ∃ values ∈ data.lookup c.1, OverLimit rowsLimit values c.2 :=
    fun c _ htakes ⟨values, hvalues, hover⟩ => not_overLimit_of_takes (htakes values hvalues) hover
  rcases Traverse.inPlace_cases f t.columns with ⟨hall, hrun⟩ | ⟨before, a, after, e, hsplit, hbefore, herror, hrun⟩
  · have hresult : insertColumns rowsLimit data nullMasks t = ({ t with columns := t.columns.map fun c => (f c).1 }, none) := by
      simp only [insertColumns, ← hf, hrun]
    rw [hresult]
    change (∃ n, List.Forall₂ _ t.columns (t.columns.map fun c => (f c).1)) ↔ _
    simp only [List.forall₂_map_right_iff, List.forall₂_same]
    constructor
    · rintro ⟨n, hgrown⟩
      refine Or.inl ⟨fun c hc => (hdone c hc (hall c hc)).1, n, fun c hc values hvalues => ?_⟩
      have hby := (hgrown c hc).2 (by rw [Option.mem_def.1 hvalues]; rfl)
      have hby' := (hdone c hc (hall c hc)).2.2.1 values hvalues
      exact Nat.add_left_cancel (hby'.size.symm.trans hby.size)
    · rintro (⟨-, n, hlengths⟩ | ⟨before, c, after, hsplit, -, hover⟩)
      · refine ⟨n, fun c hc => ⟨(hdone c hc (hall c hc)).2.1, fun hnamed => ?_⟩⟩
        obtain ⟨values, hvalues⟩ := Option.isSome_iff_exists.1 hnamed
        have hby := (hdone c hc (hall c hc)).2.2.1 values hvalues
        rwa [hlengths c hc values hvalues] at hby
      · have hc : c ∈ t.columns := by simp [hsplit]
        exact absurd hover (hexcludes c hc (hdone c hc (hall c hc)).1)
  · have ha : a ∈ t.columns := by simp [hsplit]
    have hmem : ∀ b ∈ before, b ∈ t.columns := fun b hb => by simp [hsplit, hb]
    have hresult : insertColumns rowsLimit data nullMasks t =
        ({ t with columns := before.map (fun b => (f b).1) ++ (f a).1 :: after }, some e) := by
      simp only [insertColumns, ← hf, hrun]
    rw [hresult]
    -- no column before the one that failed is over the limit
    have hfirst : ∀ b ∈ before, ¬ ∃ values ∈ data.lookup b.1, OverLimit rowsLimit values b.2 :=
      fun b hb => hexcludes b (hmem b hb) (hdone b (hmem b hb) (hbefore b hb)).1
    rcases hcases a ha with ⟨-, hnone, -⟩ | ⟨hover, e', hne, hfa⟩ | ⟨htakes, hover, hundefined⟩
    · rw [herror] at hnone
      cases hnone
    · obtain rfl : e' = e := Option.some.inj ((congrArg Prod.snd hfa).symm.trans herror)
      simp only [finish, if_neg hne, hfa]
      change List.Forall₂ _ t.columns (before.map (fun b => (f b).1) ++ a :: after) ↔ _
      rw [hsplit, Traverse.forall₂_inPlace_iff fun c => ⟨rfl, unchanged_refl c.2⟩]
      constructor
      · rintro ⟨hunchanged, -⟩
        refine Or.inr ⟨before, a, after, hsplit, fun b hb values hvalues => ?_, hover⟩
        obtain ⟨htakes, -, hgrown, -⟩ := hdone b (hmem b hb) (hbefore b hb)
        have hsize := (hunchanged b hb).2.size
        rw [(hgrown values hvalues).size] at hsize
        exact ⟨htakes values hvalues, List.eq_nil_of_length_eq_zero (Nat.add_eq_left.1 hsize)⟩
      · rintro (⟨htakes, -⟩ | ⟨before', c, after', hsplit', hempty, hover'⟩)
        · exact absurd hover (hexcludes a ha (htakes a ha))
        · rcases Traverse.split_cases (hsplit.symm.trans hsplit') with ⟨rfl, rfl⟩ | hin | hin
          · refine ⟨fun b hb => ?_, rfl, unchanged_refl a.2⟩
            obtain ⟨-, hname, -, hsame⟩ := hdone b (hmem b hb) (hbefore b hb)
            exact ⟨hname, hsame fun values hvalues => (hempty b hb values hvalues).2⟩
          · obtain ⟨values, hvalues, hover⟩ := hover
            exact absurd hover (not_overLimit_of_takes (hempty a hin values hvalues).1)
          · exact absurd hover' (hfirst c hin)
    · obtain rfl : Thrown.undefined = e := Option.some.inj (hundefined.symm.trans herror)
      simp only [finish, if_true]
      refine iff_of_false id ?_
      rintro (⟨htakes', -⟩ | ⟨before', c, after', hsplit', hempty, hover'⟩)
      · exact htakes (htakes' a ha)
      · rcases Traverse.split_cases (hsplit.symm.trans hsplit') with ⟨rfl, rfl⟩ | hin | hin
        · exact hover hover'
        · exact htakes fun values hvalues => (hempty a hin values hvalues).1
        · exact hfirst c hin hover'

end Columns

/-! ## With an index -/

section Rows

variable (rowsLimit : Option ℕ) (data : Data T) (nullMasks : NullMasks) {t t' : Table T}

/-- no column of the table has data -/
def Unnamed (t : Table T) : Prop := ∀ c ∈ t.columns, data.lookup c.1 = none

/-- `n` rows more in each column with data -/
def GrownTable (n : ℕ) (t t' : Table T) : Prop :=
  List.Forall₂ (fun c c' => c'.1 = c.1 ∧ ((data.lookup c.1).isSome → GrownBy n c.2 c'.2)) t.columns t'.columns

omit [DecidableEq T] in
/-- no column counts fewer rows -/
def NotSmaller (t t' : Table T) : Prop :=
  List.Forall₂ (fun c c' : String × StoredColumn T => c'.1 = c.1 ∧ c.2.column.size ≤ c'.2.column.size)
    t.columns t'.columns

def SameTable (t t' : Table T) : Prop :=
  List.Forall₂ (fun c c' : String × StoredColumn T => c'.1 = c.1 ∧ Unchanged c.2 c'.2) t.columns t'.columns

omit [DecidableEq T] in
theorem sameTable_refl (t : Table T) : SameTable t t := List.forall₂_same.2 fun c _ => ⟨rfl, unchanged_refl c.2⟩

omit [DecidableEq T] in
theorem notSmaller_refl (t : Table T) : NotSmaller t t := List.forall₂_same.2 fun _ _ => ⟨rfl, le_rfl⟩

/-- a column of the loop over a row -/
theorem row_column_cases (i : ℕ) (place : ℕ × ℕ) (c : String × StoredColumn T) (hs : Sound c.2.column) :
    let r := withData data (fun name values => insertValueAt rowsLimit (nullMasks.lookup name) values i place) c
    ((∀ values ∈ data.lookup c.1, TakesAt rowsLimit (nullMasks.lookup c.1) values c.2 i place) ∧ r.2 = none ∧
      r.1.1 = c.1 ∧ Sound r.1.2.column ∧ (∀ values ∈ data.lookup c.1, GrownBy 1 c.2 r.1.2) ∧
      (data.lookup c.1 = none → r.1 = c)) ∨
    ((∃ values ∈ data.lookup c.1, AtLimit rowsLimit (nullMasks.lookup c.1) values c.2 i) ∧
      ∃ e ≠ Thrown.undefined, r = (c, some e)) ∨
    (¬ (∀ values ∈ data.lookup c.1, TakesAt rowsLimit (nullMasks.lookup c.1) values c.2 i place) ∧
      ¬ (∃ values ∈ data.lookup c.1, AtLimit rowsLimit (nullMasks.lookup c.1) values c.2 i) ∧
      ∃ e, r.2 = some e ∧ r.1.1 = c.1 ∧ c.2.column.size ≤ r.1.2.column.size ∧
        (e = .undefined ∨ r.1.2.column.size = c.2.column.size + 1)) := by
  intro r
  cases hlookup : data.lookup c.1 with
  | none =>
    have hr : r = (c, none) := by simp only [r, withData, hlookup]
    rw [hr]
    exact Or.inl ⟨nofun, rfl, rfl, hs, nofun, fun _ => rfl⟩
  | some values =>
    have hr : r = ((c.1, (insertValueAt rowsLimit (nullMasks.lookup c.1) values i place c.2).1),
        (insertValueAt rowsLimit (nullMasks.lookup c.1) values i place c.2).2) := by simp only [r, withData, hlookup]
    simp only [Option.mem_some_iff, forall_eq', exists_eq_left']
    rw [hr]
    rcases insertValueAt_cases hs i place with ⟨htakes, s', hok, hsound, hgrown⟩ | ⟨hat, e, hne, herror⟩ |
      ⟨htakes, hat, s', e, herror, hle, hsize⟩
    · rw [hok]
      exact Or.inl ⟨htakes, rfl, rfl, hsound, hgrown, nofun⟩
    · rw [herror]
      exact Or.inr (Or.inl ⟨hat, e, hne, rfl⟩)
    · rw [herror]
      exact Or.inr (Or.inr ⟨htakes, hat, e, rfl, rfl, hle, hsize⟩)

/-- One row is put into all columns. Or something goes wrong, and nothing has changed if and only if the row was refused
before the first change. -/
theorem insertRow_cases (hs : ∀ c ∈ t.columns, Sound c.2.column) (i : ℕ) :
    (RowFine rowsLimit data nullMasks t i ∧ ¬ RowRefused rowsLimit data nullMasks t i ∧ ∃ t',
      insertRow rowsLimit data nullMasks t i = (t', none) ∧ (∀ c ∈ t'.columns, Sound c.2.column) ∧
        GrownTable data 1 t t' ∧ NotSmaller t t' ∧ (Unnamed data t → t' = t)) ∨
    (¬ RowFine rowsLimit data nullMasks t i ∧ ∃ t' e, insertRow rowsLimit data nullMasks t i = (t', some e) ∧
      NotSmaller t t' ∧ (e ≠ .undefined ∧ SameTable t t' ↔ RowRefused rowsLimit data nullMasks t i) ∧
      (Unnamed data t → ∀ place, position data nullMasks t i ≠ .ok place)) := by
  cases hplace : position data nullMasks t i with
  | error e =>
    refine Or.inr ⟨?_, t, e, by simp only [insertRow, hplace], notSmaller_refl t, ?_, fun _ => nofun⟩
    · rintro ⟨place, hok, -⟩
      rw [hplace] at hok
      cases hok
    · constructor
      · rintro ⟨hne, -⟩
        exact Or.inl ⟨e, hplace, hne⟩
      · rintro (⟨e', he', hne⟩ | ⟨⟨place, hok⟩, -⟩)
        · obtain rfl := Except.error.inj (hplace.symm.trans he')
          exact ⟨hne, sameTable_refl t⟩
        · rw [hplace] at hok
          cases hok
  | ok place =>
    set f := withData data fun name values => insertValueAt rowsLimit (nullMasks.lookup name) values i place with hf
    have hcases := fun c hc => row_column_cases rowsLimit data nullMasks i place c (hs c hc)
    rw [← hf] at hcases
    have hdone : ∀ c ∈ t.columns, (f c).2 = none →
        (∀ values ∈ data.lookup c.1, TakesAt rowsLimit (nullMasks.lookup c.1) values c.2 i place) ∧ (f c).1.1 = c.1 ∧
          Sound (f c).1.2.column ∧ (∀ values ∈ data.lookup c.1, GrownBy 1 c.2 (f c).1.2) ∧
            (data.lookup c.1 = none → (f c).1 = c) := by
      intro c hc hnone
      rcases hcases c hc with ⟨htakes, -, h⟩ | ⟨-, e, -, herror⟩ | ⟨-, -, e, herror, -⟩
      · exact ⟨htakes, h⟩
      · rw [herror] at hnone
        cases hnone
      · rw [herror] at hnone
        cases hnone
    have hexcludes : ∀ c ∈ t.columns,
        (∀ values ∈ data.lookup c.1, TakesAt rowsLimit (nullMasks.lookup c.1) values c.2 i place) →
          ¬ ∃ values ∈ data.lookup c.1, AtLimit rowsLimit (nullMasks.lookup c.1) values c.2 i :=
      fun c _ htakes ⟨values, hvalues, hat⟩ => not_atLimit_of_takesAt (htakes values hvalues) hat
    have hsize : ∀ c ∈ t.columns, (f c).2 = none → c.2.column.size ≤ (f c).1.2.column.size := by
      intro c hc hnone
      obtain ⟨-, -, -, hgrown, hsame⟩ := hdone c hc hnone
      cases hlookup : data.lookup c.1 with
      | none => rw [hsame hlookup]
      | some values =>
        rw [(hgrown values hlookup).size]
        exact Nat.le_succ _
    rcases Traverse.inPlace_cases f t.columns with ⟨hall, hrun⟩ | ⟨before, a, after, e, hsplit, hbefore, herror, hrun⟩
    · left
      refine ⟨⟨place, hplace, fun c hc => (hdone c hc (hall c hc)).1⟩, ?_,
        { t with columns := t.columns.map fun c => (f c).1 }, by simp only [insertRow, hplace, ← hf, hrun], ?_, ?_, ?_, ?_⟩
      · rintro (⟨e, he, -⟩ | ⟨-, before, c, after, hsplit, -, hat⟩)
        · rw [hplace] at he
          cases he
        · have hc : c ∈ t.columns := by simp [hsplit]
          exact hexcludes c hc (hdone c hc (hall c hc)).1 hat
      · intro c hc
        obtain ⟨b, hb, rfl⟩ := List.mem_map.1 hc
        exact (hdone b hb (hall b hb)).2.2.1
      · refine List.forall₂_map_right_iff.2 (List.forall₂_same.2 fun c hc => ?_)
        refine ⟨(hdone c hc (hall c hc)).2.1, fun hnamed => ?_⟩
        obtain ⟨values, hvalues⟩ := Option.isSome_iff_exists.1 hnamed
        exact (hdone c hc (hall c hc)).2.2.2.1 values hvalues
      · refine List.forall₂_map_right_iff.2 (List.forall₂_same.2 fun c hc => ?_)
        exact ⟨(hdone c hc (hall c hc)).2.1, hsize c hc (hall c hc)⟩
      · intro hunnamed
        have hmap : (t.columns.map fun c => (f c).1) = t.columns :=
          (List.map_congr_left fun c hc => (hdone c hc (hall c hc)).2.2.2.2 (hunnamed c hc)).trans (List.map_id' _)
        rw [hmap]
    · right
      have ha : a ∈ t.columns := by simp [hsplit]
      have hmem : ∀ b ∈ before, b ∈ t.columns := fun b hb => by simp [hsplit, hb]
      have hfirst : ∀ b ∈ before, ¬ ∃ values ∈ data.lookup b.1, AtLimit rowsLimit (nullMasks.lookup b.1) values b.2 i :=
        fun b hb => hexcludes b (hmem b hb) (hdone b (hmem b hb) (hbefore b hb)).1
      -- what is left behind, and when it is the table before
      have hsmaller : (f a).1.1 = a.1 → a.2.column.size ≤ (f a).1.2.column.size →
          NotSmaller t { t with columns := before.map (fun b => (f b).1) ++ (f a).1 :: after } := by
        intro hname hle
        unfold NotSmaller
        rw [hsplit, Traverse.forall₂_inPlace_iff fun c => ⟨rfl, le_rfl⟩]
        exact ⟨fun b hb => ⟨(hdone b (hmem b hb) (hbefore b hb)).2.1, hsize b (hmem b hb) (hbefore b hb)⟩, hname, hle⟩
      have hsame : SameTable t { t with columns := before.map (fun b => (f b).1) ++ (f a).1 :: after } ↔
          (∀ b ∈ before, data.lookup b.1 = none) ∧ (f a).1.1 = a.1 ∧ Unchanged a.2 (f a).1.2 := by
        unfold SameTable
        rw [hsplit, Traverse.forall₂_inPlace_iff fun c => ⟨rfl, unchanged_refl c.2⟩]
        refine and_congr_left fun _ => ⟨fun h b hb => ?_, fun h b hb => ?_⟩
        · cases hlookup : data.lookup b.1 with
          | none => rfl
          | some values =>
            have hgrown := (hdone b (hmem b hb) (hbefore b hb)).2.2.2.1 values hlookup
            exact absurd ((h b hb).2.size.symm.trans hgrown.size) (Nat.succ_ne_self _).symm
        · rw [(hdone b (hmem b hb) (hbefore b hb)).2.2.2.2 (h b hb)]
          exact ⟨rfl, unchanged_refl b.2⟩
      have hresult : insertRow rowsLimit data nullMasks t i =
          ({ t with columns := before.map (fun b => (f b).1) ++ (f a).1 :: after }, some e) := by
        simp only [insertRow, hplace, ← hf, hrun]
      have hfine : (∀ values ∈ data.lookup a.1, TakesAt rowsLimit (nullMasks.lookup a.1) values a.2 i place) ∨
          ¬ RowFine rowsLimit data nullMasks t i := by
        refine or_iff_not_imp_right.2 fun h => ?_
        obtain ⟨place', hplace', htakes⟩ := not_not.1 h
        obtain rfl := Except.ok.inj (hplace.symm.trans hplace')
        exact htakes a ha
      have hrefused : RowRefused rowsLimit data nullMasks t i → data.lookup a.1 ≠ none →
          (∀ b ∈ before, data.lookup b.1 = none) ∧
            ∃ values ∈ data.lookup a.1, AtLimit rowsLimit (nullMasks.lookup a.1) values a.2 i := by
        rintro (⟨e', he', -⟩ | ⟨-, before', c, after', hsplit', hempty, hat⟩) hsome
        · rw [hplace] at he'
          cases he'
        · rcases Traverse.split_cases (hsplit.symm.trans hsplit') with ⟨rfl, rfl⟩ | hin | hin
          · exact ⟨hempty, hat⟩
          · exact absurd (hempty a hin) hsome
          · exact absurd hat (hfirst c hin)
      rcases hcases a ha with ⟨-, hnone, -⟩ | ⟨hat, e', hne, hfa⟩ | ⟨htakes, hat, e', he', hname, hle, hchanged⟩
      · rw [herror] at hnone
        cases hnone
      · obtain rfl : e' = e := Option.some.inj ((congrArg Prod.snd hfa).symm.trans herror)
        have hkept : (f a).1 = a := congrArg Prod.fst hfa
        have hsome : data.lookup a.1 ≠ none := by
          obtain ⟨values, hvalues, -⟩ := hat
          rw [Option.mem_def.1 hvalues]
          exact nofun
        refine ⟨hfine.resolve_left fun htakes => hexcludes a ha htakes hat, _, _, hresult,
          hsmaller (by rw [hkept]) (by rw [hkept]), ?_, fun hunnamed => absurd (hunnamed a ha) hsome⟩
        rw [hsame]
        constructor
        · rintro ⟨-, hempty, -⟩
          exact Or.inr ⟨⟨place, hplace⟩, before, a, after, hsplit, hempty, hat⟩
        · intro h
          refine ⟨hne, (hrefused h hsome).1, by rw [hkept], ?_⟩
          rw [hkept]
          exact unchanged_refl a.2
      · obtain rfl : e' = e := Option.some.inj (he'.symm.trans herror)
        have hsome : data.lookup a.1 ≠ none := fun hnone => htakes (by rw [hnone]; exact nofun)
        refine ⟨hfine.resolve_left htakes, _, _, hresult, hsmaller hname hle, ?_,
          fun hunnamed => absurd (hunnamed a ha) hsome⟩
        rw [hsame]
        refine iff_of_false ?_ fun h => hat (hrefused h hsome).2
        rintro ⟨hne, -, -, hunchanged⟩
        exact Nat.succ_ne_self _ ((hchanged.resolve_left hne).symm.trans hunchanged.size)

omit [DecidableEq T] in
/-- what has grown and has not shrunk since is not the same -/
theorem not_sameTable {n : ℕ} {t₁ : Table T} (hgrown : GrownTable data (n + 1) t t₁) (hle : NotSmaller t₁ t')
    (hnamed : ¬ Unnamed data t) : ¬ SameTable t t' := by
  intro hsame
  unfold Unnamed at hnamed
  push Not at hnamed
  obtain ⟨c, hc, hlookup⟩ := hnamed
  obtain ⟨k, hk, rfl⟩ := List.getElem_of_mem hc
  have hk₁ : k < t₁.columns.length := hgrown.length_eq ▸ hk
  have hk' : k < t'.columns.length := hsame.length_eq ▸ hk
  have hmore := ((hgrown.get hk hk₁).2 (Option.isSome_iff_ne_none.2 hlookup)).size
  have hnotLess := (hle.get hk₁ hk').2
  have hequal := (hsame.get hk hk').2.size
  simp only [List.get_eq_getElem] at hmore hnotLess hequal
  omega

omit [DecidableEq T] in
theorem GrownTable.trans {m n : ℕ} {t₁ : Table T} (h : GrownTable data m t t₁) (h' : GrownTable data n t₁ t') :
    GrownTable data (m + n) t t' := by
  refine Traverse.forall₂_comp ?_ h h'
  rintro c c₁ c' ⟨hname, hgrown⟩ ⟨hname', hgrown'⟩
  refine ⟨hname'.trans hname, fun hnamed => ?_⟩
  have hby := hgrown hnamed
  have hby' := hgrown' (by rwa [hname])
  exact ⟨hby'.type.trans hby.type, by rw [hby'.size, hby.size, add_assoc], by rw [hby'.rows, hby.rows, add_assoc]⟩

omit [DecidableEq T] in
theorem NotSmaller.trans {t₁ : Table T} (h : NotSmaller t t₁) (h' : NotSmaller t₁ t') : NotSmaller t t' := by
  refine Traverse.forall₂_comp ?_ h h'
  rintro c c₁ c' ⟨hname, hle⟩ ⟨hname', hle'⟩
  exact ⟨hname'.trans hname, hle.trans hle'⟩

/-- All rows are put into all columns. Or something goes wrong, and nothing has changed if and only if the first row that
went wrong was refused before the first change. -/
theorem insertRows_cases (n : ℕ) (hs : ∀ c ∈ t.columns, Sound c.2.column) (i : ℕ) :
    (RowsFine rowsLimit data nullMasks n i t ∧ ∃ t', insertRows rowsLimit data nullMasks n i t = (t', none) ∧
      GrownTable data n t t') ∨
    (¬ RowsFine rowsLimit data nullMasks n i t ∧ ∃ t' e, insertRows rowsLimit data nullMasks n i t = (t', some e) ∧
      NotSmaller t t' ∧ (e ≠ .undefined ∧ SameTable t t' ↔ RowsRefused rowsLimit data nullMasks t n i)) := by
  induction n generalizing t i with
  | zero =>
    refine Or.inl ⟨trivial, t, rfl, List.forall₂_same.2 fun c _ => ⟨rfl, fun _ => ⟨rfl, rfl, rfl⟩⟩⟩
  | succ n ih =>
    rcases insertRow_cases rowsLimit data nullMasks hs i with
      ⟨hfine, hrefused, t₁, hrow, hsound, hgrown, hle, hunnamed⟩ | ⟨hfine, t₁, e, hrow, hle, hiff, hunnamed⟩
    · have hrun : insertRows rowsLimit data nullMasks (n + 1) i t = insertRows rowsLimit data nullMasks n (i + 1) t₁ := by
        rw [insertRows, hrow]
      have hrows : RowsFine rowsLimit data nullMasks (n + 1) i t ↔ RowsFine rowsLimit data nullMasks n (i + 1) t₁ := by
        rw [RowsFine, hrow]
        exact and_iff_right hfine
      rw [hrun, hrows]
      rcases ih hsound (i + 1) with ⟨hrest, t', hdone, hgrown'⟩ | ⟨hrest, t', e, herror, hle', hiff⟩
      · refine Or.inl ⟨hrest, t', hdone, ?_⟩
        rw [add_comm]
        exact hgrown.trans data hgrown'
      · refine Or.inr ⟨hrest, t', e, herror, hle.trans hle', ?_⟩
        by_cases hnone : Unnamed data t
        · -- the row has changed nothing
          obtain rfl := hunnamed hnone
          rw [hiff]
          constructor
          · rintro ⟨j, hj, -, hplaces, hat⟩
            refine ⟨j + 1, Nat.succ_lt_succ hj, Or.inr hnone, fun k hk => ?_, ?_⟩
            · cases k with
              | zero =>
                obtain ⟨place, hplace, -⟩ := hfine
                exact ⟨place, hplace⟩
              | succ k =>
                rw [← Nat.add_assoc, Nat.add_right_comm]
                exact hplaces k (Nat.lt_of_succ_lt_succ hk)
            · rw [← Nat.add_assoc, Nat.add_right_comm]
              exact hat
          · rintro ⟨j, hj, -, hplaces, hat⟩
            cases j with
            | zero => exact absurd hat hrefused
            | succ j =>
              refine ⟨j, Nat.lt_of_succ_lt_succ hj, Or.inr hnone, fun k hk => ?_, ?_⟩
              · rw [Nat.add_right_comm, Nat.add_assoc]
                exact hplaces (k + 1) (Nat.succ_lt_succ hk)
              · rw [Nat.add_right_comm, Nat.add_assoc]
                exact hat
        · refine iff_of_false (fun h => not_sameTable data hgrown hle' hnone h.2) ?_
          rintro ⟨j, -, hj | hj, -, hat⟩
          · subst hj
            exact hrefused hat
          · exact hnone hj
    · refine Or.inr ⟨fun h => hfine h.1, t₁, e, by rw [insertRows, hrow], hle, ?_⟩
      rw [hiff]
      constructor
      · exact fun h => ⟨0, Nat.succ_pos n, Or.inl rfl, nofun, h⟩
      · rintro ⟨j, -, hcond, hplaces, hat⟩
        cases j with
        | zero => exact hat
        | succ j =>
          obtain ⟨place, hplace⟩ := hplaces 0 (Nat.succ_pos j)
          exact absurd hplace (hunnamed (hcond.resolve_left (Nat.succ_ne_zero j)) place)

/-- With an index the call is all or nothing if and only if the rows are fine, or one is refused before any change. -/
theorem rows_atomic_iff (hs : ∀ c ∈ t.columns, Sound c.2.column) (n : ℕ) :
    Atomic t data (finish (insertRows rowsLimit data nullMasks n 0 t)) ↔
      RowsFine rowsLimit data nullMasks n 0 t ∨ RowsRefused rowsLimit data nullMasks t n 0 := by
  rcases insertRows_cases rowsLimit data nullMasks n hs 0 with ⟨hfine, t', hdone, hgrown⟩ |
    ⟨hfine, t', e, herror, -, hiff⟩
  · rw [hdone]
    exact iff_of_true ⟨n, hgrown⟩ (Or.inl hfine)
  · rw [herror, or_iff_right hfine, ← hiff]
    by_cases he : e = .undefined
    · simp only [finish, he, if_true, ne_eq, not_true_eq_false, false_and]
      exact Iff.rfl
    · simp only [finish, he, if_false, ne_eq, not_false_eq_true, true_and]
      exact Iff.rfl

end Rows

/-! ## The call -/

section Calls

variable {rowsLimit : Option ℕ} {data : Data T} {nullMasks : NullMasks} {t : Table T}

omit [DecidableEq T] in
/-- what throws before the first change -/
theorem atomic_thrown (e : Thrown) : Atomic t data (finish (t, some e)) ↔ e ≠ .undefined := by
  by_cases he : e = .undefined
  · simp only [finish, he, if_true]
    exact iff_of_false id fun h => h rfl
  · simp only [finish, he, if_false]
    exact iff_of_true (sameTable_refl t) he

omit [DecidableEq T] in
theorem getDataSizeOfInsertedColumns_error {e : Thrown} (h : getDataSizeOfInsertedColumns data = .error e) :
    e = .undefined := by
  cases data with
  | nil => exact (Except.error.inj h).symm
  | cons values data => cases h

/-- InsertData is all or nothing if and only if the call is fine. -/
theorem insertData_atomic_iff (hs : ∀ c ∈ t.columns, Sound c.2.column) :
    Atomic t data (insertData rowsLimit t data nullMasks) ↔ Fine rowsLimit data nullMasks t := by
  unfold insertData Fine
  cases hsize : getDataSizeOfInsertedColumns data with
  | error e =>
    obtain rfl := getDataSizeOfInsertedColumns_error hsize
    simp only [atomic_thrown]
    exact iff_of_false (fun h => h rfl) fun ⟨_, h, _⟩ => nomatch h
  | ok n =>
    simp only [Except.ok.injEq, exists_eq_left']
    cases hchecks : checkConstraints t data nullMasks n with
    | error e =>
      simp only
      exact atomic_thrown e
    | ok _ =>
      simp only
      split_ifs with hindex
      · exact columns_atomic_iff rowsLimit data nullMasks hs
      · exact rows_atomic_iff rowsLimit data nullMasks hs n

end Calls

/-! ## A call that keeps the columns aligned, and one that does not -/

/-- a database of int32_t columns -/
inductive OnlyInt where
  | int
deriving DecidableEq, Repr

instance : SortingTypes OnlyInt where
  Elem _ := Int32T
  element _ := inferInstanceAs (Element Int32T)
  decEq _ := inferInstanceAs (DecidableEq Int32T)
  kind _ := .number
  sortable _ := true
  nullConstant _ := IntN.lowest 32
  text _ x := toString (IntN.val (w := 32) x)

/-- two columns without rows -/
def twoColumns : Table OnlyInt :=
  ⟨[("a", ⟨.int, Column.fresh "a" 4⟩), ("b", ⟨.int, Column.fresh "b" 4⟩)], []⟩

def numbers (xs : List ℤ) : Values OnlyInt := ⟨.int, xs.map (IntN.wrap 32)⟩

theorem sound_twoColumns : ∀ c ∈ twoColumns.columns, Sound c.2.column := by
  have hfresh : ∀ name, Sound (Column.fresh name 4 : Column Int32T) := fun name =>
    ⟨List.pairwise_singleton _ _, fun b hb => absurd hb List.not_mem_nil, fun b hb => absurd hb List.not_mem_nil⟩
  intro c hc
  rcases List.mem_cons.1 hc with rfl | hc
  · exact hfresh "a"
  · obtain rfl := List.mem_singleton.1 hc
    exact hfresh "b"

/-- one row for each column -/
theorem insertData_one_row :
    Atomic twoColumns [("a", numbers [1]), ("b", numbers [2])]
      (insertData none twoColumns [("a", numbers [1]), ("b", numbers [2])] []) := by
  refine (insertData_atomic_iff sound_twoColumns).2 ⟨1, by decide, ?_⟩
  have hchecks : checkConstraints twoColumns [("a", numbers [1]), ("b", numbers [2])] [] 1 = .ok () := by decide
  have htakes : ∀ name x, Takes none none (numbers [x]) ⟨.int, Column.fresh name 4⟩ := fun name x =>
    ⟨[IntN.wrap 32 x], rfl, rfl, (by decide : 1 < 2 ^ 31), (by decide : 0 < 4), nofun, Or.inr nofun⟩
  rw [hchecks]
  refine Or.inl ⟨fun c hc values hvalues => ?_, 1, fun c hc values hvalues => ?_⟩
  · rcases List.mem_cons.1 hc with rfl | hc
    · obtain rfl := Option.some.inj hvalues
      exact htakes "a" 1
    · obtain rfl := List.mem_singleton.1 hc
      obtain rfl := Option.some.inj hvalues
      exact htakes "b" 2
  · rcases List.mem_cons.1 hc with rfl | hc
    · obtain rfl := Option.some.inj hvalues
      rfl
    · obtain rfl := List.mem_singleton.1 hc
      obtain rfl := Option.some.inj hvalues
      rfl

/-- two rows for one column and one for the other -/
theorem insertData_not_atomic :
    ¬ ∀ (rowsLimit : Option ℕ) (t : Table OnlyInt) (data : Data OnlyInt) (nullMasks : NullMasks),
      (∀ c ∈ t.columns, Sound c.2.column) → Atomic t data (insertData rowsLimit t data nullMasks) := by
  intro hall
  have hatomic := hall none twoColumns [("a", numbers [1, 2]), ("b", numbers [3])] [] sound_twoColumns
  have hchecks : checkConstraints twoColumns [("a", numbers [1, 2]), ("b", numbers [3])] [] 2 = .ok () := by decide
  have hcall : insertData none twoColumns [("a", numbers [1, 2]), ("b", numbers [3])] [] =
      finish (insertColumns none [("a", numbers [1, 2]), ("b", numbers [3])] [] twoColumns) := by
    have hsize : getDataSizeOfInsertedColumns [("a", numbers [1, 2]), ("b", numbers [3])] = .ok 2 := by decide
    simp only [insertData, hsize, hchecks]
    rfl
  rw [hcall, columns_atomic_iff none _ _ sound_twoColumns] at hatomic
  rcases hatomic with ⟨-, n, hlengths⟩ | ⟨before, c, after, -, -, values, -, columnData, -, e, he⟩
  · have ha : 2 = n := hlengths _ List.mem_cons_self (numbers [1, 2]) rfl
    have hb : 1 = n := hlengths _ (List.mem_cons_of_mem _ List.mem_cons_self) (numbers [3]) rfl
    omega
  · cases he

end QikkDB.InsertData

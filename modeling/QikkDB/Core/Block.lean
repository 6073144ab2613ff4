/-
Blocks (BlockBase.h, BlockBase.cpp), uncompressed: a fixed-capacity array of rows with a row counter, statistics for
WHERE pruning, and in nullable blocks a null mask.

`data` is the initialised part of the array, `rows` its first `size` entries. A block is nullable exactly when it has a
mask. An exception is a `Fault`; what the language leaves undefined (a write through the missing mask of a block that
is not nullable, a row that was never written) is `Fault.undefined`.

- `insertData_ok`, `insertDataOnSpecificPosition_ok`: when the two insertions succeed and what they then do.
- `updateAll_size`, `setBlockStatistics_size`: the statistics functions also keep the row counter.
-/
import Mathlib.Tactic
import QikkDB.Core.Element
import QikkDB.Core.NullValues

namespace QikkDB

open NullValues

/-! ## Exceptions -/

/-- how a call can end other than by returning -/
inductive Fault where
  /-- std::length_error -/
  | lengthError (msg : String)
  /-- std::runtime_error -/
  | runtimeError (msg : String)
  /-- constraint_violation_error -/
  | constraintViolation (msg : String)
  /-- behaviour the language does not define -/
  | undefined
deriving DecidableEq, Repr

/-- a sequence of two calls returns when both do -/
theorem bind_eq_ok {α β : Type} {x : Except Fault α} {f : α → Except Fault β} {r : β} :
    (x >>= f) = .ok r ↔ ∃ a, x = .ok a ∧ f a = .ok r := by
  cases x with
  | error e => simp [bind, Except.bind]
  | ok a => simp [bind, Except.bind]

theorem toOption_eq_some {α : Type} {x : Except Fault α} {a : α} : x.toOption = some a ↔ x = .ok a := by
  cases x <;> simp [Except.toOption]

/-- the reserved index of a block that was never persisted -/
def UINT32_MAX : ℕ := 4294967295

/-! ## Model -/

structure Block (α : Type) where
  /-- initialised part of the array -/
  data : List α
  /-- rows in use -/
  size : ℕ
  min : α
  max : α
  avg : UInt32
  sum : α
  countOfNotNullValues : ℕ
  capacity : ℕ
  /-- null mask, `none` in blocks that are not nullable -/
  bitMask : Option Mask
  /-- modified since it was last persisted -/
  saveNecessary : Bool
  index : ℕ
deriving DecidableEq, Repr

namespace Block

variable {α : Type}

def isNullable (b : Block α) : Bool := b.bitMask.isSome

def rows (b : Block α) : List α := b.data.take b.size

/-- null bit of a row, 0 without a mask -/
def isNull (b : Block α) (i : ℕ) : Bool :=
  match b.bitMask with
  | none => false
  | some mask => getBit mask i

/-- (value, is-null) of every row -/
def cells (b : Block α) : List (α × Bool) := b.rows.zipIdx.map fun p => (p.1, b.isNull p.2)

def emptyBlockSpace (b : Block α) : ℕ := b.capacity - b.size

def isFull (b : Block α) : Bool := b.emptyBlockSpace = 0

/-! ## Blocks as their column keeps them -/

/-- two blocks agree on everything but statistics and row counter -/
structure SameStore (a b : Block α) : Prop where
  data : a.data = b.data
  capacity : a.capacity = b.capacity
  bitMask : a.bitMask = b.bitMask
  saveNecessary : a.saveNecessary = b.saveNecessary
  index : a.index = b.index

theorem SameStore.trans {a b c : Block α} (h : SameStore a b) (k : SameStore b c) : SameStore a c :=
  ⟨h.data.trans k.data, h.capacity.trans k.capacity, h.bitMask.trans k.bitMask,
    h.saveNecessary.trans k.saveNecessary, h.index.trans k.index⟩

/-- a block of a column: within its capacity, with a mask exactly when the column is nullable -/
structure Valid (blockSize : ℕ) (isNullable : Bool) (b : Block α) : Prop where
  capacity : b.capacity = blockSize
  stored : b.size ≤ b.data.length
  room : b.data.length ≤ blockSize
  nullable : b.isNullable = isNullable
  mask : ∀ m ∈ b.bitMask, m.length = getNullBitMaskSize blockSize

theorem Valid.size_le {blockSize : ℕ} {isNullable : Bool} {b : Block α} (h : b.Valid blockSize isNullable) :
    b.size ≤ blockSize := h.stored.trans h.room

theorem Valid.rows_length {blockSize : ℕ} {isNullable : Bool} {b : Block α} (h : b.Valid blockSize isNullable) :
    b.rows.length = b.size := by
  have := h.stored
  simp only [rows, List.length_take]
  omega

theorem Valid.of_store {blockSize : ℕ} {isNullable : Bool} {a b : Block α} (h : b.Valid blockSize isNullable)
    (hs : SameStore a b) (hsize : a.size ≤ a.data.length) : a.Valid blockSize isNullable := by
  refine ⟨hs.capacity.trans h.capacity, hsize, hs.data ▸ h.room, ?_, hs.bitMask ▸ h.mask⟩
  rw [← h.nullable, Block.isNullable, Block.isNullable, hs.bitMask]

theorem isNull_of_store {a b : Block α} (hs : SameStore a b) (i : ℕ) : a.isNull i = b.isNull i := by
  rw [isNull, isNull, hs.bitMask]

/-! ## Statistics -/

section Statistics

variable [Element α]

/-- updateBlockStatistics -/
def updateBlockStatistics (b : Block α) (data : α) (isNullValue : Bool) : Block α :=
  match Element.statistics α with
  | .geo =>
    if b.size = 0 then
      { b with
        min := Element.placeholder, max := Element.placeholder, avg := 0, sum := Element.placeholder
        size := b.size + 1 }
    else { b with size := b.size + 1 }
  | .text =>
    if isNullValue then { b with size := b.size + 1 }
    else if b.size = 0 then
      { b with
        size := b.size + 1, countOfNotNullValues := b.countOfNotNullValues + 1
        min := data, max := data, avg := 0, sum := Element.zero }
    else
      { b with
        size := b.size + 1, countOfNotNullValues := b.countOfNotNullValues + 1
        min := if Element.lt data b.min then data else b.min
        max := if Element.lt b.max data then data else b.max }
  | _ =>
    if isNullValue then { b with size := b.size + 1 }
    else if b.size = 0 then
      { b with
        size := b.size + 1, countOfNotNullValues := b.countOfNotNullValues + 1
        min := data, max := data, avg := Element.avgOf data, sum := data }
    else
      { b with
        size := b.size + 1, countOfNotNullValues := b.countOfNotNullValues + 1
        min := if Element.lt data b.min then data else b.min
        max := if Element.lt b.max data then data else b.max
        sum := Element.add b.sum data
        avg := Element.avgRatio (Element.add b.sum data) (b.countOfNotNullValues + 1) }

/-- the loop over the inserted rows -/
def updateAll (b : Block α) (inserted : List α) : Block α :=
  inserted.foldl (fun b x => b.updateBlockStatistics x false) b

/-- one non-null row in the recomputation of a nullable block -/
def countRow (b : Block α) (x : α) : Block α :=
  { b with
    countOfNotNullValues := b.countOfNotNullValues + 1
    min := if Element.lt x b.min then x else b.min
    max := if Element.lt b.max x then x else b.max
    sum := Element.add b.sum x
    avg := Element.avgAdd b.avg x }

/-- the recomputation of a nullable block over its rows from `i` on -/
def countRows (mask : Mask) : ℕ → List α → Block α → Block α
  | _, [], b => b
  | i, x :: xs, b => countRows mask (i + 1) xs (if getBit mask i then b else b.countRow x)

/-- setBlockStatistics over the whole of a nullable block -/
def recountNullable (b : Block α) (mask : Mask) : Block α :=
  let cleared := { b with
    min := Element.max, max := Element.lowest, avg := 0, sum := Element.zero, countOfNotNullValues := 0 }
  let counted := countRows mask 0 b.rows cleared
  { counted with avg := Element.avgDivide α counted.avg counted.countOfNotNullValues }

/-- setBlockStatistics(insertedDataSize, oldDataSize) -/
def setBlockStatistics (b : Block α) (insertedDataSize oldDataSize : ℕ) : Block α :=
  let inserted := (b.data.drop oldDataSize).take insertedDataSize
  match Element.statistics α, b.bitMask with
  | .nullAware, some mask => { b with size := b.size + insertedDataSize }.recountNullable mask
  | _, _ => b.updateAll inserted

end Statistics

/-- SetNullBitmask with a buffer that the block takes over -/
def moveNullBitmask [Element α] (b : Block α) (nullMask : Mask) : Block α :=
  match b.bitMask with
  | none => b
  | some _ => { b with bitMask := some nullMask }.setBlockStatistics 0 0

/-- setBlockStatistics with the values read from disk -/
def loadBlockStatistics (b : Block α) (min max : α) (avg : UInt32) (sum : α) (dataSize : ℕ) : Block α :=
  { b with min := min, max := max, avg := avg, sum := sum, size := b.size + dataSize }

/-! ## Operations -/

variable [Element α]

/-- the array `new T[capacity]` -/
def newArray (α : Type) [Element α] (capacity : ℕ) : List α :=
  if Element.classType α then List.replicate capacity Element.zero else []

/-- the constructor without data -/
def empty (blockSize : ℕ) (isNullable saveNecessary : Bool) (index : ℕ) : Block α where
  data := newArray α blockSize
  size := 0
  min := Element.lowest
  max := Element.max
  avg := 0
  sum := Element.zero
  countOfNotNullValues := 0
  capacity := blockSize
  bitMask := if isNullable then some (zeroMask blockSize) else none
  saveNecessary := saveNecessary
  index := index

/-- the constructor from a vector -/
def ofData (blockSize : ℕ) (data : List α) (isNullable countBlockStatistics saveNecessary : Bool) (index : ℕ) :
    Except Fault (Block α) :=
  if blockSize < data.length then
    .error (.lengthError "Attempted to insert data larger than remaining block size")
  else
    let b := { empty blockSize isNullable saveNecessary index with
      data := data ++ (newArray α blockSize).drop data.length }
    .ok (if countBlockStatistics then b.setBlockStatistics data.length 0 else b)

/-- the constructor from an array of `allocationSize` elements of which `dataSize` are rows; `data` is its
initialised part -/
def ofArray (blockSize : ℕ) (data : List α) (dataSize allocationSize : ℕ)
    (isNullable countBlockStatistics saveNecessary : Bool) (index : ℕ) : Except Fault (Block α) :=
  if allocationSize ≠ blockSize then .error (.lengthError "Size of loaded data must be equal to block size")
  else if blockSize < dataSize then
    .error (.lengthError "Attempted to insert data larger than remaining block size")
  else if data.length < dataSize then .error .undefined
  else
    let b := { empty blockSize isNullable saveNecessary index with data := data }
    .ok (if countBlockStatistics then b.setBlockStatistics dataSize 0 else b)

/-- InsertData -/
def insertData (b : Block α) (data : List α) (saveNecessary : Bool) : Except Fault (Block α) :=
  if b.emptyBlockSpace < data.length then
    .error (.lengthError
      "BlockBase.h/InsertData(): Attempted to insert data larger than remaining block size")
  else
    let written := { b with data := b.rows ++ data ++ b.data.drop (b.size + data.length) }
    .ok { written.setBlockStatistics data.length b.size with saveNecessary := saveNecessary }

/-- InsertDataInterval -/
def insertDataInterval (b : Block α) (newData : List α) (offset length : ℕ) (saveNecessary : Bool) :
    Except Fault (Block α) :=
  if b.emptyBlockSpace < length then
    .error (.lengthError
      "BlockBase.h/InsertDataInterval(): Attempted to insert data larger than remaining block size")
  else
    let data := (newData.drop offset).take length
    if data.length < length then .error .undefined
    else
      let written := { b with data := b.rows ++ data ++ b.data.drop (b.size + length) }
      .ok { written.setBlockStatistics length b.size with saveNecessary := saveNecessary }

/-- SetNullBitmask from a vector: the first words of the mask are replaced -/
def setNullBitmask (b : Block α) (nullMask : Mask) : Except Fault (Block α) :=
  match b.bitMask with
  | none => .ok b
  | some mask =>
    if mask.length < nullMask.length then .error .undefined
    else .ok ({ b with bitMask := some (nullMask ++ mask.drop nullMask.length) }.setBlockStatistics 0 0)

/-- SetIsNullable -/
def setIsNullable (b : Block α) (isNullable : Bool) : Block α :=
  if b.isNullable = isNullable then b
  else if isNullable then { b with bitMask := some (zeroMask b.capacity) }
  else { b with bitMask := none }

/-- the array after the value is put at `index`: rows behind it move up by one -/
def putData (b : Block α) (index : ℕ) (data : α) : List α :=
  if index < b.size then
    b.data.take index ++ data :: ((b.data.drop index).take (b.size - index) ++ b.data.drop (b.size + 1))
  else b.data.take index ++ data :: b.data.drop (index + 1)

/-- the mask after a value is put at `index` -/
def putBit (b : Block α) (index : ℕ) (isNullValue : Bool) : Except Fault (Option Mask) :=
  match b.bitMask with
  | none => if index < b.size ∨ isNullValue = false then .ok none else .error .undefined
  | some mask =>
    if index < b.size then .ok (some (insertBit mask index isNullValue))
    else if isNullValue then .ok (some (setBit mask index isNullValue))
    else .ok (some mask)

/-- InsertDataOnSpecificPosition -/
def insertDataOnSpecificPosition (b : Block α) (index : ℕ) (data : α) (isNullValue saveNecessary : Bool) :
    Except Fault (Block α) :=
  if b.emptyBlockSpace = 0 then
    .error (.lengthError "Attempted to insert data larger than remaining block size")
  else if b.data.length < index ∨ b.capacity ≤ index then .error .undefined
  else do
    let bitMask ← b.putBit index isNullValue
    .ok { { b with data := b.putData index data, bitMask := bitMask }.updateBlockStatistics data isNullValue with
      saveNecessary := saveNecessary }

/-- a null bit written straight into the block's mask, as ColumnBase::InsertData does -/
def setNullBit (b : Block α) (index : ℕ) : Except Fault (Block α) :=
  match b.bitMask with
  | none => .error .undefined
  | some mask => .ok { b with bitMask := some (setBit mask index true) }

/-! ## What the statistics functions leave alone -/

theorem updateBlockStatistics_store (b : Block α) (x : α) (isNullValue : Bool) :
    SameStore (b.updateBlockStatistics x isNullValue) b := by
  unfold updateBlockStatistics
  split <;> split_ifs <;> exact ⟨rfl, rfl, rfl, rfl, rfl⟩

@[simp] theorem updateBlockStatistics_size (b : Block α) (x : α) (isNullValue : Bool) :
    (b.updateBlockStatistics x isNullValue).size = b.size + 1 := by
  unfold updateBlockStatistics
  split <;> split_ifs <;> rfl

theorem updateAll_store (b : Block α) (inserted : List α) : SameStore (b.updateAll inserted) b := by
  induction inserted generalizing b with
  | nil => exact ⟨rfl, rfl, rfl, rfl, rfl⟩
  | cons x xs ih => exact (ih (b.updateBlockStatistics x false)).trans (updateBlockStatistics_store b x false)

@[simp] theorem updateAll_size (b : Block α) (inserted : List α) :
    (b.updateAll inserted).size = b.size + inserted.length := by
  induction inserted generalizing b with
  | nil => rfl
  | cons x xs ih =>
    simp only [updateAll, List.foldl_cons, List.length_cons] at ih ⊢
    rw [ih, updateBlockStatistics_size]
    omega

theorem countRows_store (mask : Mask) (i : ℕ) (xs : List α) (b : Block α) :
    SameStore (countRows mask i xs b) b ∧ (countRows mask i xs b).size = b.size := by
  induction xs generalizing i b with
  | nil => exact ⟨⟨rfl, rfl, rfl, rfl, rfl⟩, rfl⟩
  | cons x xs ih =>
    simp only [countRows]
    split_ifs
    · exact ih (i + 1) b
    · obtain ⟨hs, hn⟩ := ih (i + 1) (b.countRow x)
      exact ⟨hs.trans ⟨rfl, rfl, rfl, rfl, rfl⟩, hn⟩

theorem recountNullable_store (b : Block α) (mask : Mask) :
    SameStore (b.recountNullable mask) b ∧ (b.recountNullable mask).size = b.size := by
  obtain ⟨hs, hn⟩ := countRows_store mask 0 b.rows { b with
    min := Element.max, max := Element.lowest, avg := 0, sum := Element.zero, countOfNotNullValues := 0 }
  exact ⟨⟨hs.data, hs.capacity, hs.bitMask, hs.saveNecessary, hs.index⟩, hn⟩

theorem setBlockStatistics_store (b : Block α) (n old : ℕ) : SameStore (b.setBlockStatistics n old) b := by
  unfold setBlockStatistics
  split
  · obtain ⟨hs, _⟩ := recountNullable_store { b with size := b.size + n } ‹Mask›
    exact ⟨hs.data, hs.capacity, hs.bitMask, hs.saveNecessary, hs.index⟩
  · exact updateAll_store b _

/-- the row counter grows by the inserted rows, as long as the array has them -/
theorem setBlockStatistics_size (b : Block α) (n old : ℕ) (h : old + n ≤ b.data.length) :
    (b.setBlockStatistics n old).size = b.size + n := by
  unfold setBlockStatistics
  split
  · exact (recountNullable_store { b with size := b.size + n } _).2
  · simp only [updateAll_size, List.length_take, List.length_drop]
    omega

/-! ## What the operations do -/

theorem moveNullBitmask_store (b : Block α) (m : Mask) :
    (b.moveNullBitmask m).data = b.data ∧ (b.moveNullBitmask m).size = b.size ∧
      (b.moveNullBitmask m).capacity = b.capacity ∧ (b.moveNullBitmask m).index = b.index ∧
      (b.moveNullBitmask m).saveNecessary = b.saveNecessary ∧
      (b.moveNullBitmask m).bitMask = b.bitMask.map fun _ => m := by
  unfold moveNullBitmask
  split
  · rename_i hb
    simp [hb]
  · rename_i hb
    have hs := setBlockStatistics_store { b with bitMask := some m } 0 0
    have hn := setBlockStatistics_size { b with bitMask := some m } 0 0 (Nat.zero_le _)
    exact ⟨hs.data, hn, hs.capacity, hs.index, hs.saveNecessary, by rw [hs.bitMask, hb]; rfl⟩

/-- the interval is inserted as the vector of its rows -/
theorem insertDataInterval_eq {b b' : Block α} {newData : List α} {offset length : ℕ} {saveNecessary : Bool}
    (hok : b.insertDataInterval newData offset length saveNecessary = .ok b') :
    b.insertData ((newData.drop offset).take length) saveNecessary = .ok b' := by
  simp only [insertDataInterval] at hok
  split_ifs at hok with hfit hshort
  have hlen : ((newData.drop offset).take length).length = length := by
    have : ((newData.drop offset).take length).length ≤ length := List.length_take_le ..
    omega
  simpa [insertData, hlen, hfit] using hok

theorem length_newArray_le (n : ℕ) : (newArray α n).length ≤ n := by
  unfold newArray
  split_ifs <;> simp

theorem empty_valid (blockSize : ℕ) (isNullable saveNecessary : Bool) (index : ℕ) :
    (empty blockSize isNullable saveNecessary index : Block α).Valid blockSize isNullable := by
  refine ⟨rfl, Nat.zero_le _, length_newArray_le blockSize, ?_, ?_⟩
  · cases isNullable <;> rfl
  · cases isNullable <;> simp [empty, length_zeroMask]

section Specs

variable {blockSize : ℕ} {nullable : Bool} {b : Block α}

/-- what a constructed block holds when its rows are counted -/
theorem ofData_ok (data : List α) (saveNecessary : Bool) (index : ℕ) (h : data.length ≤ blockSize) :
    ∃ b, ofData blockSize data nullable true saveNecessary index = .ok b ∧ b.Valid blockSize nullable ∧
      b.rows = data ∧ b.size = data.length ∧ (∀ i, b.isNull i = false) ∧ b.saveNecessary = saveNecessary ∧
      b.index = index := by
  set e : Block α := { empty blockSize nullable saveNecessary index with
    data := data ++ (newArray α blockSize).drop data.length } with he
  have hlen : data.length ≤ e.data.length := by simp [he]
  have hs := setBlockStatistics_store e data.length 0
  have hsize : (e.setBlockStatistics data.length 0).size = data.length := by
    rw [setBlockStatistics_size e data.length 0 (by omega)]
    simp [he, empty]
  have hval : (e.setBlockStatistics data.length 0).Valid blockSize nullable := by
    have hempty := empty_valid (α := α) blockSize nullable saveNecessary index
    have hroom : e.data.length ≤ blockSize := by
      have := length_newArray_le (α := α) blockSize
      simp only [he, List.length_append, List.length_drop]
      omega
    refine ⟨hs.capacity, by rw [hsize, hs.data]; exact hlen, hs.data ▸ hroom, ?_, ?_⟩
    · rw [isNullable, hs.bitMask]
      exact hempty.nullable
    · rw [hs.bitMask]
      exact hempty.mask
  refine ⟨e.setBlockStatistics data.length 0, ?_, hval, ?_, hsize, fun i => ?_, hs.saveNecessary, hs.index⟩
  · simp [ofData, not_lt.2 h, he]
  · rw [rows, hs.data, hsize]
    simp [he]
  · rw [isNull_of_store hs]
    cases nullable <;> simp [he, empty, isNull, getBit_zeroMask]

/-- InsertData appends the rows and leaves the mask -/
theorem insertData_ok (h : b.Valid blockSize nullable) (data : List α) (saveNecessary : Bool)
    (hfit : b.size + data.length ≤ blockSize) :
    ∃ b', b.insertData data saveNecessary = .ok b' ∧ b'.Valid blockSize nullable ∧ b'.rows = b.rows ++ data ∧
      b'.size = b.size + data.length ∧ b'.bitMask = b.bitMask ∧ b'.saveNecessary = saveNecessary ∧
      b'.index = b.index := by
  set w : Block α := { b with data := b.rows ++ data ++ b.data.drop (b.size + data.length) } with hw
  have hrows := h.rows_length
  have hlen : b.size + data.length ≤ w.data.length := by
    simp only [hw, List.length_append, hrows]
    omega
  have hs := setBlockStatistics_store w data.length b.size
  have hsize : (w.setBlockStatistics data.length b.size).size = b.size + data.length :=
    setBlockStatistics_size w data.length b.size hlen
  have hval : w.Valid blockSize nullable := by
    refine ⟨h.capacity, (Nat.le_add_right _ _).trans hlen, ?_, h.nullable, h.mask⟩
    have := h.room
    simp only [hw, List.length_append, hrows, List.length_drop]
    omega
  have hval' := hval.of_store hs (by rw [hsize, hs.data]; exact hlen)
  refine ⟨{ w.setBlockStatistics data.length b.size with saveNecessary := saveNecessary }, ?_,
    ⟨hval'.capacity, hval'.stored, hval'.room, hval'.nullable, hval'.mask⟩, ?_, hsize, hs.bitMask, rfl, hs.index⟩
  · have hroom : ¬ b.emptyBlockSpace < data.length := by
      rw [emptyBlockSpace, h.capacity]
      omega
    simp [insertData, hroom, hw]
  · have hdata : (w.setBlockStatistics data.length b.size).data =
        b.rows ++ data ++ b.data.drop (b.size + data.length) := hs.data
    rw [rows, hdata, hsize, List.take_left' (by rw [List.length_append, hrows])]

omit [Element α] in
/-- the rows after a value is put at a position: those behind it move up by one -/
theorem take_putData (h : b.Valid blockSize nullable) {index : ℕ} (data : α) (hindex : index ≤ b.size) :
    (b.putData index data).take (b.size + 1) = b.rows.take index ++ data :: b.rows.drop index := by
  have hstored := h.stored
  have hlen : (b.data.take index).length = index := by
    rw [List.length_take]
    omega
  rcases Nat.lt_or_eq_of_le hindex with hlt | rfl
  · have hmoved : ((b.data.drop index).take (b.size - index)).length = b.size - index := by
      rw [List.length_take, List.length_drop]
      omega
    have hsplit : b.putData index data = (b.data.take index ++ data :: (b.data.drop index).take (b.size - index)) ++
        b.data.drop (b.size + 1) := by
      simp [putData, hlt]
    rw [hsplit, List.take_left' (by rw [List.length_append, List.length_cons, hlen, hmoved]; omega), rows,
      List.take_take, List.drop_take, min_eq_left hindex]
  · have hsplit : b.putData b.size data = (b.data.take b.size ++ [data]) ++ b.data.drop (b.size + 1) := by
      simp [putData]
    have hrows : b.rows.length ≤ b.size := by simp [rows]
    rw [hsplit, List.take_left' (by rw [List.length_append, hlen]; rfl), List.take_of_length_le hrows,
      List.drop_eq_nil_of_le hrows, rows]

omit [Element α] in
theorem length_putData (h : b.Valid blockSize nullable) {index : ℕ} (data : α) (hindex : index ≤ b.size) :
    (b.putData index data).length = b.size + 1 + (b.data.length - (b.size + 1)) := by
  have hstored := h.stored
  unfold putData
  split_ifs
  all_goals
    simp only [List.length_append, List.length_cons, List.length_take, List.length_drop]
    omega

omit [Element α] in
/-- the null bits after a value is put at a position -/
theorem putBit_ok (h : b.Valid blockSize nullable) {index : ℕ} {isNullValue : Bool} (hindex : index ≤ b.size)
    (hroom : b.size < blockSize) (hnull : isNullValue = true → nullable = true) :
    ∃ m, b.putBit index isNullValue = .ok m ∧ m.isSome = nullable ∧
      (∀ mask ∈ m, mask.length = getNullBitMaskSize blockSize) ∧
      ∀ b' : Block α, b'.bitMask = m →
        (∀ j < index, b'.isNull j = b.isNull j) ∧ (isNullValue = true → b'.isNull index = true) ∧
        (isNullValue = false → b.isNull b.size = false → b'.isNull index = false) ∧
        ∀ j, index < j → j ≤ b.size → b'.isNull j = b.isNull (j - 1) := by
  cases hm : b.bitMask with
  | none =>
    have hn : nullable = false := by rw [← h.nullable, isNullable, hm]; rfl
    subst hn
    have hvalue : isNullValue = false := by simpa using hnull
    refine ⟨none, by simp [putBit, hm, hvalue], rfl, by simp, ?_⟩
    intro b' hb'
    simp [isNull, hb', hm, hvalue]
  | some mask =>
    have hn : nullable = true := by rw [← h.nullable, isNullable, hm]; rfl
    have hlen : mask.length = getNullBitMaskSize blockSize := h.mask mask hm
    have hword : ∀ j ≤ b.size, j / 64 < mask.length := fun j hj => hlen ▸ div_lt_getNullBitMaskSize (by omega)
    rcases Nat.lt_or_eq_of_le hindex with hlt | rfl
    · refine ⟨some (insertBit mask index isNullValue), by simp [putBit, hm, hlt], hn.symm, ?_, ?_⟩
      · simp [length_insertBit, hlen]
      · intro b' hb'
        have hbit : ∀ j ≤ b.size, b'.isNull j =
            if j < index then b.isNull j else if j = index then isNullValue else b.isNull (j - 1) := by
          intro j hj
          simp only [isNull, hb', hm, getBit_insertBit mask index j isNullValue (hword index hindex) (hword j hj)]
        refine ⟨fun j hj => ?_, fun hv => ?_, fun hv _ => ?_, fun j hj hjs => ?_⟩
        · simp [hbit j (by omega), hj]
        · simp [hbit index hindex, hv]
        · simp [hbit index hindex, hv]
        · simp [hbit j hjs, not_lt.2 hj.le, hj.ne']
    · cases isNullValue with
      | false =>
        refine ⟨some mask, by simp [putBit, hm], hn.symm, by simpa using hlen, ?_⟩
        intro b' hb'
        have hsame : ∀ j, b'.isNull j = b.isNull j := fun j => by simp [isNull, hb', hm]
        refine ⟨fun j _ => hsame j, by simp, fun _ hstale => by rw [hsame, hstale], fun j hj hjs => by omega⟩
      | true =>
        refine ⟨some (setBit mask b.size true), by simp [putBit, hm], hn.symm, by simp [length_setBit, hlen], ?_⟩
        intro b' hb'
        have hbit : ∀ j, b'.isNull j = if j = b.size then true else b.isNull j := by
          intro j
          simp only [isNull, hb', hm, getBit_setBit mask b.size j true (hword b.size le_rfl)]
        refine ⟨fun j hj => by simp [hbit j, hj.ne], fun _ => by simp [hbit], by simp, fun j hj hjs => by omega⟩

/-- InsertDataOnSpecificPosition puts the value at the position and counts it -/
theorem insertDataOnSpecificPosition_ok (h : b.Valid blockSize nullable) {index : ℕ} (data : α) {isNullValue : Bool}
    (saveNecessary : Bool) (hindex : index ≤ b.size) (hroom : b.size < blockSize)
    (hnull : isNullValue = true → nullable = true) :
    ∃ b', b.insertDataOnSpecificPosition index data isNullValue saveNecessary = .ok b' ∧ b'.Valid blockSize nullable ∧
      b'.rows = b.rows.take index ++ data :: b.rows.drop index ∧ b'.size = b.size + 1 ∧
      (∃ m, b' = { { b with data := b.putData index data, bitMask := m }.updateBlockStatistics data isNullValue with
        saveNecessary := saveNecessary }) ∧
      (∀ j < index, b'.isNull j = b.isNull j) ∧ (isNullValue = true → b'.isNull index = true) ∧
      (isNullValue = false → b.isNull b.size = false → b'.isNull index = false) ∧
      (∀ j, index < j → j ≤ b.size → b'.isNull j = b.isNull (j - 1)) ∧
      b'.saveNecessary = saveNecessary ∧ b'.index = b.index := by
  obtain ⟨m, hm, hsome, hmask, hbits⟩ := putBit_ok h hindex hroom hnull
  set w : Block α := { b with data := b.putData index data, bitMask := m } with hw
  have hs := updateBlockStatistics_store w data isNullValue
  have hlen : w.data.length = b.size + 1 + (b.data.length - (b.size + 1)) := length_putData h data hindex
  have hsize : (w.updateBlockStatistics data isNullValue).size = b.size + 1 := updateBlockStatistics_size w data _
  obtain ⟨hlow, hat, hat', hhigh⟩ := hbits
    { w.updateBlockStatistics data isNullValue with saveNecessary := saveNecessary } hs.bitMask
  refine ⟨{ w.updateBlockStatistics data isNullValue with saveNecessary := saveNecessary }, ?_, ?_, ?_, hsize, ⟨m, rfl⟩,
    hlow, hat, hat', hhigh, rfl, hs.index⟩
  · have hfull : ¬ b.emptyBlockSpace = 0 := by
      rw [emptyBlockSpace, h.capacity]
      omega
    have hdefined : ¬ (b.data.length < index ∨ b.capacity ≤ index) := by
      have := h.stored
      rw [h.capacity]
      omega
    simp only [insertDataOnSpecificPosition, hfull, hdefined, ↓reduceIte, hm, bind, Except.bind, hw]
  · refine ⟨hs.capacity.trans h.capacity, ?_, ?_, ?_, ?_⟩
    · have : b.size + 1 ≤ w.data.length := by omega
      simpa only [hsize, hs.data] using this
    · have hroom' := h.room
      have : w.data.length ≤ blockSize := by omega
      simpa only [hs.data] using this
    · rw [isNullable, hs.bitMask]
      exact hsome
    · intro mask hmem
      have hmem' : mask ∈ (w.updateBlockStatistics data isNullValue).bitMask := hmem
      rw [hs.bitMask] at hmem'
      exact hmask mask hmem'
  · have hdata : (w.updateBlockStatistics data isNullValue).data = b.putData index data := hs.data
    simp only [rows, hdata, hsize]
    exact take_putData h data hindex

end Specs

end Block

end QikkDB

/-
What the two kinds of column file share (Database.cpp, WriteColumn and LoadColumn): the head of a block's record in the
.data file, the null mask in it, the check of UNIQUE columns and the column that CreateColumn makes.

The mask bytes of a column that is not nullable are read from memory that GetEmptyNullmask has already freed, so they
are arbitrary (`junk`). The reader's mask buffer has a word for every 64 rows of the block size, of which the file fills
only those of the stored rows (`fill` is the rest).

- `readHead_record`: the reader takes back the head of a record.
- `getBit_maskBuffer`: the null bits of the stored rows come back.
- `enterUnique_ok`, `enterUnique_duplicate`: the check passes exactly on pairwise distinct values.
-/
import Mathlib.Tactic
import QikkDB.Lib.Bytes
import QikkDB.Core.Column

namespace QikkDB.Storage

open NullValues Bytes

variable {α : Type}

/-! ## Writing -/

/-- GetNullBitMaskSizeInBytes -/
def nullBitMaskLength (size : ℕ) : ℕ := getNullBitMaskSize size * 8

/-- the mask bytes of a record: the block's own mask, or what is left in freed memory -/
def maskBytes (isNullable : Bool) (junk : ℕ → UInt8) (b : Block α) : List UInt8 :=
  if isNullable then ((b.bitMask.getD []).take (getNullBitMaskSize b.size)).flatMap fun w => encodeLE 8 w.toNat
  else (List.range (nullBitMaskLength b.size)).map junk

/-- the part of a record up to the null mask; the group id is -1 in every block -/
def recordHead (mask : List UInt8) (index : ℕ) : List UInt8 :=
  encodeLE 4 index ++ (encodeLE 4 4294967295 ++ (encodeLE 4 mask.length ++ mask))

/-! ## Reading -/

/-- the mask buffer after the stored bytes are read into it -/
def maskBuffer (words : ℕ) (fill : ℕ → BitVec 64) (bytes : List UInt8) : Mask :=
  (List.range words).map fun j =>
    if 8 * j + 8 ≤ bytes.length then BitVec.ofNat 64 (decodeLE (entry 8 j bytes)) else fill j

/-- the part of a record before the end-of-file check: index, group id, mask bytes -/
def readHead (file : List UInt8) : Option ((ℕ × ℤ × List UInt8) × List UInt8) := do
  let (index, file) ← readLE 4 file
  let (groupId, file) ← readLE 4 file
  let (length, file) ← readLE 4 file
  let (mask, file) ← readBytes length file
  some ((index, (IntN.wrap 32 groupId).val, mask), file)

/-- the values of a record entered into the hash set of a UNIQUE column -/
def enterUnique {α : Type} [DecidableEq α] (path : String) (toString : α → String) :
    List α → List α → Except Fault (List α)
  | [], seen => .ok seen
  | x :: xs, seen =>
    if x ∈ seen then
      .error (.runtimeError ("Loaded column: " ++ path ++ " has UNIQUE constraint and duplicate values: " ++ toString x))
    else enterUnique path toString xs (x :: seen)

/-- the hash set of a column after the values of a record are checked and entered -/
def enterHashmap {α : Type} [DecidableEq α] (path : String) (toString : α → String) (c : Column α) (values : List α) :
    Except Fault (List α) :=
  if c.isUnique then
    if c.isNullable then
      .error (.runtimeError ("Loaded column: " ++ path ++ " has UNIQUE constraint and has not NOT NULL constraint"))
    else enterUnique path toString values c.uniqueHashmap
  else .ok c.uniqueHashmap

section Enter

variable [Element α] [DecidableEq α]

/-- enter one record of a numeric column: the block takes the array over and gets the statistics it was saved with -/
def enterArray (path : String) (toString : α → String) (c : Column α) (fill : ℕ → BitVec 64)
    (head : ℕ × ℤ × List UInt8) (isCompressed : Bool) (dataLength : ℕ) (data : List α) (min max : α) (avg : UInt32)
    (sum : α) : Except Fault (Column α) :=
  if dataLength > c.blockSize then
    .error (.runtimeError ("Loaded data (" ++ path ++ ") from disk does not fit into existing block"))
  else if isCompressed ∨ getNullBitMaskSize c.blockSize * 8 < head.2.2.length then .error .undefined
  else do
    let seen ← enterHashmap path toString c data
    let b ← Block.ofArray c.blockSize data dataLength c.blockSize c.isNullable false false head.1
    let b := b.moveNullBitmask (maskBuffer (getNullBitMaskSize c.blockSize) fill head.2.2)
    let b := b.loadBlockStatistics min max avg sum dataLength
    .ok { c.setGroup head.2.1 (c.group head.2.1 ++ [b]) with size := c.size + dataLength, uniqueHashmap := seen }

/-- the block that is made of a record and its rows -/
def recordBlock (c : Column α) (fill : ℕ → BitVec 64) (head : ℕ × ℤ × List UInt8) (rows : List α) :
    Except Fault (Block α) := do
  let b ← (Block.empty c.blockSize c.isNullable false head.1).insertData rows false
  .ok (b.moveNullBitmask (maskBuffer (getNullBitMaskSize c.blockSize) fill head.2.2))

/-- enter one record of a string, point or polygon column, whose row counter stays as it is -/
def enterRows (path : String) (toString : α → String) (c : Column α) (fill : ℕ → BitVec 64)
    (head : ℕ × ℤ × List UInt8) (rows : List α) : Except Fault (Column α) :=
  if getNullBitMaskSize c.blockSize * 8 < head.2.2.length then .error .undefined
  else do
    let seen ← enterHashmap path toString c rows
    let b ← recordBlock c fill head rows
    .ok { c.setGroup head.2.1 (c.group head.2.1 ++ [b]) with uniqueHashmap := seen }

end Enter

/-- the column that CreateColumn makes for LoadColumn -/
def created (name : String) (blockSize : ℕ) (isNullable isUnique : Bool) : Except Fault (Column α) :=
  if isUnique ∧ isNullable then
    .error (.constraintViolation ("Could not add UNIQUE constraint on column: " ++ name ++
      ", column need to have NOT NULL constraint"))
  else .ok { Column.fresh name blockSize with isNullable := isNullable, isUnique := isUnique }

theorem created_ok (name : String) (blockSize : ℕ) {isNullable isUnique : Bool}
    (h : isUnique = true → isNullable = false) :
    (created name blockSize isNullable isUnique : Except Fault (Column α)) =
      .ok ⟨name, blockSize, 0, [(-1, [])], isNullable, isUnique, []⟩ := by
  have : ¬ (isUnique = true ∧ isNullable = true) := by
    rintro ⟨hu, hn⟩
    simp [h hu] at hn
  simp [created, this, Column.fresh]

/-! ## The head of a record -/

theorem readHead_nil : readHead [] = none := by
  simp [readHead, readLE_short]

theorem readHead_record (mask : List UInt8) (index : ℕ) (hindex : index < 2 ^ 32) (hmask : mask.length < 2 ^ 32)
    (rest : List UInt8) :
    readHead (recordHead mask index ++ rest) = some ((index, -1, mask), rest) := by
  have h₁ : index % 256 ^ 4 = index := Nat.mod_eq_of_lt (by norm_num; omega)
  have h₂ : mask.length % 256 ^ 4 = mask.length := Nat.mod_eq_of_lt (by norm_num; omega)
  have h₃ : (IntN.wrap 32 ((4294967295 % 256 ^ 4 : ℕ) : ℤ)).val = -1 := by decide
  simp only [readHead, recordHead, List.append_assoc, readLE_encodeLE, Option.bind_eq_bind, Option.bind_some, h₁, h₂,
    h₃, readBytes_append mask rest rfl]

/-! ## The null mask -/

theorem length_maskBytes {blockSize : ℕ} {isNullable : Bool} (junk : ℕ → UInt8) {b : Block α}
    (hb : b.Valid blockSize isNullable) : (maskBytes isNullable junk b).length = nullBitMaskLength b.size := by
  cases isNullable with
  | false => simp [maskBytes]
  | true =>
    obtain ⟨m, hm⟩ := Option.isSome_iff_exists.1 hb.nullable
    have hlen : m.length = getNullBitMaskSize blockSize := hb.mask m hm
    have hle : getNullBitMaskSize b.size ≤ m.length := by
      have := hb.size_le
      rw [hlen, getNullBitMaskSize, getNullBitMaskSize]
      omega
    simp [maskBytes, hm, List.length_flatMap, nullBitMaskLength, hle]

theorem maskBytes_junk (junk junk' : ℕ → UInt8) (b : Block α) :
    maskBytes true junk b = maskBytes true junk' b := by
  simp [maskBytes]

theorem entry_maskBytes (b : Block α) (m : Mask) (hm : b.bitMask = some m) (j : ℕ)
    (hj : j < getNullBitMaskSize b.size) (hlen : getNullBitMaskSize b.size ≤ m.length) :
    entry 8 j (maskBytes true (fun _ => 0) b) = encodeLE 8 (m.getD j 0).toNat := by
  have hj' : j < (m.take (getNullBitMaskSize b.size)).length := by
    simp only [List.length_take]
    omega
  have := entry_flatMap (fun w : BitVec 64 => encodeLE 8 w.toNat) (fun w => length_encodeLE 8 w.toNat)
    (m.take (getNullBitMaskSize b.size)) [] j hj'
  rw [List.append_nil] at this
  simp only [maskBytes, ↓reduceIte, hm, Option.getD_some, this]
  congr 2
  rw [List.get_eq_getElem, List.getElem_take, List.getD_eq_getElem _ _ (by omega)]

/-- the null bits of the stored rows come back -/
theorem getBit_maskBuffer {blockSize : ℕ} {b : Block α} (hb : b.Valid blockSize true) (fill : ℕ → BitVec 64)
    (bytes : List UInt8) (hbytes : bytes = maskBytes true (fun _ => 0) b) (i : ℕ) (hi : i < b.size) :
    getBit (maskBuffer (getNullBitMaskSize blockSize) fill bytes) i = b.isNull i := by
  obtain ⟨m, hm⟩ := Option.isSome_iff_exists.1 hb.nullable
  have hword := div_lt_getNullBitMaskSize hi
  have hmlen : m.length = getNullBitMaskSize blockSize := hb.mask m hm
  have hmono : getNullBitMaskSize b.size ≤ getNullBitMaskSize blockSize := by
    have := hb.size_le
    unfold getNullBitMaskSize
    omega
  have hstored : 8 * (i / 64) + 8 ≤ bytes.length := by
    rw [hbytes, length_maskBytes _ hb, nullBitMaskLength]
    omega
  have hbuf : (maskBuffer (getNullBitMaskSize blockSize) fill bytes).getD (i / 64) 0 = m.getD (i / 64) 0 := by
    rw [List.getD_eq_getElem _ _ (by simp [maskBuffer]; omega)]
    simp only [maskBuffer, List.getElem_map, List.getElem_range, hstored, ↓reduceIte]
    rw [hbytes, entry_maskBytes b m hm (i / 64) hword (by omega), decodeLE_encodeLE_of_lt]
    · simp
    · exact (m.getD (i / 64) 0).isLt
  simp only [Block.isNull, hm, getBit, getBitMaskIdx, getShiftMaskIdx, hbuf]

/-! ## UNIQUE columns -/

theorem enterUnique_ok {α : Type} [DecidableEq α] (path : String) (toString : α → String) (xs seen : List α)
    (h : (xs.reverse ++ seen).Nodup) : enterUnique path toString xs seen = .ok (xs.reverse ++ seen) := by
  induction xs generalizing seen with
  | nil => rfl
  | cons x xs ih =>
    have h' : (xs.reverse ++ x :: seen).Nodup := by simpa using h
    have hx : x ∉ seen := (List.nodup_cons.1 (List.nodup_append.1 h').2.1).1
    simp only [enterUnique, hx, ↓reduceIte, ih (x :: seen) h']
    simp

theorem enterUnique_duplicate {α : Type} [DecidableEq α] (path : String) (toString : α → String) (xs seen : List α)
    (hseen : seen.Nodup) (h : ¬ (xs.reverse ++ seen).Nodup) : ∃ msg, enterUnique path toString xs seen = .error msg := by
  induction xs generalizing seen with
  | nil => exact absurd hseen (by simpa using h)
  | cons x xs ih =>
    by_cases hx : x ∈ seen
    · exact ⟨_, by simp only [enterUnique, hx, ↓reduceIte]; rfl⟩
    · simp only [enterUnique, hx, ↓reduceIte]
      exact ih (x :: seen) (List.nodup_cons.2 ⟨hx, hseen⟩) (by simpa using h)

end QikkDB.Storage

/-
Bulk import (ColumnarDBClient.cs, `BulkImport`; ClientPoolWorker.cpp, `HandleMessage`; TCPClientHandler.cpp,
`HandleBulkImport`).

The client writes a column into one buffer, cuts the buffer into fragments of at most BULK_IMPORT_FRAGMENT_SIZE bytes and
sends each of them with a piece of the column's null mask. The server takes the values of a fragment from its bytes, packs
the bytes of the mask into words and passes both to Table::InsertData.

- columns of the types Int32, Int64, Double and String, each value by its bytes; a text is a list of characters;
- a Double goes through a float variable of which eight bytes are read; what stands behind the variable is `behind`;
- `lastNullBuffOffset` keeps its first value -1, so that the mask's start offset is never moved;
- `none` where the client throws or never ends: an array that is too large, a range outside of an array;
- the bytes arrive in order and the table takes the rows.

Results:
- `fragments_eq`: the fragments are the bins of a next-fit packing of the rows, each with the bytes of the mask from the
  eighth part of its data offset on.
- `getBit_repack`: the server's words have the bits of the bytes.
- `table_arrives`: which tables arrive as they were sent.
-/
import Mathlib.Tactic
import QikkDB.Core.NullValues
import QikkDB.Lib.Bytes
import QikkDB.Lib.Packing
import QikkDB.Lib.Traverse

namespace QikkDB.BulkImport

open NullValues Bytes Traverse

/-! ## Tables -/

def BULK_IMPORT_FRAGMENT_SIZE : ℕ := 8192 * 1024

/-- the largest byte array -/
def MAX_ARRAY : ℕ := 0x7FFFFFC7

inductive DataType where
  | columnInt
  | columnLong
  | columnDouble
  | columnString
deriving DecidableEq, Repr

/-- a value at the client -/
def Value : DataType → Type
  | .columnInt => BitVec 32
  | .columnLong => BitVec 64
  | .columnDouble => BitVec 64
  | .columnString => List Char

/-- a value at the server -/
def Stored : DataType → Type
  | .columnInt => BitVec 32
  | .columnLong => BitVec 64
  | .columnDouble => BitVec 64
  | .columnString => List UInt8

/-- a column of a ColumnarDataTable, `none` for null -/
structure Column where
  columnType : DataType
  rows : List (Option (Value columnType))

/-- Encoding.UTF8.GetBytes -/
def utf8 (s : List Char) : List UInt8 := s.flatMap String.utf8EncodeChar

/-- String.Length, in UTF-16 code units -/
def utf16Length (s : List Char) : ℕ := (s.map fun c => if c.toNat < 0x10000 then 1 else 2).sum

/-! ## The client -/

/-- what is written of one row. `float` is the conversion of a double. -/
def encode (float : BitVec 64 → BitVec 32) : (t : DataType) → Option (Value t) → BitVec 32 → List UInt8
  | .columnInt, none, _ => List.replicate 4 0
  | .columnInt, some x, _ => encodeLE 4 (BitVec.toNat (w := 32) x)
  | .columnLong, none, _ => List.replicate 8 0
  | .columnLong, some x, _ => encodeLE 8 (BitVec.toNat (w := 64) x)
  | .columnDouble, none, _ => List.replicate 8 0
  | .columnDouble, some x, behind => encodeLE 4 (float x).toNat ++ encodeLE 4 behind.toNat
  | .columnString, none, _ => encodeLE 4 0
  | .columnString, some s, _ => encodeLE 4 (utf16Length s) ++ (utf8 s).take (utf16Length s)

def typeSize : DataType → ℕ
  | .columnInt => 4
  | .columnLong => 8
  | .columnDouble => 8
  | .columnString => 1

/-- nullMask[byteIdx] |= 1 << shiftIdx, after the mask is made for the first null -/
def setNull (elementCount : ℕ) (nullMask : Option (List (BitVec 8))) (i : ℕ) : List (BitVec 8) :=
  (nullMask.getD (List.replicate ((elementCount + 8 - 1) / 8) 0)).modify (i / 8) fun b => b ||| (1#8 <<< (i % 8))

def nullMask {α : Type} (rows : List (Option α)) : Option (List (BitVec 8)) :=
  rows.zipIdx.foldl (fun mask row => if row.1.isNone then some (setNull rows.length mask row.2) else mask) none

/-- a BulkImportMessage with the bytes that follow it -/
structure Fragment where
  elemCount : ℕ
  data : List UInt8
  nullMask : Option (List (BitVec 8))

/-- the loop that counts the texts of a fragment from data offset `i` on -/
def stringFragment (dataBuffer : List UInt8) (i : ℕ) : ℕ → ℕ → ℕ → Option (ℕ × ℕ)
  | 0, _, _ => none
  | fuel + 1, fragmentSize, elemCount =>
    if fragmentSize < BULK_IMPORT_FRAGMENT_SIZE ∧ i + fragmentSize < dataBuffer.length then do
      let (strSize, _) ← readLE 4 (dataBuffer.drop (i + fragmentSize))
      if fragmentSize + 4 + strSize > BULK_IMPORT_FRAGMENT_SIZE then some (fragmentSize, elemCount)
      else stringFragment dataBuffer i fuel (fragmentSize + 4 + strSize) (elemCount + 1)
    else some (fragmentSize, elemCount)

/-- fragmentSize and elemCount at data offset `i` -/
def fragmentAt (t : DataType) (dataBuffer : List UInt8) (i : ℕ) : Option (ℕ × ℕ) :=
  match t with
  | .columnString => stringFragment dataBuffer i (dataBuffer.length + 1) 0 0
  | _ =>
    let rest := dataBuffer.length - i
    let fragmentSize := if rest < BULK_IMPORT_FRAGMENT_SIZE then rest else BULK_IMPORT_FRAGMENT_SIZE
    let fragmentSize := fragmentSize / typeSize t * typeSize t
    some (fragmentSize, fragmentSize / typeSize t)

/-- the bytes of the mask that are sent with a fragment -/
def smallNullBuffer (nullMask : Option (List (BitVec 8))) (i elemCount : ℕ) : Option (Option (List (BitVec 8))) :=
  let nullBuffSize := (elemCount + 8 - 1) / 8
  match nullMask with
  | none => some none
  | some mask =>
    if nullBuffSize = 0 then some none
    else if i / 8 + nullBuffSize ≤ mask.length then some (some ((mask.drop (i / 8)).take nullBuffSize))
    else none

/-- the loop over the fragments -/
def fragments (t : DataType) (dataBuffer : List UInt8) (nullMask : Option (List (BitVec 8))) :
    ℕ → ℕ → Option (List Fragment)
  | 0, _ => none
  | fuel + 1, i =>
    if i < dataBuffer.length then do
      let (fragmentSize, elemCount) ← fragmentAt t dataBuffer i
      let small ← smallNullBuffer nullMask i elemCount
      let rest ← fragments t dataBuffer nullMask fuel (i + fragmentSize)
      some (⟨elemCount, (dataBuffer.drop i).take fragmentSize, small⟩ :: rest)
    else some []

/-- the fragments of one column; `behind` is what stands behind the float variable of each row -/
def sendColumn (float : BitVec 64 → BitVec 32) (behind : ℕ → BitVec 32) (c : Column) : Option (List Fragment) :=
  let dataBuffer := (c.rows.zipIdx.map fun row => encode float c.columnType row.1 (behind row.2)).flatten
  if MAX_ARRAY < dataBuffer.length then none
  else fragments c.columnType dataBuffer (nullMask c.rows) (dataBuffer.length + 1) 0

/-! ## The server -/

def readStrings : ℕ → List UInt8 → Option (List (List UInt8))
  | 0, _ => some []
  | elementCount + 1, dataBuffer => do
    let (size, dataBuffer) ← readLE 4 dataBuffer
    let (str, dataBuffer) ← readBytes size dataBuffer
    let rest ← readStrings elementCount dataBuffer
    some (str :: rest)

/-- dataVector -/
def dataVector (t : DataType) (elementCount : ℕ) (dataBuffer : List UInt8) : Option (List (Stored t)) :=
  match t with
  | .columnInt => (readMany 4 (fun b => BitVec.ofNat 32 (decodeLE b)) elementCount dataBuffer).map Prod.fst
  | .columnLong => (readMany 8 (fun b => BitVec.ofNat 64 (decodeLE b)) elementCount dataBuffer).map Prod.fst
  | .columnDouble => (readMany 8 (fun b => BitVec.ofNat 64 (decodeLE b)) elementCount dataBuffer).map Prod.fst
  | .columnString => readStrings elementCount dataBuffer

/-- nullMaskVector -/
def repack (nullMask : List (BitVec 8)) : Mask :=
  (List.range (getNullBitMaskSize (nullMask.length * 8))).map fun i =>
    (List.range 8).foldl (fun word j => word ||| ((nullMask.getD (8 * i + j) 0).setWidth 64 <<< (j * 8))) 0

/-- the rows that HandleBulkImport passes to InsertData -/
def handleBulkImport (t : DataType) (f : Fragment) : Option (List (Option (Stored t))) := do
  let values ← dataVector t f.elemCount f.data
  match f.nullMask with
  | none => some (values.map some)
  | some mask => some (values.zipIdx.map fun v => if getBit (repack mask) v.2 then none else some v.1)

/-- the rows of one column that get to InsertData -/
def importColumn (float : BitVec 64 → BitVec 32) (behind : ℕ → BitVec 32) (c : Column) :
    Option (List (Option (Stored c.columnType))) := do
  let fragments ← sendColumn float behind c
  let parts ← fragments.mapM (handleBulkImport c.columnType)
  some parts.flatten

def bulkImport (float : BitVec 64 → BitVec 32) (behind : ℕ → ℕ → BitVec 32) (table : List Column) :
    Option (List (Σ t, List (Option (Stored t)))) :=
  table.zipIdx.mapM fun c => (importColumn float (behind c.2) c.1).map (Sigma.mk c.1.columnType)

/-! ## What is to arrive -/

/-- the value that stands for a client's value at the server -/
def stored : (t : DataType) → Value t → Stored t
  | .columnInt, x => x
  | .columnLong, x => x
  | .columnDouble, x => x
  | .columnString, s => utf8 s

/-- whatever stands behind the float variables -/
def Arrives (float : BitVec 64 → BitVec 32) (table : List Column) : Prop :=
  ∀ behind, bulkImport float behind table =
    some (table.map fun c => ⟨c.columnType, c.rows.map fun row => row.map (stored c.columnType)⟩)

/-- the bytes of a row in the buffer -/
def rowSize : (t : DataType) → Option (Value t) → ℕ
  | .columnString, none => 4
  | .columnString, some s => 4 + utf16Length s
  | t, _ => typeSize t

def IsAscii (s : List Char) : Prop := ∀ c ∈ s, c.toNat < 0x80

/-- values that are written as they are: no Double, and of the texts those of ASCII characters -/
def Exact : (t : DataType) → Value t → Prop
  | .columnInt, _ => True
  | .columnLong, _ => True
  | .columnDouble, _ => False
  | .columnString, s => IsAscii s

/-- The fragments from row `e` and data offset `i` on: the mask has the bytes that are taken for a fragment, and the rows
whose bits they hold are null where the rows of the fragment are. -/
def Aligned (isNull : ℕ → Bool) (maskSize : ℕ) {α : Type} (size : α → ℕ) : ℕ → ℕ → List (List α) → Prop
  | _, _, [] => True
  | e, i, bin :: bins =>
    i / 8 + (bin.length + 8 - 1) / 8 ≤ maskSize ∧ (∀ j < bin.length, isNull (8 * (i / 8) + j) = isNull (e + j)) ∧
      Aligned isNull maskSize size (e + bin.length) (i + Packing.total size bin) bins

/-- row `k` is there and null -/
def isNullRow {α : Type} (rows : List (Option α)) (k : ℕ) : Bool := (rows[k]?.map Option.isNone).getD false

structure Sendable (c : Column) : Prop where
  size : Packing.total (rowSize c.columnType) c.rows ≤ MAX_ARRAY
  exact : ∀ x, some x ∈ c.rows → Exact c.columnType x
  nulls : none ∉ c.rows ∨ Aligned (isNullRow c.rows) ((c.rows.length + 8 - 1) / 8) (rowSize c.columnType) 0 0
    (Packing.bins (rowSize c.columnType) BULK_IMPORT_FRAGMENT_SIZE c.rows)

/-- every row fits into a fragment -/
def Fits (c : Column) : Prop := ∀ row ∈ c.rows, rowSize c.columnType row ≤ BULK_IMPORT_FRAGMENT_SIZE

/-! ## Masks -/

section Masks

/-- bit `k` of the bytes of a mask -/
def byteBit (mask : List (BitVec 8)) (k : ℕ) : Bool := (mask.getD (k / 8) 0).getLsbD (k % 8)

theorem byteBit_modify {mask : List (BitVec 8)} {i : ℕ} (hi : i / 8 < mask.length) (k : ℕ) :
    byteBit (mask.modify (i / 8) fun b => b ||| (1#8 <<< (i % 8))) k = (byteBit mask k || decide (k = i)) := by
  unfold byteBit
  rw [List.getD_eq_getElem?_getD, List.getD_eq_getElem?_getD, List.getElem?_modify]
  by_cases hbyte : i / 8 = k / 8
  · have hbit : (1#8 <<< (i % 8)).getLsbD (k % 8) = decide (k = i) := by
      have hmod : k % 8 < 8 := Nat.mod_lt _ (by norm_num)
      simp only [BitVec.getLsbD_shiftLeft, hmod, decide_true, Bool.true_and, BitVec.getLsbD_one]
      by_cases hk : k = i
      · subst hk
        simp
      · rw [decide_eq_false hk]
        by_cases hlt : k % 8 < i % 8
        · simp [hlt]
        · have hne : k % 8 - i % 8 ≠ 0 := by omega
          simp [hne]
    rw [hbyte] at hi
    rw [List.getElem?_eq_getElem hi]
    simp [hbyte, hbit]
  · have hk : k ≠ i := fun hk => hbyte (by rw [hk])
    simp [hbyte, hk]

/-- the loop over rows that stand from `start` on -/
theorem nullMask_fold {α : Type} (n start : ℕ) (rows : List (Option α)) (hn : start + rows.length ≤ n)
    (mask : Option (List (BitVec 8))) (hmask : ∀ m ∈ mask, m.length = (n + 8 - 1) / 8) :
    let result := (rows.zipIdx start).foldl
      (fun mask row => if row.1.isNone then some (setNull n mask row.2) else mask) mask
    (result = none ↔ mask = none ∧ none ∉ rows) ∧
      ∀ m ∈ result, m.length = (n + 8 - 1) / 8 ∧
        ∀ k, byteBit m k = ((mask.elim false fun m => byteBit m k) || (decide (start ≤ k) && isNullRow rows (k - start))) := by
  induction rows generalizing start mask with
  | nil =>
    refine ⟨by simp, ?_⟩
    intro m hm
    obtain rfl : mask = some m := hm
    exact ⟨hmask m rfl, fun k => by simp [isNullRow]⟩
  | cons row rows ih =>
    rw [List.zipIdx_cons, List.foldl_cons]
    simp only [List.length_cons] at hn
    cases hrow : row with
    | some x =>
      obtain ⟨hnone, hbits⟩ := ih (start + 1) (by omega) mask hmask
      refine ⟨?_, ?_⟩
      · simpa [hrow] using hnone
      · intro m hm
        obtain ⟨hlen, hbit⟩ := hbits m (by simpa [hrow] using hm)
        refine ⟨hlen, fun k => ?_⟩
        rw [hbit k]
        congr 1
        rcases Nat.lt_trichotomy k start with hlt | rfl | hgt
        · simp [Nat.not_le.2 hlt, Nat.not_le.2 (Nat.lt_succ_of_lt hlt)]
        · simp [isNullRow]
        · obtain ⟨d, rfl⟩ := Nat.exists_eq_add_of_lt hgt
          have hsub : start + d + 1 - start = d + 1 := by omega
          have hsub' : start + d + 1 - (start + 1) = d := by omega
          rw [hsub, hsub', decide_eq_true (by omega : start ≤ start + d + 1),
            decide_eq_true (by omega : start + 1 ≤ start + d + 1)]
          rfl
    | none =>
      have hbyte : start / 8 < (n + 8 - 1) / 8 := by omega
      have hlenOf : (mask.getD (List.replicate ((n + 8 - 1) / 8) 0)).length = (n + 8 - 1) / 8 := by
        cases mask with
        | none => simp
        | some m => exact hmask m rfl
      have hset : ∀ m ∈ some (setNull n mask start), m.length = (n + 8 - 1) / 8 := by
        rintro m ⟨⟩
        simpa [setNull] using hlenOf
      obtain ⟨hnone, hbits⟩ := ih (start + 1) (by omega) (some (setNull n mask start)) hset
      refine ⟨?_, ?_⟩
      · simpa using hnone
      · intro m hm
        obtain ⟨hlen, hbit⟩ := hbits m (by simpa using hm)
        refine ⟨hlen, fun k => ?_⟩
        have hold : byteBit (mask.getD (List.replicate ((n + 8 - 1) / 8) 0)) k = mask.elim false fun m => byteBit m k := by
          cases mask with
          | none =>
            simp only [Option.getD_none, Option.elim_none, byteBit, List.getD_eq_getElem?_getD, List.getElem?_replicate]
            split_ifs <;> simp
          | some m => rfl
        rw [hbit k]
        simp only [Option.elim_some]
        rw [setNull, byteBit_modify (by rw [hlenOf]; exact hbyte), hold, Bool.or_assoc]
        congr 1
        rcases Nat.lt_trichotomy k start with hlt | rfl | hgt
        · simp [Nat.not_le.2 hlt, Nat.not_le.2 (Nat.lt_succ_of_lt hlt), hlt.ne]
        · simp [isNullRow]
        · obtain ⟨d, rfl⟩ := Nat.exists_eq_add_of_lt hgt
          have hsub : start + d + 1 - start = d + 1 := by omega
          have hsub' : start + d + 1 - (start + 1) = d := by omega
          rw [hsub, hsub', decide_eq_false (by omega : ¬ start + d + 1 = start), decide_eq_true (by omega : start ≤ start + d + 1),
            decide_eq_true (by omega : start + 1 ≤ start + d + 1)]
          rfl

/-- the mask has a bit for each row, and there is none without a null -/
theorem nullMask_spec {α : Type} (rows : List (Option α)) :
    (nullMask rows = none ↔ none ∉ rows) ∧
      ∀ m ∈ nullMask rows, m.length = (rows.length + 8 - 1) / 8 ∧ ∀ k, byteBit m k = isNullRow rows k := by
  obtain ⟨hnone, hbits⟩ := nullMask_fold rows.length 0 rows (by omega) none (by simp)
  refine ⟨by simpa [nullMask] using hnone, ?_⟩
  intro m hm
  obtain ⟨hlen, hbit⟩ := hbits m hm
  exact ⟨hlen, fun k => by simpa using hbit k⟩

theorem getLsbD_foldl_or {ι : Type} {w : ℕ} (g : ι → BitVec w) (l : List ι) (word : BitVec w) (b : ℕ) :
    (l.foldl (fun word j => word ||| g j) word).getLsbD b = (word.getLsbD b || l.any fun j => (g j).getLsbD b) := by
  induction l generalizing word with
  | nil => simp
  | cons j l ih =>
    rw [List.foldl_cons, ih, BitVec.getLsbD_or, List.any_cons, Bool.or_assoc]

/-- the words have the bits of the bytes -/
theorem getBit_repack (mask : List (BitVec 8)) (k : ℕ) : getBit (repack mask) k = byteBit mask k := by
  unfold getBit getBitMaskIdx getShiftMaskIdx repack
  rw [List.getD_eq_getElem?_getD, List.getElem?_map]
  by_cases hword : k / 64 < getNullBitMaskSize (mask.length * 8)
  · rw [List.getElem?_range hword]
    simp only [Option.map_some, Option.getD_some]
    rw [getLsbD_foldl_or]
    have hbyte : 8 * (k / 64) + k % 64 / 8 = k / 8 := by omega
    have hmod : k % 64 - k % 64 / 8 * 8 = k % 8 := by omega
    have hlt : k % 64 < 64 := Nat.mod_lt _ (by norm_num)
    -- of the eight bytes of the word only one covers the bit
    have hany : ((List.range 8).any fun j => ((mask.getD (8 * (k / 64) + j) 0).setWidth 64 <<< (j * 8)).getLsbD (k % 64)) =
        ((mask.getD (8 * (k / 64) + k % 64 / 8) 0).setWidth 64 <<< (k % 64 / 8 * 8)).getLsbD (k % 64) := by
      rw [Bool.eq_iff_iff, List.any_eq_true]
      constructor
      · rintro ⟨j, -, hj⟩
        have hj' := hj
        simp only [BitVec.getLsbD_shiftLeft, BitVec.getLsbD_setWidth, Bool.and_eq_true, decide_eq_true_eq,
          Bool.not_eq_true', decide_eq_false_iff_not] at hj'
        have hlow : k % 64 - j * 8 < 8 := by
          by_contra hge
          rw [BitVec.getLsbD_of_ge _ _ (Nat.not_lt.1 hge)] at hj'
          simp at hj'
        obtain rfl : j = k % 64 / 8 := by omega
        exact hj
      · intro h
        exact ⟨k % 64 / 8, List.mem_range.2 (by omega), h⟩
    rw [hany, hbyte]
    have hge : ¬ k % 64 < k % 64 / 8 * 8 := by omega
    simp only [BitVec.getLsbD_shiftLeft, BitVec.getLsbD_setWidth, hlt, hge, hmod, byteBit]
    have hlow : k % 8 < 64 := by omega
    simp [hlow]
  · rw [List.getElem?_eq_none (by simpa using hword)]
    have hout : mask.length ≤ k / 8 := by
      unfold getNullBitMaskSize at hword
      omega
    simp [byteBit, List.getD_eq_getElem?_getD, List.getElem?_eq_none hout]

end Masks

/-! ## Fragments -/

section Fragments

variable (float : BitVec 64 → BitVec 32) {t : DataType}

/-- a row, and what stands behind its float variable -/
abbrev Item (t : DataType) := Option (Value t) × BitVec 32

def cell (item : Item t) : List UInt8 := encode float t item.1 item.2

def itemSize (item : Item t) : ℕ := rowSize t item.1

theorem utf8Size_eq (c : Char) :
    c.utf8Size = if c.toNat < 0x80 then 1 else if c.toNat < 0x800 then 2 else if c.toNat < 0x10000 then 3 else 4 := by
  have hval : c.val.toNat = c.toNat := rfl
  unfold Char.utf8Size
  simp only [UInt32.le_iff_toNat_le, hval]
  split_ifs <;> simp at * <;> omega

theorem length_utf8 (s : List Char) : (utf8 s).length = (s.map Char.utf8Size).sum := by
  simp [utf8, List.length_flatMap]

theorem utf16Length_le (s : List Char) : utf16Length s ≤ (utf8 s).length := by
  rw [length_utf8]
  refine List.sum_le_sum fun c _ => ?_
  rw [utf8Size_eq]
  split_ifs <;> omega

/-- the units are as many as the bytes for ASCII only -/
theorem utf16Length_eq_iff (s : List Char) : utf16Length s = (utf8 s).length ↔ IsAscii s := by
  induction s with
  | nil => simp [utf16Length, utf8, IsAscii]
  | cons c s ih =>
    have htail := utf16Length_le s
    have hunits : utf16Length (c :: s) = (if c.toNat < 0x10000 then 1 else 2) + utf16Length s := by simp [utf16Length]
    have hbytes : (utf8 (c :: s)).length = c.utf8Size + (utf8 s).length := by simp [utf8]
    have hascii : IsAscii (c :: s) ↔ c.toNat < 0x80 ∧ IsAscii s := List.forall_mem_cons
    rw [hunits, hbytes, hascii, ← ih, utf8Size_eq]
    split_ifs <;> omega

theorem length_cell (item : Item t) : (cell float item).length = itemSize item := by
  obtain ⟨row, behind⟩ := item
  cases t <;> cases row <;> simp [cell, itemSize, encode, rowSize, typeSize]
  exact utf16Length_le _

theorem length_cells (items : List (Item t)) : (items.flatMap (cell float)).length = Packing.total itemSize items := by
  induction items with
  | nil => rfl
  | cons item items ih => simp [length_cell, ih]

theorem itemSize_pos (item : Item t) : 0 < itemSize item := by
  obtain ⟨row, behind⟩ := item
  cases t <;> cases row <;> simp [itemSize, rowSize, typeSize]

/-- what the server reads of a row -/
def arrived : (t : DataType) → Item t → Stored t
  | .columnInt, (none, _) => 0#32
  | .columnInt, (some x, _) => x
  | .columnLong, (none, _) => 0#64
  | .columnLong, (some x, _) => x
  | .columnDouble, (none, _) => 0#64
  | .columnDouble, (some x, behind) => behind ++ float x
  | .columnString, (none, _) => ([] : List UInt8)
  | .columnString, (some s, _) => (utf8 s).take (utf16Length s)

/-- a text is its length and its bytes -/
theorem cell_string (item : Item .columnString) :
    ∃ text : List UInt8, cell float item = encodeLE 4 text.length ++ text ∧ itemSize item = 4 + text.length ∧
      arrived float .columnString item = text := by
  obtain ⟨row, behind⟩ := item
  cases row with
  | none => exact ⟨[], rfl, rfl, rfl⟩
  | some s =>
    have hlen : ((utf8 s).take (utf16Length s)).length = utf16Length s := by
      rw [List.length_take]
      exact Nat.min_eq_left (utf16Length_le s)
    exact ⟨(utf8 s).take (utf16Length s), by rw [hlen]; rfl, by rw [hlen]; rfl, rfl⟩

/-- the loop over the texts takes what the packing puts into the bin in use -/
theorem stringFragment_eq {dataBuffer : List UInt8} {i : ℕ} (items : List (Item .columnString)) (fuel used count : ℕ)
    (hfuel : items.length < fuel) (hused : used ≤ BULK_IMPORT_FRAGMENT_SIZE)
    (hdata : dataBuffer.drop (i + used) = items.flatMap (cell float)) (hi : i + used ≤ dataBuffer.length)
    (hfits : ∀ item ∈ items, itemSize item ≤ BULK_IMPORT_FRAGMENT_SIZE) :
    stringFragment dataBuffer i fuel used count =
      some (used + Packing.total itemSize (Packing.pack itemSize BULK_IMPORT_FRAGMENT_SIZE used items).1,
        count + (Packing.pack itemSize BULK_IMPORT_FRAGMENT_SIZE used items).1.length) := by
  induction items generalizing fuel used count with
  | nil =>
    obtain ⟨fuel, rfl⟩ : ∃ n, fuel = n + 1 := ⟨fuel - 1, by simp at hfuel; omega⟩
    have hend : ¬ i + used < dataBuffer.length := by
      rw [List.flatMap_nil, List.drop_eq_nil_iff] at hdata
      omega
    simp [stringFragment, hend, Packing.pack]
  | cons item items ih =>
    obtain ⟨fuel, rfl⟩ : ∃ n, fuel = n + 1 := ⟨fuel - 1, by simp at hfuel; omega⟩
    obtain ⟨text, hcell, hsize, -⟩ := cell_string float item
    have hfit := hfits item List.mem_cons_self
    have hlength : text.length < 256 ^ 4 := by
      unfold BULK_IMPORT_FRAGMENT_SIZE at hfit
      omega
    have hread : readLE 4 (dataBuffer.drop (i + used)) = some (text.length, text ++ items.flatMap (cell float)) := by
      rw [hdata, List.flatMap_cons, hcell, List.append_assoc, readLE_encodeLE, Nat.mod_eq_of_lt hlength]
    have hmore : i + used + itemSize item ≤ dataBuffer.length := by
      have := congrArg List.length hdata
      rw [List.length_drop, List.flatMap_cons, List.length_append, length_cell] at this
      omega
    by_cases hfull : used < BULK_IMPORT_FRAGMENT_SIZE
    · have hstep : stringFragment dataBuffer i (fuel + 1) used count =
          if used + 4 + text.length > BULK_IMPORT_FRAGMENT_SIZE then some (used, count)
          else stringFragment dataBuffer i fuel (used + 4 + text.length) (count + 1) := by
        have hin : i + used < dataBuffer.length := by omega
        simp [stringFragment, hfull, hin, hread]
      rw [hstep]
      by_cases hover : used + 4 + text.length > BULK_IMPORT_FRAGMENT_SIZE
      · have hno : ¬ used + itemSize item ≤ BULK_IMPORT_FRAGMENT_SIZE := by omega
        simp [hover, Packing.pack, hno]
      · have hyes : used + itemSize item ≤ BULK_IMPORT_FRAGMENT_SIZE := by omega
        have hnext : used + 4 + text.length = used + itemSize item := by omega
        have hdrop : dataBuffer.drop (i + (used + itemSize item)) = items.flatMap (cell float) := by
          rw [← Nat.add_assoc, ← List.drop_drop, hdata, List.flatMap_cons, ← length_cell float item, List.drop_left]
        rw [if_neg hover, hnext, ih fuel (used + itemSize item) (count + 1) (by simpa using hfuel) hyes hdrop (by omega)
          fun x hx => hfits x (List.mem_cons_of_mem item hx)]
        simp only [Packing.pack, if_pos hyes, Packing.total_cons, List.length_cons]
        congr 2
        · omega
        · omega
    · have hpos := itemSize_pos item
      have hno : ¬ used + itemSize item ≤ BULK_IMPORT_FRAGMENT_SIZE := by omega
      simp [stringFragment, hfull, Packing.pack, hno]

theorem fragmentAt_eq {dataBuffer : List UInt8} {i : ℕ} (items : List (Item t))
    (hdata : dataBuffer.drop i = items.flatMap (cell float)) (hi : i ≤ dataBuffer.length)
    (hfits : ∀ item ∈ items, itemSize item ≤ BULK_IMPORT_FRAGMENT_SIZE) :
    fragmentAt t dataBuffer i =
      some (Packing.total itemSize (Packing.pack itemSize BULK_IMPORT_FRAGMENT_SIZE 0 items).1,
        (Packing.pack itemSize BULK_IMPORT_FRAGMENT_SIZE 0 items).1.length) := by
  have hlen : dataBuffer.length - i = Packing.total itemSize items := by
    rw [← length_cells float, ← hdata, List.length_drop]
  by_cases ht : t = .columnString
  · subst ht
    have hfuel : items.length < dataBuffer.length + 1 := by
      have hle := Packing.length_le_total itemSize fun item (_ : item ∈ items) => itemSize_pos item
      omega
    rw [fragmentAt, stringFragment_eq float items _ 0 0 hfuel (Nat.zero_le _) hdata hi hfits, Nat.zero_add, Nat.zero_add]
  · have hconst : ∀ item : Item t, itemSize item = typeSize t := by
      rintro ⟨row, behind⟩
      cases t <;> first | rfl | exact absurd rfl ht
    have hpos : 0 < typeSize t := by cases t <;> decide
    have hdiv : BULK_IMPORT_FRAGMENT_SIZE / typeSize t * typeSize t = BULK_IMPORT_FRAGMENT_SIZE := by cases t <;> decide
    have htotal : ∀ l : List (Item t), Packing.total itemSize l = typeSize t * l.length :=
      fun l => Packing.total_const itemSize fun item _ => hconst item
    have hpack := Packing.pack_const itemSize BULK_IMPORT_FRAGMENT_SIZE hpos 0 items (Nat.zero_le _) fun item _ => hconst item
    have hat : fragmentAt t dataBuffer i = some
        ((if dataBuffer.length - i < BULK_IMPORT_FRAGMENT_SIZE then dataBuffer.length - i
          else BULK_IMPORT_FRAGMENT_SIZE) / typeSize t * typeSize t,
        (if dataBuffer.length - i < BULK_IMPORT_FRAGMENT_SIZE then dataBuffer.length - i
          else BULK_IMPORT_FRAGMENT_SIZE) / typeSize t * typeSize t / typeSize t) := by
      cases t <;> first | rfl | exact absurd rfl ht
    have hcount : (if dataBuffer.length - i < BULK_IMPORT_FRAGMENT_SIZE then dataBuffer.length - i
          else BULK_IMPORT_FRAGMENT_SIZE) / typeSize t = min (BULK_IMPORT_FRAGMENT_SIZE / typeSize t) items.length := by
      rw [hlen, htotal]
      split_ifs with hshort
      · rw [Nat.mul_div_cancel_left _ hpos]
        refine (Nat.min_eq_right ?_).symm
        rw [Nat.le_div_iff_mul_le hpos, Nat.mul_comm]
        exact hshort.le
      · refine (Nat.min_eq_left ?_).symm
        apply Nat.div_le_of_le_mul
        exact Nat.not_lt.1 hshort
    rw [hat, hcount, Nat.mul_div_cancel _ hpos, htotal, hpack, Nat.sub_zero, List.length_take, Nat.mul_comm]

/-- the fragments of bins of rows, the first of which stands at data offset `i` -/
def sentFrom (nullMask : Option (List (BitVec 8))) : ℕ → List (List (Item t)) → Option (List Fragment)
  | _, [] => some []
  | i, bin :: bins => do
    let small ← smallNullBuffer nullMask i bin.length
    let rest ← sentFrom nullMask (i + Packing.total itemSize bin) bins
    some (⟨bin.length, bin.flatMap (cell float), small⟩ :: rest)

/-- The fragments are the bins of a next-fit packing. -/
theorem fragments_eq {dataBuffer : List UInt8} (mask : Option (List (BitVec 8))) {i : ℕ} (items : List (Item t)) (fuel : ℕ)
    (hfuel : items.length < fuel) (hdata : dataBuffer.drop i = items.flatMap (cell float)) (hi : i ≤ dataBuffer.length)
    (hfits : ∀ item ∈ items, itemSize item ≤ BULK_IMPORT_FRAGMENT_SIZE) :
    fragments t dataBuffer mask fuel i =
      sentFrom float mask i (Packing.bins itemSize BULK_IMPORT_FRAGMENT_SIZE items) := by
  induction fuel generalizing i items with
  | zero => omega
  | succ fuel ih =>
    have hlen : dataBuffer.length - i = Packing.total itemSize items := by
      rw [← length_cells float, ← hdata, List.length_drop]
    by_cases hnil : items = []
    · subst hnil
      have hend : ¬ i < dataBuffer.length := by
        rw [Packing.total_nil] at hlen
        omega
      simp [fragments, hend, Packing.bins, sentFrom]
    · obtain ⟨first, others, hfirst⟩ := List.exists_cons_of_ne_nil hnil
      set bin := (Packing.pack itemSize BULK_IMPORT_FRAGMENT_SIZE 0 items).1 with hbin
      have hsplit : bin ++ items.drop bin.length = items :=
        Packing.pack_append_drop itemSize BULK_IMPORT_FRAGMENT_SIZE 0 items
      have hitems : 0 < items.length := List.length_pos_iff.2 hnil
      have hne : 0 < bin.length := by
        have hfit := hfits first (by simp [hfirst])
        rw [hbin, hfirst]
        simp [Packing.pack, hfit]
      have hin : i < dataBuffer.length := by
        have hpos := itemSize_pos first
        rw [hfirst, Packing.total_cons] at hlen
        omega
      have hcells : items.flatMap (cell float) = bin.flatMap (cell float) ++ (items.drop bin.length).flatMap (cell float) := by
        rw [← List.flatMap_append, hsplit]
      have hsize : (bin.flatMap (cell float)).length = Packing.total itemSize bin := length_cells float bin
      have hdrop : dataBuffer.drop (i + Packing.total itemSize bin) = (items.drop bin.length).flatMap (cell float) := by
        rw [← List.drop_drop, hdata, hcells, ← hsize, List.drop_left]
      have htake : (dataBuffer.drop i).take (Packing.total itemSize bin) = bin.flatMap (cell float) := by
        rw [hdata, hcells, ← hsize, List.take_left]
      have hnext : i + Packing.total itemSize bin ≤ dataBuffer.length := by
        have := congrArg List.length hcells
        rw [← hdata, List.length_drop, List.length_append, hsize] at this
        omega
      have hrest := ih (items.drop bin.length) (by rw [List.length_drop]; omega) hdrop hnext
        fun item hitem => hfits item (List.mem_of_mem_drop hitem)
      rw [Packing.bins_eq itemSize BULK_IMPORT_FRAGMENT_SIZE hnil hfits, ← hbin, sentFrom, ← hrest, fragments, if_pos hin,
        fragmentAt_eq float items hdata hi hfits, ← hbin]
      simp only [Option.bind_eq_bind, Option.bind_some, htake]

end Fragments

/-! ## Values -/

section Values

variable (float : BitVec 64 → BitVec 32)

theorem decodeLE_append (a b : List UInt8) : decodeLE (a ++ b) = decodeLE a + 256 ^ a.length * decodeLE b := by
  induction a with
  | nil => simp [decodeLE]
  | cons x a ih =>
    have hcons : ∀ l : List UInt8, decodeLE (x :: l) = x.toNat + 256 * decodeLE l := fun l => rfl
    rw [List.cons_append, hcons, hcons, ih, List.length_cons, pow_succ]
    ring

theorem ofNat_encodeLE {w : ℕ} (x : BitVec (8 * w)) : BitVec.ofNat (8 * w) (decodeLE (encodeLE w x.toNat)) = x := by
  have hlt : x.toNat < 256 ^ w := by
    have := x.isLt
    rwa [pow_mul] at this
  rw [decodeLE_encodeLE_of_lt hlt, BitVec.ofNat_toNat, BitVec.setWidth_eq]

theorem ofNat_encodeDouble (low behind : BitVec 32) :
    BitVec.ofNat 64 (decodeLE (encodeLE 4 low.toNat ++ encodeLE 4 behind.toNat)) = behind ++ low := by
  have hlow : low.toNat < 256 ^ 4 := low.isLt
  have hhigh : behind.toNat < 256 ^ 4 := behind.isLt
  rw [decodeLE_append, length_encodeLE, decodeLE_encodeLE_of_lt hlow, decodeLE_encodeLE_of_lt hhigh]
  apply BitVec.eq_of_toNat_eq
  rw [BitVec.toNat_append, BitVec.toNat_ofNat, ← Nat.shiftLeft_add_eq_or_of_lt low.isLt, Nat.shiftLeft_eq]
  omega

theorem readStrings_eq (items : List (Item .columnString))
    (hfits : ∀ item ∈ items, itemSize item ≤ BULK_IMPORT_FRAGMENT_SIZE) :
    readStrings items.length (items.flatMap (cell float)) = some (items.map (arrived float .columnString)) := by
  induction items with
  | nil => rfl
  | cons item items ih =>
    obtain ⟨text, hcell, hsize, harrived⟩ := cell_string float item
    have hfit := hfits item List.mem_cons_self
    have hlength : text.length < 256 ^ 4 := by
      unfold BULK_IMPORT_FRAGMENT_SIZE at hfit
      omega
    rw [List.length_cons, readStrings, List.flatMap_cons, hcell, List.append_assoc, readLE_encodeLE,
      Nat.mod_eq_of_lt hlength]
    simp only [Option.bind_eq_bind, Option.bind_some, readBytes_append text _ rfl,
      ih fun x hx => hfits x (List.mem_cons_of_mem item hx)]
    rw [List.map_cons, harrived]
    rfl

/-- the values that the server takes from the bytes of some rows -/
theorem dataVector_eq {t : DataType} (items : List (Item t))
    (hfits : ∀ item ∈ items, itemSize item ≤ BULK_IMPORT_FRAGMENT_SIZE) :
    dataVector t items.length (items.flatMap (cell float)) = some (items.map (arrived float t)) := by
  have hmany : ∀ {β : Type} (w : ℕ) (decode : List UInt8 → β), (∀ item : Item t, (cell float item).length = w) →
      (readMany w decode items.length (items.flatMap (cell float))).map Prod.fst =
        some (items.map fun item => decode (cell float item)) := by
    intro β w decode hlen
    have := readMany_flatMap decode hlen items []
    rw [List.append_nil] at this
    rw [this]
    rfl
  cases t with
  | columnInt =>
    refine (hmany 4 (fun b => BitVec.ofNat 32 (decodeLE b)) fun item => length_cell float item).trans ?_
    refine congrArg some (List.map_congr_left fun item _ => ?_)
    obtain ⟨_ | x, behind⟩ := item
    · rfl
    · exact ofNat_encodeLE (w := 4) x
  | columnLong =>
    refine (hmany 8 (fun b => BitVec.ofNat 64 (decodeLE b)) fun item => length_cell float item).trans ?_
    refine congrArg some (List.map_congr_left fun item _ => ?_)
    obtain ⟨_ | x, behind⟩ := item
    · rfl
    · exact ofNat_encodeLE (w := 8) x
  | columnDouble =>
    refine (hmany 8 (fun b => BitVec.ofNat 64 (decodeLE b)) fun item => length_cell float item).trans ?_
    refine congrArg some (List.map_congr_left fun item _ => ?_)
    obtain ⟨_ | x, behind⟩ := item
    · rfl
    · exact ofNat_encodeDouble (float x) behind
  | columnString => exact readStrings_eq float items hfits

end Values

/-! ## Rows -/

section Rows

variable (float : BitVec 64 → BitVec 32) {t : DataType}

/-- the rows that are passed on for bins of rows, the first of which stands at data offset `i` -/
def passedFrom (mask : Option (List (BitVec 8))) (i : ℕ) (bins : List (List (Item t))) :
    Option (List (Option (Stored t))) := do
  let fragments ← sentFrom float mask i bins
  let parts ← fragments.mapM (handleBulkImport t)
  some parts.flatten

theorem handle_unmasked {bin : List (Item t)} (hfits : ∀ item ∈ bin, itemSize item ≤ BULK_IMPORT_FRAGMENT_SIZE) :
    handleBulkImport t ⟨bin.length, bin.flatMap (cell float), none⟩ = some (bin.map fun item => some (arrived float t item)) := by
  simp [handleBulkImport, dataVector_eq float bin hfits]

theorem handle_masked {bin : List (Item t)} (hfits : ∀ item ∈ bin, itemSize item ≤ BULK_IMPORT_FRAGMENT_SIZE)
    (mask : List (BitVec 8)) :
    handleBulkImport t ⟨bin.length, bin.flatMap (cell float), some mask⟩ =
      some (bin.zipIdx.map fun item => if byteBit mask item.2 then none else some (arrived float t item.1)) := by
  simp [handleBulkImport, dataVector_eq float bin hfits, List.zipIdx_map, getBit_repack, Function.comp_def]

/-- without a null every row arrives as a value -/
theorem passedFrom_unmasked (bins : List (List (Item t))) (i : ℕ)
    (hfits : ∀ item ∈ bins.flatten, itemSize item ≤ BULK_IMPORT_FRAGMENT_SIZE) :
    passedFrom float none i bins = some (bins.flatten.map fun item => some (arrived float t item)) := by
  induction bins generalizing i with
  | nil => rfl
  | cons bin bins ih =>
    rw [List.flatten_cons] at hfits
    have hbin := handle_unmasked float fun item hitem => hfits item (List.mem_append_left _ hitem)
    have hrest := ih (i + Packing.total itemSize bin) fun item hitem => hfits item (List.mem_append_right _ hitem)
    obtain ⟨fragments, hsent, hrest⟩ := Option.bind_eq_some_iff.1 hrest
    obtain ⟨parts, hparts, hrest⟩ := Option.bind_eq_some_iff.1 hrest
    simp only [passedFrom, sentFrom, smallNullBuffer, hsent, Option.bind_eq_bind, Option.bind_some, List.mapM_cons, hbin,
      hparts]
    rw [List.flatten_cons, List.map_append, ← Option.some.inj hrest]
    rfl

theorem smallNullBuffer_masked {mask : List (BitVec 8)} {i n : ℕ} (hn : 0 < n) :
    smallNullBuffer (some mask) i n =
      if i / 8 + (n + 8 - 1) / 8 ≤ mask.length then some (some ((mask.drop (i / 8)).take ((n + 8 - 1) / 8))) else none := by
  have hsome : (n + 8 - 1) / 8 ≠ 0 := by omega
  simp only [smallNullBuffer, if_neg hsome]

/-- the bits of a part of the mask -/
theorem byteBit_window {mask : List (BitVec 8)} {start n : ℕ} {j : ℕ} (hj : j < n) :
    byteBit ((mask.drop start).take ((n + 8 - 1) / 8)) j = byteBit mask (8 * start + j) := by
  have hbyte : (8 * start + j) / 8 = start + j / 8 := by omega
  have hbit : (8 * start + j) % 8 = j % 8 := by omega
  have hlt : j / 8 < (n + 8 - 1) / 8 := by omega
  unfold byteBit
  rw [hbyte, hbit, List.getD_eq_getElem?_getD, List.getD_eq_getElem?_getD, List.getElem?_take_of_lt hlt, List.getElem?_drop]

/-- one row that arrives as it was sent -/
theorem row_arrives_iff {row : Option (Value t)} {bit : Bool} {value : Stored t} :
    (if bit then none else some value) = row.map (stored t) ↔
      bit = row.isNone ∧ ∀ x, row = some x → value = stored t x := by
  cases row <;> cases bit <;> simp

/-- a bin of rows that arrives as it was sent -/
theorem bin_arrives_iff (isNull : ℕ → Bool) (e start : ℕ) (mask : List (BitVec 8)) (bin : List (Item t))
    (hbits : ∀ j < bin.length, byteBit mask j = isNull (start + j))
    (hnull : ∀ j item, bin[j]? = some item → isNull (e + j) = item.1.isNone) :
    (bin.zipIdx.map fun item => if byteBit mask item.2 then none else some (arrived float t item.1)) =
        bin.map (fun item => item.1.map (stored t)) ↔
      (∀ j < bin.length, isNull (start + j) = isNull (e + j)) ∧
        ∀ item ∈ bin, ∀ x, item.1 = some x → arrived float t item = stored t x := by
  have hext : (bin.zipIdx.map fun item => if byteBit mask item.2 then none else some (arrived float t item.1)) =
        bin.map (fun item => item.1.map (stored t)) ↔
      ∀ j item, bin[j]? = some item →
        (if byteBit mask j then none else some (arrived float t item)) = item.1.map (stored t) := by
    constructor
    · intro heq j item hitem
      have := congrArg (fun l => l[j]?) heq
      simpa [List.getElem?_zipIdx, hitem] using this
    · intro hrows
      apply List.ext_getElem?
      intro j
      cases hitem : bin[j]? with
      | none => simp [List.getElem?_zipIdx, hitem]
      | some item => simpa [List.getElem?_zipIdx, hitem] using hrows j item hitem
  rw [hext]
  constructor
  · intro hrows
    refine ⟨?_, ?_⟩
    · intro j hj
      have hitem := List.getElem?_eq_getElem hj
      rw [← hbits j hj, (row_arrives_iff.1 (hrows j _ hitem)).1, hnull j _ hitem]
    · intro item hitem x hx
      obtain ⟨j, hj⟩ := List.getElem?_of_mem hitem
      exact (row_arrives_iff.1 (hrows j item hj)).2 x hx
  · rintro ⟨hsame, hvalues⟩ j item hitem
    have hj := (List.getElem?_eq_some_iff.1 hitem).1
    refine row_arrives_iff.2 ⟨?_, hvalues item (List.mem_of_getElem? hitem)⟩
    rw [hbits j hj, hsame j hj, hnull j item hitem]

/-- The rows of all bins arrive as they were sent. -/
theorem passedFrom_iff {isNull : ℕ → Bool} {mask : List (BitVec 8)} (hbits : ∀ k, byteBit mask k = isNull k)
    (bins : List (List (Item t))) (e i : ℕ) (hne : ∀ bin ∈ bins, bin ≠ [])
    (hfits : ∀ item ∈ bins.flatten, itemSize item ≤ BULK_IMPORT_FRAGMENT_SIZE)
    (hnull : ∀ j item, bins.flatten[j]? = some item → isNull (e + j) = item.1.isNone) :
    passedFrom float (some mask) i bins = some (bins.flatten.map fun item => item.1.map (stored t)) ↔
      Aligned isNull mask.length itemSize e i bins ∧
        ∀ item ∈ bins.flatten, ∀ x, item.1 = some x → arrived float t item = stored t x := by
  induction bins generalizing e i with
  | nil => simp [passedFrom, sentFrom, Aligned]
  | cons bin bins ih =>
    have hlen : 0 < bin.length := List.length_pos_iff.2 (hne bin List.mem_cons_self)
    rw [List.flatten_cons] at hfits hnull ⊢
    have hbinFits : ∀ item ∈ bin, itemSize item ≤ BULK_IMPORT_FRAGMENT_SIZE :=
      fun item hitem => hfits item (List.mem_append_left _ hitem)
    have hbinNull : ∀ j item, bin[j]? = some item → isNull (e + j) = item.1.isNone := by
      intro j item hitem
      apply hnull j item
      rw [List.getElem?_append_left (List.getElem?_eq_some_iff.1 hitem).1]
      exact hitem
    have hrest := ih (e + bin.length) (i + Packing.total itemSize bin) (fun b hb => hne b (List.mem_cons_of_mem bin hb))
      (fun item hitem => hfits item (List.mem_append_right _ hitem)) fun j item hitem => by
        rw [Nat.add_assoc]
        apply hnull (bin.length + j) item
        rwa [List.getElem?_append_right (Nat.le_add_right _ _), Nat.add_sub_cancel_left]
    by_cases hin : i / 8 + (bin.length + 8 - 1) / 8 ≤ mask.length
    · -- the fragment is sent: its rows arrive and those behind it do
      set window := (mask.drop (i / 8)).take ((bin.length + 8 - 1) / 8) with hwindow
      have hsmall : smallNullBuffer (some mask) i bin.length = some (some window) := by
        rw [smallNullBuffer_masked hlen, if_pos hin]
      have hbin := bin_arrives_iff float isNull e (8 * (i / 8)) window bin
        (fun j hj => by rw [hwindow, byteBit_window hj, hbits]) hbinNull
      have hpassed : passedFrom float (some mask) i (bin :: bins) =
          (passedFrom float (some mask) (i + Packing.total itemSize bin) bins).map fun rows =>
            (bin.zipIdx.map fun item => if byteBit window item.2 then none else some (arrived float t item.1)) ++ rows := by
        simp only [passedFrom, sentFrom, hsmall, Option.bind_eq_bind, Option.bind_some]
        cases sentFrom float (some mask) (i + Packing.total itemSize bin) bins with
        | none => rfl
        | some fragments =>
          simp only [Option.bind_some, List.mapM_cons, handle_masked float hbinFits]
          cases fragments.mapM (handleBulkImport t) <;> rfl
      have hsplit : passedFrom float (some mask) i (bin :: bins) =
            some ((bin ++ bins.flatten).map fun item => item.1.map (stored t)) ↔
          (bin.zipIdx.map fun item => if byteBit window item.2 then none else some (arrived float t item.1)) =
              bin.map (fun item => item.1.map (stored t)) ∧
            passedFrom float (some mask) (i + Packing.total itemSize bin) bins =
              some (bins.flatten.map fun item => item.1.map (stored t)) := by
        rw [hpassed, Option.map_eq_some_iff, List.map_append]
        constructor
        · rintro ⟨rows, hrows, heq⟩
          obtain ⟨hfirst, rfl⟩ := List.append_inj heq (by simp)
          exact ⟨hfirst, hrows⟩
        · rintro ⟨hfirst, hrows⟩
          exact ⟨_, hrows, by rw [hfirst]⟩
      rw [hsplit, hbin, hrest, Aligned]
      simp only [List.mem_append]
      constructor
      · rintro ⟨⟨hsame, hvalues⟩, haligned, hvalues'⟩
        refine ⟨⟨hin, hsame, haligned⟩, ?_⟩
        rintro item (hitem | hitem)
        · exact hvalues item hitem
        · exact hvalues' item hitem
      · rintro ⟨⟨-, hsame, haligned⟩, hvalues⟩
        exact ⟨⟨hsame, fun item hitem => hvalues item (Or.inl hitem)⟩, haligned,
          fun item hitem => hvalues item (Or.inr hitem)⟩
    · have hsmall : smallNullBuffer (some mask) i bin.length = none := by
        rw [smallNullBuffer_masked hlen, if_neg hin]
      have hnone : passedFrom float (some mask) i (bin :: bins) = none := by
        simp [passedFrom, sentFrom, hsmall]
      rw [hnone]
      constructor
      · intro h
        cases h
      · rintro ⟨haligned, -⟩
        exact absurd haligned.1 hin

end Rows

/-! ## The result -/

theorem arrived_stored_iff (float : BitVec 64 → BitVec 32) {t : DataType} (x : Value t) :
    (∀ behind, arrived float t (some x, behind) = stored t x) ↔ Exact t x := by
  cases t with
  | columnInt => exact ⟨fun _ => trivial, fun _ _ => rfl⟩
  | columnLong => exact ⟨fun _ => trivial, fun _ _ => rfl⟩
  | columnDouble =>
    refine ⟨?_, False.elim⟩
    intro h
    -- two different contents behind the variable cannot both be right
    have hzero : (0#32 ++ float x : BitVec 64) = x := h 0#32
    have hone : (1#32 ++ float x : BitVec 64) = x := h 1#32
    have hbit := congrArg (fun v : BitVec 64 => v.getLsbD 32) (hzero.trans hone.symm)
    simp only [BitVec.getLsbD_append] at hbit
    simp at hbit
  | columnString =>
    refine Iff.trans ?_ (utf16Length_eq_iff x)
    have hle := utf16Length_le x
    constructor
    · intro h
      have hlen := congrArg List.length (h 0#32)
      have htake : ((utf8 x).take (utf16Length x)).length = (utf8 x).length := hlen
      rw [List.length_take] at htake
      omega
    · intro h behind
      show (utf8 x).take (utf16Length x) = utf8 x
      rw [h, List.take_length]

theorem aligned_map {α β : Type} {isNull : ℕ → Bool} {maskSize : ℕ} {size : α → ℕ} (f : β → α) (bins : List (List β))
    (e i : ℕ) : Aligned isNull maskSize size e i (bins.map (List.map f)) ↔
      Aligned isNull maskSize (fun b => size (f b)) e i bins := by
  induction bins generalizing e i with
  | nil => exact Iff.rfl
  | cons bin bins ih =>
    have htotal : Packing.total size (bin.map f) = Packing.total (fun b => size (f b)) bin := by
      simp [Packing.total, Function.comp_def]
    simp only [List.map_cons, Aligned, List.length_map, htotal, ih]

/-- the rows of a column with what stands behind their float variables -/
def Column.items (c : Column) (behind : ℕ → BitVec 32) : List (Item c.columnType) :=
  c.rows.zipIdx.map fun row => (row.1, behind row.2)

theorem items_fst (c : Column) (behind : ℕ → BitVec 32) : (c.items behind).map Prod.fst = c.rows := by
  rw [Column.items, List.map_map]
  exact List.zipIdx_map_fst 0 c.rows

theorem getElem_items (c : Column) (behind : ℕ → BitVec 32) (j : ℕ) :
    (c.items behind)[j]? = c.rows[j]?.map fun row => (row, behind j) := by
  rw [Column.items, List.getElem?_map, List.getElem?_zipIdx, Option.map_map, Nat.zero_add]
  rfl

theorem mem_items {c : Column} {behind : ℕ → BitVec 32} {item : Item c.columnType} :
    item ∈ c.items behind ↔ ∃ j, c.rows[j]? = some item.1 ∧ item.2 = behind j := by
  rw [List.mem_iff_getElem?]
  refine exists_congr fun j => ?_
  rw [getElem_items, Option.map_eq_some_iff]
  constructor
  · rintro ⟨row, hrow, rfl⟩
    exact ⟨hrow, rfl⟩
  · rintro ⟨hrow, hbehind⟩
    exact ⟨item.1, hrow, Prod.ext rfl hbehind.symm⟩

/-- a column is sent as the bins of its rows -/
theorem importColumn_eq (float : BitVec 64 → BitVec 32) (behind : ℕ → BitVec 32) (c : Column) (hfits : Fits c) :
    importColumn float behind c =
      if MAX_ARRAY < Packing.total (rowSize c.columnType) c.rows then none
      else passedFrom float (nullMask c.rows) 0 (Packing.bins itemSize BULK_IMPORT_FRAGMENT_SIZE (c.items behind)) := by
  have hitems : ∀ item ∈ c.items behind, itemSize item ≤ BULK_IMPORT_FRAGMENT_SIZE := by
    intro item hitem
    apply hfits
    rw [← items_fst c behind]
    exact List.mem_map_of_mem hitem
  have hdata : (c.rows.zipIdx.map fun row => encode float c.columnType row.1 (behind row.2)).flatten =
      (c.items behind).flatMap (cell float) := by
    rw [Column.items, List.flatMap_map, List.flatMap_def]
    rfl
  have hsize : ((c.items behind).flatMap (cell float)).length = Packing.total (rowSize c.columnType) c.rows := by
    rw [length_cells, ← items_fst c behind, Packing.total, Packing.total, List.map_map]
    rfl
  have hlong : (c.items behind).length < ((c.items behind).flatMap (cell float)).length + 1 := by
    have hle := Packing.length_le_total itemSize fun item (_ : item ∈ c.items behind) => itemSize_pos item
    rw [length_cells]
    omega
  unfold importColumn sendColumn
  simp only [hdata]
  rw [← hsize]
  split_ifs
  · rfl
  · rw [fragments_eq float (nullMask c.rows) (c.items behind) _ hlong (List.drop_zero) (Nat.zero_le _) hitems]
    rfl

theorem importColumn_iff (float : BitVec 64 → BitVec 32) (behind : ℕ → BitVec 32) (c : Column) (hfits : Fits c) :
    importColumn float behind c = some (c.rows.map fun row => row.map (stored c.columnType)) ↔
      Packing.total (rowSize c.columnType) c.rows ≤ MAX_ARRAY ∧
        (none ∉ c.rows ∨ Aligned (isNullRow c.rows) ((c.rows.length + 8 - 1) / 8) (rowSize c.columnType) 0 0
          (Packing.bins (rowSize c.columnType) BULK_IMPORT_FRAGMENT_SIZE c.rows)) ∧
        ∀ j x, c.rows[j]? = some (some x) → arrived float c.columnType (some x, behind j) = stored c.columnType x := by
  set bins := Packing.bins itemSize BULK_IMPORT_FRAGMENT_SIZE (c.items behind) with hbins
  have hflatten : bins.flatten = c.items behind := Packing.bins_flatten itemSize BULK_IMPORT_FRAGMENT_SIZE (c.items behind)
  have hitems : ∀ item ∈ bins.flatten, itemSize item ≤ BULK_IMPORT_FRAGMENT_SIZE := by
    rw [hflatten]
    intro item hitem
    apply hfits
    rw [← items_fst c behind]
    exact List.mem_map_of_mem hitem
  have hrows : (c.rows.map fun row => row.map (stored c.columnType)) =
      bins.flatten.map fun item => item.1.map (stored c.columnType) := by
    conv_lhs => rw [← items_fst c behind, List.map_map]
    rw [hflatten]
    rfl
  have hvalues : (∀ item ∈ bins.flatten, ∀ x, item.1 = some x → arrived float c.columnType item = stored c.columnType x) ↔
      ∀ j x, c.rows[j]? = some (some x) → arrived float c.columnType (some x, behind j) = stored c.columnType x := by
    rw [hflatten]
    constructor
    · intro h j x hx
      exact h (some x, behind j) (mem_items.2 ⟨j, hx, rfl⟩) x rfl
    · rintro h ⟨row, value⟩ hitem x rfl
      obtain ⟨j, hj, rfl⟩ := mem_items.1 hitem
      exact h j x hj
  have hsizes : (bins.map (List.map Prod.fst)) = Packing.bins (rowSize c.columnType) BULK_IMPORT_FRAGMENT_SIZE c.rows := by
    conv_rhs => rw [← items_fst c behind, Packing.bins_map]
    rfl
  rw [importColumn_eq float behind c hfits, ← hvalues, ← hsizes, aligned_map]
  split_ifs with hlong
  · constructor
    · intro h
      cases h
    · rintro ⟨hsize, -⟩
      exact absurd hsize (Nat.not_le.2 hlong)
  have hsize := Nat.not_lt.1 hlong
  obtain ⟨hnone, hbits⟩ := nullMask_spec c.rows
  rw [hrows]
  cases hmask : nullMask c.rows with
  | none =>
    have hno := hnone.1 hmask
    rw [passedFrom_unmasked float bins 0 hitems, Option.some.injEq, List.map_inj_left]
    constructor
    · intro h
      refine ⟨hsize, Or.inl hno, ?_⟩
      intro item hitem x hx
      have hitem := h item hitem
      rw [hx] at hitem
      exact Option.some.inj hitem
    · rintro ⟨-, -, h⟩ item hitem
      cases hx : item.1 with
      | none =>
        rw [hflatten] at hitem
        obtain ⟨j, hj, -⟩ := mem_items.1 hitem
        rw [hx] at hj
        exact absurd (List.mem_of_getElem? hj) hno
      | some x => exact congrArg some (h item hitem x hx)
  | some mask =>
    obtain ⟨hlen, hbit⟩ := hbits mask hmask
    have hnull : none ∈ c.rows := by
      by_contra hno
      rw [hnone.2 hno] at hmask
      cases hmask
    have hne : ∀ bin ∈ bins, bin ≠ [] := Packing.bins_ne_nil itemSize BULK_IMPORT_FRAGMENT_SIZE (hflatten ▸ hitems)
    rw [passedFrom_iff float hbit bins 0 0 hne hitems ?_, hlen]
    · constructor
      · rintro ⟨haligned, h⟩
        exact ⟨hsize, Or.inr haligned, h⟩
      · rintro ⟨-, hno | haligned, h⟩
        · exact absurd hnull hno
        · exact ⟨haligned, h⟩
    · intro j item hitem
      rw [hflatten, getElem_items] at hitem
      obtain ⟨row, hrow, rfl⟩ := Option.map_eq_some_iff.1 hitem
      rw [Nat.zero_add, isNullRow, hrow]
      rfl

theorem arrives_iff (float : BitVec 64 → BitVec 32) (table : List Column) :
    Arrives float table ↔ ∀ c ∈ table, ∀ behind : ℕ → BitVec 32,
      importColumn float behind c = some (c.rows.map fun row => row.map (stored c.columnType)) := by
  have hrun : ∀ behind : ℕ → ℕ → BitVec 32,
      bulkImport float behind table =
          some (table.map fun c => ⟨c.columnType, c.rows.map fun row => row.map (stored c.columnType)⟩) ↔
        ∀ c ∈ table.zipIdx, importColumn float (behind c.2) c.1 =
          some (c.1.rows.map fun row => row.map (stored c.1.columnType)) := by
    intro behind
    conv_lhs => rw [← List.zipIdx_map_fst 0 table, List.map_map, List.zipIdx_map_fst 0 table]
    rw [bulkImport, mapM_eq_map_iff]
    refine forall₂_congr fun c _ => ?_
    rw [Option.map_eq_some_iff]
    constructor
    · rintro ⟨rows, hrows, heq⟩
      rw [hrows, eq_of_heq (Sigma.mk.inj heq).2]
    · intro h
      exact ⟨_, h, rfl⟩
  simp only [Arrives, hrun]
  constructor
  · intro h c hc behind
    obtain ⟨j, hj⟩ := List.getElem?_of_mem hc
    exact h (fun _ => behind) (c, j) (List.mk_mem_zipIdx_iff_getElem?.2 hj)
  · rintro h behind ⟨c, j⟩ hc
    exact h c (List.mem_of_getElem? (List.mk_mem_zipIdx_iff_getElem?.1 hc)) (behind j)

/-- **Which tables arrive as they were sent.** For every conversion of doubles and every table whose rows fit into
fragments: all rows of all columns arrive, with their values and nulls and whatever stands behind the float variables, if
and only if every column is `Sendable`. -/
theorem table_arrives (float : BitVec 64 → BitVec 32) (table : List Column) (hfits : ∀ c ∈ table, Fits c) :
    Arrives float table ↔ ∀ c ∈ table, Sendable c := by
  rw [arrives_iff]
  refine forall₂_congr fun c hc => ?_
  simp only [importColumn_iff float _ c (hfits c hc)]
  constructor
  · intro h
    refine ⟨(h fun _ => 0#32).1, ?_, (h fun _ => 0#32).2.1⟩
    intro x hx
    obtain ⟨j, hj⟩ := List.getElem?_of_mem hx
    exact (arrived_stored_iff float x).1 fun behind => (h fun _ => behind).2.2 j x hj
  · rintro ⟨hsize, hexact, hnulls⟩ behind
    refine ⟨hsize, hnulls, ?_⟩
    intro j x hj
    exact (arrived_stored_iff float x).2 (hexact x (List.mem_of_getElem? hj)) (behind j)

/-- an int column with a null and a column with a text of ASCII characters -/
def twoColumns : List Column :=
  [⟨.columnInt, [some 7#32, none]⟩, ⟨.columnString, [some ['a', 'b'], some []]⟩]

theorem table_arrives_two :
    (∀ c ∈ twoColumns, Fits c) ∧ Arrives (fun _ => 0#32) twoColumns := by
  have hfits : ∀ c ∈ twoColumns, Fits c := by
    simp [twoColumns, Fits, rowSize, typeSize, utf16Length, BULK_IMPORT_FRAGMENT_SIZE]
  refine ⟨hfits, (table_arrives (fun _ => 0#32) twoColumns hfits).2 ?_⟩
  intro c hc
  rcases List.mem_cons.1 hc with rfl | hc
  · refine ⟨by decide, fun _ _ => trivial, Or.inr ⟨by decide, fun j _ => by simp, trivial⟩⟩
  · obtain rfl := List.mem_singleton.1 hc
    refine ⟨by decide, ?_, Or.inl (by simp)⟩
    intro x hx
    rcases List.mem_cons.1 hx with hx | hx
    · obtain rfl := Option.some.inj hx
      simp [Exact, IsAscii]
    · obtain rfl := Option.some.inj (List.mem_singleton.1 hx)
      simp [Exact, IsAscii]

/-- A text of one character that is not ASCII: of its two bytes the first arrives. -/
theorem table_not_arrived :
    ¬ ∀ (float : BitVec 64 → BitVec 32) (table : List Column), (∀ c ∈ table, Fits c) → Arrives float table := by
  intro h
  have hfits : Fits ⟨.columnString, [some ['é']]⟩ := by
    simp [Fits, rowSize, utf16Length, BULK_IMPORT_FRAGMENT_SIZE]
  have harrives := (arrives_iff _ _).1 (h (fun _ => 0#32) [⟨.columnString, [some ['é']]⟩] (by simpa using hfits)) _
    List.mem_cons_self fun _ => 0#32
  have hvalue : (utf8 ['é']).take (utf16Length ['é']) = utf8 ['é'] :=
    ((importColumn_iff _ _ _ hfits).1 harrives).2.2 0 ['é'] rfl
  exact absurd hvalue (by decide)

end QikkDB.BulkImport

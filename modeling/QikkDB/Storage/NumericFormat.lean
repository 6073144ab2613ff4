/-
The on-disk format of numeric columns (Database.cpp, WriteColumn and LoadColumn for COLUMN_INT8_T, COLUMN_INT and
COLUMN_LONG): a .data file of one record per block and an .adrs file of one 8-byte record offset per block.

A record is the block index, the group id, the null mask with its length, the row count, the compression flag, the
statistics, the rows and padding up to the block size. Compressed blocks are not modelled.

- `readBody_record`, `loadBlocks_dataFile`: the reader takes back one written record, and one after the other.
- `load_write`: loading what was written gives the blocks in order, as many as the writer lets through.
- `load_undoes_save`: for a column the writer stores in full, every block comes back with its position as index and
  its rows, null bits, minimum, maximum and sum, and the k-th address is the offset of the k-th record.
-/
import Mathlib.Tactic
import QikkDB.Lib.Bytes
import QikkDB.Core.Column
import QikkDB.Storage.Record

namespace QikkDB.NumericFormat

open NullValues Bytes Storage

/-! ## Element types on disk -/

inductive NumericType where
  | int8
  | int32
  | int64
deriving DecidableEq, Repr

/-- sizeof(T) -/
def NumericType.bytes : NumericType → ℕ
  | .int8 => 1
  | .int32 => 4
  | .int64 => 8

/-- the element type of the column -/
abbrev NumericType.Elem (t : NumericType) := IntN (8 * t.bytes)

def encodeInt {n : ℕ} (x : IntN (8 * n)) : List UInt8 := encodeLE n (x.val % 2 ^ (8 * n)).toNat

def decodeInt (n : ℕ) (bytes : List UInt8) : IntN (8 * n) := IntN.wrap (8 * n) (decodeLE bytes)

@[simp] theorem length_encodeInt {n : ℕ} (x : IntN (8 * n)) : (encodeInt x).length = n := by
  simp [encodeInt]

theorem decodeInt_encodeInt {n : ℕ} (hn : 0 < n) (x : IntN (8 * n)) : decodeInt n (encodeInt x) = x := by
  have hpos : (0 : ℤ) < 2 ^ (8 * n) := by positivity
  have hnonneg := Int.emod_nonneg x.val hpos.ne'
  have hlt := Int.emod_lt_of_pos x.val hpos
  have hbytes : (x.val % 2 ^ (8 * n)).toNat < 256 ^ n := by
    have : (256 : ℤ) ^ n = 2 ^ (8 * n) := by
      rw [pow_mul]
      norm_num
    zify
    rw [Int.toNat_of_nonneg hnonneg, this]
    exact hlt
  rw [decodeInt, encodeInt, decodeLE_encodeLE_of_lt hbytes, Int.toNat_of_nonneg hnonneg,
    IntN.wrap_emod (by omega), IntN.wrap_val]

theorem NumericType.bytes_pos (t : NumericType) : 0 < t.bytes := by
  cases t <;> decide

/-! ## Writing -/

/-- the two files of a numeric column -/
structure ColumnFiles where
  data : List UInt8
  adrs : List UInt8
deriving DecidableEq, Repr

variable {t : NumericType}

/-- the part of a record behind the null mask, padded with the largest value -/
def recordBody (blockSize : ℕ) (b : Block t.Elem) : List UInt8 :=
  encodeLE 8 b.size ++ (encodeLE 1 0 ++ (encodeInt b.min ++ (encodeInt b.max ++ (encodeLE 4 b.avg.toNat ++
    (encodeInt b.sum ++ (b.rows.flatMap encodeInt ++
      (List.replicate (blockSize - b.size) (Element.max : t.Elem)).flatMap encodeInt))))))

/-- one record of the .data file -/
def record (blockSize : ℕ) (mask : List UInt8) (index : ℕ) (b : Block t.Elem) : List UInt8 :=
  recordHead mask index ++ recordBody blockSize b

/-- what blockPosition grows by, as each case of the switch adds it up -/
def blockPositionStep (t : NumericType) (nullBitMaskLength blockSize : ℕ) : ℕ :=
  match t with
  | .int8 => 2 * 4 + 8 + 4 + nullBitMaskLength * 1 + 1 + 4 + 3 * 1 + blockSize * 1
  | .int32 => 5 * 4 + 8 + 4 + nullBitMaskLength * 1 + 1 + 4 + blockSize * 4
  | .int64 => 2 * 4 + 8 + 4 + nullBitMaskLength * 1 + 1 + 4 + 3 * 8 + blockSize * 8

/-- the loop over the blocks; it stops once the next index would be the reserved one -/
def writeBlocks (blockSize : ℕ) (isNullable : Bool) (junk : ℕ → ℕ → UInt8) :
    ℕ → ℕ → List (Block t.Elem) → ColumnFiles × List (Block t.Elem)
  | _, _, [] => (⟨[], []⟩, [])
  | index, blockPosition, b :: bs =>
    let rec' := record blockSize (maskBytes isNullable (junk index) b) index b
    if index + 1 = UINT32_MAX then
      (⟨rec', encodeLE 8 blockPosition⟩, { b with saveNecessary := true } :: bs)
    else
      let next := (blockPosition + blockPositionStep t (nullBitMaskLength b.size) blockSize) % 2 ^ 64
      let rest := writeBlocks blockSize isNullable junk (index + 1) next bs
      (⟨rec' ++ rest.1.data, encodeLE 8 blockPosition ++ rest.1.adrs⟩, { b with saveNecessary := false } :: rest.2)

/-- WriteColumn: the files it creates -/
def writeColumn (junk : ℕ → ℕ → UInt8) (c : Column t.Elem) : ColumnFiles :=
  (writeBlocks c.blockSize c.isNullable junk 0 0 c.getBlocksList).1

/-! ## Reading -/

/-- the statistics and rows of a record -/
structure Body (t : NumericType) where
  dataLength : ℕ
  isCompressed : Bool
  min : t.Elem
  max : t.Elem
  avg : UInt32
  sum : t.Elem
  data : List t.Elem

/-- the part of a record behind the end-of-file check, padding included -/
def readBody (t : NumericType) (blockSize : ℕ) (file : List UInt8) : Option (Body t × List UInt8) := do
  let (dataLength, file) ← readLE 8 file
  let (isCompressed, file) ← readLE 1 file
  let (min, file) ← readBytes t.bytes file
  let (max, file) ← readBytes t.bytes file
  let (avg, file) ← readLE 4 file
  let (sum, file) ← readBytes t.bytes file
  let (data, file) ← readMany t.bytes (decodeInt t.bytes) dataLength file
  let (_, file) ← readMany t.bytes (decodeInt t.bytes) (blockSize - dataLength) file
  some (⟨dataLength, isCompressed ≠ 0, decodeInt t.bytes min, decodeInt t.bytes max, UInt32.ofNat avg,
    decodeInt t.bytes sum, data⟩, file)

def showInt {w : ℕ} (x : IntN w) : String := toString x.val

/-- enter one record into the column -/
def enterRecord (path : String) (c : Column t.Elem) (fill : ℕ → BitVec 64) (head : ℕ × ℤ × List UInt8) (body : Body t) :
    Except Fault (Column t.Elem) :=
  enterArray path showInt c fill head body.isCompressed body.dataLength body.data body.min body.max body.avg body.sum

/-- the loop over the records: it ends where a record's head runs past the end of the file -/
def loadBlocks (path : String) (fill : ℕ → ℕ → BitVec 64) :
    ℕ → ℕ → Column t.Elem → List UInt8 → Except Fault (Column t.Elem)
  | 0, _, _, _ => .error .undefined
  | fuel + 1, k, c, file =>
    match readHead file with
    | none => .ok c
    | some (head, file) =>
      match readBody t c.blockSize file with
      | none => .error .undefined
      | some (body, file) => do
        let c ← enterRecord path c (fill k) head body
        loadBlocks path fill fuel (k + 1) c file

/-- LoadColumn -/
def loadColumn (path : String) (fill : ℕ → ℕ → BitVec 64) (name : String) (blockSize : ℕ) (isNullable isUnique : Bool)
    (files : ColumnFiles) : Except Fault (Column t.Elem) := do
  let c ← created name blockSize isNullable isUnique
  if files.data.isEmpty then .ok c else loadBlocks path fill (files.data.length + 1) 0 c files.data

/-! ## One record -/

section Record

variable {blockSize : ℕ} {isNullable : Bool} {b : Block t.Elem}

theorem length_record (mask : List UInt8) (index : ℕ) (hb : b.Valid blockSize isNullable) :
    (record blockSize mask index b).length = blockPositionStep t mask.length blockSize := by
  have hrows := hb.rows_length
  have hsum : ∀ l : List t.Elem, (l.flatMap encodeInt).length = l.length * t.bytes := by
    intro l
    simp [List.length_flatMap]
  have hle := hb.size_le
  have hpad : b.size * t.bytes + (blockSize - b.size) * t.bytes = blockSize * t.bytes := by
    rw [← Nat.add_mul]
    congr 1
    omega
  simp only [record, recordHead, recordBody, List.length_append, length_encodeLE, length_encodeInt, hsum, hrows,
    List.length_replicate]
  cases t <;> simp only [blockPositionStep, NumericType.bytes] at * <;> omega

theorem readBody_record (hb : b.Valid blockSize isNullable) (hsize : b.size < 2 ^ 64) (rest : List UInt8) :
    readBody t blockSize (recordBody blockSize b ++ rest) =
      some (⟨b.size, false, b.min, b.max, b.avg, b.sum, b.rows⟩, rest) := by
  have hrows := hb.rows_length
  have h₁ : b.size % 256 ^ 8 = b.size := Nat.mod_eq_of_lt (by norm_num; omega)
  have h₂ : b.avg.toNat % 256 ^ 4 = b.avg.toNat := Nat.mod_eq_of_lt (by have := b.avg.toNat_lt; norm_num; omega)
  have hdec : ∀ a : t.Elem, decodeInt t.bytes (encodeInt a) = a := decodeInt_encodeInt t.bytes_pos
  have hread : ∀ (a : t.Elem) (r : List UInt8), readBytes t.bytes (encodeInt a ++ r) = some (encodeInt a, r) :=
    fun a r => readBytes_append _ _ (length_encodeInt a)
  have hdata : ∀ r : List UInt8, readMany t.bytes (decodeInt t.bytes) b.size (b.rows.flatMap encodeInt ++ r) =
      some (b.rows, r) := fun r => hrows ▸ readMany_encode length_encodeInt hdec b.rows r
  have hpad : readMany t.bytes (decodeInt t.bytes) (blockSize - b.size)
      ((List.replicate (blockSize - b.size) (Element.max : t.Elem)).flatMap encodeInt ++ rest) =
      some (List.replicate (blockSize - b.size) (Element.max : t.Elem), rest) := by
    have := readMany_encode length_encodeInt hdec (List.replicate (blockSize - b.size) (Element.max : t.Elem)) rest
    rwa [List.length_replicate] at this
  simp only [readBody, recordBody, List.append_assoc, readLE_encodeLE, Option.bind_eq_bind, Option.bind_some, h₁, h₂,
    hread, hdata, hpad, hdec, UInt32.ofNat_toNat]
  rfl

end Record

/-! ## The .data file -/

/-- what one record of the .data file was written from -/
structure Entry (t : NumericType) where
  index : ℕ
  mask : List UInt8
  block : Block t.Elem

/-- the .data file of a list of records -/
def dataFile (blockSize : ℕ) (es : List (Entry t)) : List UInt8 :=
  es.flatMap fun e => record blockSize e.mask e.index e.block

/-- a record as the writer makes it: the mask is the block's own in a nullable column -/
structure Entry.Stored (blockSize : ℕ) (isNullable : Bool) (e : Entry t) : Prop where
  index : e.index < 2 ^ 32
  block : e.block.Valid blockSize isNullable
  length : e.mask.length = nullBitMaskLength e.block.size
  mask : isNullable = true → e.mask = maskBytes true (fun _ => 0) e.block

/-- the block that the reader makes of a record -/
def Entry.reload (blockSize : ℕ) (isNullable : Bool) (fill : ℕ → BitVec 64) (e : Entry t) : Block t.Elem :=
  (({ Block.empty blockSize isNullable false e.index with data := e.block.rows } : Block t.Elem).moveNullBitmask
    (maskBuffer (getNullBitMaskSize blockSize) fill e.mask)).loadBlockStatistics e.block.min e.block.max e.block.avg
      e.block.sum e.block.size

/-- the blocks that the reader makes of a list of records, the first of them number k -/
def reloadAll (blockSize : ℕ) (isNullable : Bool) (fill : ℕ → ℕ → BitVec 64) : ℕ → List (Entry t) → List (Block t.Elem)
  | _, [] => []
  | k, e :: es => e.reload blockSize isNullable (fill k) :: reloadAll blockSize isNullable fill (k + 1) es

theorem length_reloadAll {blockSize : ℕ} {isNullable : Bool} (fill : ℕ → ℕ → BitVec 64) (k : ℕ) (es : List (Entry t)) :
    (reloadAll blockSize isNullable fill k es).length = es.length := by
  induction es generalizing k with
  | nil => rfl
  | cons e es ih => simp [reloadAll, ih]

theorem getElem?_reloadAll {blockSize : ℕ} {isNullable : Bool} (fill : ℕ → ℕ → BitVec 64) (k i : ℕ)
    (es : List (Entry t)) :
    (reloadAll blockSize isNullable fill k es)[i]? =
      es[i]?.map fun e => e.reload blockSize isNullable (fill (k + i)) := by
  induction es generalizing k i with
  | nil => simp [reloadAll]
  | cons e es ih =>
    cases i with
    | zero => simp [reloadAll]
    | succ i =>
      simp only [reloadAll, List.getElem?_cons_succ, ih]
      congr 2
      funext e
      congr 2
      omega

section Reload

variable {blockSize : ℕ} {isNullable : Bool} {e : Entry t}

theorem reload_fields (blockSize : ℕ) (isNullable : Bool) (fill : ℕ → BitVec 64) (e : Entry t) :
    (e.reload blockSize isNullable fill).data = e.block.rows ∧
      (e.reload blockSize isNullable fill).size = e.block.size ∧
      (e.reload blockSize isNullable fill).capacity = blockSize ∧
      (e.reload blockSize isNullable fill).index = e.index ∧
      (e.reload blockSize isNullable fill).saveNecessary = false ∧
      (e.reload blockSize isNullable fill).bitMask =
        (if isNullable then some (maskBuffer (getNullBitMaskSize blockSize) fill e.mask) else none) ∧
      (e.reload blockSize isNullable fill).min = e.block.min ∧
      (e.reload blockSize isNullable fill).max = e.block.max ∧
      (e.reload blockSize isNullable fill).sum = e.block.sum := by
  obtain ⟨h₁, h₂, h₃, h₄, h₅, h₆⟩ := Block.moveNullBitmask_store
    ({ Block.empty blockSize isNullable false e.index with data := e.block.rows } : Block t.Elem)
    (maskBuffer (getNullBitMaskSize blockSize) fill e.mask)
  refine ⟨h₁, ?_, h₃, h₄, h₅, ?_, rfl, rfl, rfl⟩
  · simp only [Entry.reload, Block.loadBlockStatistics, h₂]
    simp [Block.empty]
  · simp only [Entry.reload, Block.loadBlockStatistics, h₆]
    cases isNullable <;> simp [Block.empty]

theorem reload_valid (fill : ℕ → BitVec 64) (h : e.Stored blockSize isNullable) :
    (e.reload blockSize isNullable fill).Valid blockSize isNullable := by
  obtain ⟨h₁, h₂, h₃, -, -, h₆, -, -, -⟩ := reload_fields blockSize isNullable fill e
  have hlen := h.block.rows_length
  refine ⟨h₃, by rw [h₁, h₂, hlen], by rw [h₁, hlen]; exact h.block.size_le, ?_, ?_⟩
  · rw [Block.isNullable, h₆]
    cases isNullable <;> rfl
  · rw [h₆]
    cases isNullable <;> simp [maskBuffer]

theorem reload_rows (fill : ℕ → BitVec 64) (h : e.Stored blockSize isNullable) :
    (e.reload blockSize isNullable fill).rows = e.block.rows := by
  obtain ⟨h₁, h₂, -⟩ := reload_fields blockSize isNullable fill e
  rw [Block.rows, h₁, h₂, ← h.block.rows_length, List.take_length]

/-- the null bits of the stored rows come back -/
theorem reload_isNull (fill : ℕ → BitVec 64) (h : e.Stored blockSize isNullable) (i : ℕ) (hi : i < e.block.size) :
    (e.reload blockSize isNullable fill).isNull i = e.block.isNull i := by
  obtain ⟨-, -, -, -, -, h₆, -⟩ := reload_fields blockSize isNullable fill e
  have hnull := h.block.nullable
  cases isNullable with
  | false =>
    have : e.block.bitMask = none := by simpa [Block.isNullable] using hnull
    simp [Block.isNull, h₆, this]
  | true =>
    have hbit := getBit_maskBuffer h.block fill e.mask (h.mask rfl) i hi
    rw [← hbit, Block.isNull, h₆]
    rfl

theorem reload_cells (fill : ℕ → BitVec 64) (h : e.Stored blockSize isNullable) :
    (e.reload blockSize isNullable fill).cells = e.block.cells := by
  rw [Block.cells, Block.cells, reload_rows fill h]
  apply List.map_congr_left
  rintro ⟨v, i⟩ hmem
  have hi : i < e.block.rows.length := by
    obtain ⟨-, hlt, -⟩ := List.mem_zipIdx hmem
    omega
  rw [h.block.rows_length] at hi
  simp only [reload_isNull fill h i hi]

end Reload

/-! ## Loading a .data file -/

section Load

variable {blockSize : ℕ} {isNullable : Bool}

/-- the values of all stored rows -/
def storedValues (es : List (Entry t)) : List t.Elem := es.flatMap fun e => e.block.rows

/-- the hash set a UNIQUE column has after loading -/
def hashmapOf (isUnique : Bool) (seen values : List t.Elem) : List t.Elem :=
  if isUnique then values.reverse ++ seen else seen

theorem enterRecord_ok (path : String) (name : String) (size : ℕ) (isUnique : Bool) (seen : List t.Elem)
    (bs : List (Block t.Elem)) (fill : ℕ → BitVec 64) (e : Entry t) (h : e.Stored blockSize isNullable)
    (hnull : isUnique = true → isNullable = false)
    (huniq : isUnique = true → (e.block.rows.reverse ++ seen).Nodup) :
    enterRecord path ⟨name, blockSize, size, [(-1, bs)], isNullable, isUnique, seen⟩ fill (e.index, -1, e.mask)
        ⟨e.block.size, false, e.block.min, e.block.max, e.block.avg, e.block.sum, e.block.rows⟩ =
      .ok ⟨name, blockSize, size + e.block.size, [(-1, bs ++ [e.reload blockSize isNullable fill])], isNullable,
        isUnique, hashmapOf isUnique seen e.block.rows⟩ := by
  have hle := h.block.size_le
  have hmask : ¬ getNullBitMaskSize blockSize * 8 < e.mask.length := by
    rw [h.length, nullBitMaskLength, getNullBitMaskSize, getNullBitMaskSize]
    omega
  have harray : Block.ofArray blockSize e.block.rows e.block.size blockSize isNullable false false e.index =
      .ok { Block.empty blockSize isNullable false e.index with data := e.block.rows } := by
    simp [Block.ofArray, not_lt.2 hle, h.block.rows_length]
  cases isUnique with
  | false =>
    simp [enterRecord, enterArray, enterHashmap, not_lt.2 hle, hmask, harray, hashmapOf, Column.setGroup, Column.putGroup, Column.group,
      Entry.reload, bind, Except.bind]
  | true =>
    obtain rfl := hnull rfl
    simp [enterRecord, enterArray, enterHashmap, not_lt.2 hle, hmask, harray, hashmapOf, Column.setGroup, Column.putGroup, Column.group,
      Entry.reload, bind, Except.bind, enterUnique_ok path showInt _ _ (huniq rfl)]

theorem length_record_pos (blockSize : ℕ) (mask : List UInt8) (index : ℕ) (b : Block t.Elem) :
    12 ≤ (record blockSize mask index b).length := by
  simp [record, recordHead]
  omega

/-- the loop takes back one record after the other -/
theorem loadBlocks_dataFile (path : String) (fill : ℕ → ℕ → BitVec 64) (name : String) (isUnique : Bool)
    (hsmall : blockSize < 2 ^ 31) (hnull : isUnique = true → isNullable = false) (es : List (Entry t)) (fuel k size : ℕ)
    (bs : List (Block t.Elem)) (seen : List t.Elem) (hfuel : es.length < fuel)
    (hes : ∀ e ∈ es, e.Stored blockSize isNullable)
    (huniq : isUnique = true → ((storedValues es).reverse ++ seen).Nodup) :
    loadBlocks path fill fuel k ⟨name, blockSize, size, [(-1, bs)], isNullable, isUnique, seen⟩
        (dataFile blockSize es) =
      .ok ⟨name, blockSize, size + (es.map fun e => e.block.size).sum,
        [(-1, bs ++ reloadAll blockSize isNullable fill k es)], isNullable, isUnique,
        hashmapOf isUnique seen (storedValues es)⟩ := by
  induction es generalizing fuel k size bs seen with
  | nil =>
    obtain ⟨fuel, rfl⟩ := Nat.exists_eq_succ_of_ne_zero (by omega : fuel ≠ 0)
    simp [loadBlocks, dataFile, readHead_nil, reloadAll, hashmapOf, storedValues]
  | cons e es ih =>
    obtain ⟨fuel, rfl⟩ := Nat.exists_eq_succ_of_ne_zero (by omega : fuel ≠ 0)
    have he := hes e (by simp)
    have hsize := he.block.size_le
    have hmask : e.mask.length < 2 ^ 32 := by
      rw [he.length, nullBitMaskLength, getNullBitMaskSize]
      omega
    have hfile : dataFile blockSize (e :: es) =
        recordHead e.mask e.index ++ (recordBody blockSize e.block ++ dataFile blockSize es) := by
      simp [dataFile, record]
    have hvalues : storedValues (e :: es) = e.block.rows ++ storedValues es := by simp [storedValues]
    have huniq₁ : isUnique = true → (e.block.rows.reverse ++ seen).Nodup := by
      intro hu
      have := huniq hu
      rw [hvalues, List.reverse_append, List.append_assoc] at this
      exact (List.nodup_append.1 this).2.1
    have huniq₂ : isUnique = true →
        ((storedValues es).reverse ++ hashmapOf isUnique seen e.block.rows).Nodup := by
      intro hu
      have := huniq hu
      rw [hvalues, List.reverse_append, List.append_assoc] at this
      simpa [hashmapOf, hu] using this
    have hstep := enterRecord_ok path name size isUnique seen bs (fill k) e he hnull huniq₁
    have hrest := ih fuel (k + 1) (size + e.block.size) (bs ++ [e.reload blockSize isNullable (fill k)])
      (hashmapOf isUnique seen e.block.rows) (by simpa using hfuel) (fun e' h' => hes e' (by simp [h'])) huniq₂
    simp only [loadBlocks, hfile, readHead_record _ _ he.index hmask, readBody_record he.block (by omega), hstep, bind,
      Except.bind, hrest]
    have hhash : hashmapOf isUnique (hashmapOf isUnique seen e.block.rows) (storedValues es) =
        hashmapOf isUnique seen (storedValues (e :: es)) := by
      rw [hvalues]
      cases isUnique <;> simp [hashmapOf]
    simp [hhash, reloadAll, Nat.add_assoc]

/-- a UNIQUE column that loads holds pairwise distinct values -/
theorem loadBlocks_nodup (path : String) (fill : ℕ → ℕ → BitVec 64) (name : String) (hsmall : blockSize < 2 ^ 31)
    (es : List (Entry t)) (fuel k size : ℕ) (bs : List (Block t.Elem)) (seen : List t.Elem) (c' : Column t.Elem)
    (hfuel : es.length < fuel) (hes : ∀ e ∈ es, e.Stored blockSize false) (hseen : seen.Nodup)
    (hload : loadBlocks path fill fuel k ⟨name, blockSize, size, [(-1, bs)], false, true, seen⟩ (dataFile blockSize es) =
      .ok c') : ((storedValues es).reverse ++ seen).Nodup := by
  induction es generalizing fuel k size bs seen with
  | nil => simpa [storedValues] using hseen
  | cons e es ih =>
    obtain ⟨fuel, rfl⟩ := Nat.exists_eq_succ_of_ne_zero (by omega : fuel ≠ 0)
    have he := hes e (by simp)
    have hsize := he.block.size_le
    have hmask : e.mask.length < 2 ^ 32 := by
      rw [he.length, nullBitMaskLength, getNullBitMaskSize]
      omega
    have hfile : dataFile blockSize (e :: es) =
        recordHead e.mask e.index ++ (recordBody blockSize e.block ++ dataFile blockSize es) := by
      simp [dataFile, record]
    have hvalues : storedValues (e :: es) = e.block.rows ++ storedValues es := by simp [storedValues]
    simp only [loadBlocks, hfile, readHead_record _ _ he.index hmask, readBody_record he.block (by omega)] at hload
    by_cases hdup : (e.block.rows.reverse ++ seen).Nodup
    · have hstep := enterRecord_ok path name size true seen bs (fill k) e he (fun _ => rfl) (fun _ => hdup)
      rw [hstep] at hload
      have hrest := ih fuel (k + 1) (size + e.block.size) (bs ++ [e.reload blockSize false (fill k)])
        (e.block.rows.reverse ++ seen) (by simpa using hfuel) (fun e' h' => hes e' (by simp [h'])) hdup hload
      rw [hvalues, List.reverse_append, List.append_assoc]
      exact hrest
    · obtain ⟨msg, hmsg⟩ := enterUnique_duplicate path showInt e.block.rows seen hseen hdup
      have hfit : ¬ blockSize < e.block.size := not_lt.2 hsize
      have hbuffer : ¬ getNullBitMaskSize blockSize * 8 < e.mask.length := by
        rw [he.length, nullBitMaskLength, getNullBitMaskSize, getNullBitMaskSize]
        omega
      simp [enterRecord, enterArray, enterHashmap, hfit, hbuffer, hmsg, bind, Except.bind] at hload

theorem loadColumn_dataFile (path : String) (fill : ℕ → ℕ → BitVec 64) (name : String) {isUnique : Bool}
    (hnull : isUnique = true → isNullable = false) (es : List (Entry t)) (adrs : List UInt8) :
    (loadColumn path fill name blockSize isNullable isUnique ⟨dataFile blockSize es, adrs⟩ :
        Except Fault (Column t.Elem)) =
      loadBlocks (t := t) path fill ((dataFile blockSize es).length + 1) 0
        ⟨name, blockSize, 0, [(-1, [])], isNullable, isUnique, []⟩ (dataFile blockSize es) := by
  rw [loadColumn, created_ok name blockSize hnull]
  by_cases hempty : dataFile blockSize es = []
  · simp [hempty, loadBlocks, readHead_nil, bind, Except.bind]
  · simp [hempty, bind, Except.bind]

theorem length_le_dataFile (blockSize : ℕ) (es : List (Entry t)) : es.length ≤ (dataFile blockSize es).length := by
  induction es with
  | nil => simp
  | cons e es ih =>
    have := length_record_pos blockSize e.mask e.index e.block
    simp only [dataFile, List.flatMap_cons, List.length_append, List.length_cons] at ih ⊢
    omega

/-- LoadColumn of a .data file made of stored records -/
theorem load_dataFile (path : String) (fill : ℕ → ℕ → BitVec 64) (name : String) (isUnique : Bool)
    (hsmall : blockSize < 2 ^ 31) (hnull : isUnique = true → isNullable = false) (es : List (Entry t))
    (adrs : List UInt8) (hes : ∀ e ∈ es, e.Stored blockSize isNullable)
    (huniq : isUnique = true → (storedValues es).Nodup) :
    loadColumn path fill name blockSize isNullable isUnique ⟨dataFile blockSize es, adrs⟩ =
      .ok ⟨name, blockSize, (es.map fun e => e.block.size).sum, [(-1, reloadAll blockSize isNullable fill 0 es)],
        isNullable, isUnique, hashmapOf isUnique [] (storedValues es)⟩ := by
  have hload := loadBlocks_dataFile path fill name isUnique hsmall hnull es ((dataFile blockSize es).length + 1) 0 0 []
    [] (Nat.lt_succ_of_le (length_le_dataFile blockSize es)) hes (fun hu => by simpa using huniq hu)
  rw [loadColumn_dataFile path fill name hnull, hload]
  simp

end Load

/-! ## The written files -/

/-- the records of a list of blocks, the first of them number k -/
def entriesFrom (isNullable : Bool) (junk : ℕ → ℕ → UInt8) : ℕ → List (Block t.Elem) → List (Entry t)
  | _, [] => []
  | k, b :: bs => ⟨k, maskBytes isNullable (junk k) b, b⟩ :: entriesFrom isNullable junk (k + 1) bs

/-- the offsets of a list of records, the first of them at p -/
def offsets (blockSize : ℕ) : ℕ → List (Entry t) → List ℕ
  | _, [] => []
  | p, e :: es => p :: offsets blockSize (p + (record blockSize e.mask e.index e.block).length) es

theorem getElem?_entriesFrom (isNullable : Bool) (junk : ℕ → ℕ → UInt8) (k i : ℕ) (bs : List (Block t.Elem)) :
    (entriesFrom isNullable junk k bs)[i]? = bs[i]?.map fun b => ⟨k + i, maskBytes isNullable (junk (k + i)) b, b⟩ := by
  induction bs generalizing k i with
  | nil => simp [entriesFrom]
  | cons b bs ih =>
    cases i with
    | zero => simp [entriesFrom]
    | succ i =>
      have hidx : k + 1 + i = k + (i + 1) := by omega
      simp only [entriesFrom, List.getElem?_cons_succ, ih, hidx]

theorem length_entriesFrom (isNullable : Bool) (junk : ℕ → ℕ → UInt8) (k : ℕ) (bs : List (Block t.Elem)) :
    (entriesFrom isNullable junk k bs).length = bs.length := by
  induction bs generalizing k with
  | nil => rfl
  | cons b bs ih => simp [entriesFrom, ih]

theorem storedValues_entriesFrom (isNullable : Bool) (junk : ℕ → ℕ → UInt8) (k : ℕ) (bs : List (Block t.Elem)) :
    storedValues (entriesFrom isNullable junk k bs) = bs.flatMap Block.rows := by
  induction bs generalizing k with
  | nil => rfl
  | cons b bs ih =>
    simp only [storedValues] at ih ⊢
    simp [entriesFrom, ih]

section Write

variable {blockSize : ℕ} {isNullable : Bool} (junk : ℕ → ℕ → UInt8)

theorem entriesFrom_stored (k : ℕ) (bs : List (Block t.Elem)) (hbs : ∀ b ∈ bs, b.Valid blockSize isNullable)
    (hk : k + bs.length ≤ 2 ^ 32) : ∀ e ∈ entriesFrom isNullable junk k bs, e.Stored blockSize isNullable := by
  induction bs generalizing k with
  | nil => simp [entriesFrom]
  | cons b bs ih =>
    simp only [List.length_cons] at hk
    intro e he
    rcases List.mem_cons.1 he with rfl | he
    · have hb := hbs b (by simp)
      refine ⟨by simp only; omega, hb, length_maskBytes (junk k) hb, ?_⟩
      rintro rfl
      exact maskBytes_junk (junk k) (fun _ => 0) b
    · exact ih (k + 1) (fun b' h' => hbs b' (by simp [h'])) (by omega) e he

/-- the writer stores the blocks up to the reserved index, and the offset of each -/
theorem writeBlocks_files (k p : ℕ) (bs : List (Block t.Elem)) (hbs : ∀ b ∈ bs, b.Valid blockSize isNullable)
    (hk : k < UINT32_MAX) :
    (writeBlocks blockSize isNullable junk k (p % 2 ^ 64) bs).1 =
      ⟨dataFile blockSize (entriesFrom isNullable junk k (bs.take (UINT32_MAX - k))),
        (offsets blockSize p (entriesFrom isNullable junk k (bs.take (UINT32_MAX - k)))).flatMap (encodeLE 8)⟩ := by
  induction bs generalizing k p with
  | nil => simp [writeBlocks, entriesFrom, dataFile, offsets]
  | cons b bs ih =>
    have hb := hbs b (by simp)
    have hpos : ∀ n : ℕ, encodeLE 8 (n % 2 ^ 64) = encodeLE 8 n := fun n => encodeLE_mod 8 n
    obtain ⟨r, hr⟩ : ∃ r, UINT32_MAX - k = r + 1 := ⟨UINT32_MAX - k - 1, by omega⟩
    rw [hr, List.take_succ_cons]
    by_cases hlast : k + 1 = UINT32_MAX
    · obtain rfl : r = 0 := by omega
      simp only [writeBlocks, hlast, ↓reduceIte, hpos]
      simp [entriesFrom, dataFile, offsets]
    · have hr' : r = UINT32_MAX - (k + 1) := by omega
      have hstep : (p % 2 ^ 64 + blockPositionStep t (nullBitMaskLength b.size) blockSize) % 2 ^ 64 =
          (p + (record blockSize (maskBytes isNullable (junk k) b) k b).length) % 2 ^ 64 := by
        rw [length_record _ _ hb, length_maskBytes _ hb, Nat.mod_add_mod]
      have hrest := ih (k + 1) (p + (record blockSize (maskBytes isNullable (junk k) b) k b).length)
        (fun b' h' => hbs b' (by simp [h'])) (by omega)
      simp only [writeBlocks, hlast, ↓reduceIte, hstep, hrest, hpos, ← hr']
      simp [entriesFrom, dataFile, offsets]

end Write

theorem writeColumn_files (junk : ℕ → ℕ → UInt8) (c : Column t.Elem) (h : c.Valid) :
    writeColumn junk c =
      ⟨dataFile c.blockSize (entriesFrom c.isNullable junk 0 (c.getBlocksList.take UINT32_MAX)),
        (offsets c.blockSize 0 (entriesFrom c.isNullable junk 0 (c.getBlocksList.take UINT32_MAX))).flatMap
          (encodeLE 8)⟩ :=
  writeBlocks_files junk 0 0 c.getBlocksList h.blocks (by decide)

/-- the k-th offset is where the k-th record starts -/
theorem offset_splits (blockSize p k : ℕ) (es : List (Entry t)) (e : Entry t) (hk : es[k]? = some e) :
    ∃ pre post, dataFile blockSize es = pre ++ record blockSize e.mask e.index e.block ++ post ∧
      (offsets blockSize p es)[k]? = some (p + pre.length) := by
  induction es generalizing p k with
  | nil => simp at hk
  | cons e' es ih =>
    cases k with
    | zero =>
      obtain rfl : e' = e := by simpa using hk
      exact ⟨[], dataFile blockSize es, by simp [dataFile], by simp [offsets]⟩
    | succ k =>
      obtain ⟨pre, post, hfile, hoff⟩ := ih (p + (record blockSize e'.mask e'.index e'.block).length) k (by simpa using hk)
      refine ⟨record blockSize e'.mask e'.index e'.block ++ pre, post, ?_, ?_⟩
      · simp only [dataFile, List.flatMap_cons] at hfile ⊢
        rw [hfile]
        simp
      · simp only [offsets, List.getElem?_cons_succ, hoff, List.length_append]
        congr 1
        omega

/-! ## Load undoes save -/

/-- Loading what was written gives the blocks the writer lets through, in order. -/
theorem load_write (path : String) (fill : ℕ → ℕ → BitVec 64) (junk : ℕ → ℕ → UInt8) (c : Column t.Elem) (h : c.Valid)
    (huniq : c.isUnique = true → ((c.getBlocksList.take UINT32_MAX).flatMap Block.rows).Nodup) :
    ∃ c', loadColumn path fill c.name c.blockSize c.isNullable c.isUnique (writeColumn junk c) = .ok c' ∧
      c'.getBlocksList = reloadAll c.blockSize c.isNullable fill 0
        (entriesFrom c.isNullable junk 0 (c.getBlocksList.take UINT32_MAX)) := by
  have hstored := entriesFrom_stored junk 0 (c.getBlocksList.take UINT32_MAX)
    (fun b hb => h.blocks b (List.mem_of_mem_take hb))
    (by simp only [List.length_take, UINT32_MAX]; omega)
  have hload := load_dataFile path fill c.name c.isUnique h.small h.notNull _
    (writeColumn junk c).adrs hstored (fun hu => by rw [storedValues_entriesFrom]; exact huniq hu)
  have hfiles : (⟨dataFile c.blockSize (entriesFrom c.isNullable junk 0 (c.getBlocksList.take UINT32_MAX)),
      (writeColumn junk c).adrs⟩ : ColumnFiles) = writeColumn junk c := by
    rw [writeColumn_files junk c h]
  rw [hfiles] at hload
  exact ⟨_, hload, by simp [Column.getBlocksList]⟩

/-- a UNIQUE column whose files load holds pairwise distinct values -/
theorem load_write_nodup (path : String) (fill : ℕ → ℕ → BitVec 64) (junk : ℕ → ℕ → UInt8) (c c' : Column t.Elem)
    (h : c.Valid) (hu : c.isUnique = true)
    (hload : loadColumn path fill c.name c.blockSize c.isNullable c.isUnique (writeColumn junk c) = .ok c') :
    ((c.getBlocksList.take UINT32_MAX).flatMap Block.rows).Nodup := by
  have hstored := entriesFrom_stored junk 0 (c.getBlocksList.take UINT32_MAX)
    (fun b hb => h.blocks b (List.mem_of_mem_take hb))
    (by simp only [List.length_take, UINT32_MAX]; omega)
  rw [writeColumn_files junk c h, loadColumn_dataFile path fill c.name h.notNull, hu] at hload
  have hnull := h.notNull hu
  rw [hnull] at hload hstored
  have hnodup := loadBlocks_nodup path fill c.name h.small _ _ 0 0 [] [] c'
    (Nat.lt_succ_of_le (length_le_dataFile c.blockSize _)) hstored List.nodup_nil hload
  rw [storedValues_entriesFrom] at hnodup
  simpa using hnodup

/-- **Load undoes save for numeric columns.** For every valid column of at most 2^32 - 1 blocks, UNIQUE only with
pairwise distinct values, LoadColumn of the files of WriteColumn returns the blocks in order, block k with index k and
the size, values, null bits, minimum, maximum and sum it was saved with; and the k-th address is the offset of the k-th
record in the .data file. -/
theorem load_undoes_save (t : NumericType) (path : String) (fill : ℕ → ℕ → BitVec 64) (junk : ℕ → ℕ → UInt8)
    (c : Column t.Elem) (h : c.Valid) (hcount : c.getBlocksList.length ≤ UINT32_MAX)
    (huniq : c.isUnique = true → (c.getBlocksList.flatMap Block.rows).Nodup) :
    ∃ c', loadColumn path fill c.name c.blockSize c.isNullable c.isUnique (writeColumn junk c) = .ok c' ∧
      c'.getBlocksList.length = c.getBlocksList.length ∧
      (∀ (k : ℕ) (b b' : Block t.Elem), c.getBlocksList[k]? = some b → c'.getBlocksList[k]? = some b' →
        b'.index = k ∧ b'.size = b.size ∧ b'.rows = b.rows ∧ (∀ i < b.size, b'.isNull i = b.isNull i) ∧
          b'.min = b.min ∧ b'.max = b.max ∧ b'.sum = b.sum) ∧
      ∀ (k : ℕ) (b : Block t.Elem), c.getBlocksList[k]? = some b → ∃ pre post,
        (writeColumn junk c).data =
          pre ++ record c.blockSize (maskBytes c.isNullable (junk k) b) k b ++ post ∧
        entry 8 k (writeColumn junk c).adrs = encodeLE 8 pre.length := by
  have htake : c.getBlocksList.take UINT32_MAX = c.getBlocksList := List.take_of_length_le hcount
  obtain ⟨c', hload, hblocks⟩ := load_write path fill junk c h (by rwa [htake])
  have hfiles := writeColumn_files junk c h
  have hstored := entriesFrom_stored junk 0 c.getBlocksList h.blocks (by simp only [UINT32_MAX] at hcount; omega)
  rw [htake] at hblocks hfiles
  refine ⟨c', hload, by rw [hblocks, length_reloadAll, length_entriesFrom], ?_, ?_⟩
  · intro k b b' hb hb'
    rw [hblocks, getElem?_reloadAll, getElem?_entriesFrom, hb] at hb'
    simp only [Nat.zero_add, Option.map_some, Option.some.injEq] at hb'
    subst hb'
    set e : Entry t := ⟨k, maskBytes c.isNullable (junk k) b, b⟩ with he
    have hmem : e ∈ entriesFrom c.isNullable junk 0 c.getBlocksList :=
      List.mem_of_getElem? (by rw [getElem?_entriesFrom, hb]; simp [he])
    have hst := hstored e hmem
    obtain ⟨-, hsize, -, hindex, -, -, hmin, hmax, hsum⟩ :=
      reload_fields c.blockSize c.isNullable (fill k) e
    exact ⟨hindex, hsize, reload_rows _ hst, fun i hi => reload_isNull _ hst i hi, hmin, hmax, hsum⟩
  · intro k b hb
    have hk : (entriesFrom c.isNullable junk 0 c.getBlocksList)[k]? =
        some ⟨k, maskBytes c.isNullable (junk k) b, b⟩ := by
      rw [getElem?_entriesFrom, hb]
      simp
    obtain ⟨pre, post, hdata, hoff⟩ := offset_splits c.blockSize 0 k _ _ hk
    refine ⟨pre, post, by rw [hfiles]; exact hdata, ?_⟩
    obtain ⟨hlt, hget⟩ := List.getElem?_eq_some_iff.1 hoff
    have hentry := entry_flatMap (encodeLE 8) (fun n => length_encodeLE 8 n)
      (offsets c.blockSize 0 (entriesFrom c.isNullable junk 0 c.getBlocksList)) [] k hlt
    rw [hfiles]
    rw [List.append_nil] at hentry
    rw [hentry, List.get_eq_getElem, hget, Nat.zero_add]

/-- a nullable int32 column of block size 2: a full block with a NULL and a partly filled one -/
def sampleColumn : Column NumericType.int32.Elem where
  name := "a"
  blockSize := 2
  size := 3
  blocks := [(-1, [⟨[7, 9], 2, 7, 7, 0, 7, 1, 2, some [2], true, UINT32_MAX⟩,
    ⟨[5], 1, 5, 5, 0, 5, 1, 2, some [0], true, UINT32_MAX⟩])]
  isNullable := true
  isUnique := false
  uniqueHashmap := []

theorem sampleColumn_valid : sampleColumn.Valid := by
  refine ⟨by decide, ?_, by decide⟩
  intro b hb
  simp only [sampleColumn, Column.getBlocksList, List.flatMap_cons, List.flatMap_nil, List.append_nil, List.mem_cons,
    List.not_mem_nil, or_false] at hb
  rcases hb with rfl | rfl
  · exact ⟨rfl, by decide, by decide, rfl, by simp [getNullBitMaskSize, sampleColumn]⟩
  · exact ⟨rfl, by decide, by decide, rfl, by simp [getNullBitMaskSize, sampleColumn]⟩

theorem load_undoes_save_sample :
    ∃ c' : Column NumericType.int32.Elem, loadColumn (t := .int32) "a.data" (fun _ _ => 0) "a" 2 true false
      (writeColumn (t := .int32) (fun _ _ => 0) sampleColumn) = .ok c' ∧ c'.getBlocksList.length = 2 := by
  obtain ⟨c', hload, hlen, -⟩ := load_undoes_save .int32 "a.data" (fun _ _ => 0) (fun _ _ => 0) sampleColumn
    sampleColumn_valid (by decide) (by decide)
  exact ⟨c', hload, hlen⟩

/-- a column of n blocks without rows -/
def emptyBlocks (n : ℕ) : Column NumericType.int32.Elem where
  name := "a"
  blockSize := 1
  size := 0
  blocks := [(-1, List.replicate n (Block.empty 1 false true UINT32_MAX))]
  isNullable := false
  isUnique := false
  uniqueHashmap := []

/-- a UNIQUE column that holds a value twice -/
def duplicateColumn : Column NumericType.int32.Elem where
  name := "a"
  blockSize := 2
  size := 2
  blocks := [(-1, [⟨[7, 7], 2, 7, 7, 0, 14, 2, 2, none, true, UINT32_MAX⟩])]
  isNullable := false
  isUnique := true
  uniqueHashmap := [7]

theorem emptyBlocks_valid (n : ℕ) : (emptyBlocks n).Valid := by
  refine ⟨by simp [emptyBlocks], ?_, by simp [emptyBlocks]⟩
  intro b hb
  simp only [emptyBlocks, Column.getBlocksList, List.flatMap_cons, List.flatMap_nil, List.append_nil] at hb
  obtain rfl := List.eq_of_mem_replicate hb
  exact Block.empty_valid 1 false true UINT32_MAX

theorem load_emptyBlocks (n : ℕ) (c' : Column NumericType.int32.Elem)
    (h : loadColumn (t := .int32) "a.data" (fun _ _ => 0) "a" 1 false false
      (writeColumn (t := .int32) (fun _ _ => 0) (emptyBlocks n)) = .ok c') :
    c'.getBlocksList.length = min UINT32_MAX n := by
  obtain ⟨c'', hload, hblocks⟩ := load_write (t := .int32) "a.data" (fun _ _ => 0) (fun _ _ => 0) (emptyBlocks n)
    (emptyBlocks_valid n) (by simp [emptyBlocks])
  obtain rfl : c'' = c' := Except.ok.inj (hload.symm.trans h)
  rw [hblocks, length_reloadAll, length_entriesFrom, List.length_take]
  simp [emptyBlocks, Column.getBlocksList]

/-- The reserved index ends the save after 2^32 - 1 blocks, and the reader refuses a UNIQUE column that holds a value
twice: without the two conditions load does not undo save. -/
theorem load_does_not_undo_save :
    (∀ c' : Column NumericType.int32.Elem, loadColumn (t := .int32) "a.data" (fun _ _ => 0) "a" 1 false false
        (writeColumn (t := .int32) (fun _ _ => 0) (emptyBlocks (2 ^ 32))) = .ok c' →
      c'.getBlocksList.length ≠ 2 ^ 32) ∧
    loadColumn (t := .int32) "a.data" (fun _ _ => 0) "a" 2 false true
        (writeColumn (t := .int32) (fun _ _ => 0) duplicateColumn) =
      .error (.runtimeError "Loaded column: a.data has UNIQUE constraint and duplicate values: 7") := by
  constructor
  · intro c' hc'
    rw [load_emptyBlocks (2 ^ 32) c' hc']
    decide
  · rfl

end QikkDB.NumericFormat

/-
Compression of blocks (GPUCompression.cu, `compressAAFL`, `decompressAAFL`, `decompressAAFLOnDevice` and the functions
that call them).

The encoded array holds three counts of eight bytes, the positions and the bit lengths of the compression blocks, and the
values. Its length is rounded from bytes up to elements. The offset is not stored: each side computes it from the minimum
and the maximum. Floats go as the integers of their bits, after a test of the signs that is not the same on both sides.

- the kernels of feathergpu are a parameter; `Undo` is what is taken of them;
- an element is an integer of 8 * s bits; a float is the integer of its 32 bits;
- `none` where a range leaves the encoded array; the end of the array behind the values is not initialised.

Results:
- `decompressAAFL_layout`, `onDevice_layout`: both sides find the parts of an encoded array.
- `reversible_iff`: what was compressed can be decompressed iff it is no float block with a zero as minimum or maximum.
-/
import Mathlib.Tactic
import QikkDB.Core.Element
import QikkDB.Lib.Bytes
import QikkDB.Lib.Memory

namespace QikkDB.GPUCompression

open Bytes Memory

/-! ## feathergpu -/

/-- deviceCompressed, devicePositionId and deviceBitLength behind a compression -/
structure Encoding where
  values : List UInt8
  positionId : List (BitVec 64)
  bitLength : List UInt8
deriving DecidableEq

/-- the kernels for elements of `s` bytes, with a warp of 32 threads -/
structure Feathergpu (s : ℕ) where
  /-- of the data and the offset -/
  compress : List (IntN (8 * s)) → IntN (8 * s) → Encoding
  /-- of the encoding, the number of elements and the offset -/
  decompress : Encoding → ℕ → IntN (8 * s) → List (IntN (8 * s))

def CWARP_SIZE : ℕ := 32

/-- compressionBlocksCount for `n` elements -/
def compressionBlocks (s n : ℕ) : ℕ := (n * s + s * CWARP_SIZE - 1) / (s * CWARP_SIZE)

/-- the kernels fill the arrays of the blocks, and undo each other whatever stands behind the values -/
structure Undo {s : ℕ} (kernels : Feathergpu s) : Prop where
  positionId : ∀ data offset, (kernels.compress data offset).positionId.length = compressionBlocks s data.length
  bitLength : ∀ data offset, (kernels.compress data offset).bitLength.length = compressionBlocks s data.length
  undo : ∀ data offset behind, kernels.decompress
    { kernels.compress data offset with values := (kernels.compress data offset).values ++ behind } data.length offset = data

/-! ## Compression -/

/-- the type int, to which smaller types are promoted -/
def promoted (s : ℕ) : ℕ := max (8 * s) 32

/-- the offset that both sides compute; -minValue is that of the promoted type -/
def offset {s : ℕ} (minValue maxValue : IntN (8 * s)) : IntN (8 * s) :=
  if minValue.val < 0 ∧ maxValue.val > 0 ∧
      (IntN.max (8 * s)).val - maxValue.val < (IntN.wrap (promoted s) (-minValue.val)).val then 0
  else minValue

/-- the length of the encoded array in bytes, before it is rounded -/
def compressedDataSizeTotal (s n : ℕ) (encoding : Encoding) : ℕ :=
  encoding.values.length + max (8 * compressionBlocks s n) s + max (compressionBlocks s n) s + 24

def compressedElementsCount (s n : ℕ) (encoding : Encoding) : ℕ := (compressedDataSizeTotal s n encoding + s - 1) / s

/-- an int -/
def toInt (x : ℕ) : ℤ := (IntN.wrap 32 x).val

def positionCodedDataPositionId : ℤ := toInt 24

def positionCodedDataBitLength (blocks : ℕ) : ℤ := toInt (24 + 8 * blocks)

/-- positionHostOut and positionDeviceOut -/
def positionOut (blocks : ℕ) : ℤ := toInt (24 + 8 * blocks + blocks)

/-- the bytes of the positions -/
def positionBytes (positionId : List (BitVec 64)) : List UInt8 := positionId.flatMap fun p => encodeLE 8 p.toNat

/-- codedSizes -/
def codedSizes (uncompressed compressed blocks : ℕ) : List UInt8 :=
  encodeLE 8 uncompressed ++ (encodeLE 8 compressed ++ encodeLE 8 blocks)

/-- compressAAFL; `fresh` are the bytes of the new array. `some none` is false. -/
def compressAAFL {s : ℕ} (kernels : Feathergpu s) (data : List (IntN (8 * s))) (minValue maxValue : IntN (8 * s))
    (fresh : ℕ → UInt8) : Option (Option (List UInt8)) :=
  let encoding := kernels.compress data (offset minValue maxValue)
  let blocks := compressionBlocks s data.length
  let count := compressedElementsCount s data.length encoding
  if count < data.length then do
    let array := (List.range (count * s)).map fresh
    let array ← writeAt array 0 (codedSizes data.length count blocks)
    let array ← writeAt array positionCodedDataPositionId (positionBytes encoding.positionId)
    let array ← writeAt array (positionCodedDataBitLength blocks) encoding.bitLength
    let array ← writeAt array (positionOut blocks) encoding.values
    some (some array)
  else some none

/-- the count at an index of the array, read as int64_t -/
def codedSize (hostCompressed : List UInt8) (i : ℕ) : Option ℕ := (readAt hostCompressed (8 * i) 8).map decodeLE

/-- the positions of the blocks from their bytes -/
def positionsOf (blocks : ℕ) (bytes : List UInt8) : Option (List (BitVec 64)) :=
  (readMany 8 (fun b => BitVec.ofNat 64 (decodeLE b)) blocks bytes).map Prod.fst

/-- decompressAAFL; the number of elements that it is given is not used -/
def decompressAAFL {s : ℕ} (kernels : Feathergpu s) (hostCompressed : List UInt8) (minValue maxValue : IntN (8 * s)) :
    Option (Option (List (IntN (8 * s)))) := do
  let uncompressed ← codedSize hostCompressed 0
  let compressed ← codedSize hostCompressed 1
  let blocks ← codedSize hostCompressed 2
  let values ← readAt hostCompressed (positionOut blocks) ((compressed * s : ℕ) - positionOut blocks)
  let positionId ← readAt hostCompressed positionCodedDataPositionId (blocks * 8 : ℕ)
  let bitLength ← readAt hostCompressed (positionCodedDataBitLength blocks) blocks
  let positionId ← positionsOf blocks positionId
  some (some (kernels.decompress ⟨values, positionId, bitLength⟩ uncompressed (offset minValue maxValue)))

/-- decompressAAFLOnDevice with the counts that the caller reads from the array; the pointer to the values has no end but
that of the array -/
def decompressAAFLOnDevice {s : ℕ} (kernels : Feathergpu s) (deviceCompressed : List UInt8)
    (minValue maxValue : IntN (8 * s)) : Option (Option (List (IntN (8 * s)))) := do
  let uncompressed ← codedSize deviceCompressed 0
  let blocks ← codedSize deviceCompressed 2
  let positionId ← readAt deviceCompressed positionCodedDataPositionId (blocks * 8 : ℕ)
  let bitLength ← readAt deviceCompressed (positionCodedDataBitLength blocks) blocks
  let values ← readAt deviceCompressed (positionOut blocks) (deviceCompressed.length - positionOut blocks)
  let positionId ← positionsOf blocks positionId
  some (some (kernels.decompress ⟨values, positionId, bitLength⟩ uncompressed (offset minValue maxValue)))

/-! ## The types -/

inductive ValueType where
  | int8
  | int32
  | int64
  | float
deriving DecidableEq, Repr

/-- the signed integer of an element's bits -/
abbrev ValueType.Elem : ValueType → Type
  | .int8 => IntN 8
  | .int32 => IntN 32
  | .int64 => IntN 64
  | .float => IntN 32

/-- the bits of a float that is greater than zero: no sign, and not a NaN -/
def IsPositive (x : IntN 32) : Prop := 0 < x.val ∧ x.val ≤ 0x7F800000

/-- the bits of a float that is less than zero -/
def IsNegative (x : IntN 32) : Prop := x.val < 0 ∧ 0 < x.val + 2 ^ 31 ∧ x.val + 2 ^ 31 ≤ 0x7F800000

/-- the bits of 0 and of -0 -/
def IsZero (x : IntN 32) : Prop := x.val = 0 ∨ x.val = -2 ^ 31

instance (x : IntN 32) : Decidable (IsPositive x) := inferInstanceAs (Decidable (_ ∧ _))
instance (x : IntN 32) : Decidable (IsNegative x) := inferInstanceAs (Decidable (_ ∧ _))
instance (x : IntN 32) : Decidable (IsZero x) := inferInstanceAs (Decidable (_ ∨ _))

/-- the test of compressDataAAFL for floats -/
def CompressedSigns (minValue maxValue : IntN 32) : Prop :=
  ((IsPositive minValue ∨ IsZero minValue) ∧ (IsPositive maxValue ∨ IsZero maxValue)) ∨
    ((IsNegative minValue ∨ IsZero minValue) ∧ (IsNegative maxValue ∨ IsZero maxValue))

/-- the test of decompressDataAAFL and decompressDataAAFLOnDevice for floats -/
def DecompressedSigns (minValue maxValue : IntN 32) : Prop :=
  (IsPositive minValue ∧ IsPositive maxValue) ∨ (IsNegative minValue ∧ IsNegative maxValue)

instance (minValue maxValue : IntN 32) : Decidable (CompressedSigns minValue maxValue) :=
  inferInstanceAs (Decidable (_ ∨ _))
instance (minValue maxValue : IntN 32) : Decidable (DecompressedSigns minValue maxValue) :=
  inferInstanceAs (Decidable (_ ∨ _))

/-- std::swap if min_int32 > max_int32 -/
def sorted {w : ℕ} (minValue maxValue : IntN w) : IntN w × IntN w :=
  if minValue.val > maxValue.val then (maxValue, minValue) else (minValue, maxValue)

variable (kernels : (s : ℕ) → Feathergpu s)

/-- compressDataAAFL<float> -/
def compressFloats (data : List (IntN 32)) (minValue maxValue : IntN 32) (fresh : ℕ → UInt8) :
    Option (Option (List UInt8)) :=
  if CompressedSigns minValue maxValue then
    compressAAFL (kernels 4) data (sorted minValue maxValue).1 (sorted minValue maxValue).2 fresh
  else some none

/-- compressDataAAFL -/
def compressDataAAFL : (t : ValueType) → List t.Elem → t.Elem → t.Elem → (ℕ → UInt8) → Option (Option (List UInt8))
  | .int8 => compressAAFL (kernels 1)
  | .int32 => compressAAFL (kernels 4)
  | .int64 => compressAAFL (kernels 8)
  | .float => compressFloats kernels

/-- decompressDataAAFL<float> -/
def decompressFloats (hostCompressed : List UInt8) (minValue maxValue : IntN 32) : Option (Option (List (IntN 32))) :=
  if DecompressedSigns minValue maxValue then
    decompressAAFL (kernels 4) hostCompressed (sorted minValue maxValue).1 (sorted minValue maxValue).2
  else some none

/-- decompressDataAAFL -/
def decompressDataAAFL : (t : ValueType) → List UInt8 → t.Elem → t.Elem → Option (Option (List t.Elem))
  | .int8 => decompressAAFL (kernels 1)
  | .int32 => decompressAAFL (kernels 4)
  | .int64 => decompressAAFL (kernels 8)
  | .float => decompressFloats kernels

/-- decompressDataAAFLOnDevice<float> -/
def decompressFloatsOnDevice (deviceCompressed : List UInt8) (minValue maxValue : IntN 32) :
    Option (Option (List (IntN 32))) :=
  if DecompressedSigns minValue maxValue then
    decompressAAFLOnDevice (kernels 4) deviceCompressed (sorted minValue maxValue).1 (sorted minValue maxValue).2
  else some none

/-- decompressDataAAFLOnDevice -/
def decompressDataAAFLOnDevice : (t : ValueType) → List UInt8 → t.Elem → t.Elem → Option (Option (List t.Elem))
  | .int8 => decompressAAFLOnDevice (kernels 1)
  | .int32 => decompressAAFLOnDevice (kernels 4)
  | .int64 => decompressAAFLOnDevice (kernels 8)
  | .float => decompressFloatsOnDevice kernels

/-! ## What was compressed can be decompressed -/

/-- Compression keeps inside its array, and where it reports success, both decompressions report success and give the
data. -/
def Reversible (t : ValueType) (data : List t.Elem) (minValue maxValue : t.Elem) : Prop :=
  ∀ fresh, compressDataAAFL kernels t data minValue maxValue fresh = some none ∨
    ∃ encoded, compressDataAAFL kernels t data minValue maxValue fresh = some (some encoded) ∧
      decompressDataAAFL kernels t encoded minValue maxValue = some (some data) ∧
      decompressDataAAFLOnDevice kernels t encoded minValue maxValue = some (some data)

/-- the encoded array is shorter than the data -/
def Shortened {s : ℕ} (kernels : Feathergpu s) (data : List (IntN (8 * s))) (minValue maxValue : IntN (8 * s)) : Prop :=
  compressedElementsCount s data.length (kernels.compress data (offset minValue maxValue)) < data.length

/-- a block of floats from or to zero that is shortened -/
def FromZero : (t : ValueType) → List t.Elem → t.Elem → t.Elem → Prop
  | .float, data, minValue, maxValue =>
    CompressedSigns minValue maxValue ∧ (IsZero minValue ∨ IsZero maxValue) ∧
      Shortened (kernels 4) data (sorted minValue maxValue).1 (sorted minValue maxValue).2
  | _, _, _, _ => False

/-! ## The parts of the encoded array -/

section Parts

variable {s : ℕ} {kernels : Feathergpu s}

theorem toInt_eq {x : ℕ} (h : x < 2 ^ 31) : toInt x = x := by
  refine IntN.val_wrap ?_ ?_
  · have : (0 : ℤ) ≤ 2 ^ (32 - 1) := by positivity
    omega
  · change (x : ℤ) < 2 ^ 31
    exact_mod_cast h

theorem compressionBlocks_le (hs : s = 1 ∨ s = 4 ∨ s = 8) {n : ℕ} : 32 * compressionBlocks s n ≤ n + 31 := by
  unfold compressionBlocks CWARP_SIZE
  rcases hs with rfl | rfl | rfl <;> omega

/-- the positions are ints -/
theorem positions_eq {blocks : ℕ} (h : blocks ≤ 2 ^ 26) :
    positionCodedDataPositionId = 24 ∧ positionCodedDataBitLength blocks = (24 + 8 * blocks : ℕ) ∧
      positionOut blocks = (24 + 8 * blocks + blocks : ℕ) :=
  ⟨toInt_eq (by norm_num), toInt_eq (by omega), toInt_eq (by omega)⟩

theorem length_positionBytes (positionId : List (BitVec 64)) :
    (positionBytes positionId).length = 8 * positionId.length := by
  unfold positionBytes
  induction positionId with
  | nil => rfl
  | cons p ps ih =>
    rw [List.flatMap_cons, List.length_append, ih, length_encodeLE, List.length_cons]
    omega

theorem positionsOf_positionBytes (positionId : List (BitVec 64)) :
    positionsOf positionId.length (positionBytes positionId) = some positionId := by
  have hdecode : ∀ p : BitVec 64, BitVec.ofNat 64 (decodeLE (encodeLE 8 p.toNat)) = p := fun p => by
    rw [decodeLE_encodeLE_of_lt p.isLt, BitVec.ofNat_toNat, BitVec.setWidth_eq]
  have hread := @readMany_encode (BitVec 64) 8 (fun p => encodeLE 8 p.toNat) (fun b => BitVec.ofNat 64 (decodeLE b))
    (fun p => length_encodeLE 8 _) hdecode positionId []
  rw [List.append_nil] at hread
  rw [positionsOf, positionBytes, hread]
  rfl

/-- the encoded array -/
def layout (n count blocks : ℕ) (encoding : Encoding) (behind : List UInt8) : List UInt8 :=
  codedSizes n count blocks ++ (positionBytes encoding.positionId ++ (encoding.bitLength ++ (encoding.values ++ behind)))

theorem length_codedSizes (n count blocks : ℕ) : (codedSizes n count blocks).length = 24 := by
  simp [codedSizes]

theorem length_layout (n count blocks : ℕ) (encoding : Encoding) (behind : List UInt8) :
    (layout n count blocks encoding behind).length =
      24 + 8 * encoding.positionId.length + encoding.bitLength.length + (encoding.values ++ behind).length := by
  simp only [layout, List.length_append, length_codedSizes, length_positionBytes]
  omega

/-- the encoded array has room for its parts -/
theorem compressedDataSizeTotal_ge (s n : ℕ) (encoding : Encoding) :
    24 + 8 * compressionBlocks s n + compressionBlocks s n + encoding.values.length ≤
      compressedDataSizeTotal s n encoding := by
  unfold compressedDataSizeTotal
  omega

theorem le_compressedElementsCount (hs : 0 < s) (n : ℕ) (encoding : Encoding) :
    compressedDataSizeTotal s n encoding ≤ compressedElementsCount s n encoding * s := by
  have hmod := Nat.div_add_mod (compressedDataSizeTotal s n encoding + s - 1) s
  have hlt := Nat.mod_lt (compressedDataSizeTotal s n encoding + s - 1) hs
  unfold compressedElementsCount
  rw [Nat.mul_comm]
  omega

/-- the counts can be read from the header -/
theorem codedSize_layout (n count blocks : ℕ) (hn : n < 2 ^ 64) (hcount : count < 2 ^ 64) (hblocks : blocks < 2 ^ 64)
    (encoding : Encoding) (behind : List UInt8) :
    codedSize (layout n count blocks encoding behind) 0 = some n ∧
      codedSize (layout n count blocks encoding behind) 1 = some count ∧
      codedSize (layout n count blocks encoding behind) 2 = some blocks := by
  have hdecode : ∀ {x : ℕ}, x < 2 ^ 64 → decodeLE (encodeLE 8 x) = x := fun h =>
    decodeLE_encodeLE_of_lt (h.trans_eq (by norm_num))
  set rest := positionBytes encoding.positionId ++ (encoding.bitLength ++ (encoding.values ++ behind)) with hrest
  have hzero : layout n count blocks encoding behind =
      [] ++ (encodeLE 8 n ++ (encodeLE 8 count ++ (encodeLE 8 blocks ++ rest))) := by
    simp [layout, codedSizes, hrest]
  have hone : layout n count blocks encoding behind =
      encodeLE 8 n ++ (encodeLE 8 count ++ (encodeLE 8 blocks ++ rest)) := by
    simp [layout, codedSizes, hrest]
  have htwo : layout n count blocks encoding behind =
      (encodeLE 8 n ++ encodeLE 8 count) ++ (encodeLE 8 blocks ++ rest) := by
    simp [layout, codedSizes, hrest]
  refine ⟨?_, ?_, ?_⟩
  · rw [codedSize, hzero, readAt_append (by simp) (by simp), Option.map_some, hdecode hn]
  · rw [codedSize, hone, readAt_append (by simp) (by simp), Option.map_some, hdecode hcount]
  · rw [codedSize, htwo, readAt_append (by simp) (by simp), Option.map_some, hdecode hblocks]

/-- the parts that are read behind the header -/
theorem parts_layout (n count blocks : ℕ) (hblocks : blocks ≤ 2 ^ 26) {encoding : Encoding}
    (hposition : encoding.positionId.length = blocks) (hbits : encoding.bitLength.length = blocks) (behind : List UInt8) :
    readAt (layout n count blocks encoding behind) positionCodedDataPositionId (blocks * 8 : ℕ) =
        some (positionBytes encoding.positionId) ∧
      readAt (layout n count blocks encoding behind) (positionCodedDataBitLength blocks) blocks =
        some encoding.bitLength ∧
      readAt (layout n count blocks encoding behind) (positionOut blocks)
          ((layout n count blocks encoding behind).length - positionOut blocks) = some (encoding.values ++ behind) := by
  obtain ⟨hfirst, hsecond, hthird⟩ := positions_eq hblocks
  have hheader := length_codedSizes n count blocks
  have hbytes := length_positionBytes encoding.positionId
  have hbitsAt : layout n count blocks encoding behind =
      (codedSizes n count blocks ++ positionBytes encoding.positionId) ++ (encoding.bitLength ++ (encoding.values ++ behind)) := by
    simp [layout]
  have hvaluesAt : layout n count blocks encoding behind =
      (codedSizes n count blocks ++ (positionBytes encoding.positionId ++ encoding.bitLength)) ++
        ((encoding.values ++ behind) ++ []) := by
    simp [layout]
  have hlength := length_layout n count blocks encoding behind
  refine ⟨?_, ?_, ?_⟩
  · rw [hfirst, layout]
    refine readAt_append ?_ ?_
    · rw [hheader]
      rfl
    · rw [hbytes, hposition, Nat.mul_comm]
  · rw [hsecond, hbitsAt]
    refine readAt_append ?_ ?_
    · rw [List.length_append, hheader, hbytes, hposition]
    · rw [hbits]
  · rw [hthird]
    nth_rewrite 1 [hvaluesAt]
    refine readAt_append ?_ ?_
    · simp only [List.length_append, hheader, hbytes, hposition, hbits]
      push_cast
      ring
    · rw [hlength, hposition, hbits]
      push_cast
      ring

/-! ### What each side makes of them -/

/-- four writes, one behind the other -/
theorem writes_eq (array header positions bits values : List UInt8) {a b c : ℤ} (ha : a = header.length)
    (hb : b = (header.length + positions.length : ℕ)) (hc : c = (header.length + positions.length + bits.length : ℕ))
    (hroom : header.length + positions.length + bits.length + values.length ≤ array.length) :
    ∃ behind, behind.length = array.length - (header.length + positions.length + bits.length + values.length) ∧ (do
      let array ← writeAt array 0 header
      let array ← writeAt array a positions
      let array ← writeAt array b bits
      let array ← writeAt array c values
      some (some array)) = some (some (header ++ (positions ++ (bits ++ (values ++ behind))))) := by
  have hfirst : writeAt array 0 header = some (header ++ array.drop header.length) :=
    writeAt_append [] header array rfl (by omega)
  have hsecond := writeAt_append header positions (array.drop header.length) ha (by rw [List.length_drop]; omega)
  have hthird := writeAt_append (header ++ positions) bits ((array.drop header.length).drop positions.length)
    (hb.trans (by rw [List.length_append])) (by rw [List.length_drop, List.length_drop]; omega)
  have hfourth := writeAt_append (header ++ positions ++ bits) values
    (((array.drop header.length).drop positions.length).drop bits.length)
    (hc.trans (by rw [List.length_append, List.length_append]))
    (by rw [List.length_drop, List.length_drop, List.length_drop]; omega)
  refine ⟨(((array.drop header.length).drop positions.length).drop bits.length).drop values.length, ?_, ?_⟩
  · simp only [List.length_drop]
    omega
  · simp only [Option.bind_eq_bind]
    rw [hfirst, Option.bind_some, hsecond, Option.bind_some, hthird, Option.bind_some, hfourth, Option.bind_some]
    simp only [List.append_assoc]

variable (hk : Undo kernels) (hs : s = 1 ∨ s = 4 ∨ s = 8) {data : List (IntN (8 * s))} (hn : data.length < 2 ^ 31)
  {minValue maxValue : IntN (8 * s)}

include hs hn in
theorem compressionBlocks_small : compressionBlocks s data.length ≤ 2 ^ 26 := by
  have hblocks := compressionBlocks_le hs (n := data.length)
  omega

include hk hs hn in
/-- a compression that makes sense fills an array with the parts -/
theorem compressAAFL_eq (hshort : Shortened kernels data minValue maxValue) (fresh : ℕ → UInt8) :
    ∃ count behind, compressAAFL kernels data minValue maxValue fresh = some (some (layout data.length count
        (compressionBlocks s data.length) (kernels.compress data (offset minValue maxValue)) behind)) ∧
      count < 2 ^ 64 ∧ (layout data.length count (compressionBlocks s data.length)
        (kernels.compress data (offset minValue maxValue)) behind).length = count * s := by
  obtain ⟨hfirst, hsecond, hthird⟩ := positions_eq (compressionBlocks_small hs hn)
  have hposition := hk.positionId data (offset minValue maxValue)
  have hbits := hk.bitLength data (offset minValue maxValue)
  have hcount : compressedElementsCount s data.length (kernels.compress data (offset minValue maxValue)) < data.length :=
    hshort
  have hroom := (compressedDataSizeTotal_ge s data.length (kernels.compress data (offset minValue maxValue))).trans
    (le_compressedElementsCount (by omega : 0 < s) data.length (kernels.compress data (offset minValue maxValue)))
  unfold compressAAFL
  simp only [if_pos hcount]
  generalize kernels.compress data (offset minValue maxValue) = encoding at *
  generalize compressedElementsCount s data.length encoding = count at *
  generalize compressionBlocks s data.length = blocks at *
  have hheader := length_codedSizes data.length count blocks
  have hbytes := length_positionBytes encoding.positionId
  have harray : ((List.range (count * s)).map fresh).length = count * s := by simp
  have ha : positionCodedDataPositionId = ((codedSizes data.length count blocks).length : ℤ) := by
    rw [hfirst, hheader]
    rfl
  obtain ⟨behind, hbehind, hwrites⟩ := writes_eq ((List.range (count * s)).map fresh)
    (codedSizes data.length count blocks) (positionBytes encoding.positionId) encoding.bitLength encoding.values ha
    (hsecond.trans (by rw [hheader, hbytes, hposition])) (hthird.trans (by rw [hheader, hbytes, hposition, hbits]))
    (by rw [harray, hheader, hbytes, hposition, hbits]; exact hroom)
  refine ⟨count, behind, hwrites, hcount.trans (hn.trans (by norm_num)), ?_⟩
  rw [length_layout, List.length_append, hbehind, harray, hheader, hbytes, hposition, hbits]
  omega

theorem compressAAFL_false (hlong : ¬ Shortened kernels data minValue maxValue) (fresh : ℕ → UInt8) :
    compressAAFL kernels data minValue maxValue fresh = some none := by
  unfold Shortened at hlong
  simp only [compressAAFL, if_neg hlong]

omit hk hs hn in
/-- the host finds the parts -/
theorem decompressAAFL_layout {n count blocks : ℕ} (hn : n < 2 ^ 64) (hcount : count < 2 ^ 64) (hblocks : blocks ≤ 2 ^ 26)
    {encoding : Encoding} (hposition : encoding.positionId.length = blocks)
    (hbits : encoding.bitLength.length = blocks) {behind : List UInt8}
    (hlength : (layout n count blocks encoding behind).length = count * s) :
    decompressAAFL kernels (layout n count blocks encoding behind) minValue maxValue = some (some
      (kernels.decompress ⟨encoding.values ++ behind, encoding.positionId, encoding.bitLength⟩ n
        (offset minValue maxValue))) := by
  obtain ⟨hzero, hone, htwo⟩ := codedSize_layout n count blocks hn hcount (by omega) encoding behind
  obtain ⟨hpart₁, hpart₂, hpart₃⟩ := parts_layout n count blocks hblocks hposition hbits behind
  have hpositions := positionsOf_positionBytes encoding.positionId
  rw [hposition] at hpositions
  rw [hlength] at hpart₃
  unfold decompressAAFL
  simp only [Option.bind_eq_bind]
  rw [hzero, Option.bind_some, hone, Option.bind_some, htwo, Option.bind_some, hpart₃, Option.bind_some, hpart₁,
    Option.bind_some, hpart₂, Option.bind_some, hpositions, Option.bind_some]

omit hk hs hn in
/-- so does the device -/
theorem onDevice_layout {n count blocks : ℕ} (hn : n < 2 ^ 64) (hcount : count < 2 ^ 64) (hblocks : blocks ≤ 2 ^ 26)
    {encoding : Encoding} (hposition : encoding.positionId.length = blocks)
    (hbits : encoding.bitLength.length = blocks) (behind : List UInt8) :
    decompressAAFLOnDevice kernels (layout n count blocks encoding behind) minValue maxValue = some (some
      (kernels.decompress ⟨encoding.values ++ behind, encoding.positionId, encoding.bitLength⟩ n
        (offset minValue maxValue))) := by
  obtain ⟨hzero, -, htwo⟩ := codedSize_layout n count blocks hn hcount (by omega) encoding behind
  obtain ⟨hpart₁, hpart₂, hpart₃⟩ := parts_layout n count blocks hblocks hposition hbits behind
  have hpositions := positionsOf_positionBytes encoding.positionId
  rw [hposition] at hpositions
  unfold decompressAAFLOnDevice
  simp only [Option.bind_eq_bind]
  rw [hzero, Option.bind_some, htwo, Option.bind_some, hpart₁, Option.bind_some, hpart₂, Option.bind_some, hpart₃,
    Option.bind_some, hpositions, Option.bind_some]

include hk hs hn in
/-- a compression that reports success can be undone -/
theorem roundTrip (fresh : ℕ → UInt8) :
    compressAAFL kernels data minValue maxValue fresh = some none ∨
      ∃ encoded, compressAAFL kernels data minValue maxValue fresh = some (some encoded) ∧
        decompressAAFL kernels encoded minValue maxValue = some (some data) ∧
        decompressAAFLOnDevice kernels encoded minValue maxValue = some (some data) := by
  by_cases hshort : Shortened kernels data minValue maxValue
  · obtain ⟨count, behind, hcompress, hcount, hlength⟩ := compressAAFL_eq hk hs hn hshort fresh
    have hposition := hk.positionId data (offset minValue maxValue)
    have hbits := hk.bitLength data (offset minValue maxValue)
    have hblocks := compressionBlocks_small hs hn
    have hundo := hk.undo data (offset minValue maxValue) behind
    refine .inr ⟨_, hcompress, ?_, ?_⟩
    · rw [decompressAAFL_layout (by omega) hcount hblocks hposition hbits hlength, hundo]
    · rw [onDevice_layout (by omega) hcount hblocks hposition hbits behind, hundo]
  · exact .inl (compressAAFL_false hshort fresh)

end Parts

/-! ## When it can -/

/-- the tests of the two sides agree unless there is a zero -/
theorem decompressedSigns_iff {minValue maxValue : IntN 32} (h : CompressedSigns minValue maxValue) :
    DecompressedSigns minValue maxValue ↔ ¬ (IsZero minValue ∨ IsZero maxValue) := by
  unfold CompressedSigns DecompressedSigns IsPositive IsNegative IsZero at *
  omega

theorem reversible_iff (hk : ∀ s, 0 < s → Undo (kernels s)) (t : ValueType) (data : List t.Elem) (minValue maxValue : t.Elem)
    (hn : data.length < 2 ^ 31) :
    Reversible kernels t data minValue maxValue ↔ ¬ FromZero kernels t data minValue maxValue := by
  cases t with
  | int8 => exact iff_of_true (roundTrip (hk 1 (by decide)) (by decide) hn) id
  | int32 => exact iff_of_true (roundTrip (hk 4 (by decide)) (by decide) hn) id
  | int64 => exact iff_of_true (roundTrip (hk 8 (by decide)) (by decide) hn) id
  | float =>
    simp only [Reversible, FromZero, compressDataAAFL, decompressDataAAFL, decompressDataAAFLOnDevice, compressFloats,
      decompressFloats, decompressFloatsOnDevice]
    by_cases hsigns : CompressedSigns minValue maxValue
    · have hiff := decompressedSigns_iff hsigns
      by_cases hzero : IsZero minValue ∨ IsZero maxValue
      · simp only [hsigns, hiff, hzero, if_true, not_true, if_false, true_and]
        by_cases hshort : Shortened (kernels 4) data (sorted minValue maxValue).1 (sorted minValue maxValue).2
        · refine iff_of_false ?_ fun h => h hshort
          intro h
          obtain ⟨count, behind, hcompress, -⟩ := compressAAFL_eq (hk 4 (by decide)) (by decide) hn hshort fun _ => 0
          rcases h fun _ => 0 with hfalse | ⟨encoded, -, hdecompress, -⟩
          · rw [hcompress] at hfalse
            cases hfalse
          · cases hdecompress
        · exact iff_of_true (fun fresh => .inl (compressAAFL_false hshort fresh)) hshort
      · simp only [hsigns, hiff, hzero, if_true, not_false_eq_true]
        exact iff_of_true (roundTrip (hk 4 (by decide)) (by decide) hn) fun h => h.2.1
    · simp only [hsigns, if_false]
      exact iff_of_true (fun _ => .inl trivial) fun h => h.1

/-! ## Blocks that are undone and blocks that are not -/

/-- kernels that keep a block of one value by its length alone, and other blocks as they are -/
def constantKernels (s : ℕ) : Feathergpu s where
  compress data offset :=
    let blocks := compressionBlocks s data.length
    if data = List.replicate data.length offset then ⟨[], List.replicate blocks 0, List.replicate blocks 0⟩
    else ⟨data.flatMap fun x => encodeLE s (x.val % 2 ^ (8 * s)).toNat, List.replicate blocks 0, List.replicate blocks 1⟩
  decompress encoding n offset :=
    if 1 ∈ encoding.bitLength then
      (List.range n).map fun i => IntN.wrap (8 * s) (decodeLE (entry s i encoding.values) : ℤ)
    else List.replicate n offset

theorem compressionBlocks_pos {s n : ℕ} (hs : 0 < s) (hn : 0 < n) : compressionBlocks s n ≠ 0 := by
  unfold compressionBlocks CWARP_SIZE
  have hle : s * 32 ≤ n * s + s * 32 - 1 := by
    have := Nat.mul_pos hn hs
    omega
  exact (Nat.div_pos hle (by omega)).ne'

/-- an element from its bytes -/
theorem wrap_decodeLE {s : ℕ} (hs : 0 < s) (x : IntN (8 * s)) :
    IntN.wrap (8 * s) (decodeLE (encodeLE s (x.val % 2 ^ (8 * s)).toNat) : ℤ) = x := by
  have hpow : (0 : ℤ) < 2 ^ (8 * s) := by positivity
  have hpow' : (256 : ℕ) ^ s = 2 ^ (8 * s) := by
    rw [pow_mul]
    norm_num
  have hlt := Int.emod_lt_of_pos x.val hpow
  have hnonneg := Int.emod_nonneg x.val hpow.ne'
  rw [decodeLE_encodeLE_of_lt, Int.toNat_of_nonneg hnonneg, IntN.wrap_emod (by omega), IntN.wrap_val]
  rw [hpow', Int.toNat_lt hnonneg]
  exact_mod_cast hlt

theorem undo_constantKernels {s : ℕ} (hs : 0 < s) : Undo (constantKernels s) where
  positionId data offset := by
    simp only [constantKernels]
    split_ifs <;> simp
  bitLength data offset := by
    simp only [constantKernels]
    split_ifs <;> simp
  undo data offset behind := by
    by_cases hdata : data = List.replicate data.length offset
    · simp only [constantKernels, if_pos hdata]
      rw [if_neg (by simp)]
      exact hdata.symm
    · have hpos : 0 < data.length := by
        rw [List.length_pos_iff]
        rintro rfl
        exact hdata rfl
      simp only [constantKernels, if_neg hdata]
      rw [if_pos (by simp [compressionBlocks_pos hs hpos])]
      refine List.ext_getElem (by simp) fun i _ hi => ?_
      rw [List.getElem_map, List.getElem_range,
        entry_flatMap (fun x : IntN (8 * s) => encodeLE s (x.val % 2 ^ (8 * s)).toNat) (fun x => length_encodeLE s _) data
          behind i hi, wrap_decodeLE hs]
      rfl

/-- ten numbers 7 are undone -/
theorem reversible_sevens : Reversible constantKernels .int32 (List.replicate 10 7) 7 7 :=
  (reversible_iff constantKernels (fun _ => undo_constantKernels) .int32 (List.replicate 10 7) 7 7
    (by rw [List.length_replicate]; norm_num)).2 id

/-- ten floats 0 are compressed and not decompressed -/
theorem not_reversible : ¬ ∀ (kernels : (s : ℕ) → Feathergpu s), (∀ s, 0 < s → Undo (kernels s)) →
    ∀ (t : ValueType) (data : List t.Elem) (minValue maxValue : t.Elem), data ≠ [] → data.length < 2 ^ 31 →
      Reversible kernels t data minValue maxValue := by
  intro hall
  have hlength : (List.replicate 10 (0 : IntN 32)).length < 2 ^ 31 := by
    rw [List.length_replicate]
    norm_num
  have hreversible := hall constantKernels (fun _ => undo_constantKernels) .float (List.replicate 10 0) 0 0
    (List.cons_ne_nil _ _) hlength
  have hshort : Shortened (constantKernels 4) (List.replicate 10 0) 0 0 := by
    unfold Shortened
    decide +kernel
  obtain ⟨count, behind, hcompress, -⟩ :=
    compressAAFL_eq (undo_constantKernels four_pos) (.inr (.inl rfl)) hlength hshort fun _ => 0
  have hzero : IsZero 0 := .inl rfl
  have hsigns : CompressedSigns 0 0 := .inl ⟨.inr hzero, .inr hzero⟩
  have hno : ¬ DecompressedSigns 0 0 := by decide
  rcases hreversible fun _ => 0 with hfalse | ⟨encoded, -, hdecompress, -⟩
  · rw [compressDataAAFL, compressFloats, if_pos hsigns] at hfalse
    exact absurd (hcompress.symm.trans hfalse) (by simp)
  · rw [decompressDataAAFL, decompressFloats, if_neg hno] at hdecompress
    cases hdecompress

end QikkDB.GPUCompression

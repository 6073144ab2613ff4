/-
The null mask of a block and its capacity (BlockBase.h, ColumnBase.h, ColumnBase.cpp, Database::LoadColumn). A nullable
block allocates a zeroed mask with a word for every 64 rows of its capacity, and InsertData relies on it: it writes the
bits of NULL rows only, into a mask it takes to be long enough and clear behind the last row. The functions that install
another mask do not all keep to that:
- CopyDataToColumn from string, point and polygon columns moves in a mask sized by the rows of the source block;
- LoadColumn moves in a buffer whose words behind the stored ones are never written;
- BlockSplit of a block with an odd capacity keeps a bit too many in the first half, and with more than one mask word
  ORs the low bits of one word into every word of the second half;
- InsertData without saveNecessary leaves new blocks uncounted and marks their NULL rows all the same.

`Reached checked` are the columns reached by the functions that touch masks, with the conditions that avoid the cases
above if `checked`.

- `clean_reached`: under the conditions no step breaks the masks.
- `masks_cover_capacity`: then every mask covers the capacity, and InsertData stays inside it.
-/
import Mathlib.Tactic
import QikkDB.Core.Column
import QikkDB.Core.Append
import QikkDB.Core.Resize
import QikkDB.Storage.Record
import QikkDB.Storage.RowCount

namespace QikkDB.MaskCoverage

open NullValues Storage RowCount Column

/-! ## Masks -/

/-- the mask of a block with room for `capacity` rows, of which the first `size` are in use -/
def Covered (capacity size : ℕ) (bitMask : Option Mask) : Prop :=
  ∀ m ∈ bitMask, getNullBitMaskSize capacity ≤ m.length ∧ ∀ i, size ≤ i → getBit m i = false

theorem covered_none (capacity size : ℕ) : Covered capacity size none := by
  intro m hm
  cases hm

/-- the mask that the constructors allocate -/
theorem covered_zeroMask (capacity size : ℕ) (isNullable : Bool) :
    Covered capacity size (if isNullable then some (zeroMask capacity) else none) := by
  intro m hm
  cases isNullable with
  | false => cases hm
  | true =>
    obtain rfl := Option.some.inj hm
    exact ⟨(length_zeroMask capacity).ge, fun i _ => getBit_zeroMask capacity i⟩

theorem Covered.mono {capacity size size' : ℕ} {bitMask : Option Mask} (h : Covered capacity size bitMask)
    (hle : size ≤ size') : Covered capacity size' bitMask :=
  fun m hm => ⟨(h m hm).1, fun i hi => (h m hm).2 i (hle.trans hi)⟩

/-! ### The halves of a split mask -/

/-- a null bit of the first half of a split block: a bit of the block up to the middle row, that is not in the last
place of a word -/
theorem getBit_splitMaskLow {mask : Mask} {size i : ℕ} (hlen : (size - 1) / 2 / 64 < mask.length)
    (h : getBit (splitMaskLow mask size) i = true) :
    getBit mask i = true ∧ i ≤ (size - 1) / 2 ∧ ((size - 1) / 2 % 64 = 63 → i / 64 < (size - 1) / 2 / 64) := by
  set q := (size - 1) / 2 with hq
  have htake : (mask.take (q / 64)).length = q / 64 := by
    rw [List.length_take]
    omega
  simp only [splitMaskLow, getBitMaskIdx, getShiftMaskIdx, ← hq] at h
  rcases lt_trichotomy (i / 64) (q / 64) with hlt | heq | hgt
  · have hbit : getBit mask i = true := by
      simp only [getBit, getBitMaskIdx, getShiftMaskIdx] at h ⊢
      rw [List.getD_append _ _ _ _ (by omega)] at h
      rwa [List.getD_eq_getElem?_getD, List.getElem?_take, if_pos hlt, ← List.getD_eq_getElem?_getD] at h
    exact ⟨hbit, by omega, fun _ => hlt⟩
  · -- the word of the middle row
    simp only [getBit, getBitMaskIdx, getShiftMaskIdx] at h
    rw [List.getD_append_right _ _ _ _ (by omega), htake, heq, Nat.sub_self, List.getD_cons_zero,
      getLsbD_getPartOfBitmaskByte mask _ _ _ (Nat.mod_lt _ (by decide))] at h
    have hi : 64 * (q / 64) + i % 64 = i := by omega
    simp only [hi, Bool.and_eq_true, decide_eq_true_eq] at h
    refine ⟨h.2, ?_, ?_⟩
    · have : (q % 64 + 1) % 64 ≤ q % 64 + 1 := Nat.mod_le _ _
      omega
    · intro hlast
      rw [hlast] at h
      omega
  · -- zeros behind it
    simp only [getBit, getBitMaskIdx, getShiftMaskIdx] at h
    rw [List.getD_append_right _ _ _ _ (by omega), htake] at h
    obtain ⟨k, hk⟩ : ∃ k, i / 64 - q / 64 = k + 1 := ⟨i / 64 - q / 64 - 1, by omega⟩
    rw [hk, List.getD_cons_succ, List.getD_eq_getElem?_getD, List.getElem?_replicate] at h
    split_ifs at h <;> simp at h

/-- a null bit of the second half of a split block: a bit of the block as far behind the middle row, or a low bit of the
word behind the middle one -/
theorem getBit_splitMaskHigh {mask : Mask} {size i : ℕ} (h : getBit (splitMaskHigh mask size) i = true) :
    (getBit mask (64 * ((size - 1) / 2 / 64) + i + ((size - 1) / 2 % 64 + 1) % 64) = true ∧
        i % 64 + ((size - 1) / 2 % 64 + 1) % 64 < 64) ∨
      (i / 64 + (size - 1) / 2 / 64 < mask.length ∧ i % 64 < ((size - 1) / 2 % 64 + 1) % 64 ∧
        getBit mask (64 * ((size - 1) / 2 / 64 + 1) + i % 64) = true) := by
  set q := (size - 1) / 2 with hq
  have hmod : i % 64 < 64 := Nat.mod_lt _ (by decide)
  have hmap : ∀ f : ℕ → BitVec 64, ((List.range (mask.length - q / 64)).map f).length = mask.length - q / 64 := by
    intro f
    rw [List.length_map, List.length_range]
  simp only [splitMaskHigh, getBitMaskIdx, getShiftMaskIdx, ← hq] at h
  by_cases hword : i / 64 < mask.length - q / 64
  · simp only [getBit, getBitMaskIdx, getShiftMaskIdx] at h
    rw [List.getD_append _ _ _ _ (by rw [hmap]; exact hword), List.getD_eq_getElem _ _ (by rw [hmap]; exact hword)] at h
    simp only [List.getElem_map, List.getElem_range] at h
    have hshifted : (mask.getD (q / 64 + i / 64) 0 >>> ((q % 64 + 1) % 64)).getLsbD (i % 64) = true →
        getBit mask (64 * (q / 64) + i + (q % 64 + 1) % 64) = true ∧ i % 64 + (q % 64 + 1) % 64 < 64 := by
      intro hbit
      rw [BitVec.getLsbD_ushiftRight] at hbit
      have hin : (q % 64 + 1) % 64 + i % 64 < 64 := BitVec.lt_of_getLsbD hbit
      have h₁ : (64 * (q / 64) + i + (q % 64 + 1) % 64) / 64 = q / 64 + i / 64 := by omega
      have h₂ : (64 * (q / 64) + i + (q % 64 + 1) % 64) % 64 = (q % 64 + 1) % 64 + i % 64 := by omega
      refine ⟨?_, by omega⟩
      simp only [getBit, getBitMaskIdx, getShiftMaskIdx, h₁, h₂]
      exact hbit
    split_ifs at h
    · rw [BitVec.getLsbD_or, Bool.or_eq_true, getLsbD_getPartOfBitmaskByte mask _ _ _ hmod, Bool.and_eq_true,
        decide_eq_true_eq] at h
      rcases h with h | h
      · exact Or.inl (hshifted h)
      · exact Or.inr ⟨by omega, h⟩
    · exact Or.inl (hshifted h)
  · simp only [getBit, getBitMaskIdx, getShiftMaskIdx] at h
    rw [List.getD_append_right _ _ _ _ (by rw [hmap]; omega), List.getD_eq_getElem?_getD, List.getElem?_replicate] at h
    split_ifs at h <;> simp at h

/-- the rows of a full block whose null bits BlockSplit leaves behind the rows of a half are not NULL -/
structure SplitsClean (capacity words : ℕ) (isNull : ℕ → Bool) : Prop where
  /-- the middle row of an odd capacity goes to the second half, its bit also to the first -/
  middle : (capacity - 1) / 2 % 64 ≠ 63 → capacity % 2 = 1 → isNull (capacity / 2) = false
  /-- the low bits of the word behind the middle one go to every word of the second half -/
  low : (capacity - 1) / 2 % 64 ≠ 63 → ∀ t ≤ (capacity - 1) / 2 % 64,
    capacity - capacity / 2 ≤ 64 * (words - (capacity - 1) / 2 / 64 - 1) + t →
      isNull (64 * ((capacity - 1) / 2 / 64 + 1) + t) = false
  /-- with the middle row in the last place of a word nothing is shifted -/
  unshifted : (capacity - 1) / 2 % 64 = 63 → ∀ p < capacity,
    64 * ((capacity - 1) / 2 / 64) + (capacity - capacity / 2) ≤ p → isNull p = false

variable {capacity : ℕ} {mask : Mask}

theorem SplitsClean.congr {words : ℕ} {isNull isNull' : ℕ → Bool} (h : SplitsClean capacity words isNull)
    (hle : ∀ i, isNull' i = true → isNull i = true) : SplitsClean capacity words isNull' := by
  have hfalse : ∀ {i}, isNull i = false → isNull' i = false := by
    intro i hi
    by_contra hne
    rw [hle i (by simpa using hne)] at hi
    cases hi
  exact ⟨fun h₁ h₂ => hfalse (h.middle h₁ h₂), fun h₁ t ht h₂ => hfalse (h.low h₁ t ht h₂),
    fun h₁ p hp h₂ => hfalse (h.unshifted h₁ p hp h₂)⟩

theorem middle_lt (hpos : 0 < capacity) (hlen : getNullBitMaskSize capacity ≤ mask.length) :
    (capacity - 1) / 2 / 64 < mask.length := by
  have := div_lt_getNullBitMaskSize (i := (capacity - 1) / 2) (n := capacity) (by omega)
  omega

theorem covered_splitMaskLow (hpos : 0 < capacity) (hlen : getNullBitMaskSize capacity ≤ mask.length)
    (hsplit : SplitsClean capacity mask.length (getBit mask)) :
    Covered capacity (capacity / 2) (some (splitMaskLow mask capacity)) := by
  intro m hm
  obtain rfl := Option.some.inj hm
  have hmiddle := middle_lt hpos hlen
  refine ⟨?_, ?_⟩
  · simp only [splitMaskLow, getBitMaskIdx, List.length_append, List.length_take, List.length_cons,
      List.length_replicate]
    omega
  · intro i hi
    by_contra hne
    obtain ⟨hbit, hle, hlast⟩ := getBit_splitMaskLow hmiddle (by simpa using hne)
    have hshift : (capacity - 1) / 2 % 64 ≠ 63 := by
      intro h63
      have := hlast h63
      omega
    have hi' : i = capacity / 2 := by omega
    rw [hi', hsplit.middle hshift (by omega)] at hbit
    cases hbit

theorem covered_splitMaskHigh (hpos : 0 < capacity) (hlen : getNullBitMaskSize capacity ≤ mask.length)
    (hclear : ∀ i, capacity ≤ i → getBit mask i = false) (hsplit : SplitsClean capacity mask.length (getBit mask)) :
    Covered capacity (capacity - capacity / 2) (some (splitMaskHigh mask capacity)) := by
  intro m hm
  obtain rfl := Option.some.inj hm
  have hmiddle := middle_lt hpos hlen
  refine ⟨?_, ?_⟩
  · simp only [splitMaskHigh, getBitMaskIdx, List.length_append, List.length_map, List.length_range,
      List.length_replicate]
    omega
  · intro i hi
    by_contra hne
    rcases getBit_splitMaskHigh (by simpa using hne) with ⟨hbit, hin⟩ | ⟨hword, hlow, hbit⟩
    · -- the bits that are shifted down
      have hrow : 64 * ((capacity - 1) / 2 / 64) + i + ((capacity - 1) / 2 % 64 + 1) % 64 < capacity := by
        by_contra hge
        rw [hclear _ (by omega)] at hbit
        cases hbit
      have h63 : (capacity - 1) / 2 % 64 = 63 := by omega
      rw [hsplit.unshifted h63 _ hrow (by omega)] at hbit
      cases hbit
    · -- the bits that are ORed in
      have hshift : (capacity - 1) / 2 % 64 ≠ 63 := by
        intro h63
        rw [h63] at hlow
        omega
      rw [hsplit.low hshift (i % 64) (by omega) (by omega)] at hbit
      cases hbit

/-! ## Blocks -/

section Blocks

variable {α : Type}

/-- a block whose rows are in its array and whose mask covers its capacity -/
structure Clean (blockSize : ℕ) (b : Block α) : Prop where
  fits : Fits blockSize b
  mask : Covered blockSize b.size b.bitMask

variable {blockSize : ℕ} {b b' : Block α}

theorem Clean.size_le (h : Clean blockSize b) : b.size ≤ blockSize := h.fits.stored.trans h.fits.room

/-- null bits of rows up to `start + bits.length` -/
theorem setNullBits_mask {start : ℕ} {bits : List Bool} (hok : setNullBits b start bits = .ok b') {size : ℕ}
    (h : Covered blockSize size b.bitMask) (hsize : start + bits.length ≤ size) : Covered blockSize size b'.bitMask := by
  induction bits generalizing b start with
  | nil =>
    obtain rfl := Except.ok.inj hok
    exact h
  | cons bit bits ih =>
    rw [List.length_cons] at hsize
    cases bit with
    | false => exact ih hok h (by omega)
    | true =>
      simp only [setNullBits, ↓reduceIte] at hok
      obtain ⟨b₁, h₁, hok⟩ := bind_eq_ok.1 hok
      unfold Block.setNullBit at h₁
      split at h₁
      · exact absurd h₁ (by simp)
      · rename_i mask hmask
        obtain rfl := Except.ok.inj h₁
        apply ih hok _ (by omega)
        intro m hm
        obtain rfl := Option.some.inj hm
        obtain ⟨hlen, hclear⟩ := h mask hmask
        refine ⟨by rwa [length_setBit], fun i hi => ?_⟩
        rw [getBit_setBit_of_ne mask true (by omega)]
        exact hclear i hi

variable [Element α]

theorem clean_empty (isNullable saveNecessary : Bool) (index : ℕ) :
    Clean blockSize (Block.empty blockSize isNullable saveNecessary index : Block α) :=
  ⟨fits_empty isNullable saveNecessary index, covered_zeroMask blockSize 0 isNullable⟩

theorem ofData_mask {data : List α} {isNullable count saveNecessary : Bool} {index : ℕ}
    (h : Block.ofData blockSize data isNullable count saveNecessary index = .ok b) :
    b.bitMask = if isNullable then some (zeroMask blockSize) else none := by
  simp only [Block.ofData] at h
  split_ifs at h
  · obtain rfl := Except.ok.inj h
    exact (Block.setBlockStatistics_store _ _ _).bitMask
  · obtain rfl := Except.ok.inj h
    rfl

theorem clean_ofData {data : List α} {isNullable count saveNecessary : Bool} {index : ℕ}
    (h : Block.ofData blockSize data isNullable count saveNecessary index = .ok b) : Clean blockSize b :=
  ⟨(fits_ofData h).1, ofData_mask h ▸ covered_zeroMask blockSize b.size isNullable⟩

theorem ofArray_mask {data : List α} {dataSize allocationSize index : ℕ} {isNullable count saveNecessary : Bool}
    (h : Block.ofArray blockSize data dataSize allocationSize isNullable count saveNecessary index = .ok b) :
    b.bitMask = if isNullable then some (zeroMask blockSize) else none := by
  simp only [Block.ofArray] at h
  split_ifs at h
  · obtain rfl := Except.ok.inj h
    exact (Block.setBlockStatistics_store _ _ _).bitMask
  · obtain rfl := Except.ok.inj h
    rfl

theorem clean_ofArray {data : List α} {dataSize allocationSize index : ℕ} {isNullable count saveNecessary : Bool}
    (hroom : data.length ≤ allocationSize)
    (h : Block.ofArray blockSize data dataSize allocationSize isNullable count saveNecessary index = .ok b) :
    Clean blockSize b :=
  ⟨(fits_ofArray hroom h).1, ofArray_mask h ▸ covered_zeroMask blockSize b.size isNullable⟩

/-- BlockBase::InsertData does not touch the mask -/
theorem insertData_mask {data : List α} {saveNecessary : Bool} (hok : b.insertData data saveNecessary = .ok b') :
    b'.bitMask = b.bitMask := by
  unfold Block.insertData at hok
  split_ifs at hok
  obtain rfl := Except.ok.inj hok
  exact (Block.setBlockStatistics_store _ _ _).bitMask

theorem clean_newChunk {isNullable saveNecessary : Bool} {index : ℕ} {chunk : List (α × Bool)}
    (hsave : saveNecessary = true ∨ ∀ row ∈ chunk, row.2 = false)
    (hok : newChunk blockSize isNullable saveNecessary index chunk = .ok b) : Clean blockSize b := by
  obtain ⟨b₁, h₁, hbits⟩ := bind_eq_ok.1 hok
  have hclean := clean_ofData h₁
  rcases hsave with rfl | hnull
  · obtain ⟨hfits, hsize, -⟩ := fits_setNullBits hclean.fits hbits
    refine ⟨hfits, hsize ▸ setNullBits_mask hbits hclean.mask ?_⟩
    rw [(fits_ofData h₁).2]
    simp
  · rw [bits_false hnull, setNullBits_false] at hbits
    obtain rfl := Except.ok.inj hbits
    exact hclean

theorem clean_fillWhole {batch : List (α × Bool)} (h : Clean blockSize b) (hok : fillWhole b batch = .ok b') :
    Clean blockSize b' := by
  obtain ⟨b₁, h₁, hok⟩ := bind_eq_ok.1 hok
  obtain ⟨hfits₁, hsize₁, -⟩ := fits_setNullBits h.fits h₁
  obtain ⟨hfits, hsize⟩ := fits_insertData hfits₁ hok
  rw [hsize₁, List.length_map] at hsize
  refine ⟨hfits, ?_⟩
  rw [insertData_mask hok, hsize]
  exact setNullBits_mask h₁ (h.mask.mono (by omega)) (by rw [List.length_map])

theorem clean_fillUp {batch : List (α × Bool)} (h : Clean blockSize b) (hok : fillUp b batch = .ok b') :
    Clean blockSize b' := by
  obtain ⟨b₁, h₁, hok⟩ := bind_eq_ok.1 hok
  obtain ⟨hfits₁, hsize₁⟩ := fits_insertData h.fits h₁
  obtain ⟨hfits, hsize, -⟩ := fits_setNullBits hfits₁ hok
  rw [List.length_map] at hsize₁
  refine ⟨hfits, ?_⟩
  rw [hsize, hsize₁]
  apply setNullBits_mask hok
  · rw [insertData_mask h₁]
    exact h.mask.mono (by omega)
  · rw [List.length_map]

/-! ### A value put at a position -/

/-- the null bits of a block's rows once a value is put at `index` -/
def nullAfter (mask : Mask) (index : ℕ) (isNullValue : Bool) (j : ℕ) : Bool :=
  if j < index then getBit mask j else if j = index then isNullValue else getBit mask (j - 1)

omit [Element α] in
theorem putBit_mask {index : ℕ} {isNullValue : Bool} {m' : Option Mask} (h : Clean blockSize b) (hindex : index ≤ b.size)
    (hroom : b.size < blockSize) (hok : b.putBit index isNullValue = .ok m') :
    Covered blockSize (b.size + 1) m' ∧ ∀ mask' ∈ m', ∃ mask ∈ b.bitMask, mask'.length = mask.length ∧
      ∀ j, getBit mask' j = true → nullAfter mask index isNullValue j = true := by
  unfold Block.putBit at hok
  cases hmask : b.bitMask with
  | none =>
    simp only [hmask] at hok
    split_ifs at hok
    obtain rfl := Except.ok.inj hok
    exact ⟨covered_none _ _, by simp⟩
  | some mask =>
    obtain ⟨hlen, hclear⟩ := h.mask mask hmask
    have hword : index / 64 < mask.length := by
      have := div_lt_getNullBitMaskSize (i := index) (n := blockSize) (by omega)
      omega
    simp only [hmask] at hok
    -- in each case the bits afterwards are those of the rows, as far as the mask reaches
    obtain ⟨mask', rfl, hlen', hbits⟩ : ∃ mask', m' = some mask' ∧ mask'.length = mask.length ∧
        ∀ j, getBit mask' j = true → nullAfter mask index isNullValue j = true := by
      split_ifs at hok with hinside hnull
      · obtain rfl := Except.ok.inj hok
        refine ⟨_, rfl, length_insertBit mask index isNullValue, fun j hj => ?_⟩
        by_cases hreach : j / 64 < mask.length
        · rwa [getBit_insertBit mask index j isNullValue hword hreach] at hj
        · rw [getBit_of_length_le (by rw [length_insertBit]; omega)] at hj
          cases hj
      · obtain rfl := Except.ok.inj hok
        obtain rfl : index = b.size := by omega
        refine ⟨_, rfl, length_setBit mask b.size isNullValue, fun j hj => ?_⟩
        rw [getBit_setBit mask b.size j isNullValue hword] at hj
        rcases lt_trichotomy j b.size with hlt | rfl | hgt
        · rw [nullAfter, if_pos hlt]
          rwa [if_neg hlt.ne] at hj
        · rw [nullAfter, if_neg (lt_irrefl _), if_pos rfl]
          exact hnull
        · rw [if_neg hgt.ne', hclear j hgt.le] at hj
          cases hj
      · obtain rfl := Except.ok.inj hok
        refine ⟨mask, rfl, rfl, fun j hj => ?_⟩
        have hlt : j < index := by
          by_contra hge
          rw [hclear j (by omega)] at hj
          cases hj
        rw [nullAfter, if_pos hlt]
        exact hj
    refine ⟨?_, ?_⟩
    · intro m hm
      obtain rfl := Option.some.inj hm
      refine ⟨hlen'.symm ▸ hlen, fun i hi => ?_⟩
      by_contra hne
      have hafter := hbits i (by simpa using hne)
      rw [nullAfter, if_neg (by omega), if_neg (by omega), hclear (i - 1) (by omega)] at hafter
      cases hafter
    · intro m hm
      obtain rfl := Option.some.inj hm
      exact ⟨mask, rfl, hlen', hbits⟩

/-- InsertDataOnSpecificPosition among the rows or right behind them -/
theorem clean_insertAt {index : ℕ} {data : α} {isNullValue saveNecessary : Bool} (h : Clean blockSize b)
    (hindex : index ≤ b.size) (hok : b.insertDataOnSpecificPosition index data isNullValue saveNecessary = .ok b') :
    Clean blockSize b' ∧ b'.size = b.size + 1 ∧ ∀ mask' ∈ b'.bitMask, ∃ mask ∈ b.bitMask, mask'.length = mask.length ∧
      ∀ j, getBit mask' j = true → nullAfter mask index isNullValue j = true := by
  obtain ⟨hfits, hsize⟩ := fits_insertDataOnSpecificPosition h.fits hok
  have hroom : b.size < blockSize := by
    have := hfits.stored.trans hfits.room
    omega
  unfold Block.insertDataOnSpecificPosition at hok
  split_ifs at hok
  obtain ⟨m, hm, hok⟩ := bind_eq_ok.1 hok
  obtain ⟨hcovered, hbits⟩ := putBit_mask h hindex hroom hm
  have hmask : b'.bitMask = m := by
    obtain rfl := Except.ok.inj hok
    exact (Block.updateBlockStatistics_store _ _ _).bitMask
  refine ⟨⟨hfits, ?_⟩, hsize, ?_⟩
  · rw [hmask, hsize]
    exact hcovered
  · rw [hmask]
    exact hbits

theorem clean_blockSplit {c : Column α} {halves : Block α × Block α} (h : Clean c.blockSize b)
    (hfull : b.size = c.blockSize) (hpos : 0 < c.blockSize)
    (hsplit : ∀ m ∈ b.bitMask, SplitsClean c.blockSize m.length (getBit m)) (hok : blockSplit c b = .ok halves) :
    Clean c.blockSize halves.1 ∧ Clean c.blockSize halves.2 := by
  have hrows : b.rows.length = c.blockSize := by
    have := h.fits.stored
    rw [Block.rows, List.length_take]
    omega
  simp only [blockSplit] at hok
  obtain ⟨block1, h₁, hok⟩ := bind_eq_ok.1 hok
  obtain ⟨block2, h₂, hok⟩ := bind_eq_ok.1 hok
  have hclean₁ := clean_ofData h₁
  have hclean₂ := clean_ofData h₂
  have hsize₁ : block1.size = c.blockSize / 2 := by
    rw [(fits_ofData h₁).2, if_pos rfl, List.length_take, hrows, hfull]
    omega
  have hsize₂ : block2.size = c.blockSize - c.blockSize / 2 := by
    rw [(fits_ofData h₂).2, if_pos rfl, List.length_drop, hrows, hfull]
  split at hok
  · rename_i mask _ hmask
    obtain rfl := Except.ok.inj hok
    obtain ⟨hlen, hclear⟩ := h.mask mask hmask
    rw [hfull] at hclear
    refine ⟨⟨⟨hclean₁.fits.capacity, hclean₁.fits.stored, hclean₁.fits.room⟩, ?_⟩,
      ⟨⟨hclean₂.fits.capacity, hclean₂.fits.stored, hclean₂.fits.room⟩, ?_⟩⟩
    · rw [hsize₁, hfull]
      exact covered_splitMaskLow hpos hlen (hsplit mask hmask)
    · rw [hsize₂, hfull]
      exact covered_splitMaskHigh hpos hlen hclear (hsplit mask hmask)
  · exact absurd hok (by simp)
  · obtain rfl := Except.ok.inj hok
    exact ⟨hclean₁, hclean₂⟩

/-! ### Installed masks -/

/-- a mask moved in with a word for every 64 rows of the capacity -/
theorem clean_moveNullBitmask (h : Clean blockSize b) {m : Mask}
    (hm : b.isNullable = true → Covered blockSize b.size (some m)) : Clean blockSize (b.moveNullBitmask m) := by
  obtain ⟨hfits, hsize⟩ := fits_moveNullBitmask h.fits m
  refine ⟨hfits, ?_⟩
  rw [hsize]
  unfold Block.moveNullBitmask
  split
  · exact h.mask
  · rename_i hmask
    rw [(Block.setBlockStatistics_store _ _ _).bitMask]
    exact hm (by rw [Block.isNullable, hmask]; rfl)

theorem clean_setNullBitmask (h : Clean blockSize b) {m : Mask}
    (hm : b.isNullable = true → ∀ i, b.size ≤ i → getBit m i = false) (hok : b.setNullBitmask m = .ok b') :
    Clean blockSize b' := by
  obtain ⟨hfits, hsize⟩ := fits_setNullBitmask h.fits hok
  refine ⟨hfits, ?_⟩
  rw [hsize]
  unfold Block.setNullBitmask at hok
  cases hmask : b.bitMask with
  | none =>
    simp only [hmask] at hok
    obtain rfl := Except.ok.inj hok
    exact h.mask
  | some mask =>
    simp only [hmask] at hok
    split_ifs at hok with hlong
    obtain rfl := Except.ok.inj hok
    rw [(Block.setBlockStatistics_store _ _ _).bitMask]
    intro m' hm'
    obtain rfl := Option.some.inj hm'
    obtain ⟨hlen, hclear⟩ := h.mask mask hmask
    refine ⟨by simp only [List.length_append, List.length_drop]; omega, fun i hi => ?_⟩
    have hbit := hm (by rw [Block.isNullable, hmask]; rfl) i hi
    by_cases hword : i / 64 < m.length
    · simp only [getBit, getBitMaskIdx] at hbit ⊢
      rw [List.getD_append _ _ _ _ hword]
      exact hbit
    · have hold := hclear i hi
      simp only [getBit, getBitMaskIdx] at hold ⊢
      rw [List.getD_append_right _ _ _ _ (by omega), List.getD_eq_getElem?_getD, List.getElem?_drop,
        Nat.add_sub_cancel' (by omega), ← List.getD_eq_getElem?_getD]
      exact hold

end Blocks

/-! ## Columns -/

section Columns

variable {α : Type}

/-- the blocks of a column are clean -/
def CleanColumn (c : Column α) : Prop := ∀ b ∈ c.getBlocksList, Clean c.blockSize b

variable {c c' : Column α}

theorem CleanColumn.setGroup (h : CleanColumn c) (groupId : ℤ) (size : ℕ) {bs : List (Block α)}
    (hbs : ∀ b ∈ bs, Clean c.blockSize b) : CleanColumn { c.setGroup groupId bs with size := size } := by
  intro b hb
  rcases Column.mem_setGroup hb with hb | hb
  · exact hbs b hb
  · exact h b hb

theorem CleanColumn.group (h : CleanColumn c) (groupId : ℤ) : ∀ b ∈ c.group groupId, Clean c.blockSize b :=
  fun b hb => h b (Column.mem_group hb)

theorem CleanColumn.append (h : CleanColumn c) (groupId : ℤ) (size : ℕ) {b : Block α} (hb : Clean c.blockSize b) :
    CleanColumn { c.setGroup groupId (c.group groupId ++ [b]) with size := size } := by
  apply h.setGroup
  intro b' hb'
  rcases List.mem_append.1 hb' with hb' | hb'
  · exact h.group groupId b' hb'
  · obtain rfl := List.mem_singleton.1 hb'
    exact hb

theorem CleanColumn.enterKey (h : CleanColumn c) (groupId : ℤ) : CleanColumn (c.setGroup groupId (c.group groupId)) :=
  h.setGroup groupId _ (h.group groupId)

theorem clean_setAt {blockSize : ℕ} {bs : List (Block α)} (hbs : ∀ b ∈ bs, Clean blockSize b) (i : ℕ) {b : Block α}
    (hb : Clean blockSize b) : ∀ b' ∈ bs.set i b, Clean blockSize b' := by
  intro b' hb'
  rcases List.mem_or_eq_of_mem_set hb' with hb' | rfl
  · exact hbs b' hb'
  · exact hb

variable [Element α]

theorem clean_addBlock (h : CleanColumn c) (groupId : ℤ) (saveNecessary : Bool) (index : ℕ) :
    CleanColumn (c.addBlock groupId saveNecessary index) :=
  h.append groupId _ (clean_empty c.isNullable saveNecessary index)

theorem clean_addBlockData (h : CleanColumn c) (data : List α) (groupId : ℤ) (count saveNecessary : Bool) (index : ℕ) :
    CleanColumn (c.addBlockData data groupId count saveNecessary index).1 := by
  unfold Column.addBlockData
  split
  · exact h.enterKey groupId
  · rename_i b hb
    exact h.append groupId _ (clean_ofData hb)

theorem clean_addBlockArray (h : CleanColumn c) {data : List α} {allocationSize : ℕ} (dataSize : ℕ) (groupId : ℤ)
    (count saveNecessary : Bool) (index : ℕ) (hroom : data.length ≤ allocationSize) :
    CleanColumn (c.addBlockArray data dataSize allocationSize groupId count saveNecessary index).1 := by
  unfold Column.addBlockArray
  split
  · exact h.enterKey groupId
  · rename_i b hb
    exact h.append groupId _ (clean_ofArray hroom hb)

/-! ### InsertData -/

/-- new blocks are counted, or get no NULLs -/
def CountsNulls (saveNecessary : Bool) (bs : List (Block α)) (batch : List (α × Bool)) : Prop :=
  saveNecessary = true ∨ ∀ row ∈ batch.drop (room bs), row.2 = false

theorem clean_appendRows {blockSize : ℕ} {isNullable saveNecessary : Bool} {index : ℕ} {bs bs' : List (Block α)}
    (hbs : ∀ b ∈ bs, Clean blockSize b) {batch : List (α × Bool)} (hsave : CountsNulls saveNecessary bs batch)
    (hok : Column.appendRows blockSize isNullable saveNecessary index bs batch = .ok bs') :
    ∀ b ∈ bs', Clean blockSize b := by
  intro b hb
  rcases mem_appendRows hok hb with hb | ⟨last, hlast, rows, hfill | hfill⟩ | ⟨chunk, hchunk, hnew⟩
  · exact hbs b hb
  · exact clean_fillWhole (hbs last hlast) hfill
  · exact clean_fillUp (hbs last hlast) hfill
  · exact clean_newChunk (hsave.imp id fun hnull row hrow => hnull row (hchunk hrow)) hnew

theorem clean_insertBatch (h : CleanColumn c) {rowsLimit : Option ℕ} {batch : List (α × Bool)} {groupId : ℤ}
    {saveNecessary : Bool} {index : ℕ} (hsave : CountsNulls saveNecessary (c.group groupId) batch)
    (hok : c.insertBatch rowsLimit batch groupId saveNecessary index = .ok c') : CleanColumn c' := by
  obtain ⟨-, -, hok⟩ := bind_eq_ok.1 hok
  split_ifs at hok
  obtain ⟨bs, hbs, hok⟩ := bind_eq_ok.1 hok
  obtain rfl := Except.ok.inj hok
  exact h.setGroup groupId _ (clean_appendRows (h.group groupId) hsave hbs)

/-! ### InsertDataOnSpecificPosition -/

/-- the position is among the rows or right behind them, and if the row fills the block, it can be split -/
def PutsClean (b : Block α) (indexInBlock : ℕ) (isNullValue : Bool) : Prop :=
  indexInBlock ≤ b.size ∧ (b.size + 1 = b.capacity →
    ∀ m ∈ b.bitMask, SplitsClean b.capacity m.length (nullAfter m indexInBlock isNullValue))

theorem clean_insertDataOnSpecificPosition (h : CleanColumn c) (rowsLimit : Option ℕ) {indexBlock indexInBlock : ℕ}
    (columnData : α) {groupId : ℤ} {isNullValue : Bool}
    (hputs : ∀ b ∈ targetBlock c groupId indexBlock, PutsClean b indexInBlock isNullValue) :
    CleanColumn (c.insertDataOnSpecificPosition rowsLimit indexBlock indexInBlock columnData groupId isNullValue).1 := by
  have hempty : Clean c.blockSize (Block.empty c.blockSize c.isNullable true UINT32_MAX : Block α) :=
    clean_empty _ _ _
  have htarget : ∀ block ∈ targetBlock c groupId indexBlock, Clean c.blockSize block := by
    intro block hblock
    rw [targetBlock] at hblock
    split_ifs at hblock
    · obtain rfl := List.mem_singleton.1 (List.mem_of_getElem? hblock)
      exact hempty
    · exact h.group groupId block (List.mem_of_getElem? hblock)
  intro b hb
  rw [(insertDataOnSpecificPosition_shape c rowsLimit _ _ _ _ _).1]
  rcases mem_insertDataOnSpecificPosition c rowsLimit hb with hb | rfl | ⟨block, hblock, block', hput, hhalf⟩
  · exact h b hb
  · exact hempty
  · obtain ⟨hindex, hsplit⟩ := hputs block hblock
    have hclean := htarget block hblock
    obtain ⟨hclean', hsize, hbits⟩ := clean_insertAt hclean hindex hput
    rcases hhalf with rfl | ⟨hfull, d, hd, -, halves, hhalves, hb⟩
    · exact hclean'
    · have hzero : block'.capacity - block'.size = 0 := of_decide_eq_true hfull
      have hle := hclean'.size_le
      have hcapacity' := hclean'.fits.capacity
      have hcapacity := hclean.fits.capacity
      have hmasks : ∀ m ∈ block'.bitMask, SplitsClean c.blockSize m.length (getBit m) := by
        intro m hm
        obtain ⟨mask, hmask, hlen, himp⟩ := hbits m hm
        have := hsplit (by omega) mask hmask
        rw [hcapacity, ← hlen] at this
        exact this.congr himp
      rw [← hd] at hclean' hmasks hle hcapacity' ⊢
      obtain ⟨h₁, h₂⟩ := clean_blockSplit hclean' (by omega) (by omega) hmasks hhalves
      rcases hb with rfl | rfl
      · exact h₁
      · exact h₂

omit [Element α] in
theorem clean_setIsNullable (h : CleanColumn c) {isNullable : Bool} (hok : c.setIsNullable isNullable = .ok c') :
    CleanColumn c' := by
  have hblock : ∀ b : Block α, Clean c.blockSize b → Clean c.blockSize (b.setIsNullable isNullable) := by
    intro b hb
    unfold Block.setIsNullable
    split_ifs with hsame
    · exact hb
    · refine ⟨⟨hb.fits.capacity, hb.fits.stored, hb.fits.room⟩, ?_⟩
      rw [hb.fits.capacity]
      exact covered_zeroMask c.blockSize b.size true
    · exact ⟨⟨hb.fits.capacity, hb.fits.stored, hb.fits.room⟩, covered_none _ _⟩
  have hall : ∀ b ∈ (c.blocks.map fun g => (g.1, g.2.map fun b => b.setIsNullable isNullable)).flatMap Prod.snd,
      Clean c.blockSize b := by
    intro b hb
    obtain ⟨g', hg', hb⟩ := List.mem_flatMap.1 hb
    obtain ⟨g, hg, rfl⟩ := List.mem_map.1 hg'
    obtain ⟨b₀, hb₀, rfl⟩ := List.mem_map.1 hb
    exact hblock b₀ (h b₀ (List.mem_flatMap.2 ⟨g, hg, hb₀⟩))
  unfold Column.setIsNullable at hok
  simp only at hok
  split_ifs at hok
  all_goals obtain rfl := Except.ok.inj hok
  · exact h
  · exact hall
  · exact hall

end Columns

/-! ## CopyDataToColumn -/

section Copy

variable {α β : Type} [Element β] (conv : Column.Conversion α β)

/-- a mask that is copied, or as long as the target needs it -/
def CopiesClean (dst : Column β) (b : Block α) : Prop :=
  conv.copiesMask = true ∨ dst.isNullable = false ∨ getNullBitMaskSize dst.blockSize ≤ getNullBitMaskSize b.size

omit [Element β] in
theorem foldl_setBit (rows : List ((β × Bool) × ℕ)) (mask : Mask) :
    (rows.foldl (fun m r => setBit m r.2 r.1.2) mask).length = mask.length ∧
      ∀ i, (∀ r ∈ rows, r.2 ≠ i) → getBit (rows.foldl (fun m r => setBit m r.2 r.1.2) mask) i = getBit mask i := by
  induction rows generalizing mask with
  | nil => exact ⟨rfl, fun i _ => rfl⟩
  | cons r rows ih =>
    obtain ⟨hlen, hbits⟩ := ih (setBit mask r.2 r.1.2)
    refine ⟨by rw [List.foldl_cons, hlen, length_setBit], fun i hi => ?_⟩
    rw [List.foldl_cons, hbits i fun r' hr' => hi r' (List.mem_cons_of_mem r hr')]
    exact getBit_setBit_of_ne mask r.1.2 (hi r List.mem_cons_self).symm

omit [Element β] in
/-- the mask of a block cast row by row -/
theorem covered_castRows {blockSize size : ℕ} {rows : List (β × Bool)} (hlen : rows.length = size)
    (hwords : getNullBitMaskSize blockSize ≤ getNullBitMaskSize size) :
    Covered blockSize size (some (rows.zipIdx.foldl (fun m r => setBit m r.2 r.1.2) (zeroMask size))) := by
  intro m hm
  obtain rfl := Option.some.inj hm
  obtain ⟨hlength, hbits⟩ := foldl_setBit rows.zipIdx (zeroMask size)
  refine ⟨by rw [hlength, length_zeroMask]; exact hwords, fun i hi => ?_⟩
  rw [hbits i, getBit_zeroMask]
  intro r hr heq
  have := List.snd_lt_of_mem_zipIdx hr
  omega

theorem clean_castMask {srcSize blockSize : ℕ} {isNullable : Bool} {b : Block α} {rows : List (β × Bool)}
    {new new' : Block β} (hsrc : Clean srcSize b) (hnew : Clean blockSize new) (hrows : rows.length = b.size)
    (hsize : new.size = b.size) (hnullable : new.isNullable = isNullable)
    (hmask : conv.copiesMask = true ∨ isNullable = false ∨ getNullBitMaskSize blockSize ≤ getNullBitMaskSize b.size)
    (hok : Column.castMask conv b rows new = .ok new') : Clean blockSize new' := by
  unfold Column.castMask at hok
  cases hcopies : conv.copiesMask with
  | false =>
    rw [hcopies] at hok
    obtain rfl := Except.ok.inj hok
    apply clean_moveNullBitmask hnew
    intro htrue
    rw [hsize]
    refine covered_castRows hrows ?_
    rcases hmask with h | h | h
    · simp [hcopies] at h
    · simp [htrue, ← hnullable] at h
    · exact h
  | true =>
    rw [hcopies, if_pos rfl] at hok
    cases hold : b.bitMask with
    | none =>
      simp only [hold] at hok
      split_ifs at hok
      refine clean_setNullBitmask hnew (fun _ i _ => ?_) hok
      exact getBit_of_length_le (Nat.zero_le _)
    | some mask =>
      simp only [hold] at hok
      refine clean_setNullBitmask hnew (fun _ i hi => ?_) hok
      have hclear := (hsrc.mask mask hold).2 i (by omega)
      simp only [getBit, getBitMaskIdx, List.getD_eq_getElem?_getD, List.getElem?_take] at hclear ⊢
      split_ifs
      · exact hclear
      · simp

omit [Element β] in
theorem length_mapM {f : α × ℕ → Except Fault (β × Bool)} {l : List (α × ℕ)} {rows : List (β × Bool)}
    (h : l.mapM f = .ok rows) : rows.length = l.length := by
  induction l generalizing rows with
  | nil =>
    obtain rfl : rows = [] := by simpa [pure, Except.pure, eq_comm] using h
    rfl
  | cons x l ih =>
    rw [List.mapM_cons] at h
    obtain ⟨y, -, h⟩ := bind_eq_ok.1 h
    obtain ⟨ys, hys, h⟩ := bind_eq_ok.1 h
    obtain rfl := Except.ok.inj h
    rw [List.length_cons, List.length_cons, ih hys]

theorem copyBlock_shape (groupId : ℤ) (b : Block α) (dst : Column β) :
    (Column.copyBlock conv groupId b dst).1.blockSize = dst.blockSize ∧
      (Column.copyBlock conv groupId b dst).1.isNullable = dst.isNullable := by
  unfold Column.copyBlock
  split
  · exact ⟨rfl, rfl⟩
  · split
    · exact ⟨rfl, rfl⟩
    · simp only
      split <;> exact ⟨rfl, rfl⟩

theorem clean_copyBlock {srcSize : ℕ} {dst : Column β} (h : CleanColumn dst) (groupId : ℤ) {b : Block α}
    (hb : Clean srcSize b) (hcopies : CopiesClean conv dst b) : CleanColumn (Column.copyBlock conv groupId b dst).1 := by
  unfold Column.copyBlock
  split
  · exact h
  · rename_i rows hrows
    have hlen : rows.length = b.size := by
      have hstored := hb.fits.stored
      have := length_mapM hrows
      rw [List.length_zipIdx, Block.rows, List.length_take] at this
      omega
    split
    · exact h.enterKey groupId
    · rename_i new hnew
      have hclean := clean_ofData hnew
      have hsize : new.size = b.size := by
        rw [(fits_ofData hnew).2, if_pos rfl, List.length_map, hlen]
      have hnullable : new.isNullable = dst.isNullable := by
        rw [Block.isNullable, ofData_mask hnew]
        cases dst.isNullable <;> rfl
      have hadded := h.append groupId (dst.size + rows.length) hclean
      simp only
      split
      · exact hadded
      · rename_i new' hmask
        apply hadded.setGroup groupId (dst.size + rows.length)
        intro b' hb'
        rcases List.mem_append.1 hb' with hb' | hb'
        · exact h.group groupId b' hb'
        · obtain rfl := List.mem_singleton.1 hb'
          exact clean_castMask conv hb hclean hlen hsize hnullable hcopies hmask

theorem copyBlocks_shape (groupId : ℤ) (bs : List (Block α)) (dst : Column β) :
    (Column.copyBlocks conv groupId bs dst).2.1.blockSize = dst.blockSize ∧
      (Column.copyBlocks conv groupId bs dst).2.1.isNullable = dst.isNullable := by
  induction bs generalizing dst with
  | nil => exact ⟨rfl, rfl⟩
  | cons b bs ih =>
    obtain ⟨hsize, hnullable⟩ := copyBlock_shape conv groupId b dst
    unfold Column.copyBlocks
    split
    · rename_i dst' hcopy
      rw [hcopy] at hsize hnullable
      exact ⟨(ih dst').1.trans hsize, (ih dst').2.trans hnullable⟩
    · rename_i dst' e hcopy
      rw [hcopy] at hsize hnullable
      exact ⟨hsize, hnullable⟩

theorem copyGroups_shape (gs : List (ℤ × List (Block α))) (dst : Column β) :
    (Column.copyGroups conv gs dst).2.1.blockSize = dst.blockSize ∧
      (Column.copyGroups conv gs dst).2.1.isNullable = dst.isNullable := by
  induction gs generalizing dst with
  | nil => exact ⟨rfl, rfl⟩
  | cons g gs ih =>
    obtain ⟨hsize, hnullable⟩ := copyBlocks_shape conv g.1 g.2 dst
    unfold Column.copyGroups
    split
    · rename_i bs dst' hcopy
      rw [hcopy] at hsize hnullable
      exact ⟨(ih dst').1.trans hsize, (ih dst').2.trans hnullable⟩
    · rename_i bs dst' e hcopy
      rw [hcopy] at hsize hnullable
      exact ⟨hsize, hnullable⟩

theorem clean_copyBlocks {srcSize : ℕ} (groupId : ℤ) {bs : List (Block α)} (hbs : ∀ b ∈ bs, Clean srcSize b)
    {dst : Column β} (h : CleanColumn dst) (hcopies : ∀ b ∈ bs, CopiesClean conv dst b) :
    CleanColumn (Column.copyBlocks conv groupId bs dst).2.1 := by
  induction bs generalizing dst with
  | nil => exact h
  | cons b bs ih =>
    have hstep := clean_copyBlock conv h groupId (hbs b List.mem_cons_self) (hcopies b List.mem_cons_self)
    obtain ⟨hsize, hnullable⟩ := copyBlock_shape conv groupId b dst
    unfold Column.copyBlocks
    split
    · rename_i dst' hcopy
      rw [hcopy] at hstep hsize hnullable
      refine ih (fun b' hb' => hbs b' (List.mem_cons_of_mem b hb')) hstep ?_
      intro b' hb'
      have := hcopies b' (List.mem_cons_of_mem b hb')
      rwa [CopiesClean, ← hsize, ← hnullable] at this
    · rename_i dst' e hcopy
      rw [hcopy] at hstep
      exact hstep

theorem clean_copyGroups {srcSize : ℕ} {gs : List (ℤ × List (Block α))}
    (hgs : ∀ b ∈ gs.flatMap Prod.snd, Clean srcSize b) {dst : Column β} (h : CleanColumn dst)
    (hcopies : ∀ b ∈ gs.flatMap Prod.snd, CopiesClean conv dst b) :
    CleanColumn (Column.copyGroups conv gs dst).2.1 := by
  induction gs generalizing dst with
  | nil => exact h
  | cons g gs ih =>
    rw [List.flatMap_cons] at hgs hcopies
    have hstep := clean_copyBlocks conv g.1 (fun b hb => hgs b (List.mem_append_left _ hb)) h
      (fun b hb => hcopies b (List.mem_append_left _ hb))
    obtain ⟨hsize, hnullable⟩ := copyBlocks_shape conv g.1 g.2 dst
    unfold Column.copyGroups
    split
    · rename_i bs dst' hcopy
      rw [hcopy] at hstep hsize hnullable
      refine ih (fun b hb => hgs b (List.mem_append_right _ hb)) hstep ?_
      intro b hb
      have := hcopies b (List.mem_append_right _ hb)
      rwa [CopiesClean, ← hsize, ← hnullable] at this
    · rename_i bs dst' e hcopy
      rw [hcopy] at hstep
      exact hstep

theorem clean_copyTo (conv : Option (Column.Conversion α β)) {src : Column α} (hsrc : CleanColumn src) {dst : Column β}
    (h : CleanColumn dst) (hcopies : ∀ conv' ∈ conv, ∀ b ∈ src.getBlocksList, CopiesClean conv' dst b) :
    CleanColumn (src.copyDataToColumn conv dst).2.1 := by
  cases conv with
  | none => exact h
  | some conv => exact clean_copyGroups conv hsrc h (hcopies conv rfl)

theorem clean_copyFrom (conv : Option (Column.Conversion α β)) {src : Column α} (h : CleanColumn src) (dst : Column β) :
    CleanColumn (src.copyDataToColumn conv dst).1 := by
  cases conv with
  | none => exact h
  | some conv => exact fun b hb => h b ((copyGroups_source conv src.blocks dst).2 hb)

end Copy

/-! ## LoadColumn -/

section Load

variable {α : Type} [Element α] [DecidableEq α]

/-- the stored mask marks only stored rows, and the buffer behind it happens to be zero -/
structure LoadsClean (blockSize : ℕ) (r : LoadedRecord α) : Prop where
  stored : ∀ i, r.rows.length ≤ i →
    getBit (maskBuffer (getNullBitMaskSize blockSize) (fun _ => 0) r.head.2.2) i = false
  behind : ∀ j < getNullBitMaskSize blockSize, r.head.2.2.length < 8 * j + 8 → r.fill j = 0

variable {c c' : Column α} {path : String} {toString : α → String} {r : LoadedRecord α}

omit [Element α] [DecidableEq α] in
theorem covered_maskBuffer {blockSize : ℕ} (h : LoadsClean blockSize r) :
    Covered blockSize r.rows.length
      (some (maskBuffer (getNullBitMaskSize blockSize) r.fill r.head.2.2)) := by
  have heq : maskBuffer (getNullBitMaskSize blockSize) r.fill r.head.2.2 =
      maskBuffer (getNullBitMaskSize blockSize) (fun _ => 0) r.head.2.2 := by
    refine List.map_congr_left fun j hj => ?_
    split_ifs with hstored
    · rfl
    · exact h.behind j (List.mem_range.1 hj) (by omega)
  intro m hm
  obtain rfl := Option.some.inj hm
  rw [heq]
  exact ⟨by simp [maskBuffer], h.stored⟩

omit [DecidableEq α] in
/-- the mask of a loaded block -/
theorem covered_loaded {b : Block α} {blockSize : ℕ} {isNullable : Bool} (hb : b.isNullable = isNullable)
    (hload : isNullable = true → LoadsClean blockSize r) :
    Covered blockSize r.rows.length
      (b.moveNullBitmask (maskBuffer (getNullBitMaskSize blockSize) r.fill r.head.2.2)).bitMask := by
  rw [(Block.moveNullBitmask_store b _).2.2.2.2.2]
  cases hmask : b.bitMask with
  | none => exact covered_none _ _
  | some mask =>
    apply covered_maskBuffer
    apply hload
    rw [← hb, Block.isNullable, hmask]
    rfl

theorem clean_enterLoaded (h : CleanColumn c) (hload : c.isNullable = true → LoadsClean c.blockSize r)
    (hok : enterLoaded path toString c r = .ok c') :
    CleanColumn c' ∧ c'.isNullable = c.isNullable ∧ c'.blockSize = c.blockSize := by
  unfold enterLoaded at hok
  split_ifs at hok
  · unfold enterRows at hok
    split_ifs at hok
    obtain ⟨seen, -, hok⟩ := bind_eq_ok.1 hok
    obtain ⟨b, hb, hok⟩ := bind_eq_ok.1 hok
    obtain rfl := Except.ok.inj hok
    obtain ⟨b₁, h₁, hb⟩ := bind_eq_ok.1 hb
    obtain rfl := Except.ok.inj hb
    have hempty : Clean c.blockSize (Block.empty c.blockSize c.isNullable false r.head.1 : Block α) :=
      clean_empty _ _ _
    obtain ⟨hfits, hsize⟩ := fits_insertData hempty.fits h₁
    obtain ⟨hmoved, hsize'⟩ := fits_moveNullBitmask hfits
      (maskBuffer (getNullBitMaskSize c.blockSize) r.fill r.head.2.2)
    have hnullable : b₁.isNullable = c.isNullable := by
      rw [Block.isNullable, insertData_mask h₁]
      cases hn : c.isNullable <;> simp [Block.empty]
    refine ⟨h.append r.head.2.1 c.size ⟨hmoved, ?_⟩, rfl, rfl⟩
    rw [hsize', hsize]
    exact (covered_loaded hnullable hload).mono (by simp [Block.empty])
  · unfold enterArray at hok
    split_ifs at hok with hlong hundefined
    obtain ⟨seen, -, hok⟩ := bind_eq_ok.1 hok
    obtain ⟨b, hb, hok⟩ := bind_eq_ok.1 hok
    obtain rfl := Except.ok.inj hok
    obtain ⟨hloaded, hsize⟩ := fits_loaded (not_lt.1 hlong) hb
      (maskBuffer (getNullBitMaskSize c.blockSize) r.fill r.head.2.2) r.min r.max r.sum r.avg
    have hnullable : b.isNullable = c.isNullable := by
      rw [Block.isNullable, ofArray_mask hb]
      cases c.isNullable <;> rfl
    refine ⟨h.append r.head.2.1 (c.size + r.rows.length) ⟨hloaded, ?_⟩, rfl, rfl⟩
    rw [hsize]
    exact covered_loaded hnullable hload

theorem clean_enterAll {records : List (LoadedRecord α)} (h : CleanColumn c)
    (hload : c.isNullable = true → ∀ r ∈ records, LoadsClean c.blockSize r)
    (hok : records.foldlM (enterLoaded path toString) c = .ok c') : CleanColumn c' := by
  induction records generalizing c with
  | nil =>
    obtain rfl : c = c' := Except.ok.inj hok
    exact h
  | cons r records ih =>
    rw [List.foldlM_cons] at hok
    obtain ⟨c₁, h₁, hok⟩ := bind_eq_ok.1 hok
    obtain ⟨hclean, hnullable, hsize⟩ := clean_enterLoaded h (fun hn => hload hn r List.mem_cons_self) h₁
    refine ih hclean ?_ hok
    rw [hnullable, hsize]
    exact fun hn r' hr' => hload hn r' (List.mem_cons_of_mem r hr')

omit [Element α] [DecidableEq α] in
theorem clean_fresh (name : String) (blockSize : ℕ) (isNullable isUnique : Bool) :
    CleanColumn { (Column.fresh name blockSize : Column α) with isNullable := isNullable, isUnique := isUnique } := by
  intro b hb
  simp [Column.getBlocksList, Column.fresh] at hb

theorem clean_loadRecords {recount : Bool} {name : String} {blockSize : ℕ} {isNullable isUnique : Bool}
    {records : List (LoadedRecord α)} (hload : isNullable = true → ∀ r ∈ records, LoadsClean blockSize r)
    (hok : loadRecords path toString recount name blockSize isNullable isUnique records = .ok c) : CleanColumn c := by
  obtain ⟨c₀, h₀, hok⟩ := bind_eq_ok.1 hok
  obtain ⟨c₁, h₁, hok⟩ := bind_eq_ok.1 hok
  have hentered : CleanColumn c₁ := by
    unfold created at h₀
    split_ifs at h₀
    obtain rfl := Except.ok.inj h₀
    exact clean_enterAll (clean_fresh name blockSize isNullable isUnique) hload h₁
  obtain rfl := Except.ok.inj hok
  cases recount with
  | false => exact hentered
  | true => exact hentered

end Load

/-! ## Runs -/

/-- the columns of a process; `checked` asks of every step what keeps the masks of its blocks as InsertData takes them
to be -/
inductive Reached (rowsLimit : Option ℕ) (checked : Prop) : (α : Type) → [Element α] → [DecidableEq α] → Column α → Prop
  | create {α : Type} [Element α] [DecidableEq α] (name : String) (blockSize : ℕ) (isNullable isUnique : Bool) :
    Reached rowsLimit checked α { Column.fresh name blockSize with isNullable := isNullable, isUnique := isUnique }
  | addBlock {α : Type} [Element α] [DecidableEq α] {c : Column α} (h : Reached rowsLimit checked α c) (groupId : ℤ)
    (saveNecessary : Bool) (index : ℕ) : Reached rowsLimit checked α (c.addBlock groupId saveNecessary index)
  | addBlockData {α : Type} [Element α] [DecidableEq α] {c : Column α} (h : Reached rowsLimit checked α c)
    (data : List α) (groupId : ℤ) (countBlockStatistics saveNecessary : Bool) (index : ℕ) :
    Reached rowsLimit checked α (c.addBlockData data groupId countBlockStatistics saveNecessary index).1
  | addBlockArray {α : Type} [Element α] [DecidableEq α] {c : Column α} (h : Reached rowsLimit checked α c)
    (data : List α) (dataSize allocationSize : ℕ) (groupId : ℤ) (countBlockStatistics saveNecessary : Bool) (index : ℕ)
    (hroom : data.length ≤ allocationSize) :
    Reached rowsLimit checked α
      (c.addBlockArray data dataSize allocationSize groupId countBlockStatistics saveNecessary index).1
  | insertData {α : Type} [Element α] [DecidableEq α] {c c' : Column α} (h : Reached rowsLimit checked α c)
    (columnData : List α) (groupId : ℤ) (saveNecessary : Bool) (index : ℕ)
    (hok : c.insertData rowsLimit columnData groupId saveNecessary index = .ok c') : Reached rowsLimit checked α c'
  | insertDataMasked {α : Type} [Element α] [DecidableEq α] {c c' : Column α} (h : Reached rowsLimit checked α c)
    (columnData : List α) (nullMask : Mask) (groupId : ℤ) (saveNecessary : Bool) (index : ℕ)
    (hsave : checked → CountsNulls saveNecessary (c.group groupId) (maskedBatch columnData nullMask))
    (hok : c.insertDataMasked rowsLimit columnData nullMask groupId saveNecessary index = .ok c') :
    Reached rowsLimit checked α c'
  | insertDataOnSpecificPosition {α : Type} [Element α] [DecidableEq α] {c : Column α}
    (h : Reached rowsLimit checked α c) (indexBlock indexInBlock : ℕ) (columnData : α) (groupId : ℤ) (isNullValue : Bool)
    (hputs : checked → ∀ b ∈ targetBlock c groupId indexBlock, PutsClean b indexInBlock isNullValue) :
    Reached rowsLimit checked α
      (c.insertDataOnSpecificPosition rowsLimit indexBlock indexInBlock columnData groupId isNullValue).1
  | setIsNullable {α : Type} [Element α] [DecidableEq α] {c c' : Column α} (h : Reached rowsLimit checked α c)
    (isNullable : Bool) (hok : c.setIsNullable isNullable = .ok c') : Reached rowsLimit checked α c'
  | setNullBitmask {α : Type} [Element α] [DecidableEq α] {c : Column α} (h : Reached rowsLimit checked α c)
    (groupId : ℤ) (i : ℕ) {b b' : Block α} (hb : (c.group groupId)[i]? = some b) (nullMask : Mask)
    (hmask : checked → b.isNullable = true → ∀ j, b.size ≤ j → getBit nullMask j = false)
    (hok : b.setNullBitmask nullMask = .ok b') :
    Reached rowsLimit checked α (c.setGroup groupId ((c.group groupId).set i b'))
  | moveNullBitmask {α : Type} [Element α] [DecidableEq α] {c : Column α} (h : Reached rowsLimit checked α c)
    (groupId : ℤ) (i : ℕ) {b : Block α} (hb : (c.group groupId)[i]? = some b) (nullMask : Mask)
    (hmask : checked → b.isNullable = true → getNullBitMaskSize b.capacity ≤ nullMask.length ∧
      ∀ j, b.size ≤ j → getBit nullMask j = false) :
    Reached rowsLimit checked α (c.setGroup groupId ((c.group groupId).set i (b.moveNullBitmask nullMask)))
  | copyTo {α β : Type} [Element α] [DecidableEq α] [Element β] [DecidableEq β] {src : Column α} {dst : Column β}
    (hsrc : Reached rowsLimit checked α src) (h : Reached rowsLimit checked β dst)
    (conv : Option (Column.Conversion α β))
    (hcopies : checked → ∀ conv' ∈ conv, ∀ b ∈ src.getBlocksList, CopiesClean conv' dst b) :
    Reached rowsLimit checked β (src.copyDataToColumn conv dst).2.1
  | copyFrom {α β : Type} [Element α] [DecidableEq α] [Element β] [DecidableEq β] {src : Column α} {dst : Column β}
    (h : Reached rowsLimit checked α src) (hdst : Reached rowsLimit checked β dst)
    (conv : Option (Column.Conversion α β)) : Reached rowsLimit checked α (src.copyDataToColumn conv dst).1
  | loadColumn {α : Type} [Element α] [DecidableEq α] (path : String) (toString : α → String) (recount : Bool)
    (name : String) (blockSize : ℕ) (isNullable isUnique : Bool) (records : List (LoadedRecord α)) {c : Column α}
    (hload : checked → isNullable = true → ∀ r ∈ records, LoadsClean blockSize r)
    (hok : loadRecords path toString recount name blockSize isNullable isUnique records = .ok c) :
    Reached rowsLimit checked α c

section Runs

variable {rowsLimit : Option ℕ} {α : Type} [Element α] [DecidableEq α]

theorem clean_reached {c : Column α} (h : Reached rowsLimit True α c) : CleanColumn c := by
  induction h with
  | create name blockSize isNullable isUnique => exact clean_fresh name blockSize isNullable isUnique
  | addBlock _ groupId saveNecessary index ih => exact clean_addBlock ih groupId saveNecessary index
  | addBlockData _ data groupId count saveNecessary index ih =>
    exact clean_addBlockData ih data groupId count saveNecessary index
  | addBlockArray _ data dataSize allocationSize groupId count saveNecessary index hroom ih =>
    exact clean_addBlockArray ih dataSize groupId count saveNecessary index hroom
  | insertData _ columnData groupId saveNecessary index hok ih =>
    refine clean_insertBatch ih (Or.inr ?_) hok
    intro row hrow
    obtain ⟨x, -, rfl⟩ := List.mem_map.1 (List.mem_of_mem_drop hrow)
    rfl
  | insertDataMasked _ columnData nullMask groupId saveNecessary index hsave hok ih =>
    unfold Column.insertDataMasked at hok
    split_ifs at hok
    exact clean_insertBatch ih (hsave trivial) hok
  | insertDataOnSpecificPosition _ indexBlock indexInBlock columnData groupId isNullValue hputs ih =>
    exact clean_insertDataOnSpecificPosition ih rowsLimit columnData (hputs trivial)
  | setIsNullable _ isNullable hok ih => exact clean_setIsNullable ih hok
  | setNullBitmask _ groupId i hb nullMask hmask hok ih =>
    have hclean := ih.group groupId _ (List.mem_of_getElem? hb)
    exact ih.setGroup groupId _ (clean_setAt (ih.group groupId) i (clean_setNullBitmask hclean (hmask trivial) hok))
  | moveNullBitmask _ groupId i hb nullMask hmask ih =>
    have hclean := ih.group groupId _ (List.mem_of_getElem? hb)
    refine ih.setGroup groupId _ (clean_setAt (ih.group groupId) i (clean_moveNullBitmask hclean ?_))
    intro hnullable m hm
    obtain rfl := Option.some.inj hm
    rw [← hclean.fits.capacity]
    exact hmask trivial hnullable
  | copyTo _ _ conv hcopies ihsrc ih => exact clean_copyTo conv ihsrc ih (hcopies trivial)
  | copyFrom _ _ conv ih _ => exact clean_copyFrom conv ih _
  | loadColumn path toString recount name blockSize isNullable isUnique records hload hok =>
    exact clean_loadRecords (hload trivial) hok

/-- Every nullable block of a column reached by checked steps has a mask of a word for every 64 rows of its capacity,
clear behind the last row: every row that fits into the block has its bit inside the mask, and rows that are appended
start out non-NULL. -/
theorem masks_cover_capacity {c : Column α} (h : Reached rowsLimit True α c) :
    ∀ b ∈ c.getBlocksList, ∀ m ∈ b.bitMask,
      getNullBitMaskSize b.capacity ≤ m.length ∧ (∀ i, b.size ≤ i → getBit m i = false) ∧
        (∀ i < b.capacity, getBitMaskIdx i < m.length) ∧
        ∀ data saveNecessary b', b.insertData data saveNecessary = .ok b' → ∀ i, b.size ≤ i → b'.isNull i = false := by
  intro b hb m hm
  have hclean := clean_reached h b hb
  obtain ⟨hlen, hclear⟩ := hclean.mask m hm
  have hcapacity : getNullBitMaskSize b.capacity ≤ m.length := by rw [hclean.fits.capacity]; exact hlen
  refine ⟨hcapacity, hclear, ?_, ?_⟩
  · intro i hi
    exact (div_lt_getNullBitMaskSize hi).trans_le hcapacity
  · intro data saveNecessary b' hok i hi
    have hmask : b'.bitMask = some m := (insertData_mask hok).trans hm
    simp only [Block.isNull, hmask]
    exact hclear i hi

end Runs

/-- a nullable column with room for four rows in its block, of which the second of two is NULL -/
theorem masks_cover_capacity_appended :
    ∃ c : Column Int32T, Reached none True Int32T c ∧ (∃ b ∈ c.getBlocksList, b.bitMask = some [2]) ∧
      ∀ b ∈ c.getBlocksList, ∀ m ∈ b.bitMask,
        getNullBitMaskSize b.capacity ≤ m.length ∧ (∀ i, b.size ≤ i → getBit m i = false) ∧
          (∀ i < b.capacity, getBitMaskIdx i < m.length) ∧
          ∀ data saveNecessary b', b.insertData data saveNecessary = .ok b' → ∀ i, b.size ≤ i → b'.isNull i = false := by
  have h : Reached none True Int32T { Column.fresh "a" 4 with isNullable := true } := .create "a" 4 true false
  obtain ⟨c, hc, hmask⟩ : ∃ c, ({ Column.fresh "a" 4 with isNullable := true } : Column Int32T).insertDataMasked none
      [7, 8] [2] (-1) true UINT32_MAX = .ok c ∧ ∃ b ∈ c.getBlocksList, b.bitMask = some [2] :=
    ⟨_, rfl, _, List.mem_singleton_self _, rfl⟩
  have hreached := Reached.insertDataMasked h [7, 8] [2] (-1) true UINT32_MAX (fun _ => Or.inl rfl) hc
  exact ⟨c, hreached, hmask, masks_cover_capacity hreached⟩

/-! ## Masks that do not cover -/

/-- the characters that std::stol skips -/
def isSpace (c : UInt8) : Bool := c = 32 || (9 ≤ c && c ≤ 13)

/-- std::stol: `none` is std::invalid_argument, the error std::out_of_range -/
def stol (s : Str) : Except Fault (Option ℤ) :=
  let t := s.dropWhile isSpace
  let signed : Bool × Str := match t with
    | 45 :: t => (true, t)
    | 43 :: t => (false, t)
    | t => (false, t)
  let digits := signed.2.takeWhile fun c => 48 ≤ c && c ≤ 57
  let n : ℕ := digits.foldl (fun n c => 10 * n + (c.toNat - 48)) 0
  let z : ℤ := if signed.1 then -n else n
  if digits.isEmpty then .ok none
  else if -2 ^ 63 ≤ z ∧ z < 2 ^ 63 then .ok (some z)
  else .error (.runtimeError "stol")

/-- CopyDataToColumn from a string to an int column -/
def stringToInt : Column.Conversion Str Int32T where
  cast s := do .ok ((← stol s).map (IntN.wrap 32))
  nullConstant := IntN.lowest 32
  copiesMask := false

/-- The string "7" copied into an int column of 128-row blocks; a mask of one stored word loaded into such a block,
whose buffer held a one behind it; and a NULL put into the middle of a block of three. -/
theorem masks_fall_short :
    (∃ c : Column Int32T, Reached none False Int32T c ∧ ∃ b ∈ c.getBlocksList, ∃ m ∈ b.bitMask,
      m.length = 1 ∧ getNullBitMaskSize b.capacity = 2) ∧
    (∃ c : Column Int32T, Reached none False Int32T c ∧ ∃ b ∈ c.getBlocksList, ∃ m ∈ b.bitMask,
      b.size = 1 ∧ b.capacity = 128 ∧ getBit m 64 = true) ∧
    ∃ c : Column Int32T, Reached none False Int32T c ∧ ∃ b ∈ c.getBlocksList, ∃ m ∈ b.bitMask,
      b.size = 1 ∧ b.capacity = 3 ∧ getBit m 1 = true := by
  refine ⟨?_, ?_, ?_⟩
  · have hsrc : Reached none False Str { Column.fresh "s" 128 with isNullable := true } := .create "s" 128 true false
    have hdst : Reached none False Int32T { Column.fresh "a" 128 with isNullable := true } := .create "a" 128 true false
    obtain ⟨src, hc⟩ : ∃ c, ({ Column.fresh "s" 128 with isNullable := true } : Column Str).insertData none [[55]] (-1)
      true UINT32_MAX = .ok c := ⟨_, rfl⟩
    have hreached := Reached.copyTo (Reached.insertData hsrc [[55]] (-1) true UINT32_MAX hc) hdst (some stringToInt)
      False.elim
    obtain rfl := Except.ok.inj hc
    exact ⟨_, hreached, _, List.mem_singleton_self _, _, rfl, rfl, rfl⟩
  · obtain ⟨c, hc, hb⟩ : ∃ c : Column Int32T, loadRecords "a.data" NumericFormat.showInt false "a" 128 true false
      [⟨(0, -1, List.replicate 8 0), fun _ => 1, false, [7], 7, 7, 0, 7⟩] = .ok c ∧ ∃ b ∈ c.getBlocksList,
        ∃ m ∈ b.bitMask, b.size = 1 ∧ b.capacity = 128 ∧ getBit m 64 = true :=
      ⟨_, rfl, _, List.mem_singleton_self _, _, rfl, rfl, rfl, rfl⟩
    exact ⟨c, Reached.loadColumn "a.data" NumericFormat.showInt false "a" 128 true false _ False.elim hc, hb⟩
  · have h₀ : Reached none False Int32T { Column.fresh "a" 3 with isNullable := true } := .create "a" 3 true false
    have h₁ := Reached.insertDataOnSpecificPosition h₀ 0 0 7 (-1) false False.elim
    have h₂ := Reached.insertDataOnSpecificPosition h₁ 0 1 8 (-1) true False.elim
    have h₃ := Reached.insertDataOnSpecificPosition h₂ 0 2 9 (-1) false False.elim
    exact ⟨_, h₃, _, List.mem_cons_self, _, rfl, rfl, rfl, rfl⟩

end QikkDB.MaskCoverage

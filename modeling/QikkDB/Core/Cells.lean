/-
The rows of a block as a list of (value, is-null) pairs (BlockBase.h, ColumnBase.h), and what the two functions that move
rows inside of a group of blocks do to it.

- `insertDataOnSpecificPosition_cells`: InsertDataOnSpecificPosition is list insertion, and leaves the null bits behind
  the rows clear.
- `getBit_splitMaskLow_eq`, `getBit_splitMaskHigh_eq`: every bit of the two masks that BlockSplit builds. The mask is
  split behind the bit of row (n - 1) / 2, which for an odd n is the first row of the second half; the second half is
  shifted down word by word without carrying over the low bits of the next word, and ORs the low bits of one and the same
  word into all of its words instead; and when nothing is left to shift by, the last word of the first half is lost.
- `blockSplit_cells_iff`: the null flags for which the two halves hold the rows of the block.
-/
import Mathlib.Tactic
import QikkDB.Core.Column

namespace QikkDB

open NullValues

namespace Block

variable {α : Type} {blockSize : ℕ} {nullable : Bool} {b b' : Block α}

/-! ## Rows with their null bits -/

theorem length_cells (h : b.Valid blockSize nullable) : b.cells.length = b.size := by
  rw [cells, List.length_map, List.length_zipIdx, h.rows_length]

theorem getElem?_cells (b : Block α) (i : ℕ) : b.cells[i]? = b.rows[i]?.map fun x => (x, b.isNull i) := by
  simp [cells, List.getElem?_zipIdx, Function.comp_def]

/-- the cells of a block are a given list when values and null bits agree row by row -/
theorem cells_eq_iff {xs : List (α × Bool)} (hlen : b.rows.length = xs.length) :
    b.cells = xs ↔ b.rows = xs.map Prod.fst ∧ ∀ i, (h : i < xs.length) → b.isNull i = xs[i].2 := by
  constructor
  · rintro rfl
    refine ⟨?_, fun i h => ?_⟩
    · rw [cells, List.map_map]
      exact (List.zipIdx_map_fst 0 b.rows).symm
    · simp [cells]
  · rintro ⟨hrows, hnull⟩
    apply List.ext_getElem?
    intro i
    rw [getElem?_cells, hrows, List.getElem?_map]
    by_cases hi : i < xs.length
    · simp [hi, hnull i hi]
    · simp [hi]

/-- the null bits behind the rows are zero -/
def ClearBehind (b : Block α) : Prop := ∀ i, b.size ≤ i → b.isNull i = false

/-! ## Inserting a row -/

theorem insertIdx_eq {β : Type} {l : List β} {i : ℕ} (h : i ≤ l.length) (x : β) :
    l.insertIdx i x = l.take i ++ x :: l.drop i := by
  induction l generalizing i with
  | nil =>
    obtain rfl : i = 0 := Nat.le_zero.1 h
    rfl
  | cons y l ih =>
    cases i with
    | zero => rfl
    | succ i => simp [ih (Nat.le_of_succ_le_succ h)]

/-- every null bit after a row is inserted -/
theorem getBit_insertBit_of_clear {mask : Mask} {index size : ℕ} {isNullValue : Bool}
    (hclear : ∀ i, size ≤ i → getBit mask i = false) (hlen : size / 64 < mask.length) (hindex : index < size) (j : ℕ) :
    getBit (insertBit mask index isNullValue) j =
      if j < index then getBit mask j else if j = index then isNullValue else getBit mask (j - 1) := by
  by_cases hj : j / 64 < mask.length
  · exact getBit_insertBit mask index j isNullValue (by omega) hj
  · have hbehind : size < j := by
      by_contra hle
      have := Nat.div_le_div_right (c := 64) (not_lt.1 hle)
      omega
    rw [getBit_of_length_le (by rw [length_insertBit]; omega), if_neg (by omega), if_neg (by omega),
      hclear (j - 1) (by omega)]

/-- the mask that putBit leaves in a block whose mask is clear behind its rows -/
theorem putBit_bits (h : b.Valid blockSize true) (hclear : b.ClearBehind) (hroom : b.size < blockSize) {index : ℕ}
    (hindex : index ≤ b.size) (isNullValue : Bool) {m : Option Mask} (hput : b.putBit index isNullValue = .ok m)
    (hm : b'.bitMask = m) (j : ℕ) :
    b'.isNull j = if j < index then b.isNull j else if j = index then isNullValue else b.isNull (j - 1) := by
  obtain ⟨mask, hmask⟩ : ∃ mask, b.bitMask = some mask := Option.isSome_iff_exists.1 h.nullable
  have hnull : ∀ i, b.isNull i = getBit mask i := fun i => by rw [isNull, hmask]
  have hlen : b.size / 64 < mask.length := by
    rw [h.mask mask hmask]
    exact div_lt_getNullBitMaskSize hroom
  have hclear' : ∀ i, b.size ≤ i → getBit mask i = false := fun i hi => by rw [← hnull, hclear i hi]
  unfold putBit at hput
  simp only [hmask] at hput
  by_cases hlt : index < b.size
  · rw [if_pos hlt] at hput
    obtain rfl := Except.ok.inj hput
    simp only [hnull]
    rw [isNull, hm]
    exact getBit_insertBit_of_clear hclear' hlen hlt j
  · obtain rfl : index = b.size := by omega
    rw [if_neg hlt] at hput
    -- behind the rows all bits are zero, so the bit of the new row is the only one that may have to be written
    have hrest : ∀ j, ¬ j < b.size → j ≠ b.size → b.isNull (j - 1) = b.isNull j := by
      intro j hj hne
      rw [hclear (j - 1) (by omega), hclear j (by omega)]
    cases isNullValue with
    | false =>
      obtain rfl := Except.ok.inj hput
      have hsame : b'.isNull j = b.isNull j := by rw [isNull, hm, hnull]
      rw [hsame]
      split_ifs with h₁ h₂
      · rfl
      · rw [hclear j (by omega)]
      · exact (hrest j h₁ h₂).symm
    | true =>
      obtain rfl := Except.ok.inj hput
      have hset : b'.isNull j = if j = b.size then true else b.isNull j := by
        rw [isNull, hm, hnull]
        exact getBit_setBit mask b.size j true hlen
      rw [hset]
      split_ifs with h₁ h₂ h₃
      · omega
      · rfl
      · rfl
      · exact (hrest j h₃ h₁).symm

variable [Element α]

/-- **InsertDataOnSpecificPosition is list insertion.** In a nullable block with room, clear behind its rows, the row
comes to stand at its position and the block is clear behind its rows again. -/
theorem insertDataOnSpecificPosition_cells (h : b.Valid blockSize true) (hroom : b.isFull = false)
    (hclear : b.ClearBehind) {index : ℕ} (hindex : index ≤ b.size) (data : α) (isNullValue saveNecessary : Bool) :
    ∃ b', b.insertDataOnSpecificPosition index data isNullValue saveNecessary = .ok b' ∧ b'.Valid blockSize true ∧
      b'.cells = b.cells.insertIdx index (data, isNullValue) ∧ b'.ClearBehind := by
  have hlt : b.size < blockSize := by
    have hspace : b.emptyBlockSpace ≠ 0 := by simpa [isFull] using hroom
    rw [emptyBlockSpace, h.capacity] at hspace
    omega
  obtain ⟨b', hok, hvalid, hrows, hsize, ⟨m, hb'⟩, -⟩ :=
    insertDataOnSpecificPosition_ok h data saveNecessary hindex hlt fun _ : isNullValue = true => rfl
  have hput : b.putBit index isNullValue = .ok b'.bitMask := by
    unfold insertDataOnSpecificPosition at hok
    split_ifs at hok
    obtain ⟨m', hm', hok⟩ := bind_eq_ok.1 hok
    obtain rfl := Except.ok.inj hok
    rw [hm']
    exact congrArg Except.ok
      (updateBlockStatistics_store { b with data := b.putData index data, bitMask := m' } data isNullValue).bitMask.symm
  have hbits := putBit_bits h hclear hlt hindex isNullValue hput rfl
  have hcells : b.cells.length = b.size := length_cells h
  refine ⟨b', hok, hvalid, ?_, ?_⟩
  · have hlen : (b.cells.insertIdx index (data, isNullValue)).length = b.size + 1 := by
      rw [List.length_insertIdx_of_le_length (by omega), hcells]
    refine (cells_eq_iff (by rw [hlen, hvalid.rows_length, hsize])).2 ⟨?_, fun i hi => ?_⟩
    · have hmap : b.cells.map Prod.fst = b.rows := by
        rw [cells, List.map_map]
        exact List.zipIdx_map_fst 0 b.rows
      rw [List.map_insertIdx, hmap, hrows, insertIdx_eq (by rw [h.rows_length]; exact hindex)]
    · rw [hlen] at hi
      rw [hbits i, List.getElem_insertIdx]
      split_ifs with h₁ h₂
      · simp [cells]
      · rfl
      · simp [cells]
  · intro i hi
    rw [hsize] at hi
    rw [hbits i, if_neg (by omega), if_neg (by omega), hclear (i - 1) (by omega)]

/-- a NULL put between two rows -/
theorem insertDataOnSpecificPosition_cells_middle :
    ∃ b b' : Block Int32T, b.cells = [(5, false), (6, true)] ∧
      b.insertDataOnSpecificPosition 1 7 true true = .ok b' ∧
      b'.cells = [(5, false), (7, true), (6, true)] ∧ b'.ClearBehind := by
  obtain ⟨b, hcells, hcapacity, hdata, hsize, hmask⟩ : ∃ b : Block Int32T, b.cells = [(5, false), (6, true)] ∧
      b.capacity = 3 ∧ b.data = [5, 6] ∧ b.size = 2 ∧ b.bitMask = some [2#64] :=
    ⟨{ (Block.empty 3 true true UINT32_MAX : Block Int32T) with data := [5, 6], size := 2, bitMask := some [2#64] }, rfl,
      rfl, rfl, rfl, rfl⟩
  have hvalid : b.Valid 3 true := by
    refine ⟨hcapacity, by rw [hsize, hdata]; rfl, by rw [hdata]; decide, by rw [isNullable, hmask]; rfl, ?_⟩
    intro m hm
    rw [hmask] at hm
    obtain rfl := Option.some.inj hm
    rfl
  have hclear : b.ClearBehind := by
    intro i hi
    rw [hsize] at hi
    rw [isNull, hmask]
    by_cases hword : i < 64
    · have : ∀ i < 64, 2 ≤ i → getBit [2#64] i = false := by decide
      exact this i hword hi
    · exact getBit_of_length_le (by simp only [List.length_singleton]; omega)
  obtain ⟨b', hok, -, hinserted, hclear'⟩ := insertDataOnSpecificPosition_cells hvalid
    (by rw [isFull, emptyBlockSpace, hcapacity, hsize]; rfl) hclear (show 1 ≤ b.size by rw [hsize]; decide) 7
    true true
  rw [hcells] at hinserted
  exact ⟨b, b', hcells, hok, hinserted, hclear'⟩

end Block

namespace Column

variable {α : Type}

/-- the rows of a list of blocks -/
def cellsOf (bs : List (Block α)) : List (α × Bool) := bs.flatMap Block.cells

theorem cellsOf_append (bs bs' : List (Block α)) : cellsOf (bs ++ bs') = cellsOf bs ++ cellsOf bs' := by
  simp [cellsOf]

/-! ## Splitting a block -/

/-- the first row that the mask of the second half is made from: (n - 1) / 2 + 1 -/
def splitBit (size : ℕ) : ℕ := (size - 1) / 2 + 1

/-- every bit of the first half's mask up to the middle word -/
theorem getBit_splitMaskLow_eq {mask : Mask} {size i : ℕ} (hlen : (size - 1) / 2 / 64 < mask.length)
    (hi : i / 64 ≤ (size - 1) / 2 / 64) :
    getBit (splitMaskLow mask size) i =
      (decide (i / 64 < (size - 1) / 2 / 64 ∨ i % 64 < splitBit size % 64) && getBit mask i) := by
  set q := (size - 1) / 2 with hq
  have htake : (mask.take (q / 64)).length = q / 64 := by
    rw [List.length_take]
    omega
  simp only [splitMaskLow, getBitMaskIdx, getShiftMaskIdx, ← hq]
  rcases Nat.lt_or_eq_of_le hi with hlt | heq
  · simp only [getBit, getBitMaskIdx, getShiftMaskIdx, hlt, true_or, decide_true, Bool.true_and]
    rw [List.getD_append _ _ _ _ (by omega), List.getD_eq_getElem?_getD, List.getElem?_take, if_pos hlt,
      ← List.getD_eq_getElem?_getD]
  · -- the word of the middle row
    have hword : 64 * (q / 64) + i % 64 = i := by omega
    have hshift : (q % 64 + 1) % 64 = splitBit size % 64 := by
      rw [splitBit, ← hq]
      omega
    simp only [getBit, getBitMaskIdx, getShiftMaskIdx]
    rw [List.getD_append_right _ _ _ _ (by omega), htake, heq, Nat.sub_self, List.getD_cons_zero,
      getLsbD_getPartOfBitmaskByte mask _ _ _ (Nat.mod_lt _ (by decide)), hword, hshift]
    simp [getBit, getBitMaskIdx, getShiftMaskIdx, heq]

/-- the row of the split block whose null bit the shift puts at row `j` of the second half -/
def shiftedRow (size j : ℕ) : ℕ := 64 * ((size - 1) / 2 / 64) + j + splitBit size % 64

/-- the row of the split block whose null bit is ORed in at row `j` of the second half -/
def oredRow (size j : ℕ) : ℕ := 64 * ((size - 1) / 2 / 64 + 1) + j % 64

/-- the null bit of row `j` of the second half, by the bits of the split block: the shifted one if it comes from the same
word, and the low bit of the word behind the middle one, if there is such a word -/
def highBit (isNull : ℕ → Bool) (size words j : ℕ) : Bool :=
  (decide (j % 64 + splitBit size % 64 < 64) && isNull (shiftedRow size j)) ||
    (decide ((size - 1) / 2 / 64 + 1 < words ∧ j % 64 < splitBit size % 64) && isNull (oredRow size j))

/-- every bit of the second half's mask in the words that are written -/
theorem getBit_splitMaskHigh_eq {mask : Mask} {size j : ℕ} (hj : j / 64 + (size - 1) / 2 / 64 < mask.length) :
    getBit (splitMaskHigh mask size) j = highBit (getBit mask) size mask.length j := by
  set q := (size - 1) / 2 with hq
  have hmod : j % 64 < 64 := Nat.mod_lt _ (by decide)
  have hsplit : (q % 64 + 1) % 64 = splitBit size % 64 := by
    rw [splitBit, ← hq]
    omega
  have hmap : ∀ f : ℕ → BitVec 64, ((List.range (mask.length - q / 64)).map f).length = mask.length - q / 64 := by
    intro f
    rw [List.length_map, List.length_range]
  have hshifted : (mask.getD (q / 64 + j / 64) 0 >>> (splitBit size % 64)).getLsbD (j % 64) =
      (decide (j % 64 + splitBit size % 64 < 64) && getBit mask (shiftedRow size j)) := by
    rw [BitVec.getLsbD_ushiftRight]
    by_cases hin : j % 64 + splitBit size % 64 < 64
    · have h₁ : shiftedRow size j / 64 = q / 64 + j / 64 := by
        rw [shiftedRow, ← hq]
        omega
      have h₂ : shiftedRow size j % 64 = splitBit size % 64 + j % 64 := by
        rw [shiftedRow, ← hq]
        omega
      simp only [hin, decide_true, Bool.true_and, getBit, getBitMaskIdx, getShiftMaskIdx, h₁, h₂]
    · rw [BitVec.getLsbD_of_ge _ _ (by omega)]
      simp [hin]
  simp only [splitMaskHigh, getBitMaskIdx, getShiftMaskIdx, ← hq]
  rw [getBit, getBitMaskIdx, getShiftMaskIdx, List.getD_append _ _ _ _ (by rw [hmap]; omega),
    List.getD_eq_getElem _ _ (by rw [hmap]; omega)]
  simp only [List.getElem_map, List.getElem_range, hsplit]
  rw [highBit, ← hshifted, ← hq]
  split_ifs with hword
  · rw [BitVec.getLsbD_or, getLsbD_getPartOfBitmaskByte mask _ _ _ hmod, hsplit]
    simp [oredRow, hword, ← hq]
  · simp [hword]

/-- the ORed bit is there, the low part of a word has it, and its row is NULL -/
def OredNull (isNull : ℕ → Bool) (size words j : ℕ) : Prop :=
  (size - 1) / 2 / 64 + 1 < words ∧ j % 64 < splitBit size % 64 ∧ isNull (oredRow size j) = true

/-- the null flags of a block of `size` rows, with a mask of `words` words, that BlockSplit hands over as they are -/
structure SplitsExactly (size words : ℕ) (isNull : ℕ → Bool) : Prop where
  /-- with the bit of the middle row in the last place of a word, that word of the first half is not copied -/
  low : splitBit size % 64 = 0 → ∀ i < size / 2, i / 64 = (size - 1) / 2 / 64 → isNull i = false
  /-- rows of the second half that are shifted inside of a word -/
  inWord : ∀ j < size - size / 2, j % 64 + splitBit size % 64 < 64 →
    (isNull (size / 2 + j) = true ↔ isNull (shiftedRow size j) = true ∨ OredNull isNull size words j)
  /-- rows of the second half that the shift would have to take from the next word -/
  acrossWords : ∀ j < size - size / 2, 64 ≤ j % 64 + splitBit size % 64 →
    (isNull (size / 2 + j) = true ↔ OredNull isNull size words j)

theorem highBit_eq_true (isNull : ℕ → Bool) (size words j : ℕ) :
    highBit isNull size words j = true ↔
      j % 64 + splitBit size % 64 < 64 ∧ isNull (shiftedRow size j) = true ∨ OredNull isNull size words j := by
  simp [highBit, OredNull, and_assoc]

/-- the flags are handed over when both masks have them at their rows -/
theorem splitsExactly_iff {size words : ℕ} {isNull : ℕ → Bool} :
    SplitsExactly size words isNull ↔
      (∀ i < size / 2, (decide (i / 64 < (size - 1) / 2 / 64 ∨ i % 64 < splitBit size % 64) && isNull i) = isNull i) ∧
      ∀ j < size - size / 2, highBit isNull size words j = isNull (size / 2 + j) := by
  constructor
  · intro h
    refine ⟨fun i hi => ?_, fun j hj => ?_⟩
    · rcases Bool.eq_false_or_eq_true (isNull i) with hnull | hnull
      · rw [hnull, Bool.and_true, decide_eq_true_eq]
        by_contra hnot
        have hword : i / 64 = (size - 1) / 2 / 64 := by omega
        have hzero : splitBit size % 64 = 0 := by
          rw [splitBit] at hnot ⊢
          omega
        rw [h.low hzero i hi hword] at hnull
        cases hnull
      · rw [hnull, Bool.and_false]
    · rw [Bool.eq_iff_iff, highBit_eq_true]
      by_cases hin : j % 64 + splitBit size % 64 < 64
      · rw [h.inWord j hj hin]
        simp [hin]
      · rw [h.acrossWords j hj (not_lt.1 hin)]
        simp [hin]
  · rintro ⟨hlow, hhigh⟩
    refine ⟨fun hzero i hi hword => ?_, fun j hj hin => ?_, fun j hj hacross => ?_⟩
    · rw [← hlow i hi, hzero, hword]
      simp
    · rw [← hhigh j hj, highBit_eq_true, and_iff_right hin]
    · rw [← hhigh j hj, highBit_eq_true, or_iff_right fun h => absurd h.1 (not_lt.2 hacross)]

theorem not_oredNull_one (isNull : ℕ → Bool) (size j : ℕ) : ¬ OredNull isNull size 1 j :=
  fun h => absurd h.1 (Nat.not_lt.2 (Nat.le_add_left 1 _))

/-- a block of an even size with a mask of one word is always split exactly -/
theorem splitsExactly_of_even {size : ℕ} (hsize : size ≤ 64) (heven : size % 2 = 0) (isNull : ℕ → Bool) :
    SplitsExactly size 1 isNull := by
  have hbit : splitBit size ≤ 32 := by
    rw [splitBit]
    omega
  refine ⟨fun hzero => ?_, fun j hj hin => ?_, fun j hj hacross => ?_⟩
  · rw [splitBit] at hzero
    omega
  · have hrow : shiftedRow size j = size / 2 + j := by
      rw [shiftedRow, splitBit]
      rw [splitBit] at hin
      omega
    rw [hrow, or_iff_left (not_oredNull_one isNull size j)]
  · rw [splitBit] at hacross
    omega

/-- a block of an odd size with a mask of one word is split exactly when its second half and the bit behind its rows all
have one flag -/
theorem splitsExactly_odd_iff {size : ℕ} (hsize : size < 64) (hodd : size % 2 = 1) (isNull : ℕ → Bool) :
    SplitsExactly size 1 isNull ↔ ∀ j ≤ size / 2, isNull (size / 2 + j) = isNull (size / 2 + j + 1) := by
  have hin : ∀ j ≤ size / 2, j % 64 + splitBit size % 64 < 64 ∧ shiftedRow size j = size / 2 + j + 1 := by
    intro j hj
    rw [shiftedRow, splitBit]
    omega
  constructor
  · intro h j hj
    have := h.inWord j (by omega) (hin j hj).1
    rw [(hin j hj).2, or_iff_left (not_oredNull_one isNull size j)] at this
    exact Bool.eq_iff_iff.2 this
  · intro h
    refine ⟨fun hzero => ?_, fun j hj _ => ?_, fun j hj hacross => ?_⟩
    · rw [splitBit] at hzero
      omega
    · rw [(hin j (by omega)).2, h j (by omega), or_iff_left (not_oredNull_one isNull size j)]
    · have := (hin j (by omega)).1
      omega

variable [Element α]

/-- BlockSplit of a block of the column: the halves take its place in the group -/
def blockSplitAt (c : Column α) (groupId : ℤ) (indexBlock : ℕ) : Except Fault (Column α) :=
  match (c.group groupId)[indexBlock]? with
  | none => .error .undefined
  | some block => do
    let halves ← c.blockSplit block
    .ok (c.setGroup groupId
      ((c.group groupId).take indexBlock ++ halves.1 :: halves.2 :: (c.group groupId).drop (indexBlock + 1)))

/-- what BlockSplit makes of a nullable block -/
theorem blockSplit_ok {c : Column α} {b : Block α} {mask : Mask} (h : b.Valid c.blockSize true)
    (hmask : b.bitMask = some mask) (hnullable : c.isNullable = true) :
    ∃ halves, c.blockSplit b = .ok halves ∧
      (halves.1.rows = b.rows.take (b.size / 2) ∧ halves.1.size = b.size / 2 ∧
        halves.1.bitMask = some (splitMaskLow mask b.size)) ∧
      (halves.2.rows = b.rows.drop (b.size / 2) ∧ halves.2.size = b.size - b.size / 2 ∧
        halves.2.bitMask = some (splitMaskHigh mask b.size)) := by
  have hrows := h.rows_length
  have hle := h.size_le
  obtain ⟨b₁, h₁, -, hrows₁, hsize₁, -⟩ := @Block.ofData_ok _ _ c.blockSize b.isNullable
    (b.rows.take (b.size / 2)) true UINT32_MAX (by rw [List.length_take]; omega)
  obtain ⟨b₂, h₂, -, hrows₂, hsize₂, -⟩ := @Block.ofData_ok _ _ c.blockSize b.isNullable
    (b.rows.drop (b.size / 2)) true UINT32_MAX (by rw [List.length_drop]; omega)
  refine ⟨({ b₁ with bitMask := some (splitMaskLow mask b.size) }, { b₂ with bitMask := some (splitMaskHigh mask b.size) }),
    ?_, ⟨hrows₁, ?_, rfl⟩, hrows₂, ?_, rfl⟩
  · simp only [blockSplit, h₁, h₂, bind, Except.bind, hnullable, hmask]
  · rw [hsize₁, List.length_take]
    omega
  · rw [hsize₂, List.length_drop, hrows]

/-- **BlockSplit hands over the rows exactly when the flags are those that its masks keep.** -/
theorem blockSplit_cells_iff {c : Column α} {groupId : ℤ} {indexBlock : ℕ} {b : Block α}
    (hblock : (c.group groupId)[indexBlock]? = some b) (h : b.Valid c.blockSize true) (hnullable : c.isNullable = true)
    (hsize : 2 ≤ b.size) :
    (∃ block1 block2 c', c.blockSplitAt groupId indexBlock = .ok c' ∧
      c'.group groupId =
        (c.group groupId).take indexBlock ++ block1 :: block2 :: (c.group groupId).drop (indexBlock + 1) ∧
      block1.cells ++ block2.cells = b.cells ∧ block1.size = b.size / 2) ↔
      SplitsExactly b.size (getNullBitMaskSize c.blockSize) b.isNull := by
  obtain ⟨mask, hmask⟩ : ∃ mask, b.bitMask = some mask := Option.isSome_iff_exists.1 h.nullable
  have hlen : mask.length = getNullBitMaskSize c.blockSize := h.mask mask hmask
  have hle := h.size_le
  have hword : ∀ i < b.size, i / 64 < mask.length := fun i hi => hlen ▸ div_lt_getNullBitMaskSize (by omega)
  obtain ⟨halves, hok, ⟨hrows₁, hsize₁, hmask₁⟩, hrows₂, hsize₂, hmask₂⟩ := blockSplit_ok h hmask hnullable
  have hnull : b.isNull = getBit mask := by
    funext i
    rw [Block.isNull, hmask]
  have hrows := h.rows_length
  -- the two masks at the rows of the halves
  have hlow : ∀ i < b.size / 2, halves.1.isNull i =
      (decide (i / 64 < (b.size - 1) / 2 / 64 ∨ i % 64 < splitBit b.size % 64) && b.isNull i) := by
    intro i hi
    rw [Block.isNull, hmask₁, hnull]
    exact getBit_splitMaskLow_eq (hword _ (by omega)) (by omega)
  have hhigh : ∀ j < b.size - b.size / 2, halves.2.isNull j =
      highBit b.isNull b.size (getNullBitMaskSize c.blockSize) j := by
    intro j hj
    rw [Block.isNull, hmask₂, hnull, ← hlen]
    apply getBit_splitMaskHigh_eq
    have := hword (j + (b.size - 1) / 2) (by omega)
    omega
  -- so the halves hold the rows when the masks have the flags of the block
  have hcells : halves.1.cells ++ halves.2.cells = b.cells ↔
      SplitsExactly b.size (getNullBitMaskSize c.blockSize) b.isNull := by
    have hcut : b.cells = b.cells.take (b.size / 2) ++ b.cells.drop (b.size / 2) := (List.take_append_drop _ _).symm
    have hcount := Block.length_cells h
    have hvalues : b.cells.map Prod.fst = b.rows := by
      rw [Block.cells, List.map_map]
      exact List.zipIdx_map_fst 0 b.rows
    have hlen₁ : halves.1.rows.length = (b.cells.take (b.size / 2)).length := by
      rw [hrows₁, List.length_take, List.length_take, hrows, hcount]
    have hlen₂ : halves.2.rows.length = (b.cells.drop (b.size / 2)).length := by
      rw [hrows₂, List.length_drop, List.length_drop, hrows, hcount]
    have happend : halves.1.cells ++ halves.2.cells = b.cells ↔
        halves.1.cells = b.cells.take (b.size / 2) ∧ halves.2.cells = b.cells.drop (b.size / 2) := by
      constructor
      · intro heq
        refine List.append_inj (heq.trans hcut) ?_
        rw [← hlen₁, Block.cells, List.length_map, List.length_zipIdx]
      · rintro ⟨h₁, h₂⟩
        rw [h₁, h₂, List.take_append_drop]
    rw [happend, Block.cells_eq_iff hlen₁, Block.cells_eq_iff hlen₂, splitsExactly_iff, hrows₁, hrows₂, List.map_take,
      List.map_drop, hvalues]
    simp only [true_and, List.length_take, List.length_drop, hcount, List.getElem_take, List.getElem_drop]
    have hflag : ∀ i, (hi : i < b.cells.length) → b.cells[i].2 = b.isNull i := by
      intro i hi
      simp [Block.cells]
    constructor
    · rintro ⟨h₁, h₂⟩
      refine ⟨fun i hi => ?_, fun j hj => ?_⟩
      · rw [← hlow i hi, h₁ i (by omega), hflag]
      · rw [← hhigh j hj, h₂ j hj, hflag]
    · rintro ⟨h₁, h₂⟩
      refine ⟨fun i hi => ?_, fun j hj => ?_⟩
      · rw [hlow i (by omega), h₁ i (by omega), hflag]
      · rw [hhigh j hj, h₂ j hj, hflag]
  have hsplitAt : c.blockSplitAt groupId indexBlock = .ok (c.setGroup groupId
      ((c.group groupId).take indexBlock ++ halves.1 :: halves.2 :: (c.group groupId).drop (indexBlock + 1))) := by
    rw [blockSplitAt, hblock]
    exact bind_eq_ok.2 ⟨halves, hok, rfl⟩
  rw [← hcells]
  constructor
  · rintro ⟨block1, block2, c', hc', hgroup, hsame, -⟩
    obtain rfl := Except.ok.inj (hsplitAt.symm.trans hc')
    rw [Column.group_setGroup] at hgroup
    have hpair := List.append_cancel_left hgroup
    rw [(List.cons.inj hpair).1, (List.cons.inj (List.cons.inj hpair).2).1]
    exact hsame
  · intro hsame
    exact ⟨halves.1, halves.2, _, hsplitAt, Column.group_setGroup _ _ _, hsame, hsize₁⟩

/-- a nullable column of one block with the given rows -/
theorem one_block (columnData : List Int32T) {word : BitVec 64} {c : Column Int32T} {b : Block Int32T}
    (hgroup : c.group (-1) = [b]) (hsize : c.blockSize = columnData.length)
    (hcapacity : b.capacity = columnData.length) (hdata : b.data = columnData) (hrows : b.size = columnData.length)
    (hmask : b.bitMask = some [word]) (hword : getNullBitMaskSize columnData.length = 1) :
    (c.group (-1))[0]? = some b ∧ b.Valid c.blockSize true := by
  refine ⟨by rw [hgroup]; rfl, by rw [hcapacity, hsize], by rw [hrows, hdata], by rw [hdata, hsize], ?_, ?_⟩
  · rw [Block.isNullable, hmask]
    rfl
  · intro m hm
    rw [hmask] at hm
    obtain rfl := Option.some.inj hm
    rw [hsize, hword]
    rfl

/-- a full block of four rows, the second and the last NULL -/
theorem blockSplit_cells_four :
    ∃ c : Column Int32T, ∃ b, (c.group (-1))[0]? = some b ∧ b.cells = [(5, false), (6, true), (7, false), (8, true)] ∧
      ∃ block1 block2 c', c.blockSplitAt (-1) 0 = .ok c' ∧ c'.group (-1) = [block1, block2] ∧
        block1.cells ++ block2.cells = b.cells ∧ block1.size = 2 := by
  obtain ⟨c, b, -, hgroup, hcells, hblockSize, hcapacity, hdata, hsize, hmask, hnullable⟩ : ∃ c b,
      ({ Column.fresh "a" 4 with isNullable := true } : Column Int32T).insertDataMasked none [5, 6, 7, 8] [10#64] (-1) true
        UINT32_MAX = .ok c ∧ c.group (-1) = [b] ∧ b.cells = [(5, false), (6, true), (7, false), (8, true)] ∧
      c.blockSize = 4 ∧ b.capacity = 4 ∧ b.data = [5, 6, 7, 8] ∧ b.size = 4 ∧ b.bitMask = some [10#64] ∧
      c.isNullable = true := ⟨_, _, rfl, rfl, rfl, rfl, rfl, rfl, rfl, rfl, rfl⟩
  obtain ⟨hblock, hvalid⟩ := one_block [5, 6, 7, 8] hgroup hblockSize hcapacity hdata hsize hmask rfl
  obtain ⟨block1, block2, c', hok, hpair, hsame, hhalf⟩ :=
    (blockSplit_cells_iff hblock hvalid hnullable (by rw [hsize]; decide)).2 (by
      rw [hsize, hblockSize]
      exact splitsExactly_of_even (by decide) rfl b.isNull)
  rw [hgroup] at hpair
  exact ⟨c, b, hblock, hcells, block1, block2, c', hok, hpair, hsame, by rw [hhalf, hsize]⟩

/-- Three rows of which the last is NULL: after the split the second is. -/
theorem blockSplit_moves_null :
    ∃ c : Column Int32T, ∃ b, (c.group (-1))[0]? = some b ∧ b.Valid c.blockSize true ∧ c.isNullable = true ∧
      2 ≤ b.size ∧ b.cells = [(5, false), (6, false), (7, true)] ∧
      ∃ block1 block2 c', c.blockSplitAt (-1) 0 = .ok c' ∧ c'.group (-1) = [block1, block2] ∧
        block1.cells ++ block2.cells = [(5, false), (6, true), (7, false)] := by
  obtain ⟨c, b, -, hgroup, hcells, hblockSize, hcapacity, hdata, hsize, hmask, hnullable, block1, block2, c', hok, hpair,
      hmoved⟩ : ∃ c b,
      ({ Column.fresh "a" 3 with isNullable := true } : Column Int32T).insertDataMasked none [5, 6, 7] [4#64] (-1) true
        UINT32_MAX = .ok c ∧ c.group (-1) = [b] ∧ b.cells = [(5, false), (6, false), (7, true)] ∧
      c.blockSize = 3 ∧ b.capacity = 3 ∧ b.data = [5, 6, 7] ∧ b.size = 3 ∧ b.bitMask = some [4#64] ∧
      c.isNullable = true ∧ ∃ block1 block2 c', c.blockSplitAt (-1) 0 = .ok c' ∧ c'.group (-1) = [block1, block2] ∧
        block1.cells ++ block2.cells = [(5, false), (6, true), (7, false)] := by
    refine ⟨_, _, rfl, rfl, rfl, rfl, rfl, rfl, rfl, rfl, rfl, _, _, _, rfl, rfl, ?_⟩
    rfl
  obtain ⟨hblock, hvalid⟩ := one_block [5, 6, 7] hgroup hblockSize hcapacity hdata hsize hmask rfl
  exact ⟨c, b, hblock, hvalid, hnullable, by rw [hsize]; decide, hcells, block1, block2, c', hok, hpair, hmoved⟩

end Column

end QikkDB

/-
The recorded minimum and maximum of a block bound its non-null rows (BlockBase.h, BlockBase.cpp, ColumnBase::BlockSplit
and the save and load of numeric columns), for int8_t, int32_t and int64_t. Pruning by statistics rests on it.

The machine's state is the list of all blocks; an operation constructs a block, changes one, splits one, or saves a
column made of existing blocks and loads it again. What the operations rely on their callers for is `Admitted`:
- a null flag only goes to a block with a mask, and rows are put at most one behind the last;
- the mask is taken away only from a block without NULLs, as ColumnBase::SetIsNullable checks first;
- a column is saved with blocks of its own nullability.
For int8_t, SetNullBitmask does not count the rows again, so there it must not turn a NULL into a value.

- `setBlockStatistics_bounded`, `recountNullable_bounded`: the statistics functions establish the bounds.
- `step_inv`: every admitted operation keeps every block bounded.
- `statistics_bound_rows`: so does every run.
-/
import Mathlib.Tactic
import QikkDB.Lib.Run
import QikkDB.Core.Column
import QikkDB.Storage.NumericFormat

namespace QikkDB.BlockStatistics

open NullValues NumericFormat Storage

variable {w : ℕ}

/-! ## Bounds -/

/-- a value is within the recorded minimum and maximum -/
def Covers (b : Block (IntN w)) (v : IntN w) : Prop := b.min ≤ v ∧ v ≤ b.max

instance (b : Block (IntN w)) (v : IntN w) : Decidable (Covers b v) := inferInstanceAs (Decidable (_ ∧ _))

/-- every non-null row is within the recorded minimum and maximum -/
def Bounded (b : Block (IntN w)) : Prop := ∀ c ∈ b.cells, c.2 = false → Covers b c.1

instance (b : Block (IntN w)) : Decidable (Bounded b) :=
  inferInstanceAs (Decidable (∀ c ∈ b.cells, c.2 = false → Covers b c.1))

theorem bounded_iff (b : Block (IntN w)) :
    Bounded b ↔ ∀ (i : ℕ) (v : IntN w), b.rows[i]? = some v → b.isNull i = false → Covers b v := by
  simp only [Bounded, Block.cells, List.mem_map, Prod.exists, List.mem_zipIdx_iff_getElem?]
  constructor
  · intro h i v hv hnull
    exact h (v, b.isNull i) ⟨v, i, hv, rfl⟩ hnull
  · rintro h c ⟨v, i, hv, rfl⟩ hnull
    exact h i v hv hnull

/-- blocks with the same rows, null bits and statistics -/
theorem Bounded.congr {a b : Block (IntN w)} (hb : Bounded b) (hrows : a.rows = b.rows)
    (hnull : ∀ i v, b.rows[i]? = some v → a.isNull i = false → b.isNull i = false) (hmin : a.min = b.min)
    (hmax : a.max = b.max) : Bounded a := by
  rw [bounded_iff] at hb ⊢
  intro i v hv hn
  rw [hrows] at hv
  have hc := hb i v hv (hnull i v hv hn)
  rwa [Covers, hmin, hmax]

/-- a block all of whose rows are covered, whatever its mask -/
theorem bounded_of_all {b : Block (IntN w)} (h : ∀ v ∈ b.rows, Covers b v) : Bounded b := by
  rw [bounded_iff]
  intro i v hv _
  exact h v (List.mem_of_getElem? hv)

/-! ## The statistics functions -/

theorem low_le (x m : IntN w) : (if Element.lt x m then x else m) ≤ x ∧ (if Element.lt x m then x else m) ≤ m := by
  have hlt : Element.lt x m = decide (x < m) := rfl
  by_cases h : x < m
  · simp [hlt, h, h.le]
  · simp [hlt, h, not_lt.1 h]

theorem le_high (x m : IntN w) : x ≤ (if Element.lt m x then x else m) ∧ m ≤ (if Element.lt m x then x else m) := by
  have hlt : Element.lt m x = decide (m < x) := rfl
  by_cases h : m < x
  · simp [hlt, h, h.le]
  · simp [hlt, h, not_lt.1 h]

/-- the integer types have the row-by-row statistics of the numeric types -/
theorem updateBlockStatistics_int (b : Block (IntN w)) (x : IntN w) (isNullValue : Bool) :
    b.updateBlockStatistics x isNullValue =
      if isNullValue then { b with size := b.size + 1 }
      else if b.size = 0 then
        { b with
          size := b.size + 1, countOfNotNullValues := b.countOfNotNullValues + 1
          min := x, max := x, avg := Element.avgOf x, sum := x }
      else
        { b with
          size := b.size + 1, countOfNotNullValues := b.countOfNotNullValues + 1
          min := if Element.lt x b.min then x else b.min
          max := if Element.lt b.max x then x else b.max
          sum := Element.add b.sum x
          avg := Element.avgRatio (Element.add b.sum x) (b.countOfNotNullValues + 1) } := by
  have hstat : Element.statistics (IntN w) = .incremental ∨ Element.statistics (IntN w) = .nullAware := by
    simp only [Element.statistics, intStatistics]
    split_ifs
    · exact Or.inl rfl
    · exact Or.inr rfl
  rcases hstat with h | h
  · simp only [Block.updateBlockStatistics, h]
  · simp only [Block.updateBlockStatistics, h]

theorem updateBlockStatistics_covers_self (b : Block (IntN w)) (x : IntN w) :
    Covers (b.updateBlockStatistics x false) x := by
  rw [updateBlockStatistics_int]
  by_cases h : b.size = 0
  · simp only [Bool.false_eq_true, ↓reduceIte, h]
    exact ⟨le_rfl, le_rfl⟩
  · simp only [Bool.false_eq_true, ↓reduceIte, h]
    exact ⟨(low_le x b.min).1, (le_high x b.max).1⟩

theorem updateBlockStatistics_covers (b : Block (IntN w)) (x v : IntN w) (isNullValue : Bool)
    (hsize : b.size ≠ 0) (hv : Covers b v) : Covers (b.updateBlockStatistics x isNullValue) v := by
  rw [updateBlockStatistics_int]
  cases isNullValue with
  | true => exact hv
  | false =>
    simp only [Bool.false_eq_true, ↓reduceIte, hsize]
    exact ⟨(low_le x b.min).2.trans hv.1, hv.2.trans (le_high x b.max).2⟩

theorem updateAll_covers (b : Block (IntN w)) (xs : List (IntN w)) :
    (∀ v ∈ xs, Covers (b.updateAll xs) v) ∧ (b.size ≠ 0 → ∀ v, Covers b v → Covers (b.updateAll xs) v) := by
  induction xs generalizing b with
  | nil => exact ⟨by simp, fun _ v hv => hv⟩
  | cons x xs ih =>
    obtain ⟨hnew, hold⟩ := ih (b.updateBlockStatistics x false)
    have hsize : (b.updateBlockStatistics x false).size ≠ 0 := by simp
    constructor
    · intro v hv
      rcases List.mem_cons.1 hv with rfl | hv
      · exact hold hsize v (updateBlockStatistics_covers_self b v)
      · exact hnew v hv
    · intro hne v hv
      exact hold hsize v (updateBlockStatistics_covers b x v false hne hv)

theorem countRows_covers (mask : Mask) (i : ℕ) (xs : List (IntN w)) (b : Block (IntN w)) :
    (∀ v, Covers b v → Covers (Block.countRows mask i xs b) v) ∧
      ∀ j v, xs[j]? = some v → getBit mask (i + j) = false → Covers (Block.countRows mask i xs b) v := by
  induction xs generalizing i b with
  | nil => exact ⟨fun v hv => hv, by simp⟩
  | cons x xs ih =>
    have hrow : Covers (b.countRow x) x := ⟨(low_le x b.min).1, (le_high x b.max).1⟩
    have hmono : ∀ v, Covers b v → Covers (b.countRow x) v := fun v hv =>
      ⟨(low_le x b.min).2.trans hv.1, hv.2.trans (le_high x b.max).2⟩
    obtain ⟨hold, hnew⟩ := ih (i + 1) (if getBit mask i then b else b.countRow x)
    simp only [Block.countRows]
    constructor
    · intro v hv
      apply hold
      split_ifs
      · exact hv
      · exact hmono v hv
    · intro j v hj hbit
      cases j with
      | zero =>
        obtain rfl : x = v := by simpa using hj
        apply hold
        rw [Nat.add_zero] at hbit
        simpa [hbit] using hrow
      | succ j => exact hnew j v (by simpa using hj) (by rwa [Nat.add_right_comm, Nat.add_assoc])

/-- the recomputation of a nullable block covers its non-null rows -/
theorem recountNullable_bounded (b : Block (IntN w)) (mask : Mask) (hmask : b.bitMask = some mask) :
    Bounded (b.recountNullable mask) := by
  obtain ⟨hs, hn⟩ := Block.recountNullable_store b mask
  rw [bounded_iff]
  intro i v hv hnull
  have hrow : b.rows[i]? = some v := by rwa [Block.rows, hs.data, hn] at hv
  have hbit : getBit mask (0 + i) = false := by
    rw [Block.isNull_of_store hs, Block.isNull, hmask] at hnull
    rwa [Nat.zero_add]
  exact (countRows_covers mask 0 b.rows _).2 i v hrow hbit

theorem updateAll_bounded (b : Block (IntN w)) (n : ℕ) (hn : b.size + n ≤ b.data.length) (hb : Bounded b) :
    Bounded (b.updateAll ((b.data.drop b.size).take n)) := by
  obtain ⟨hnew, hold⟩ := updateAll_covers b ((b.data.drop b.size).take n)
  have hs := Block.updateAll_store b ((b.data.drop b.size).take n)
  have hrows : (b.updateAll ((b.data.drop b.size).take n)).rows = b.rows ++ (b.data.drop b.size).take n := by
    have hlen : ((b.data.drop b.size).take n).length = n := by
      rw [List.length_take, List.length_drop]
      omega
    rw [Block.rows, hs.data, Block.updateAll_size, hlen, Block.rows, List.take_add]
  rw [bounded_iff]
  intro i v hv hnull
  rw [Block.isNull_of_store hs] at hnull
  rw [hrows] at hv
  rcases lt_or_ge i b.rows.length with hi | hi
  · rw [List.getElem?_append_left hi] at hv
    have hsize : b.size ≠ 0 := by
      intro h0
      simp [Block.rows, h0] at hi
    exact hold hsize v ((bounded_iff b).1 hb i v hv hnull)
  · rw [List.getElem?_append_right hi] at hv
    exact hnew v (List.mem_of_getElem? hv)

/-- counting the rows behind the old ones keeps the bounds -/
theorem setBlockStatistics_bounded (b : Block (IntN w)) (n : ℕ) (hn : b.size + n ≤ b.data.length) (hb : Bounded b) :
    Bounded (b.setBlockStatistics n b.size) := by
  unfold Block.setBlockStatistics
  split
  · rename_i mask _ hmask
    exact recountNullable_bounded { b with size := b.size + n } mask hmask
  · exact updateAll_bounded b n hn hb

/-- counting again after the mask has changed; int8_t does not, so there no NULL may have become a value -/
theorem recount_bounded (b : Block (IntN w)) (mask : Mask) (hb : Bounded b)
    (hkept : w = 8 → ∀ i < b.size, b.isNull i = true → getBit mask i = true) :
    Bounded ({ b with bitMask := some mask }.setBlockStatistics 0 0) := by
  unfold Block.setBlockStatistics
  split
  · rename_i m _ hm
    exact recountNullable_bounded { b with bitMask := some mask, size := b.size + 0 } m hm
  · rename_i hstat
    have hw : w = 8 := by
      by_contra hw
      exact hstat mask (by simp [Element.statistics, intStatistics, hw]) rfl
    simp only [List.take_zero, Block.updateAll, List.foldl_nil]
    refine hb.congr rfl ?_ rfl rfl
    intro i v hv hnull
    have hi : i < b.size := by
      obtain ⟨hlt, -⟩ := List.getElem?_eq_some_iff.1 hv
      rw [Block.rows, List.length_take] at hlt
      omega
    by_contra hold
    have := hkept hw i hi (by simpa using hold)
    simp [Block.isNull, this] at hnull

/-! ## The operations on one block -/

/-- a block within its capacity whose statistics bound its rows -/
structure Kept (b : Block (IntN w)) : Prop where
  valid : b.Valid b.capacity b.isNullable
  bounded : Bounded b

theorem Kept.setBlockStatistics {b : Block (IntN w)} (h : Kept b) (n : ℕ) (hn : b.size + n ≤ b.data.length) :
    Kept (b.setBlockStatistics n b.size) := by
  have hs := Block.setBlockStatistics_store b n b.size
  have hsize := Block.setBlockStatistics_size b n b.size hn
  have hvalid := h.valid.of_store hs (by rw [hsize, hs.data]; exact hn)
  have hnull : (b.setBlockStatistics n b.size).isNullable = b.isNullable := by
    rw [Block.isNullable, Block.isNullable, hs.bitMask]
  refine ⟨?_, setBlockStatistics_bounded b n hn h.bounded⟩
  rwa [hs.capacity, hnull]

theorem kept_empty (blockSize : ℕ) (isNullable saveNecessary : Bool) (index : ℕ) (data : List (IntN w))
    (hdata : data.length ≤ blockSize) :
    Kept { Block.empty blockSize isNullable saveNecessary index with data := data } := by
  have hvalid := Block.empty_valid (α := IntN w) blockSize isNullable saveNecessary index
  refine ⟨⟨rfl, Nat.zero_le _, hdata, rfl, hvalid.mask⟩, ?_⟩
  apply bounded_of_all
  intro v hv
  simp [Block.rows, Block.empty] at hv

theorem kept_ofData {blockSize : ℕ} {data : List (IntN w)} {isNullable count saveNecessary : Bool} {index : ℕ}
    {b : Block (IntN w)} (h : Block.ofData blockSize data isNullable count saveNecessary index = .ok b) : Kept b := by
  simp only [Block.ofData] at h
  by_cases hfit : blockSize < data.length
  · simp [hfit] at h
  rw [if_neg hfit] at h
  have hroom : (data ++ (Block.newArray (IntN w) blockSize).drop data.length).length ≤ blockSize := by
    have := Block.length_newArray_le (α := IntN w) blockSize
    rw [List.length_append, List.length_drop]
    omega
  have hkept := kept_empty blockSize isNullable saveNecessary index _ hroom
  cases count with
  | false =>
    obtain rfl := Except.ok.inj h
    exact hkept
  | true =>
    obtain rfl := Except.ok.inj h
    exact hkept.setBlockStatistics data.length (by simp [Block.empty])

theorem kept_ofArray {blockSize dataSize allocationSize index : ℕ} {data : List (IntN w)}
    {isNullable count saveNecessary : Bool} {b : Block (IntN w)} (hroom : data.length ≤ allocationSize)
    (h : Block.ofArray blockSize data dataSize allocationSize isNullable count saveNecessary index = .ok b) :
    Kept b := by
  simp only [Block.ofArray] at h
  by_cases halloc : allocationSize = blockSize
  swap
  · simp [halloc] at h
  by_cases hdata : blockSize < dataSize ∨ data.length < dataSize
  · rcases hdata with hdata | hdata <;> simp [halloc, hdata] at h
    split_ifs at h
  rw [not_or] at hdata
  rw [if_neg (not_not.2 halloc), if_neg hdata.1, if_neg hdata.2] at h
  have hkept := kept_empty blockSize isNullable saveNecessary index data (halloc ▸ hroom)
  cases count with
  | false =>
    obtain rfl := Except.ok.inj h
    exact hkept
  | true =>
    obtain rfl := Except.ok.inj h
    exact hkept.setBlockStatistics dataSize (by simp only [Block.empty]; omega)

section Operations

variable {b b' : Block (IntN w)}

theorem kept_saveNecessary (h : Kept b) (saveNecessary : Bool) : Kept { b with saveNecessary := saveNecessary } :=
  ⟨⟨h.valid.capacity, h.valid.stored, h.valid.room, h.valid.nullable, h.valid.mask⟩, h.bounded⟩

theorem kept_insertData (h : Kept b) {data : List (IntN w)} {saveNecessary : Bool}
    (hok : b.insertData data saveNecessary = .ok b') : Kept b' := by
  unfold Block.insertData at hok
  split_ifs at hok with hfit
  obtain rfl := Except.ok.inj hok
  have hrows := h.valid.rows_length
  have hsize := h.valid.size_le
  have hroom := h.valid.room
  rw [Block.emptyBlockSpace] at hfit
  have hwritten : Kept { b with data := b.rows ++ data ++ b.data.drop (b.size + data.length) } := by
    refine ⟨⟨rfl, ?_, ?_, rfl, h.valid.mask⟩, ?_⟩
    · simp only [List.length_append, hrows]
      omega
    · simp only [List.length_append, hrows, List.length_drop]
      omega
    · refine h.bounded.congr ?_ (fun _ _ _ hn => hn) rfl rfl
      simp only [Block.rows, List.append_assoc]
      exact List.take_left' hrows
  apply kept_saveNecessary
  apply hwritten.setBlockStatistics
  simp only [List.length_append, hrows]
  omega

theorem kept_insertDataOnSpecificPosition (h : Kept b) {index : ℕ} {data : IntN w} {isNullValue saveNecessary : Bool}
    (hindex : index ≤ b.size) (hnull : isNullValue = true → b.isNullable = true)
    (hok : b.insertDataOnSpecificPosition index data isNullValue saveNecessary = .ok b') : Kept b' := by
  have hroom : b.size < b.capacity := by
    have hle := h.valid.size_le
    by_contra hfull
    have : b.emptyBlockSpace = 0 := by
      rw [Block.emptyBlockSpace]
      omega
    simp [Block.insertDataOnSpecificPosition, this] at hok
  obtain ⟨b'', hok', hvalid, hrows, -, ⟨m, hstat⟩, hlow, hat, -, hhigh, -, -⟩ :=
    Block.insertDataOnSpecificPosition_ok h.valid data saveNecessary hindex hroom hnull
  obtain rfl : b'' = b' := Except.ok.inj (hok'.symm.trans hok)
  refine ⟨by rw [hvalid.capacity, hvalid.nullable]; exact hvalid, ?_⟩
  have hlen := h.valid.rows_length
  have hold : ∀ i v, b.rows[i]? = some v → b.isNull i = false → Covers b'' v := by
    intro i v hv hn
    have hsize : b.size ≠ 0 := by
      obtain ⟨hlt, -⟩ := List.getElem?_eq_some_iff.1 hv
      omega
    have hcovers := (bounded_iff b).1 h.bounded i v hv hn
    rw [hstat]
    exact updateBlockStatistics_covers { b with data := b.putData index data, bitMask := m } data v isNullValue hsize
      hcovers
  have hfront : (b.rows.take index).length = index := by
    rw [List.length_take]
    omega
  rw [bounded_iff]
  intro i v hv hn
  rw [hrows] at hv
  -- a row before the position, the new row, or a row that moved up
  rcases lt_trichotomy i index with hi | rfl | hi
  · rw [List.getElem?_append_left (by omega), List.getElem?_take_of_lt hi] at hv
    exact hold i v hv (by rwa [hlow i hi] at hn)
  · rw [List.getElem?_append_right (by omega), hfront, Nat.sub_self] at hv
    obtain rfl : data = v := by simpa using hv
    cases isNullValue with
    | true => exact absurd (hat rfl) (by simp [hn])
    | false =>
      rw [hstat]
      exact updateBlockStatistics_covers_self { b with data := b.putData i data, bitMask := m } data
  · rw [List.getElem?_append_right (by omega), hfront] at hv
    obtain ⟨k, rfl⟩ : ∃ k, i = index + (k + 1) := ⟨i - index - 1, by omega⟩
    rw [Nat.add_sub_cancel_left, List.getElem?_cons_succ, List.getElem?_drop] at hv
    have hlt : index + k < b.rows.length := (List.getElem?_eq_some_iff.1 hv).1
    rw [hhigh _ hi (by omega)] at hn
    exact hold _ v hv hn

/-- a new mask, with the rows counted again -/
theorem kept_recount (h : Kept b) {mask : Mask}
    (hmask : mask.length = getNullBitMaskSize b.capacity)
    (hkept : w = 8 → ∀ i < b.size, b.isNull i = true → getBit mask i = true) :
    Kept ({ b with bitMask := some mask }.setBlockStatistics 0 0) := by
  have hs := Block.setBlockStatistics_store { b with bitMask := some mask } 0 0
  have hsize := Block.setBlockStatistics_size { b with bitMask := some mask } 0 0 (Nat.zero_le _)
  refine ⟨⟨rfl, ?_, ?_, rfl, ?_⟩, recount_bounded b mask h.bounded hkept⟩
  · rw [hsize, hs.data]
    exact h.valid.stored
  · rw [hs.data, hs.capacity]
    exact h.valid.room
  · rw [hs.bitMask, hs.capacity]
    simpa using hmask

theorem kept_setNullBitmask (h : Kept b) {nullMask : Mask}
    (hkept : w = 8 → ∀ mask ∈ b.bitMask, ∀ i < b.size, b.isNull i = true →
      getBit (nullMask ++ mask.drop nullMask.length) i = true)
    (hok : b.setNullBitmask nullMask = .ok b') : Kept b' := by
  cases hm : b.bitMask with
  | none =>
    simp only [Block.setNullBitmask, hm] at hok
    obtain rfl := Except.ok.inj hok
    exact h
  | some mask =>
    simp only [Block.setNullBitmask, hm] at hok
    split_ifs at hok with hlen
    obtain rfl := Except.ok.inj hok
    apply kept_recount h
    · rw [List.length_append, List.length_drop, ← h.valid.mask mask hm]
      omega
    · intro hw i hi hn
      exact hkept hw mask hm i hi hn

theorem kept_moveNullBitmask (h : Kept b) {nullMask : Mask} (hlen : nullMask.length = getNullBitMaskSize b.capacity)
    (hkept : w = 8 → ∀ i < b.size, b.isNull i = true → getBit nullMask i = true) :
    Kept (b.moveNullBitmask nullMask) := by
  unfold Block.moveNullBitmask
  split
  · exact h
  · exact kept_recount h hlen hkept

theorem kept_setIsNullable (h : Kept b) {isNullable : Bool}
    (hkept : isNullable = false → ∀ i < b.size, b.isNull i = false) : Kept (b.setIsNullable isNullable) := by
  have hrow : ∀ i v, b.rows[i]? = some v → i < b.size := by
    intro i v hv
    rw [← h.valid.rows_length]
    exact (List.getElem?_eq_some_iff.1 hv).1
  unfold Block.setIsNullable
  split_ifs with hsame hnull
  · exact h
  · have hm : b.bitMask = none := by
      cases hb : b.bitMask with
      | none => rfl
      | some mask => exact absurd (by rw [Block.isNullable, hb, hnull]; rfl) hsame
    refine ⟨⟨rfl, h.valid.stored, h.valid.room, rfl, by simp [length_zeroMask]⟩, ?_⟩
    exact h.bounded.congr rfl (fun i v _ _ => by simp [Block.isNull, hm]) rfl rfl
  · refine ⟨⟨rfl, h.valid.stored, h.valid.room, rfl, by simp⟩, ?_⟩
    exact h.bounded.congr rfl (fun i v hv _ => hkept (by simpa using hnull) i (hrow i v hv)) rfl rfl

theorem kept_setNullBit (h : Kept b) {index : ℕ} (hok : b.setNullBit index = .ok b') : Kept b' := by
  unfold Block.setNullBit at hok
  split at hok
  · exact absurd hok (by simp)
  · rename_i mask hm
    obtain rfl := Except.ok.inj hok
    refine ⟨⟨rfl, h.valid.stored, h.valid.room, rfl, ?_⟩, ?_⟩
    · have := h.valid.mask mask hm
      simpa [length_setBit] using this
    · refine h.bounded.congr rfl (fun i v _ hn => ?_) rfl rfl
      simp only [Block.isNull, hm] at hn ⊢
      by_cases hi : index / 64 < mask.length
      · rw [getBit_setBit mask index i true hi] at hn
        split_ifs at hn
        exact hn
      · -- a bit outside the mask is not written
        have : setBit mask index true = mask := List.modify_eq_self (by simpa [getBitMaskIdx] using hi)
        rwa [this] at hn

/-- a block filled by its constructor covers all its rows, whatever mask it gets -/
theorem covers_ofData {blockSize : ℕ} {data : List (IntN w)} {isNullable saveNecessary : Bool} {index : ℕ}
    (h : Block.ofData blockSize data isNullable true saveNecessary index = .ok b) : ∀ v ∈ b.rows, Covers b v := by
  have hfit : data.length ≤ blockSize := by
    by_contra hfit
    simp [Block.ofData, not_le.1 hfit] at h
  obtain ⟨b', hb', -, -, -, hnull, -, -⟩ := @Block.ofData_ok _ _ blockSize isNullable data saveNecessary index hfit
  obtain rfl : b' = b := Except.ok.inj (hb'.symm.trans h)
  intro v hv
  obtain ⟨i, hi⟩ := List.mem_iff_getElem?.1 hv
  exact (bounded_iff b').1 (kept_ofData h).bounded i v hi (hnull i)

theorem kept_withMask (h : Kept b) (hall : ∀ v ∈ b.rows, Covers b v) {mask : Mask}
    (hlen : mask.length = getNullBitMaskSize b.capacity) : Kept { b with bitMask := some mask } :=
  ⟨⟨rfl, h.valid.stored, h.valid.room, rfl, by simpa using hlen⟩, bounded_of_all hall⟩

/-- the halves of a split block -/
theorem kept_blockSplit {c : Column (IntN w)} (h : Kept b) (hsize : 0 < b.size) (hcapacity : c.blockSize = b.capacity)
    {halves : Block (IntN w) × Block (IntN w)} (hok : c.blockSplit b = .ok halves) : Kept halves.1 ∧ Kept halves.2 := by
  obtain ⟨block1, h₁, hok⟩ := bind_eq_ok.1 hok
  obtain ⟨block2, h₂, hok⟩ := bind_eq_ok.1 hok
  have hk₁ := kept_ofData h₁
  have hk₂ := kept_ofData h₂
  have hcap : ∀ {data : List (IntN w)} {b' : Block (IntN w)},
      Block.ofData c.blockSize data b.isNullable true true UINT32_MAX = .ok b' → b'.capacity = b.capacity := by
    intro data b' h'
    have hfit : data.length ≤ c.blockSize := by
      by_contra hfit
      simp [Block.ofData, not_le.1 hfit] at h'
    obtain ⟨b'', hb'', hvalid, -⟩ := @Block.ofData_ok _ _ c.blockSize b.isNullable data true UINT32_MAX hfit
    obtain rfl : b'' = b' := Except.ok.inj (hb''.symm.trans h')
    rw [hvalid.capacity, hcapacity]
  split at hok
  · rename_i mask hnull hm
    obtain rfl := Except.ok.inj hok
    have hlen : mask.length = getNullBitMaskSize b.capacity := h.valid.mask mask hm
    have hmid : getBitMaskIdx ((b.size - 1) / 2) < mask.length := by
      have := h.valid.size_le
      rw [hlen, getNullBitMaskSize, getBitMaskIdx]
      omega
    constructor
    · apply kept_withMask hk₁ (covers_ofData h₁)
      rw [hcap h₁, ← hlen]
      simp only [Column.splitMaskLow, List.length_append, List.length_cons, List.length_take, List.length_replicate]
      omega
    · apply kept_withMask hk₂ (covers_ofData h₂)
      rw [hcap h₂, ← hlen]
      simp only [Column.splitMaskHigh, List.length_append, List.length_map, List.length_range, List.length_replicate]
      omega
  · exact absurd hok (by simp)
  · obtain rfl := Except.ok.inj hok
    exact ⟨hk₁, hk₂⟩

end Operations

/-! ## The machine -/

variable {t : NumericType}

/-- the calls that make, change and reload blocks; `k` is the position of the block -/
inductive Op (t : NumericType) where
  | construct (blockSize : ℕ) (isNullable saveNecessary : Bool) (index : ℕ)
  | constructData (blockSize : ℕ) (data : List t.Elem) (isNullable countBlockStatistics saveNecessary : Bool)
      (index : ℕ)
  | constructArray (blockSize : ℕ) (data : List t.Elem) (dataSize allocationSize : ℕ)
      (isNullable countBlockStatistics saveNecessary : Bool) (index : ℕ)
  | insertData (k : ℕ) (data : List t.Elem) (saveNecessary : Bool)
  | insertDataInterval (k : ℕ) (newData : List t.Elem) (offset length : ℕ) (saveNecessary : Bool)
  | insertDataOnSpecificPosition (k index : ℕ) (data : t.Elem) (isNullValue saveNecessary : Bool)
  | setNullBitmask (k : ℕ) (nullMask : Mask)
  | moveNullBitmask (k : ℕ) (nullMask : Mask)
  | setIsNullable (k : ℕ) (isNullable : Bool)
  | setNullBit (k index : ℕ)
  | blockSplit (k : ℕ)
  /-- WriteColumn of a column made of the blocks at `ks`, and LoadColumn of its files -/
  | saveLoad (ks : List ℕ) (blockSize : ℕ) (isNullable isUnique : Bool) (fill : ℕ → ℕ → BitVec 64)
      (junk : ℕ → ℕ → UInt8)

/-- the state after a call: new blocks, or the old state if it throws -/
def settle {β : Type} (old : List (Block t.Elem)) (r : Except Fault β) (new : β → List (Block t.Elem)) :
    Option (List (Block t.Elem)) :=
  match r with
  | .ok b => some (new b)
  | .error .undefined => none
  | .error _ => some old

/-- a call on the k-th block -/
def onBlock (s : List (Block t.Elem)) (k : ℕ) (f : Block t.Elem → Except Fault (Block t.Elem)) :
    Option (List (Block t.Elem)) :=
  s[k]?.bind fun b => settle s (f b) fun b' => s.set k b'

/-- the column that owns a block -/
def ownColumn (b : Block t.Elem) : Column t.Elem := { Column.fresh "" b.capacity with isNullable := b.isNullable }

/-- the column of the blocks at `ks` -/
def columnOf (s : List (Block t.Elem)) (ks : List ℕ) (blockSize : ℕ) (isNullable isUnique : Bool) : Column t.Elem :=
  ⟨"", blockSize, 0, [(-1, ks.filterMap fun k => s[k]?)], isNullable, isUnique, []⟩

/-- one call, `none` where its behaviour is not defined: an array shorter than its size, a mask buffer of the wrong
size, a split of a block without rows, a column whose blocks are not of its block size -/
def step (s : List (Block t.Elem)) : Op t → Option (List (Block t.Elem))
  | .construct blockSize isNullable saveNecessary index =>
    some (s ++ [Block.empty blockSize isNullable saveNecessary index])
  | .constructData blockSize data isNullable count saveNecessary index =>
    settle s (Block.ofData blockSize data isNullable count saveNecessary index) fun b => s ++ [b]
  | .constructArray blockSize data dataSize allocationSize isNullable count saveNecessary index =>
    if allocationSize < data.length then none
    else settle s (Block.ofArray blockSize data dataSize allocationSize isNullable count saveNecessary index)
      fun b => s ++ [b]
  | .insertData k data saveNecessary => onBlock s k fun b => b.insertData data saveNecessary
  | .insertDataInterval k newData offset length saveNecessary =>
    onBlock s k fun b => b.insertDataInterval newData offset length saveNecessary
  | .insertDataOnSpecificPosition k index data isNullValue saveNecessary =>
    onBlock s k fun b => b.insertDataOnSpecificPosition index data isNullValue saveNecessary
  | .setNullBitmask k nullMask => onBlock s k fun b => b.setNullBitmask nullMask
  | .moveNullBitmask k nullMask =>
    onBlock s k fun b =>
      if nullMask.length = getNullBitMaskSize b.capacity then .ok (b.moveNullBitmask nullMask) else .error .undefined
  | .setIsNullable k isNullable => onBlock s k fun b => .ok (b.setIsNullable isNullable)
  | .setNullBit k index => onBlock s k fun b => b.setNullBit index
  | .blockSplit k =>
    s[k]?.bind fun b =>
      if b.size = 0 then none
      else settle s ((ownColumn b).blockSplit b) fun halves => s.set k halves.1 ++ [halves.2]
  | .saveLoad ks blockSize isNullable isUnique fill junk =>
    let c := columnOf s ks blockSize isNullable isUnique
    if 2 ^ 31 ≤ blockSize ∨ c.getBlocksList.any fun b => b.capacity ≠ blockSize then none
    else settle s (loadColumn "" fill c.name c.blockSize c.isNullable c.isUnique (writeColumn junk c)) fun c' =>
      s ++ c'.getBlocksList

/-- what the calls rely on their callers for -/
def Admitted (s : List (Block t.Elem)) : Op t → Prop
  | .insertDataOnSpecificPosition k index _ isNullValue _ =>
    ∀ b ∈ s[k]?, index ≤ b.size ∧ (isNullValue = true → b.isNullable = true)
  | .setNullBitmask k nullMask =>
    t = .int8 → ∀ b ∈ s[k]?, ∀ mask ∈ b.bitMask, ∀ i < b.size, b.isNull i = true →
      getBit (nullMask ++ mask.drop nullMask.length) i = true
  | .moveNullBitmask k nullMask =>
    t = .int8 → ∀ b ∈ s[k]?, ∀ i < b.size, b.isNull i = true → getBit nullMask i = true
  | .setIsNullable k isNullable => isNullable = false → ∀ b ∈ s[k]?, ∀ i < b.size, b.isNull i = false
  | .saveLoad ks _ isNullable _ _ _ => ∀ k ∈ ks, ∀ b ∈ s[k]?, b.isNullable = isNullable
  | _ => True

/-- every block is within its capacity and its statistics bound its rows -/
def Inv (s : List (Block t.Elem)) : Prop := ∀ b ∈ s, Kept b

section Step

variable {s s' : List (Block t.Elem)}

theorem settle_inv {β : Type} {r : Except Fault β} {new : β → List (Block t.Elem)} (h : Inv s)
    (hnew : ∀ x, r = .ok x → Inv (new x)) (hs : settle s r new = some s') : Inv s' := by
  unfold settle at hs
  split at hs
  · rename_i x
    obtain rfl := Option.some.inj hs
    exact hnew x rfl
  · exact absurd hs (by simp)
  · obtain rfl := Option.some.inj hs
    exact h

theorem inv_append (h : Inv s) {new : List (Block t.Elem)} (hnew : Inv new) : Inv (s ++ new) := by
  intro b hb
  rcases List.mem_append.1 hb with hb | hb
  · exact h b hb
  · exact hnew b hb

theorem inv_singleton {b : Block t.Elem} (h : Kept b) : Inv [b] := by
  intro b' hb'
  obtain rfl := List.mem_singleton.1 hb'
  exact h

theorem inv_set (h : Inv s) (k : ℕ) {b : Block t.Elem} (hb : Kept b) : Inv (s.set k b) := by
  intro b' hb'
  rcases List.mem_or_eq_of_mem_set hb' with hb' | rfl
  · exact h b' hb'
  · exact hb

theorem onBlock_inv {k : ℕ} {f : Block t.Elem → Except Fault (Block t.Elem)} (h : Inv s)
    (hf : ∀ b b', s[k]? = some b → Kept b → f b = .ok b' → Kept b') (hs : onBlock s k f = some s') : Inv s' := by
  obtain ⟨b, hb, hs⟩ := Option.bind_eq_some_iff.1 hs
  have hkept := h b (List.mem_of_getElem? hb)
  exact settle_inv h (fun b' hb' => inv_set h k (hf b b' hb hkept hb')) hs

/-- the blocks of a saved column come back with their rows, null bits and statistics -/
theorem kept_reload {blockSize : ℕ} {isNullable : Bool} {e : Entry t} (fill : ℕ → BitVec 64)
    (he : e.Stored blockSize isNullable) (hb : Bounded e.block) : Kept (e.reload blockSize isNullable fill) := by
  have hvalid := reload_valid fill he
  obtain ⟨-, -, -, -, -, -, hmin, hmax, -⟩ := reload_fields blockSize isNullable fill e
  refine ⟨by rw [hvalid.capacity, hvalid.nullable]; exact hvalid, ?_⟩
  refine hb.congr (reload_rows fill he) (fun i v hv hn => ?_) hmin hmax
  have hi : i < e.block.size := by
    rw [← he.block.rows_length]
    exact (List.getElem?_eq_some_iff.1 hv).1
  rwa [reload_isNull fill he i hi] at hn

/-- save and load of a column of kept blocks -/
theorem load_kept {c c' : Column t.Elem} {path : String} {fill : ℕ → ℕ → BitVec 64} {junk : ℕ → ℕ → UInt8}
    (hsmall : c.blockSize < 2 ^ 31)
    (hblocks : ∀ b ∈ c.getBlocksList, Kept b ∧ b.capacity = c.blockSize ∧ b.isNullable = c.isNullable)
    (hload : loadColumn path fill c.name c.blockSize c.isNullable c.isUnique (writeColumn junk c) = .ok c') :
    Inv c'.getBlocksList := by
  have hnull : c.isUnique = true → c.isNullable = false := by
    intro hu
    by_contra hn
    have : created (α := t.Elem) c.name c.blockSize c.isNullable c.isUnique = .error _ :=
      if_pos ⟨hu, by simpa using hn⟩
    simp [loadColumn, this, bind, Except.bind] at hload
  have hvalid : c.Valid := by
    refine ⟨hsmall, ?_, hnull⟩
    intro b hb
    obtain ⟨hk, hcap, hn⟩ := hblocks b hb
    rw [← hcap, ← hn]
    exact hk.valid
  obtain ⟨c'', hload', hlist⟩ := load_write path fill junk c hvalid
    (fun hu => load_write_nodup path fill junk c c' hvalid hu hload)
  obtain rfl : c'' = c' := Except.ok.inj (hload'.symm.trans hload)
  have hstored := entriesFrom_stored junk 0 (c.getBlocksList.take UINT32_MAX)
    (fun b hb => hvalid.blocks b (List.mem_of_mem_take hb)) (by simp only [List.length_take, UINT32_MAX]; omega)
  intro b hb
  rw [hlist] at hb
  obtain ⟨i, hi⟩ := List.mem_iff_getElem?.1 hb
  rw [getElem?_reloadAll, getElem?_entriesFrom] at hi
  obtain ⟨e, he, rfl⟩ := Option.map_eq_some_iff.1 hi
  obtain ⟨b₀, hb₀, rfl⟩ := Option.map_eq_some_iff.1 he
  apply kept_reload
  · apply hstored
    apply List.mem_of_getElem? (i := i)
    rw [getElem?_entriesFrom, hb₀]
    rfl
  · exact (hblocks b₀ (List.mem_of_mem_take (List.mem_of_getElem? hb₀))).1.bounded

/-- every admitted call keeps every block bounded -/
theorem step_inv (o : Op t) (h : Inv s) (hok : Admitted s o) (hs : step s o = some s') : Inv s' := by
  cases o with
  | construct blockSize isNullable saveNecessary index =>
    obtain rfl := Option.some.inj hs
    exact inv_append h (inv_singleton (kept_empty blockSize isNullable saveNecessary index _
      (Block.length_newArray_le blockSize)))
  | constructData blockSize data isNullable count saveNecessary index =>
    exact settle_inv h (fun b hb => inv_append h (inv_singleton (kept_ofData hb))) hs
  | constructArray blockSize data dataSize allocationSize isNullable count saveNecessary index =>
    simp only [step] at hs
    split_ifs at hs with hlen
    exact settle_inv h (fun b hb => inv_append h (inv_singleton (kept_ofArray (not_lt.1 hlen) hb))) hs
  | insertData k data saveNecessary => exact onBlock_inv h (fun b b' _ hb hok => kept_insertData hb hok) hs
  | insertDataInterval k newData offset length saveNecessary =>
    exact onBlock_inv h (fun b b' _ hb hok => kept_insertData hb (Block.insertDataInterval_eq hok)) hs
  | insertDataOnSpecificPosition k index data isNullValue saveNecessary =>
    refine onBlock_inv h (fun b b' hk hb hins => ?_) hs
    obtain ⟨hindex, hnull⟩ := hok b hk
    exact kept_insertDataOnSpecificPosition hb hindex hnull hins
  | setNullBitmask k nullMask =>
    refine onBlock_inv h (fun b b' hk hb hset => kept_setNullBitmask hb (fun hw => hok ?_ b hk) hset) hs
    cases t <;> simp_all [NumericType.bytes]
  | moveNullBitmask k nullMask =>
    refine onBlock_inv h (fun b b' hk hb hset => ?_) hs
    split_ifs at hset with hlen
    obtain rfl := Except.ok.inj hset
    refine kept_moveNullBitmask hb hlen (fun hw => hok ?_ b hk)
    cases t <;> simp_all [NumericType.bytes]
  | setIsNullable k isNullable =>
    refine onBlock_inv h (fun b b' hk hb hset => ?_) hs
    obtain rfl := Except.ok.inj hset
    exact kept_setIsNullable hb (fun hn => hok hn b hk)
  | setNullBit k index => exact onBlock_inv h (fun b b' _ hb hok => kept_setNullBit hb hok) hs
  | blockSplit k =>
    obtain ⟨b, hb, hs⟩ := Option.bind_eq_some_iff.1 hs
    split_ifs at hs with hsize
    refine settle_inv h (fun halves hsplit => ?_) hs
    obtain ⟨h₁, h₂⟩ := kept_blockSplit (h b (List.mem_of_getElem? hb)) (Nat.pos_of_ne_zero hsize) rfl hsplit
    exact inv_append (inv_set h k h₁) (inv_singleton h₂)
  | saveLoad ks blockSize isNullable isUnique fill junk =>
    simp only [step] at hs
    split_ifs at hs with hundefined
    rw [not_or] at hundefined
    refine settle_inv h (fun c' hload => inv_append h (load_kept (not_le.1 hundefined.1) ?_ hload)) hs
    intro b hb
    have hcap : b.capacity = blockSize := by
      by_contra hne
      exact hundefined.2 (List.any_eq_true.2 ⟨b, hb, by simpa using hne⟩)
    obtain ⟨k, hk, hmem⟩ : ∃ k ∈ ks, s[k]? = some b := by
      simpa [columnOf, Column.getBlocksList] using hb
    exact ⟨h b (List.mem_of_getElem? hmem), hcap, hok k hk b hmem⟩

end Step

/-- **Block statistics bound the data.** In every state that admitted calls reach from no blocks, every non-null row of
every block is within the block's recorded minimum and maximum. -/
theorem statistics_bound_rows (t : NumericType) (s : List (Block t.Elem)) (h : Run.Reach step Admitted [] s) :
    ∀ b ∈ s, ∀ (i : ℕ) (v : t.Elem), b.rows[i]? = some v → b.isNull i = false → b.min ≤ v ∧ v ≤ b.max := by
  have hinv : Inv s := Run.reach_inv Inv (by simp [Inv]) (fun _ o _ hinv hok hs => step_inv o hinv hok hs) h
  intro b hb
  exact (bounded_iff b).1 (hinv b hb).bounded

/-- a block of two rows, the second of them NULL -/
def nullSecond (t : NumericType) : List (Op t) :=
  [.constructData 2 [5, 100] true true true UINT32_MAX, .setNullBitmask 0 [2]]

theorem statistics_bound_rows_nullSecond :
    ∃ s : List (Block NumericType.int32.Elem), Run.Reach step Admitted [] s ∧ s.map Block.rows = [[5, 100]] ∧
      ∀ b ∈ s, ∀ (i : ℕ) (v : NumericType.int32.Elem), b.rows[i]? = some v → b.isNull i = false →
        b.min ≤ v ∧ v ≤ b.max := by
  obtain ⟨s, hs, hrows⟩ : ∃ s, Run.exec step [] (nullSecond .int32) = some s ∧ s.map Block.rows = [[5, 100]] :=
    ⟨_, rfl, rfl⟩
  have hreach : Run.Reach step Admitted [] s := by
    refine Run.reach_exec .refl _ ?_ hs
    simp [nullSecond, Admitted]
  exact ⟨s, hreach, hrows, statistics_bound_rows .int32 s hreach⟩

/-- Each condition on the calls is needed: the mask taken away from a block with a NULL, a null flag for a block without
a mask, a row put two behind the last, a NULL of an int8_t block made a value by SetNullBitmask, and a nullable block
saved in a column that is not. -/
theorem statistics_miss_rows :
    (∃ s, Run.exec step [] (nullSecond .int32 ++ [.setIsNullable 0 false]) = some s ∧ ∃ b ∈ s, ¬ Bounded b) ∧
    (∃ s, Run.exec (step (t := .int32)) [] [.constructData 2 [5] false true true UINT32_MAX,
      .insertDataOnSpecificPosition 0 0 100 true true] = some s ∧ ∃ b ∈ s, ¬ Bounded b) ∧
    (∃ s, Run.exec (step (t := .int32)) [] [.constructData 2 [7, 8] false false true UINT32_MAX,
      .insertDataOnSpecificPosition 0 1 3 false true] = some s ∧ ∃ b ∈ s, ¬ Bounded b) ∧
    (∃ s, Run.exec (step (t := .int8)) [] [.constructData 2 [5] true true true UINT32_MAX,
      .insertDataOnSpecificPosition 0 1 100 true true, .setNullBitmask 0 [0]] = some s ∧ ∃ b ∈ s, ¬ Bounded b) ∧
    ∃ s, Run.exec step [] (nullSecond .int32 ++
      [.saveLoad [0] 2 false false (fun _ _ => 0) (fun _ _ => 0)]) = some s ∧ ∃ b ∈ s, ¬ Bounded b := by
  refine ⟨⟨_, rfl, ?_⟩, ⟨_, rfl, ?_⟩, ⟨_, rfl, ?_⟩, ⟨_, rfl, ?_⟩, ⟨_, rfl, ?_⟩⟩
  all_goals decide

end QikkDB.BlockStatistics

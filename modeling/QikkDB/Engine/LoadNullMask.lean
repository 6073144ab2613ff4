/-
The null mask of a block that is loaded in part (GpuSqlParser/Dispatcher/GpuSqlDispatcherVMFunctions.h, `LoadCol`;
GpuSqlDispatcher.cpp, `LoadColNullMask`).

LoadCol copies the words of the block's mask up to the last row of the window, shifts them down by the offset and takes
as many words as the loaded rows need. Neither clears the bits behind the window. LoadColNullMask, which asks the cache
for the same key, copies the first words of the mask and does not look at the offset. Of a compressed block LoadCol
takes the words of all uncompressed rows.

- `loadCol_bits`: what LoadCol copies.
- `carries_own_bits_iff`: both copy the bits of the window exactly when the mask looks the same from the offset on and is
  clear behind the window.
-/
import Mathlib.Tactic
import QikkDB.Core.PackedMask

namespace QikkDB.LoadNullMask

open NullValues

/-! ## Model -/

/-- what is read of a nullable block -/
structure Block where
  nullBitmask : Mask
  size : ℕ
  /-- GetUncompressedDataElementsCount, if the block is compressed -/
  uncompressedSize : Option ℕ
  words : getNullBitMaskSize size ≤ nullBitmask.length
  uncompressedWords : ∀ n ∈ uncompressedSize, getNullBitMaskSize n ≤ nullBitmask.length

/-- the first words of a buffer, which must have as many -/
def copyWords (src : Mask) (count : ℕ) : Option Mask := if count ≤ src.length then some (src.take count) else none

def Block.realSize (b : Block) (loadSize : ℕ) : ℕ := b.uncompressedSize.getD loadSize

/-- the mask that LoadCol copies to the device; a call for no rows is skipped before -/
def loadCol (b : Block) (loadSize loadOffset : ℕ) : Option Mask :=
  let bitMaskCapacity := getNullBitMaskSize (b.realSize loadSize)
  if loadOffset > 0 then do
    let offsetBitMaskCapacity := min (getNullBitMaskSize (loadSize + loadOffset)) (getNullBitMaskSize b.size)
    let maskToOffset ← copyWords b.nullBitmask offsetBitMaskCapacity
    copyWords (shiftNullMaskLeft maskToOffset loadOffset) bitMaskCapacity
  else copyWords b.nullBitmask bitMaskCapacity

/-- the mask that LoadColNullMask copies -/
def loadColNullMask (b : Block) (loadSize : ℕ) : Option Mask := copyWords b.nullBitmask (getNullBitMaskSize loadSize)

/-- both copy the bits of the loaded rows and nothing behind them, and read no word that is not there -/
def CarriesOwnBits (b : Block) (loadSize loadOffset : ℕ) : Prop :=
  ∃ mask, loadCol b loadSize loadOffset = some mask ∧
    (∀ k, k < loadSize → getBit mask k = getBit b.nullBitmask (loadOffset + k)) ∧
    (∀ k, loadSize ≤ k → getBit mask k = false) ∧
    loadColNullMask b loadSize = some mask

/-- the mask begins with the bits of the window, and the rest of the words is clear -/
structure Aligned (b : Block) (loadSize loadOffset : ℕ) : Prop where
  /-- a compressed block needs no more words for all of its rows -/
  words : getNullBitMaskSize (b.realSize loadSize) = getNullBitMaskSize loadSize
  same : ∀ k, k < loadSize → getBit b.nullBitmask k = getBit b.nullBitmask (loadOffset + k)
  clear : ∀ k, loadSize ≤ k → k < 64 * getNullBitMaskSize loadSize → getBit b.nullBitmask k = false
  behind : ∀ k, loadSize ≤ k → k < 64 * getNullBitMaskSize loadSize →
    loadOffset + k < 64 * getNullBitMaskSize (loadOffset + loadSize) → getBit b.nullBitmask (loadOffset + k) = false

/-! ## The copied bits -/

variable {b : Block} {loadSize loadOffset : ℕ}

theorem copyWords_eq_some {src mask : Mask} {count : ℕ} :
    copyWords src count = some mask ↔ count ≤ src.length ∧ src.take count = mask := by
  simp [copyWords]

/-- the bits of copied words -/
theorem getBit_take_le (src : Mask) (count k : ℕ) :
    getBit (src.take count) k = (decide (k < 64 * count) && getBit src k) := by
  rcases lt_or_ge k (64 * count) with h | h
  · rw [getBit_take h, decide_eq_true h, Bool.true_and]
  · rw [decide_eq_false (Nat.not_lt.2 h), Bool.false_and]
    apply getBit_of_le
    rw [List.length_take]
    omega

theorem loadColNullMask_eq (hwindow : loadOffset + loadSize ≤ b.size) :
    loadColNullMask b loadSize = some (b.nullBitmask.take (getNullBitMaskSize loadSize)) :=
  if_pos ((getNullBitMaskSize_le_of_le (by omega)).trans b.words)

/-- LoadCol copies the bits from the offset on, as far as the words reach in which the window ends. -/
theorem loadCol_bits (hwindow : loadOffset + loadSize ≤ b.size)
    (hwords : getNullBitMaskSize (b.realSize loadSize) = getNullBitMaskSize loadSize) :
    ∃ mask, loadCol b loadSize loadOffset = some mask ∧ mask.length = getNullBitMaskSize loadSize ∧
      ∀ k, k < 64 * getNullBitMaskSize loadSize →
        getBit mask k = (decide (loadOffset + k < 64 * getNullBitMaskSize (loadOffset + loadSize)) &&
          getBit b.nullBitmask (loadOffset + k)) := by
  have hlen := (getNullBitMaskSize_le_of_le hwindow).trans b.words
  have hle : getNullBitMaskSize loadSize ≤ getNullBitMaskSize (loadOffset + loadSize) :=
    getNullBitMaskSize_le_of_le (by omega)
  unfold loadCol
  simp only [hwords]
  by_cases hoffset : loadOffset > 0
  · have hcapacity : min (getNullBitMaskSize (loadSize + loadOffset)) (getNullBitMaskSize b.size) =
        getNullBitMaskSize (loadOffset + loadSize) := by
      rw [Nat.add_comm loadSize]
      exact Nat.min_eq_left (getNullBitMaskSize_le_of_le hwindow)
    have hcopied : copyWords b.nullBitmask (getNullBitMaskSize (loadOffset + loadSize)) =
        some (b.nullBitmask.take (getNullBitMaskSize (loadOffset + loadSize))) := if_pos hlen
    have hshifted : (shiftNullMaskLeft (b.nullBitmask.take (getNullBitMaskSize (loadOffset + loadSize))) loadOffset).length =
        getNullBitMaskSize (loadOffset + loadSize) := by
      rw [length_shiftNullMaskLeft, List.length_take, Nat.min_eq_left hlen]
    refine ⟨(shiftNullMaskLeft (b.nullBitmask.take (getNullBitMaskSize (loadOffset + loadSize))) loadOffset).take
      (getNullBitMaskSize loadSize), ?_, ?_, fun k hk => ?_⟩
    · rw [if_pos hoffset, hcapacity, hcopied]
      exact if_pos (by rw [hshifted]; exact hle)
    · rw [List.length_take, hshifted, Nat.min_eq_left hle]
    · rw [getBit_take hk, getBit_shiftNullMaskLeft, getBit_take_le, Nat.add_comm k]
  · obtain rfl : loadOffset = 0 := by omega
    have hcopied : copyWords b.nullBitmask (getNullBitMaskSize loadSize) =
        some (b.nullBitmask.take (getNullBitMaskSize loadSize)) := if_pos (hle.trans hlen)
    refine ⟨_, (if_neg hoffset).trans hcopied, ?_, fun k hk => ?_⟩
    · rw [List.length_take, Nat.min_eq_left (hle.trans hlen)]
    · rw [getBit_take_le]
      simp only [Nat.zero_add]

/-- the words that LoadCol copies -/
theorem length_loadCol {mask : Mask} (h : loadCol b loadSize loadOffset = some mask) :
    mask.length = getNullBitMaskSize (b.realSize loadSize) := by
  unfold loadCol at h
  by_cases hoffset : loadOffset > 0
  · simp only [if_pos hoffset, Option.bind_eq_bind, Option.bind_eq_some_iff, copyWords_eq_some] at h
    obtain ⟨maskToOffset, -, hle, rfl⟩ := h
    rw [List.length_take, Nat.min_eq_left hle]
  · simp only [if_neg hoffset, copyWords_eq_some] at h
    obtain ⟨hle, rfl⟩ := h
    rw [List.length_take, Nat.min_eq_left hle]

/-- **Both masks are the null bits of the window exactly when the block's mask is `Aligned`.** -/
theorem carries_own_bits_iff (hwindow : loadOffset + loadSize ≤ b.size) :
    CarriesOwnBits b loadSize loadOffset ↔ Aligned b loadSize loadOffset := by
  have hnull := loadColNullMask_eq hwindow
  have hlen : getNullBitMaskSize loadSize ≤ b.nullBitmask.length :=
    (getNullBitMaskSize_le_of_le (by omega)).trans b.words
  constructor
  · rintro ⟨mask, hload, hin, hbehind, hsame⟩
    obtain rfl := Option.some.inj (hnull.symm.trans hsame)
    have hwords : getNullBitMaskSize (b.realSize loadSize) = getNullBitMaskSize loadSize := by
      rw [← length_loadCol hload, List.length_take, Nat.min_eq_left hlen]
    obtain ⟨mask, hload', -, hbits⟩ := loadCol_bits hwindow hwords
    obtain rfl := Option.some.inj (hload.symm.trans hload')
    refine ⟨hwords, fun k hk => ?_, fun k hk hword => ?_, fun k hk hword hcopied => ?_⟩
    · rw [← hin k hk, getBit_take (hk.trans_le (le_getNullBitMaskSize loadSize))]
    · rw [← hbehind k hk, getBit_take hword]
    · have := hbits k hword
      rw [hbehind k hk, decide_eq_true hcopied, Bool.true_and] at this
      exact this.symm
  · intro h
    obtain ⟨mask, hload, hsize, hbits⟩ := loadCol_bits hwindow h.words
    have hcopied : ∀ k, k < loadSize → loadOffset + k < 64 * getNullBitMaskSize (loadOffset + loadSize) := fun k hk =>
      (by omega : loadOffset + k < loadOffset + loadSize).trans_le (le_getNullBitMaskSize _)
    have hin : ∀ k, k < loadSize → getBit mask k = getBit b.nullBitmask (loadOffset + k) := by
      intro k hk
      rw [hbits k (hk.trans_le (le_getNullBitMaskSize loadSize)), decide_eq_true (hcopied k hk), Bool.true_and]
    have hout : ∀ k, loadSize ≤ k → getBit mask k = false := by
      intro k hk
      rcases lt_or_ge k (64 * getNullBitMaskSize loadSize) with hword | hword
      · rw [hbits k hword]
        by_cases hcopied : loadOffset + k < 64 * getNullBitMaskSize (loadOffset + loadSize)
        · rw [h.behind k hk hword hcopied, Bool.and_false]
        · rw [decide_eq_false hcopied, Bool.false_and]
      · exact getBit_of_le (by rw [hsize]; exact hword)
    refine ⟨mask, hload, hin, hout, ?_⟩
    rw [hnull]
    congr 1
    apply mask_ext (by rw [List.length_take, Nat.min_eq_left hlen, hsize])
    intro k hk
    rw [List.length_take, Nat.min_eq_left hlen] at hk
    rw [getBit_take hk]
    rcases lt_or_ge k loadSize with hlt | hge
    · rw [h.same k hlt, hin k hlt]
    · rw [h.clear k hge hk, hout k hge]

/-- rows 3 to 6 of seventy rows without NULL -/
theorem carries_own_bits_clear :
    CarriesOwnBits ⟨zeroMask 70, 70, none, by rw [length_zeroMask], nofun⟩ 4 3 :=
  (carries_own_bits_iff (by decide)).2
    ⟨rfl, fun k _ => by rw [getBit_zeroMask, getBit_zeroMask], fun k _ _ => getBit_zeroMask 70 k,
      fun k _ _ _ => getBit_zeroMask 70 (3 + k)⟩

/-- Two rows of which the second is NULL: the first one is loaded with the bit of the second behind it, and
LoadColNullMask gives the second one the bit of the first. -/
theorem carries_foreign_bits :
    ¬ CarriesOwnBits ⟨[0b10#64], 2, none, by decide, nofun⟩ 1 0 ∧
      loadCol ⟨[0b10#64], 2, none, by decide, nofun⟩ 1 0 = some [0b10#64] ∧
      loadCol ⟨[0b10#64], 2, none, by decide, nofun⟩ 1 1 = some [0b1#64] ∧
      loadColNullMask ⟨[0b10#64], 2, none, by decide, nofun⟩ 1 = some [0b10#64] := by
  refine ⟨?_, rfl, by decide, rfl⟩
  rintro ⟨mask, hload, -, hbehind, -⟩
  obtain rfl : [0b10#64] = mask := Option.some.inj hload
  exact absurd (hbehind 1 le_rfl) (by decide)

end QikkDB.LoadNullMask

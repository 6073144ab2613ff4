/-
The null mask of a column in the order of a join (QueryEngine/CPUJoinReorderer.cuh, reorderNullMaskByJIPushToGPU). Each
thread takes groups of eight rows of the result and sets their bits in the words of the mask, which all threads share.
Setting a bit is a load and a store of a word, and the threads' steps interleave in every order.

- `mem_program`: row `k` of the result is handled by thread `k / 8 % threadCount`, in word `k / 64`.
- `follows_iff`: the bits follow their rows exactly if only rows at multiples of 64 are NULL, and no second thread
  writes to their words.
-/
import QikkDB.Core.Block
import QikkDB.Lib.Interleaving

namespace QikkDB.CPUJoinReorderer

open NullValues (Mask getBit getNullBitMaskSize)
open Interleaving (Update Ends)

/-! ## Model -/

/-- a nullable column, the join indices of one block of the result, and the threads of the machine -/
structure JoinInput (α : Type) where
  blocksList : List (Block α)
  blockSize : ℕ
  joinIndices : List ℕ
  threadCount : ℕ
  threadCount_pos : 0 < threadCount
  inRange : ∀ index ∈ joinIndices, ∃ block, blocksList[index / blockSize]? = some block ∧ block.isNullable = true ∧
    index % blockSize < block.size

variable {α : Type}

/-- the null bit of the row that a join index designates -/
def nullBitOf (x : JoinInput α) (index : ℕ) : Bool :=
  match x.blocksList[index / x.blockSize]? with
  | some block => block.isNull (index % x.blockSize)
  | none => false

/-- the null bit read for row `k` of the result -/
def nullBit (x : JoinInput α) (k : ℕ) : Bool := (x.joinIndices[k]?).any (nullBitOf x)

/-- the rows at which thread `threadId` begins a group: `for (i = 8 * threadId; i < size; i += 8 * threadCount)` -/
def groupStarts (x : JoinInput α) (threadId : ℕ) : List ℕ :=
  List.range' (8 * threadId) ((x.joinIndices.length - 8 * threadId + (8 * x.threadCount - 1)) / (8 * x.threadCount))
    (8 * x.threadCount)

/-- `outNullBlockVector[(i + j) / (sizeof(nullmask_t) * 8)] |= nullBit << j * sizeof(nullmask_t)` -/
def setNullBit (x : JoinInput α) (i j : ℕ) : Update ℕ (BitVec 64) :=
  ⟨(i + j) / (8 * 8), fun word => word ||| (BitVec.ofBool (nullBit x (i + j))).zeroExtend 64 <<< (j * 8)⟩

/-- what a thread does; there is none from `threadCount` on -/
def program (x : JoinInput α) (threadId : ℕ) : List (Update ℕ (BitVec 64)) :=
  if threadId < x.threadCount then
    (groupStarts x threadId).flatMap fun i =>
      ((List.range 8).filter fun j => i + j < x.joinIndices.length).map (setNullBit x i)
  else []

/-- the masks that the threads may leave, whatever the order of their steps -/
def Produces (x : JoinInput α) (outNullBlock : Mask) : Prop :=
  ∃ words, Ends (fun _ => 0) (program x) words ∧
    outNullBlock = (List.range (getNullBitMaskSize x.joinIndices.length)).map words

/-- bit `k` of every mask produced is the null bit of the row that join index `k` designates -/
def Follows (x : JoinInput α) : Prop :=
  ∀ outNullBlock, Produces x outNullBlock →
    ∀ k index, x.joinIndices[k]? = some index → getBit outNullBlock k = nullBitOf x index

/-! ## Which row is handled where -/

theorem mem_groupStarts (x : JoinInput α) (t i : ℕ) :
    i ∈ groupStarts x t ↔ ∃ m, i = 8 * t + 8 * x.threadCount * m ∧ i < x.joinIndices.length := by
  have hpos : 0 < 8 * x.threadCount := by have := x.threadCount_pos; omega
  have hcount : ∀ m, m < (x.joinIndices.length - 8 * t + (8 * x.threadCount - 1)) / (8 * x.threadCount) ↔
      8 * t + 8 * x.threadCount * m < x.joinIndices.length := by
    intro m
    rw [Nat.lt_div_iff_mul_lt hpos]
    have hcomm : m * (8 * x.threadCount) = 8 * x.threadCount * m := mul_comm _ _
    omega
  rw [groupStarts, List.mem_range']
  constructor
  · rintro ⟨m, hm, rfl⟩
    exact ⟨m, rfl, (hcount m).1 hm⟩
  · rintro ⟨m, rfl, hlt⟩
    exact ⟨m, (hcount m).2 hlt, rfl⟩

/-- the updates of a thread are those of the rows it handles, each with its place in its group of eight -/
theorem mem_program (x : JoinInput α) (t : ℕ) (u : Update ℕ (BitVec 64)) :
    u ∈ program x t ↔ t < x.threadCount ∧
      ∃ k, k < x.joinIndices.length ∧ k / 8 % x.threadCount = t ∧ u = setNullBit x (k / 8 * 8) (k % 8) := by
  unfold program
  split_ifs with ht
  · simp only [ht, true_and, List.mem_flatMap, List.mem_map, List.mem_filter, List.mem_range, decide_eq_true_eq,
      mem_groupStarts]
    constructor
    · rintro ⟨i, ⟨m, rfl, -⟩, j, ⟨hj, hlt⟩, rfl⟩
      have hmul : 8 * x.threadCount * m = 8 * (x.threadCount * m) := mul_assoc _ _ _
      have hgroup : (8 * t + 8 * x.threadCount * m + j) / 8 = t + x.threadCount * m := by omega
      refine ⟨8 * t + 8 * x.threadCount * m + j, hlt, ?_, ?_⟩
      · rw [hgroup, Nat.add_mul_mod_self_left, Nat.mod_eq_of_lt ht]
      · rw [hgroup]
        congr 1 <;> omega
    · rintro ⟨k, hk, rfl, rfl⟩
      have hdiv := Nat.mod_add_div (k / 8) x.threadCount
      have hmul : 8 * x.threadCount * (k / 8 / x.threadCount) = 8 * (x.threadCount * (k / 8 / x.threadCount)) :=
        mul_assoc _ _ _
      exact ⟨k / 8 * 8, ⟨k / 8 / x.threadCount, by omega, by omega⟩, k % 8, ⟨by omega, by omega⟩, rfl⟩
  · simp [ht]

theorem program_of_le (x : JoinInput α) {t : ℕ} (ht : x.threadCount ≤ t) : program x t = [] := if_neg (not_lt.2 ht)

theorem setNullBit_cell (x : JoinInput α) (k : ℕ) : (setNullBit x (k / 8 * 8) (k % 8)).cell = k / 64 := by
  simp only [setNullBit]
  omega

/-- a row sets the bit at eight times its place in its group -/
theorem getLsbD_setNullBit (x : JoinInput α) (k : ℕ) (word : BitVec 64) {p : ℕ} (hp : p < 64) :
    ((setNullBit x (k / 8 * 8) (k % 8)).apply word).getLsbD p =
      (word.getLsbD p || (decide (8 * (k % 8) = p) && nullBit x k)) := by
  have hk : k / 8 * 8 + k % 8 = k := by omega
  simp only [setNullBit, hk, BitVec.getLsbD_or, BitVec.getLsbD_shiftLeft, BitVec.truncate_eq_setWidth,
    BitVec.getLsbD_setWidth, BitVec.getLsbD_ofBool, hp, decide_true, Bool.true_and]
  by_cases hlt : p < k % 8 * 8
  · have hne : 8 * (k % 8) ≠ p := by omega
    simp [hlt, hne]
  · by_cases heq : 8 * (k % 8) = p
    · have hz : p - k % 8 * 8 = 0 := by omega
      simp [hlt, heq, hz]
    · have hz : p - k % 8 * 8 ≠ 0 := by omega
      simp [hlt, heq, hz]

/-! ## Bits of the words -/

variable {x : JoinInput α} {words : ℕ → BitVec 64}

/-- a bit that no row sets stays clear -/
theorem bit_clear (hend : Ends (fun _ => 0) (program x) words) {c p : ℕ} (hp : p < 64)
    (h : ∀ k, k < x.joinIndices.length → k / 64 = c → 8 * (k % 8) = p → nullBit x k = false) :
    (words c).getLsbD p = false := by
  refine Interleaving.preserved (P := fun word => word.getLsbD p = false) (by simp) ?_ hend
  intro t u hu hcell word hword
  obtain ⟨-, k, hk, -, rfl⟩ := (mem_program x t u).1 hu
  rw [setNullBit_cell] at hcell
  rw [getLsbD_setNullBit x k word hp, hword, Bool.false_or]
  by_cases heq : 8 * (k % 8) = p
  · rw [h k hk hcell heq, Bool.and_false]
  · simp [heq]

theorem getBit_produced {k : ℕ} (hk : k < x.joinIndices.length) :
    getBit ((List.range (getNullBitMaskSize x.joinIndices.length)).map words) k =
      (words (k / 64)).getLsbD (k % 64) := by
  have hword : k / 64 < getNullBitMaskSize x.joinIndices.length := by
    unfold getNullBitMaskSize
    omega
  simp [getBit, NullValues.getBitMaskIdx, NullValues.getShiftMaskIdx, List.getD_eq_getElem?_getD, hword]

theorem nullBit_of_getElem? {k index : ℕ} (h : x.joinIndices[k]? = some index) : nullBit x k = nullBitOf x index := by
  simp [nullBit, h]

/-- what `Follows` says of the words -/
theorem follows_iff_words : Follows x ↔
    ∀ words, Ends (fun _ => 0) (program x) words →
      ∀ k, k < x.joinIndices.length → (words (k / 64)).getLsbD (k % 64) = nullBit x k := by
  constructor
  · intro h words hend k hk
    have hbit := h _ ⟨words, hend, rfl⟩ k x.joinIndices[k] (List.getElem?_eq_getElem hk)
    rw [getBit_produced hk] at hbit
    rw [hbit, nullBit_of_getElem? (List.getElem?_eq_getElem hk)]
  · rintro h _ ⟨words, hend, rfl⟩ k index hindex
    have hk := (List.getElem?_eq_some_iff.1 hindex).1
    rw [getBit_produced hk, h words hend k hk, nullBit_of_getElem? hindex]

/-! ## When the bits follow their rows -/

/-- Only rows of the result at multiples of 64 are NULL, and there is one thread or nothing behind the row's group of
eight. -/
def Lone (x : JoinInput α) : Prop :=
  ∀ k, k < x.joinIndices.length → nullBit x k = true →
    64 ∣ k ∧ (x.threadCount = 1 ∨ x.joinIndices.length ≤ k + 8)

theorem lone_of_follows (h : Follows x) : Lone x := by
  rw [follows_iff_words] at h
  obtain ⟨words, hend⟩ := Interleaving.exists_end (fun _ => (0 : BitVec 64)) fun t => program_of_le x (t := t)
  -- the only bits that are ever set are at multiples of eight
  have height : ∀ k, k < x.joinIndices.length → nullBit x k = true → k % 8 = 0 := by
    intro k hk hnull
    by_contra hne
    have hclear := bit_clear hend (c := k / 64) (p := k % 64) (by omega) fun k' _ _ hp => by omega
    rw [h words hend k hk, hnull] at hclear
    exact absurd hclear (by decide)
  -- and those above the first are set for rows that are not at multiples of eight
  have hword : ∀ k, k < x.joinIndices.length → nullBit x k = true → k % 64 = 0 := by
    intro k hk hnull
    by_contra hne
    have hclear := bit_clear hend (c := k / 64) (p := k % 64) (by omega) fun k' hk' _ hp => by
      by_contra hset
      have := height k' hk' (by simpa using hset)
      omega
    rw [h words hend k hk, hnull] at hclear
    exact absurd hclear (by decide)
  intro k hk hnull
  have hk₀ := hword k hk hnull
  refine ⟨Nat.dvd_of_mod_eq_zero hk₀, ?_⟩
  by_contra hnot
  rw [not_or, not_le] at hnot
  obtain ⟨hthreads, hbehind⟩ := hnot
  have hpos := x.threadCount_pos
  -- the thread of the next group loads the word before the bit is set and stores it afterwards
  have hnext : (k / 8 + 1) % x.threadCount ≠ k / 8 % x.threadCount := by
    intro heq
    have hdvd : x.threadCount ∣ k / 8 + 1 - k / 8 := (Nat.modEq_iff_dvd' (by omega)).1 (Nat.ModEq.symm heq)
    rw [Nat.add_sub_cancel_left] at hdvd
    exact hthreads (Nat.dvd_one.1 hdvd)
  obtain ⟨words', hend', hlost⟩ := Interleaving.lost_updates (P := fun word => word.getLsbD 0 = false) (c := k / 64)
    (b := (k / 8 + 1) % x.threadCount) (m := fun _ => (0 : BitVec 64)) (fun t => program_of_le x (t := t)) (by simp)
    (by
      intro u hu hcell word hclear
      obtain ⟨-, k', hk', hthread, rfl⟩ := (mem_program x _ u).1 hu
      rw [setNullBit_cell] at hcell
      rw [getLsbD_setNullBit x k' word (by decide), hclear, Bool.false_or]
      by_contra hset
      have hnull' : nullBit x k' = true := by
        rcases hn : nullBit x k' with _ | _
        · simp [hn] at hset
        · rfl
      have hk₁ := hword k' hk' hnull'
      obtain rfl : k' = k := by omega
      exact hnext hthread.symm)
    ⟨setNullBit x ((k + 8) / 8 * 8) ((k + 8) % 8), (mem_program x _ _).2 ⟨Nat.mod_lt _ hpos, k + 8, hbehind, by
      rw [Nat.add_div_right _ (by decide)], rfl⟩, by rw [setNullBit_cell]; omega⟩
  have hbit := h words' hend' k hk
  rw [hk₀, hnull, hlost] at hbit
  exact absurd hbit (by decide)

theorem follows_of_lone (h : Lone x) : Follows x := by
  rw [follows_iff_words]
  intro words hend k hk
  -- rows that set the first bit of one word are the same row
  have hsame : ∀ k', k' < x.joinIndices.length → k' / 64 = k / 64 → nullBit x k' = true →
      k' % 64 = 0 ∧ k' = k / 64 * 64 := by
    intro k' hk' hcell hnull
    have := Nat.mod_eq_zero_of_dvd (h k' hk' hnull).1
    exact ⟨this, by omega⟩
  rcases hnull : nullBit x k with _ | _
  · refine bit_clear hend (by omega) ?_
    intro k' hk' hcell hp
    by_contra hset
    obtain ⟨hzero, heq⟩ := hsame k' hk' hcell (by simpa using hset)
    obtain rfl : k' = k := by omega
    exact absurd hnull hset
  · obtain ⟨hdvd, hlone⟩ := h k hk hnull
    have hzero := Nat.mod_eq_zero_of_dvd hdvd
    have hpos := x.threadCount_pos
    have hmine : ∀ t', t' ≠ k / 8 % x.threadCount → ∀ u ∈ program x t', u.cell ≠ k / 64 := by
      intro t' ht' u hu hcell
      obtain ⟨hlt, k', hk', hthread, rfl⟩ := (mem_program x t' u).1 hu
      rw [setNullBit_cell] at hcell
      rcases hlone with hone | hshort
      · rw [hone, Nat.mod_one] at ht'
        omega
      · have hgroup : k' / 8 = k / 8 := by omega
        exact ht' (by rw [← hthread, hgroup])
    rw [Interleaving.private_cell hmine hend, hzero]
    refine Interleaving.settle_of_mem (P := fun word => word.getLsbD 0 = true) ?_
      ((mem_program x _ _).2 ⟨Nat.mod_lt _ hpos, k, hk, rfl, rfl⟩) (setNullBit_cell x k) ?_ _
    · intro u hu _ word hset
      obtain ⟨-, k', -, -, rfl⟩ := (mem_program x _ u).1 hu
      rw [getLsbD_setNullBit x k' word (by decide), hset, Bool.true_or]
    · intro word
      have hplace : 8 * (k % 8) = 0 := by omega
      rw [getLsbD_setNullBit x k word (by decide), hnull, hplace]
      simp

/-- **The mask follows the rows exactly then.** -/
theorem follows_iff (x : JoinInput α) : Follows x ↔ Lone x := ⟨lone_of_follows, follows_of_lone⟩

/-- two rows of one block, the second one NULL, in their own order and by one thread -/
def secondNull : JoinInput ℤ where
  blocksList := [⟨[1, 2], 2, 0, 0, 0, 0, 1, 2, some [2], false, 0⟩]
  blockSize := 2
  joinIndices := [0, 1]
  threadCount := 1
  threadCount_pos := by decide
  inRange := by
    intro index hindex
    have hsmall : index = 0 ∨ index = 1 := by simpa using hindex
    rcases hsmall with rfl | rfl
    · exact ⟨_, rfl, rfl, by decide⟩
    · exact ⟨_, rfl, rfl, by decide⟩

/-- the bit of the second row is set at place 8 -/
theorem follows_not_second : ¬ ∀ x : JoinInput ℤ, Follows x := by
  intro hall
  have hlone := lone_of_follows (hall secondNull) 1 (by decide) (by decide)
  exact absurd hlone.1 (by decide)

end QikkDB.CPUJoinReorderer

/-
Null masks (QueryEngine/GPUCore/NullValues.cu): one bit per row in 64-bit words, 1 for NULL.

- `getBit_setBit`: writing one bit leaves every other bit.
- `getLsbD_getPartOfBitmaskByte`: the part of a word that BlockSplit copies.
- `getBit_insertBit`: the word-by-word shift that BlockBase::InsertDataOnSpecificPosition does to a mask moves every
  bit from the insertion point on by one and puts the new bit there.
-/
import Mathlib.Data.List.GetD
import Mathlib.Tactic

namespace QikkDB.NullValues

/-! ## Masks -/

/-- nullmask_t[] -/
abbrev Mask := List (BitVec 64)

def getBitMaskIdx (idx : ℕ) : ℕ := idx / 64

def getShiftMaskIdx (idx : ℕ) : ℕ := idx % 64

/-- words needed for `size` rows -/
def getNullBitMaskSize (size : ℕ) : ℕ := (size + 64 - 1) / 64

/-- the zeroed mask a block allocates for `capacity` rows -/
def zeroMask (capacity : ℕ) : Mask := List.replicate (getNullBitMaskSize capacity) 0

/-- GetConcreteBitFromBitmask -/
def getBit (mask : Mask) (index : ℕ) : Bool :=
  (mask.getD (getBitMaskIdx index) 0).getLsbD (getShiftMaskIdx index)

/-- SetBitInBitMask, on one word -/
def setBitInWord (word : BitVec 64) (shiftMaskIdx : ℕ) (newBit : Bool) : BitVec 64 :=
  if newBit then word ||| (1#64 <<< shiftMaskIdx) else word &&& ~~~(1#64 <<< shiftMaskIdx)

/-- SetBitInBitMask -/
def setBit (mask : Mask) (index : ℕ) (newBit : Bool) : Mask :=
  mask.modify (getBitMaskIdx index) fun w => setBitInWord w (getShiftMaskIdx index) newBit

/-- GetPartOfBitmaskByte; the target takes the shift count modulo 64 -/
def getPartOfBitmaskByte (mask : Mask) (shiftMaskIdx bitMaskIdx : ℕ) : BitVec 64 :=
  ((1#64 <<< ((shiftMaskIdx + 1) % 64)) - 1#64) &&& mask.getD bitMaskIdx 0

theorem getLsbD_setBitInWord (word : BitVec 64) (i j : ℕ) (b : Bool) (hj : j < 64) :
    (setBitInWord word i b).getLsbD j = if j = i then b else word.getLsbD j := by
  have hone : (1#64 <<< i).getLsbD j = decide (j = i) := by
    simp only [BitVec.getLsbD_shiftLeft, BitVec.getLsbD_one, hj]
    by_cases h : j = i
    · simp [h]
    · by_cases hlt : j < i
      · simp [hlt, h]
      · have : j - i ≠ 0 := by omega
        simp [hlt, h, this]
  unfold setBitInWord
  cases b
  · simp only [Bool.false_eq_true, ↓reduceIte, BitVec.getLsbD_and, BitVec.getLsbD_not, hone, hj]
    by_cases hji : j = i <;> simp [hji]
  · simp only [↓reduceIte, BitVec.getLsbD_or, hone]
    by_cases hji : j = i <;> simp [hji]

theorem length_setBit (mask : Mask) (i : ℕ) (b : Bool) : (setBit mask i b).length = mask.length := by
  simp [setBit]

theorem getBit_setBit (mask : Mask) (i j : ℕ) (b : Bool) (hi : i / 64 < mask.length) :
    getBit (setBit mask i b) j = if j = i then b else getBit mask j := by
  simp only [getBit, setBit, getBitMaskIdx, getShiftMaskIdx, List.getD_eq_getElem?_getD, List.getElem?_modify]
  by_cases hw : i / 64 = j / 64
  · obtain ⟨word, hword⟩ : ∃ word, mask[i / 64]? = some word := ⟨_, List.getElem?_eq_getElem hi⟩
    rw [← hw, hword]
    simp only [↓reduceIte, Option.map_eq_map, Option.map_some, Option.getD_some]
    rw [getLsbD_setBitInWord word _ _ b (Nat.mod_lt _ (by decide))]
    have : (j % 64 = i % 64) ↔ j = i := by omega
    simp only [this]
  · have : j ≠ i := fun h => hw (by rw [h])
    simp [hw, this]

theorem getBit_zeroMask (capacity i : ℕ) : getBit (zeroMask capacity) i = false := by
  simp only [getBit, zeroMask, List.getD_eq_getElem?_getD, List.getElem?_replicate]
  split_ifs <;> simp

theorem length_zeroMask (capacity : ℕ) : (zeroMask capacity).length = getNullBitMaskSize capacity := by
  simp [zeroMask]

theorem div_lt_getNullBitMaskSize {i n : ℕ} (h : i < n) : i / 64 < getNullBitMaskSize n := by
  unfold getNullBitMaskSize
  omega

theorem getBit_of_length_le {mask : Mask} {i : ℕ} (h : mask.length ≤ i / 64) : getBit mask i = false := by
  simp [getBit, getBitMaskIdx, List.getD_eq_getElem?_getD, List.getElem?_eq_none h]

/-- writing one bit leaves the others, also where the mask does not reach it -/
theorem getBit_setBit_of_ne (mask : Mask) {i j : ℕ} (b : Bool) (h : j ≠ i) :
    getBit (setBit mask i b) j = getBit mask j := by
  by_cases hi : i / 64 < mask.length
  · rw [getBit_setBit mask i j b hi, if_neg h]
  · rw [setBit, getBitMaskIdx, List.modify_eq_self (by omega)]

/-- the low bits that GetPartOfBitmaskByte keeps; none at the last bit of a word -/
theorem getLsbD_getPartOfBitmaskByte (mask : Mask) (shiftMaskIdx bitMaskIdx t : ℕ) (ht : t < 64) :
    (getPartOfBitmaskByte mask shiftMaskIdx bitMaskIdx).getLsbD t =
      (decide (t < (shiftMaskIdx + 1) % 64) && getBit mask (64 * bitMaskIdx + t)) := by
  have hlow : ((1#64 <<< ((shiftMaskIdx + 1) % 64)) - 1#64).getLsbD t = decide (t < (shiftMaskIdx + 1) % 64) := by
    have hk : (shiftMaskIdx + 1) % 64 < 64 := Nat.mod_lt _ (by decide)
    generalize (shiftMaskIdx + 1) % 64 = k at hk
    have hpow : 2 ^ k < 2 ^ 64 := Nat.pow_lt_pow_right (by decide) hk
    have hpos : 0 < 2 ^ k := by positivity
    have htoNat : ((1#64 <<< k) - 1#64).toNat = 2 ^ k - 1 := by
      simp only [BitVec.toNat_sub, BitVec.toNat_shiftLeft, BitVec.toNat_ofNat, Nat.one_mod, Nat.shiftLeft_eq, one_mul]
      omega
    rw [BitVec.getLsbD, htoNat, Nat.testBit_two_pow_sub_one]
  have hword : (64 * bitMaskIdx + t) / 64 = bitMaskIdx := by omega
  have hshift : (64 * bitMaskIdx + t) % 64 = t := by omega
  rw [getPartOfBitmaskByte, BitVec.getLsbD_and, hlow]
  simp only [getBit, getBitMaskIdx, getShiftMaskIdx, hword, hshift]

/-! ## Inserting a bit -/

/-- the first loop of the shift: bits i, i+1, … of one word move up by one, `last` moves in; returns the bit that
moves out -/
def shiftInWord : ℕ → ℕ → BitVec 64 → Bool → BitVec 64 × Bool
  | 0, _, word, last => (word, last)
  | n + 1, i, word, last =>
    let tmp := word.getLsbD i
    if last ≠ tmp then shiftInWord n (i + 1) (setBitInWord word i last) tmp
    else shiftInWord n (i + 1) word last

/-- the second loop: every further word moves up by one bit -/
def shiftInWords : List (BitVec 64) → Bool → List (BitVec 64)
  | [], _ => []
  | word :: words, last => setBitInWord (word <<< 1) 0 last :: shiftInWords words (word.getLsbD 63)

/-- the shift of the mask in InsertDataOnSpecificPosition for an index inside the rows -/
def insertBit (mask : Mask) (index : ℕ) (bit : Bool) : Mask :=
  match mask.drop (getBitMaskIdx index) with
  | [] => mask
  | word :: words =>
    let r := shiftInWord (64 - getShiftMaskIdx index) (getShiftMaskIdx index) word bit
    mask.take (getBitMaskIdx index) ++ r.1 :: shiftInWords words r.2

/-- the bits of one word after the first loop, and the bit it hands on -/
theorem shiftInWord_spec (n i : ℕ) (word : BitVec 64) (last : Bool) (h : i + n ≤ 64) :
    (∀ j < 64, (shiftInWord n i word last).1.getLsbD j =
      if j < i then word.getLsbD j
      else if j = i then (if n = 0 then word.getLsbD j else last)
      else if j < i + n then word.getLsbD (j - 1) else word.getLsbD j) ∧
    (shiftInWord n i word last).2 = if n = 0 then last else word.getLsbD (i + n - 1) := by
  induction n generalizing i word last with
  | zero =>
    refine ⟨fun j hj => ?_, by simp [shiftInWord]⟩
    simp only [shiftInWord]
    split_ifs <;> first | rfl | omega
  | succ n ih =>
    -- whether or not the bit is written, the word afterwards has `last` at i and the old bit i moves on
    obtain ⟨word', hword', hstep⟩ : ∃ word' : BitVec 64,
        (∀ j < 64, word'.getLsbD j = if j = i then last else word.getLsbD j) ∧
        shiftInWord (n + 1) i word last = shiftInWord n (i + 1) word' (word.getLsbD i) := by
      by_cases hne : last ≠ word.getLsbD i
      · refine ⟨setBitInWord word i last, fun j hj => ?_, by simp [shiftInWord, hne]⟩
        exact getLsbD_setBitInWord word i j last hj
      · rw [not_not] at hne
        refine ⟨word, fun j hj => ?_, by simp [shiftInWord, hne]⟩
        split_ifs with hji
        · rw [hji, hne]
        · rfl
    obtain ⟨hbits, hout⟩ := ih (i + 1) word' (word.getLsbD i) (by omega)
    rw [hstep]
    constructor
    · intro j hj
      rw [hbits j hj]
      by_cases h₁ : j < i
      · have h₂ : j < i + 1 := by omega
        have h₃ : j ≠ i := by omega
        simp [h₁, h₂, h₃, hword' j hj]
      by_cases h₂ : j = i
      · subst h₂
        simp [hword' j hj]
      have h₃ : ¬ j < i + 1 := by omega
      by_cases h₄ : j = i + 1
      · subst h₄
        by_cases hn : n = 0
        · simp [hn, hword' (i + 1) hj]
        · have : i + 1 < i + (n + 1) := by omega
          simp [hn]
      by_cases h₅ : j < i + 1 + n
      · have h₆ : j < i + (n + 1) := by omega
        have h₇ : j - 1 ≠ i := by omega
        simp [h₁, h₂, h₃, h₄, h₅, h₆, hword' (j - 1) (by omega), h₇]
      · have h₆ : ¬ j < i + (n + 1) := by omega
        simp [h₁, h₂, h₃, h₄, h₅, h₆, hword' j hj]
    · rw [hout]
      by_cases hn : n = 0
      · simp [hn]
      · have h₁ : i + 1 + n - 1 = i + (n + 1) - 1 := by omega
        have h₂ : i + (n + 1) - 1 ≠ i := by omega
        simp only [hn, ↓reduceIte, h₁, hword' (i + (n + 1) - 1) (by omega), h₂]
        simp

theorem length_shiftInWords (words : List (BitVec 64)) (last : Bool) :
    (shiftInWords words last).length = words.length := by
  induction words generalizing last with
  | nil => rfl
  | cons w ws ih => simp [shiftInWords, ih]

theorem length_insertBit (mask : Mask) (i : ℕ) (b : Bool) : (insertBit mask i b).length = mask.length := by
  unfold insertBit
  cases hd : mask.drop (getBitMaskIdx i) with
  | nil => rfl
  | cons w ws =>
    have hlen := congrArg List.length hd
    simp only [List.length_drop, List.length_cons] at hlen
    simp only [List.length_append, List.length_take, List.length_cons, length_shiftInWords]
    omega

/-- every word of the second loop: its low bit comes from the word before -/
theorem getBit_shiftInWords (words : List (BitVec 64)) (last : Bool) (j : ℕ) (hj : j < 64 * words.length) :
    getBit (shiftInWords words last) j = if j = 0 then last else getBit words (j - 1) := by
  induction words generalizing last j with
  | nil => simp at hj
  | cons w ws ih =>
    simp only [getBit, getBitMaskIdx, getShiftMaskIdx, shiftInWords] at ih ⊢
    by_cases hlow : j < 64
    · have hq : j / 64 = 0 := by omega
      have hr : j % 64 = j := by omega
      rw [hq, hr, List.getD_cons_zero, getLsbD_setBitInWord _ 0 j last hlow]
      by_cases h0 : j = 0
      · simp [h0]
      · have hq' : (j - 1) / 64 = 0 := by omega
        have hr' : (j - 1) % 64 = j - 1 := by omega
        have h1 : ¬ j < 1 := by omega
        rw [hq', hr', List.getD_cons_zero, BitVec.getLsbD_shiftLeft]
        simp only [h0, hlow, h1, ↓reduceIte, decide_true, decide_false, Bool.not_false, Bool.true_and]
    · have hq : j / 64 = (j - 64) / 64 + 1 := by omega
      have hr : j % 64 = (j - 64) % 64 := by omega
      rw [hq, hr, List.getD_cons_succ, ih (w.getLsbD 63) (j - 64) (by simp only [List.length_cons] at hj; omega)]
      have h0 : j ≠ 0 := by omega
      by_cases h64 : j = 64
      · subst h64
        simp
      · have hq' : (j - 1) / 64 = (j - 64 - 1) / 64 + 1 := by omega
        have hr' : (j - 1) % 64 = (j - 64 - 1) % 64 := by omega
        have hne : j - 64 ≠ 0 := by omega
        rw [hq', hr', List.getD_cons_succ]
        simp [h0, hne]

/-- **The mask shift inserts one bit.** Bits below the index stay, the index gets the new bit, and every bit above
comes from one position below it. -/
theorem getBit_insertBit (mask : Mask) (i j : ℕ) (b : Bool) (hi : i / 64 < mask.length)
    (hj : j / 64 < mask.length) :
    getBit (insertBit mask i b) j = if j < i then getBit mask j else if j = i then b else getBit mask (j - 1) := by
  obtain ⟨pre, w, ws, rfl, hlen⟩ : ∃ pre w ws, mask = pre ++ w :: ws ∧ pre.length = i / 64 :=
    ⟨mask.take (i / 64), mask.get ⟨i / 64, hi⟩, mask.drop (i / 64 + 1), by simp, by
      simp only [List.length_take]; omega⟩
  have hins : insertBit (pre ++ w :: ws) i b =
      pre ++ (shiftInWord (64 - i % 64) (i % 64) w b).1 ::
        shiftInWords ws (shiftInWord (64 - i % 64) (i % 64) w b).2 := by
    simp [insertBit, getBitMaskIdx, getShiftMaskIdx, ← hlen]
  have hmod : i % 64 < 64 := Nat.mod_lt _ (by decide)
  obtain ⟨hbits, hout⟩ := shiftInWord_spec (64 - i % 64) (i % 64) w b (by omega)
  rw [if_neg (by omega)] at hout
  have hlast : i % 64 + (64 - i % 64) - 1 = 63 := by omega
  rw [hlast] at hout
  rw [hins]
  simp only [List.length_append, List.length_cons] at hj
  rcases lt_trichotomy (j / 64) (i / 64) with hlt | heq | hgt
  · -- a word before the insertion point
    have : j < i := by omega
    simp only [getBit, getBitMaskIdx, getShiftMaskIdx, this, ↓reduceIte]
    rw [List.getD_append _ _ _ _ (by omega), List.getD_append _ _ _ _ (by omega)]
  · -- the word of the insertion point
    have hidx : j / 64 - pre.length = 0 := by omega
    have hget : ∀ x : BitVec 64, ∀ xs : List (BitVec 64), (pre ++ x :: xs).getD (j / 64) 0 = x := by
      intro x xs
      rw [List.getD_append_right _ _ _ _ (by omega), hidx, List.getD_cons_zero]
    simp only [getBit, getBitMaskIdx, getShiftMaskIdx, hget]
    rw [hbits (j % 64) (Nat.mod_lt _ (by decide))]
    have h₁ : j % 64 < i % 64 ↔ j < i := by omega
    have h₂ : j % 64 = i % 64 ↔ j = i := by omega
    have h₃ : j % 64 < i % 64 + (64 - i % 64) := by omega
    have h₄ : 64 - i % 64 ≠ 0 := by omega
    simp only [h₁, h₂, h₃, h₄, ↓reduceIte]
    split_ifs with hlt heq'
    · rfl
    · rfl
    · have hq : (j - 1) / 64 = j / 64 := by omega
      have hr : (j - 1) % 64 = j % 64 - 1 := by omega
      rw [hq, hr, hget]
  · -- a word behind it
    have hnlt : ¬ j < i := by omega
    have hne : j ≠ i := by omega
    simp only [hnlt, hne, ↓reduceIte]
    have hq : j / 64 - pre.length = (j - 64 * (pre.length + 1)) / 64 + 1 := by omega
    have hr : j % 64 = (j - 64 * (pre.length + 1)) % 64 := by omega
    have hshift := getBit_shiftInWords ws (w.getLsbD 63) (j - 64 * (pre.length + 1)) (by omega)
    simp only [getBit, getBitMaskIdx, getShiftMaskIdx] at hshift ⊢
    rw [List.getD_append_right _ _ _ _ (by omega), hq, List.getD_cons_succ, hr, hout, hshift]
    split_ifs with h0
    · have hq' : (j - 1) / 64 - pre.length = 0 := by omega
      have hr' : (j - 1) % 64 = 63 := by omega
      rw [List.getD_append_right _ _ _ _ (by omega), hq', hr', List.getD_cons_zero]
    · have hq' : (j - 1) / 64 - pre.length = (j - 64 * (pre.length + 1) - 1) / 64 + 1 := by omega
      have hr' : (j - 1) % 64 = (j - 64 * (pre.length + 1) - 1) % 64 := by omega
      rw [List.getD_append_right _ _ _ _ (by omega), hq', hr', List.getD_cons_succ]

end QikkDB.NullValues

/-
Null masks as lists of bits, and the two ways in which they are moved: ShiftNullMaskLeft (GpuSqlDispatcher.h), which
moves all bits of a mask one place down as often as it is told, and the words put behind each other.

- `Packed`: a mask of as many words as the rows need, whose bits behind the rows are zero.
- `Packed.unique`: the rows have one such mask.
- `getBit_shiftNullMaskLeft`: bit k of the shifted mask is bit k + shift.
-/
import Mathlib.Tactic
import QikkDB.Core.NullValues

namespace QikkDB.NullValues

/-! ## Packed masks -/

/-- the mask of the rows with these null bits -/
structure Packed (bits : List Bool) (mask : Mask) : Prop where
  size : mask.length = getNullBitMaskSize bits.length
  bit : ∀ k, getBit mask k = bits.getD k false

theorem getBit_cons_of_lt (w : BitVec 64) (mask : Mask) {k : ℕ} (h : k < 64) : getBit (w :: mask) k = w.getLsbD k := by
  simp [getBit, getBitMaskIdx, getShiftMaskIdx, Nat.div_eq_of_lt h, Nat.mod_eq_of_lt h]

theorem getBit_cons_of_le (w : BitVec 64) (mask : Mask) {k : ℕ} (h : 64 ≤ k) :
    getBit (w :: mask) k = getBit mask (k - 64) := by
  obtain ⟨j, rfl⟩ := Nat.exists_eq_add_of_le h
  have hdiv : (64 + j) / 64 = j / 64 + 1 := by omega
  have hmod : (64 + j) % 64 = j % 64 := by omega
  simp [getBit, getBitMaskIdx, getShiftMaskIdx, hdiv, hmod]

/-- bit `t` of word `i` -/
theorem getBit_word (mask : Mask) (i : ℕ) {t : ℕ} (ht : t < 64) :
    getBit mask (64 * i + t) = (mask.getD i 0).getLsbD t := by
  have hdiv : (64 * i + t) / 64 = i := by omega
  have hmod : (64 * i + t) % 64 = t := by omega
  simp only [getBit, getBitMaskIdx, getShiftMaskIdx, hdiv, hmod]

/-- masks of one length with the same bits are equal -/
theorem mask_ext {m m' : Mask} (hlen : m.length = m'.length) (hbit : ∀ k, k < 64 * m.length → getBit m k = getBit m' k) :
    m = m' := by
  apply List.ext_getElem hlen
  intro i hi hi'
  apply BitVec.eq_of_getLsbD_eq
  intro t ht
  have := hbit (64 * i + t) (by omega)
  rw [getBit_word m i ht, getBit_word m' i ht, List.getD_eq_getElem _ _ hi, List.getD_eq_getElem _ _ hi'] at this
  exact this

theorem Packed.unique {bits : List Bool} {m m' : Mask} (h : Packed bits m) (h' : Packed bits m') : m = m' :=
  mask_ext (h.size.trans h'.size.symm) fun k _ => (h.bit k).trans (h'.bit k).symm

theorem getBit_append_of_lt {m m' : Mask} {k : ℕ} (h : k < 64 * m.length) : getBit (m ++ m') k = getBit m k := by
  have hk : k / 64 < m.length := by omega
  simp only [getBit, getBitMaskIdx, List.getD_eq_getElem?_getD, List.getElem?_append_left hk]

theorem getBit_append_of_le {m m' : Mask} {k : ℕ} (h : 64 * m.length ≤ k) :
    getBit (m ++ m') k = getBit m' (k - 64 * m.length) := by
  have hk : m.length ≤ k / 64 := by omega
  have hdiv : (k - 64 * m.length) / 64 = k / 64 - m.length := by omega
  have hmod : (k - 64 * m.length) % 64 = k % 64 := by omega
  simp only [getBit, getBitMaskIdx, getShiftMaskIdx, List.getD_eq_getElem?_getD, List.getElem?_append_right hk, hdiv, hmod]

theorem getBit_take {m : Mask} {n k : ℕ} (h : k < 64 * n) : getBit (m.take n) k = getBit m k := by
  have hk : k / 64 < n := by omega
  simp only [getBit, getBitMaskIdx, List.getD_eq_getElem?_getD, List.getElem?_take_of_lt hk]

theorem getBit_of_le {m : Mask} {k : ℕ} (h : 64 * m.length ≤ k) : getBit m k = false :=
  getBit_of_length_le (by omega)

/-- `n` rows fit into the words they need -/
theorem le_getNullBitMaskSize (n : ℕ) : n ≤ 64 * getNullBitMaskSize n := by
  unfold getNullBitMaskSize
  omega

theorem getNullBitMaskSize_le_of_le {m n : ℕ} (h : m ≤ n) : getNullBitMaskSize m ≤ getNullBitMaskSize n :=
  Nat.div_le_div_right (by omega)

/-! ## ShiftNullMaskLeft -/

/-- one word of the loop: the word and the carryBit for the word before it -/
def shiftWord (word carryBit : BitVec 64) : BitVec 64 × BitVec 64 :=
  let newCarryBit := word &&& 1#64
  let firstZero := ~~~(1#64 <<< 63)
  (((word >>> 1) &&& firstZero) ||| (carryBit <<< 63), newCarryBit)

/-- the loop over the words, from the last one to the first -/
def shiftWords : Mask → Mask × BitVec 64
  | [] => ([], 0)
  | word :: mask =>
    let s := shiftWords mask
    let r := shiftWord word s.2
    (r.1 :: s.1, r.2)

def shiftNullMaskLeft (mask : Mask) (shift : ℤ) : Mask := (fun m => (shiftWords m).1)^[shift.toNat] mask

theorem getLsbD_shiftWord (word : BitVec 64) (b : Bool) {t : ℕ} (ht : t < 64) :
    (shiftWord word (if b then 1#64 else 0#64)).1.getLsbD t = if t = 63 then b else word.getLsbD (t + 1) := by
  have hone : (1#64 <<< 63).getLsbD t = decide (t = 63) := by
    simp only [BitVec.getLsbD_shiftLeft, BitVec.getLsbD_one, ht]
    by_cases h : t = 63
    · simp [h]
    · have : t < 63 := by omega
      simp [this, h]
  have hcarry : ((if b then 1#64 else 0#64) <<< 63).getLsbD t = (b && decide (t = 63)) := by
    cases b with
    | false => simp
    | true => simpa using hone
  simp only [shiftWord, BitVec.getLsbD_or, BitVec.getLsbD_and, BitVec.getLsbD_not, BitVec.getLsbD_ushiftRight, hone,
    hcarry, ht]
  by_cases h : t = 63
  · simp [h]
  · simp [h, Nat.add_comm]

theorem shiftWords_snd (mask : Mask) : (shiftWords mask).2 = if getBit mask 0 then 1#64 else 0#64 := by
  cases mask with
  | nil => simp [shiftWords, getBit]
  | cons word mask =>
    have hbit : getBit (word :: mask) 0 = word.getLsbD 0 := getBit_cons_of_lt word mask (by decide)
    rw [hbit]
    apply BitVec.eq_of_getLsbD_eq
    intro t ht
    simp only [shiftWords, shiftWord, BitVec.getLsbD_and, BitVec.getLsbD_one]
    by_cases h : t = 0
    · subst h
      cases hb : word.getLsbD 0 <;> simp
    · cases hb : word.getLsbD 0 <;> simp [h]

theorem length_shiftWords (mask : Mask) : (shiftWords mask).1.length = mask.length := by
  induction mask with
  | nil => rfl
  | cons word mask ih => simp [shiftWords, ih]

/-- one turn of the outer loop -/
theorem getBit_shiftWords (mask : Mask) (k : ℕ) : getBit (shiftWords mask).1 k = getBit mask (k + 1) := by
  induction mask generalizing k with
  | nil => simp [shiftWords, getBit]
  | cons word mask ih =>
    rw [shiftWords, shiftWords_snd]
    by_cases hk : k < 64
    · rw [getBit_cons_of_lt _ _ hk, getLsbD_shiftWord word _ hk]
      by_cases h : k = 63
      · subst h
        rw [if_pos rfl, getBit_cons_of_le word mask (by decide)]
      · rw [if_neg h, getBit_cons_of_lt word mask (by omega)]
    · rw [getBit_cons_of_le _ _ (by omega), ih, getBit_cons_of_le word mask (by omega)]
      congr 1
      omega

theorem length_shiftNullMaskLeft (mask : Mask) (shift : ℤ) : (shiftNullMaskLeft mask shift).length = mask.length := by
  unfold shiftNullMaskLeft
  induction shift.toNat generalizing mask with
  | zero => rfl
  | succ n ih => rw [Function.iterate_succ_apply, ih, length_shiftWords]

theorem getBit_shiftNullMaskLeft (mask : Mask) (shift k : ℕ) :
    getBit (shiftNullMaskLeft mask shift) k = getBit mask (k + shift) := by
  rw [shiftNullMaskLeft, Int.toNat_natCast]
  induction shift generalizing mask k with
  | zero => rfl
  | succ n ih => rw [Function.iterate_succ_apply, ih, getBit_shiftWords, Nat.add_assoc]

end QikkDB.NullValues

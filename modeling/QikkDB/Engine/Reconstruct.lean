/-
Reconstruction of a filtered column (QueryEngine/GPUCore/GPUReconstruct.cuh, `reconstructColKeep`,
`kernel_reconstruct_col`, `kernel_lengths_from_indices`, `PrefixSum`; GPUReconstruct.cu, `kernel_reconstruct_null_mask`,
`kernel_reconstruct_string_chars`, `ReconstructStringColKeep`, `ReconstructStringCol`).

The prefix sums of the filter mask give each row that is kept its place in the result. The kernels read and write
buffers of fixed size, and each may run over the rows in an order of its own. No buffer of size 0 can be allocated.

- `reconstructColKeep_eq`: a numeric column is filtered.
- `reconstructStringColKeep_eq`: a string column is filtered when a string that is kept has characters.
- `reconstruction_is_filtering_iff`: both, and that without characters the strings are lost.
-/
import Mathlib.Tactic
import QikkDB.Core.PackedMask
import QikkDB.Lib.Compaction

namespace QikkDB.Reconstruct

open Compaction NullValues PrefixSum Scatter Select

/-! ## Model -/

/-- the kernels, which the device may run over the rows in different orders -/
inductive Launch where
  | values
  | lengths
  | chars
  | nullMask
deriving DecidableEq, Repr

/-- the order of the rows in each kernel -/
abbrev Order := Launch → List ℕ

section Kernels

variable {α : Type}

/-- the condition of the kernels: the place of row `i` in the result if it is kept -/
def target (inMask : List Bool) (prefixSum : List ℕ) (i : ℕ) : Option (Option ℕ) := do
  let m ← inMask[i]?
  let p ← prefixSum[i]?
  some (if m ∧ 0 ≤ (p : ℤ) - 1 then some (p - 1) else none)

/-- the kernels that write one value for each row that is kept -/
def kernelReconstruct (outSize : ℕ) (order : List ℕ) (valueAt : ℕ → Option α) (prefixSum : List ℕ)
    (inMask : List Bool) : Option (List α) :=
  kernel outSize order fun i => do
    match ← target inMask prefixSum i with
    | none => some []
    | some p => do
      let a ← valueAt i
      some [((p : ℤ), a)]

/-- kernel_reconstruct_col -/
def kernelReconstructCol (outSize : ℕ) (order : List ℕ) (aCol : List α) (prefixSum : List ℕ) (inMask : List Bool) :
    Option (List α) :=
  kernelReconstruct outSize order (fun i => aCol[i]?) prefixSum inMask

/-- kernel_lengths_from_indices -/
def kernelLengthsFromIndices (size : ℕ) (order : List ℕ) (inIndices : List ℕ) : Option (List ℕ) :=
  kernel size order fun i => do
    let length ← countAt inIndices i
    some [((i : ℤ), length)]

/-- kernel_reconstruct_string_chars -/
def kernelReconstructStringChars (outSize : ℕ) (order : List ℕ) (outIndices : List ℕ) (inChars : List α)
    (inIndices inStringLengths prefixSum : List ℕ) (inMask : List Bool) : Option (List α) :=
  kernel outSize order fun i => do
    match ← target inMask prefixSum i with
    | none => some []
    | some p => do
      let inIndex ← startAt inIndices i
      let outIndex ← startAt outIndices p
      let length ← inStringLengths[i]?
      (List.range length).mapM fun j => do
        let c ← inChars[inIndex + j]?
        some (((outIndex + j : ℕ) : ℤ), c)

/-- GetConcreteBitFromBitmask on a buffer -/
def readBit (mask : Mask) (i : ℕ) : Option Bool := do
  let word ← mask[getBitMaskIdx i]?
  some (word.getLsbD (getShiftMaskIdx i))

/-- atomicOr of one bit -/
def orBit (mask : Mask) (p : ℕ) (bit : Bool) : Option Mask :=
  if getBitMaskIdx p < mask.length then
    some (mask.modify (getBitMaskIdx p) fun w => w ||| ((if bit then 1#64 else 0#64) <<< getShiftMaskIdx p))
  else none

/-- kernel_reconstruct_null_mask, into a mask of zeros -/
def kernelReconstructNullMask (outSize : ℕ) (order : List ℕ) (inNullMask : Mask) (prefixSum : List ℕ)
    (filterMask : List Bool) : Option Mask :=
  order.foldlM (fun mask i => do
    match ← target filterMask prefixSum i with
    | none => some mask
    | some p => do
      let bit ← readBit inNullMask i
      orBit mask p bit) (List.replicate outSize 0)

end Kernels

/-- the allocator throws for a buffer of size 0, and alloc rethrows when nothing is left to evict -/
def alloc (size : ℕ) : Option ℕ := if size = 0 then none else some size

/-- a column on the device; null pointers stand for no rows -/
structure Column (α : Type) where
  data : α
  dataElementCount : ℕ
  nullMask : Option Mask
deriving Repr

section

variable {α : Type}

/-- reconstructColKeep for a column with rows and a filter mask -/
def reconstructColKeep (order : Order) (aCol : List α) (inMask : List Bool) (nullMask : Mask) :
    Option (Column (List α)) := do
  let prefixSum := maskSum inMask
  let outDataElementCount ← prefixSum[inMask.length - 1]?
  if 0 < outDataElementCount then do
    let size ← alloc outDataElementCount
    let outCol ← kernelReconstructCol size (order .values) aCol prefixSum inMask
    let outNullMask ← kernelReconstructNullMask (getNullBitMaskSize outDataElementCount) (order .nullMask) nullMask
      prefixSum inMask
    some ⟨outCol, outDataElementCount, some outNullMask⟩
  else some ⟨[], outDataElementCount, none⟩

/-- GPUString -/
structure GPUString (α : Type) where
  allChars : List α
  stringIndices : List ℕ
deriving DecidableEq, Repr

/-- the representation of these strings -/
def ofStrings (strings : List (List α)) : GPUString α := ⟨strings.flatten, inclusiveSum (strings.map List.length)⟩

def reconstructStringColKeep (order : Order) (inStringCol : GPUString α) (inMask : List Bool) (nullMask : Mask) :
    Option (Column (GPUString α)) := do
  let prefixSum := maskSum inMask
  let outDataElementCount ← prefixSum[inMask.length - 1]?
  if 0 < outDataElementCount then do
    let inLengths ← kernelLengthsFromIndices inMask.length (order .lengths) inStringCol.stringIndices
    let outLengths ← kernelReconstructCol outDataElementCount (order .values) inLengths prefixSum inMask
    let stringIndices := inclusiveSum outLengths
    let outTotalCharCount ← stringIndices[outDataElementCount - 1]?
    let size ← alloc outTotalCharCount
    let allChars ← kernelReconstructStringChars size (order .chars) stringIndices inStringCol.allChars
      inStringCol.stringIndices inLengths prefixSum inMask
    let outNullMask ← kernelReconstructNullMask (getNullBitMaskSize outDataElementCount) (order .nullMask) nullMask
      prefixSum inMask
    some ⟨⟨allChars, stringIndices⟩, outDataElementCount, some outNullMask⟩
  else some ⟨⟨[], []⟩, outDataElementCount, none⟩

/-- the strings that ReconstructStringCol fills on the host, one for each row that is kept -/
def hostStrings (outStringCol : GPUString α) (outDataElementCount : ℕ) : Option (List (List α)) :=
  (List.range outDataElementCount).mapM fun i => do
    let start ← startAt outStringCol.stringIndices i
    let length ← countAt outStringCol.stringIndices i
    if start + length ≤ outStringCol.allChars.length then some ((outStringCol.allChars.drop start).take length)
    else none

def reconstructStringCol (order : Order) (inStringCol : GPUString α) (inMask : List Bool) (nullMask : Mask) :
    Option (Column (List (List α))) := do
  let out ← reconstructStringColKeep order inStringCol inMask nullMask
  let strings ← hostStrings out.data out.dataElementCount
  some ⟨strings, out.dataElementCount, out.nullMask⟩

end

/-! ## The kernels -/

section Rows

variable {α : Type} {inMask : List Bool} {i : ℕ}

theorem target_of_true (h : inMask[i]? = some true) :
    target inMask (maskSum inMask) i = some (some ((inMask.take i).count true)) := by
  have hi : i < inMask.length := (List.getElem?_eq_some_iff.1 h).1
  rw [target, h, getElem?_maskSum hi, count_take_succ h]
  simp

theorem target_of_false (h : inMask[i]? = some false) : target inMask (maskSum inMask) i = some none := by
  have hi : i < inMask.length := (List.getElem?_eq_some_iff.1 h).1
  rw [target, h, getElem?_maskSum hi]
  simp

theorem count_take_le (inMask : List Bool) (i : ℕ) : (inMask.take i).count true ≤ inMask.count true :=
  (List.take_sublist i inMask).count_le true

/-- the values of the rows that are kept -/
theorem kernelReconstruct_eq {values : List α} (hlen : inMask.length = values.length) {valueAt : ℕ → Option α}
    (hvalue : ∀ i (hi : i < values.length), valueAt i = some values[i]) {order : List ℕ}
    (horder : order.Perm (List.range values.length)) :
    kernelReconstruct (inMask.count true) order valueAt (maskSum inMask) inMask = some (keep inMask values) := by
  have hkeep : (keep inMask (values.map fun a => [a])).flatten = keep inMask values := by
    rw [keep_map, flatten_singletons]
  rw [← hkeep]
  refine kernel_compact (by rwa [List.length_map]) (by rwa [List.length_map]) (by rw [hkeep, length_keep hlen])
    (fun i hi hm => ?_) fun i hm => by rw [target_of_false hm]; rfl
  rw [List.length_map] at hi
  rw [target_of_true hm]
  simp only [Option.bind_eq_bind, Option.bind_some, hvalue i hi]
  refine ⟨_, rfl, ?_⟩
  rw [keep_map, offset_singletons, take_keep hlen, length_keep (by simp [hlen]), List.getElem_map]
  exact List.Perm.refl _

theorem kernelReconstructCol_eq (aCol : List α) (hlen : inMask.length = aCol.length) (order : List ℕ)
    (horder : order.Perm (List.range aCol.length)) :
    kernelReconstructCol (inMask.count true) order aCol (maskSum inMask) inMask = some (keep inMask aCol) :=
  kernelReconstruct_eq hlen (fun _ hi => List.getElem?_eq_getElem hi) horder

theorem kernelLengthsFromIndices_eq (lengths order : List ℕ)
    (horder : order.Perm (List.range lengths.length)) :
    kernelLengthsFromIndices lengths.length order (inclusiveSum lengths) = some lengths :=
  kernel_cells horder fun i hi => by rw [countAt_inclusiveSum hi, List.getElem?_eq_getElem hi]

/-- the characters of the strings that are kept -/
theorem kernelReconstructStringChars_eq {strings : List (List α)} (hlen : inMask.length = strings.length)
    {order : List ℕ} (horder : order.Perm (List.range strings.length)) :
    kernelReconstructStringChars (keep inMask strings).flatten.length order
        (inclusiveSum ((keep inMask strings).map List.length)) strings.flatten (inclusiveSum (strings.map List.length))
        (strings.map List.length) (maskSum inMask) inMask = some (keep inMask strings).flatten := by
  refine kernel_compact hlen horder rfl (fun i hi hm => ?_) fun i hm => by rw [target_of_false hm]; rfl
  have hin : startAt (inclusiveSum (strings.map List.length)) i = some (offset strings i) := by
    rw [startAt_inclusiveSum (by rw [List.length_map]; exact hi.le), offset_eq]
  have hout : startAt (inclusiveSum ((keep inMask strings).map List.length)) ((inMask.take i).count true) =
      some (offset (keep inMask strings) ((inMask.take i).count true)) := by
    rw [startAt_inclusiveSum (by rw [List.length_map, length_keep hlen]; exact count_take_le inMask i), offset_eq]
  have hlength : (strings.map List.length)[i]? = some strings[i].length := by
    rw [List.getElem?_map, List.getElem?_eq_getElem hi]
    rfl
  have hread : ∀ j (hj : j < strings[i].length), strings.flatten[offset strings i + j]? = some strings[i][j] :=
    fun j hj => by rw [getElem?_flatten hi hj, List.getElem?_eq_getElem hj]
  rw [target_of_true hm]
  simp only [Option.bind_eq_bind, Option.bind_some, hin, hout, hlength]
  exact ⟨_, mapM_place _ hread, List.Perm.refl _⟩

end Rows

section Masks

variable {inMask : List Bool} {nullMask : Mask}

theorem orBit_eq {mask : Mask} {p : ℕ} (hp : p / 64 < mask.length) (bit : Bool) :
    ∃ mask', orBit mask p bit = some mask' ∧ mask'.length = mask.length ∧
      ∀ k, getBit mask' k = (getBit mask k || (bit && decide (k = p))) := by
  refine ⟨_, if_pos hp, List.length_modify .., fun k => ?_⟩
  cases bit with
  | true =>
    have hset := getBit_setBit mask p k true hp
    simp only [setBit, setBitInWord, if_true] at hset
    simp only [if_true, hset]
    by_cases hk : k = p <;> simp [hk]
  | false =>
    have hid : (fun w : BitVec 64 => w ||| ((if false then 1#64 else 0#64) <<< getShiftMaskIdx p)) = id := by
      funext w
      simp
    rw [hid, List.modify_id, Bool.false_and, Bool.or_false]

theorem readBit_eq {i : ℕ} (h : i / 64 < nullMask.length) : readBit nullMask i = some (getBit nullMask i) := by
  rw [readBit, getBitMaskIdx, List.getElem?_eq_getElem h]
  simp [getBit, getBitMaskIdx, List.getElem?_eq_getElem h]

/-- one row -/
theorem nullMask_step {mask : Mask} {i : ℕ} (hi : i < inMask.length) (hnull : i / 64 < nullMask.length)
    (hsize : mask.length = getNullBitMaskSize (inMask.count true)) :
    ∃ mask', (do
        match ← target inMask (maskSum inMask) i with
        | none => some mask
        | some p => do
          let bit ← readBit nullMask i
          orBit mask p bit) = some mask' ∧ mask'.length = mask.length ∧
      ∀ k, getBit mask' k = true ↔ getBit mask k = true ∨
        inMask[i]? = some true ∧ (inMask.take i).count true = k ∧ getBit nullMask i = true := by
  cases hm : inMask[i] with
  | false =>
    have hget : inMask[i]? = some false := hm ▸ List.getElem?_eq_getElem hi
    rw [target_of_false hget, hget]
    exact ⟨mask, rfl, rfl, fun k => by simp⟩
  | true =>
    have hget : inMask[i]? = some true := hm ▸ List.getElem?_eq_getElem hi
    have hlt : (inMask.take i).count true < inMask.count true := by
      have := count_take_le inMask (i + 1)
      rw [count_take_succ hget] at this
      exact this
    have hword : (inMask.take i).count true / 64 < mask.length := by
      rw [hsize]
      have := le_getNullBitMaskSize (inMask.count true)
      omega
    obtain ⟨mask', hor, hlen, hbit⟩ := orBit_eq hword (getBit nullMask i)
    rw [target_of_true hget, hget]
    simp only [Option.bind_eq_bind, Option.bind_some, readBit_eq hnull, hor]
    refine ⟨mask', rfl, hlen, fun k => ?_⟩
    rw [hbit, Bool.or_eq_true, Bool.and_eq_true, decide_eq_true_iff]
    simp only [true_and, eq_comm (a := k)]
    rw [and_comm (a := getBit nullMask i = true)]

/-- rows that each or one bit into a mask, after they have run -/
theorem orBits_run {step : Mask → ℕ → Option Mask} {Q : ℕ → ℕ → Prop} {size : ℕ} {order : List ℕ}
    (hstep : ∀ i ∈ order, ∀ mask : Mask, mask.length = size → ∃ mask', step mask i = some mask' ∧ mask'.length = size ∧
      ∀ k, getBit mask' k = true ↔ getBit mask k = true ∨ Q i k) (mask : Mask) (hsize : mask.length = size) :
    ∃ mask', order.foldlM step mask = some mask' ∧ mask'.length = size ∧
      ∀ k, getBit mask' k = true ↔ getBit mask k = true ∨ ∃ i ∈ order, Q i k := by
  induction order generalizing mask with
  | nil => exact ⟨mask, rfl, hsize, fun k => by simp⟩
  | cons i order ih =>
    obtain ⟨hi, hrest⟩ := List.forall_mem_cons.1 hstep
    obtain ⟨mask₁, hstep₁, hlen₁, hbit₁⟩ := hi mask hsize
    obtain ⟨mask₂, hrun, hlen₂, hbit₂⟩ := ih hrest mask₁ hlen₁
    refine ⟨mask₂, by rw [List.foldlM_cons, hstep₁]; exact hrun, hlen₂, fun k => ?_⟩
    rw [hbit₂, hbit₁, List.exists_mem_cons_iff, or_assoc]

/-- the null bits of the rows of a column -/
def nullBits (n : ℕ) (nullMask : Mask) : List Bool := (List.range n).map (getBit nullMask)

/-- the null bits of the rows that are kept, and zeros behind them -/
theorem kernelReconstructNullMask_eq {order : List ℕ} (horder : order.Perm (List.range inMask.length))
    (hnull : getNullBitMaskSize inMask.length ≤ nullMask.length) :
    ∃ mask, kernelReconstructNullMask (getNullBitMaskSize (inMask.count true)) order nullMask (maskSum inMask) inMask =
      some mask ∧ Packed (keep inMask (nullBits inMask.length nullMask)) mask := by
  have hlen : inMask.length = (nullBits inMask.length nullMask).length := by simp [nullBits]
  obtain ⟨mask, hrun, hsize, hbit⟩ := orBits_run (fun i hi mask hsize => by
    have hi := List.mem_range.1 (horder.mem_iff.1 hi)
    have hword : i / 64 < nullMask.length := by
      have := le_getNullBitMaskSize inMask.length
      omega
    obtain ⟨mask', hstep, hlen, hbit⟩ := nullMask_step hi hword hsize
    exact ⟨mask', hstep, hlen.trans hsize, hbit⟩)
    (List.replicate (getNullBitMaskSize (inMask.count true)) 0) (List.length_replicate ..)
  refine ⟨mask, hrun, by rw [hsize, length_keep hlen], fun k => ?_⟩
  have hzero : getBit (List.replicate (getNullBitMaskSize (inMask.count true)) 0) k = false :=
    getBit_zeroMask (inMask.count true) k
  rw [Bool.eq_iff_iff, hbit k, hzero, List.getD_eq_getElem?_getD]
  have hkept : ((keep inMask (nullBits inMask.length nullMask))[k]?).getD false = true ↔
      (keep inMask (nullBits inMask.length nullMask))[k]? = some true := by
    cases (keep inMask (nullBits inMask.length nullMask))[k]? <;> simp
  rw [hkept, getElem?_keep_iff hlen]
  constructor
  · rintro (h | ⟨i, hi, hm, hcount, hnull⟩)
    · cases h
    · have hlt := (List.getElem?_eq_some_iff.1 hm).1
      exact ⟨i, hm, hcount, by rw [nullBits, List.getElem?_map, List.getElem?_range hlt, Option.map_some, hnull]⟩
  · rintro ⟨i, hm, hcount, hnull⟩
    have hlt := (List.getElem?_eq_some_iff.1 hm).1
    rw [nullBits, List.getElem?_map, List.getElem?_range hlt, Option.map_some, Option.some.injEq] at hnull
    exact .inr ⟨i, horder.mem_iff.2 (List.mem_range.2 hlt), hm, hcount, hnull⟩

end Masks

/-! ## The columns -/

/-- every kernel runs over every row once -/
def Order.Covers (order : Order) (n : ℕ) : Prop := ∀ launch, (order launch).Perm (List.range n)

/-- the data, the number and the null bits of rows; without rows there is no mask -/
structure Holds {γ : Type} (data : γ) (isNull : List Bool) (out : Column γ) : Prop where
  data : out.data = data
  count : out.dataElementCount = isNull.length
  nullMask : match out.nullMask with
    | none => isNull = []
    | some mask => Packed isNull mask

section Columns

variable {α : Type} {order : Order} {inMask : List Bool} {nullMask : Mask}

theorem length_keep_nullBits : (keep inMask (nullBits inMask.length nullMask)).length = inMask.count true :=
  length_keep (by simp [nullBits])

theorem reconstructColKeep_eq (aCol : List α) (hne : inMask ≠ []) (hlen : inMask.length = aCol.length)
    (horder : order.Covers inMask.length) (hnull : getNullBitMaskSize inMask.length ≤ nullMask.length) :
    ∃ out, reconstructColKeep order aCol inMask nullMask = some out ∧
      Holds (keep inMask aCol) (keep inMask (nullBits inMask.length nullMask)) out := by
  rw [reconstructColKeep, last_maskSum hne]
  simp only [Option.bind_eq_bind, Option.bind_some]
  by_cases hcount : 0 < inMask.count true
  · obtain ⟨mask, hmask, hpacked⟩ := kernelReconstructNullMask_eq (horder .nullMask) hnull
    rw [if_pos hcount, alloc, if_neg hcount.ne']
    simp only [Option.bind_some, kernelReconstructCol_eq aCol hlen (order .values) (hlen ▸ horder .values), hmask]
    exact ⟨_, rfl, rfl, length_keep_nullBits.symm, hpacked⟩
  · rw [if_neg hcount]
    have h0 : inMask.count true = 0 := by omega
    refine ⟨_, rfl, ?_, length_keep_nullBits.symm, ?_⟩
    · exact (List.length_eq_zero_iff.1 ((length_keep hlen).trans h0)).symm
    · exact List.length_eq_zero_iff.1 (length_keep_nullBits.trans h0)

section Strings

variable {strings : List (List α)} (hne : inMask ≠ []) (hlen : inMask.length = strings.length)
  (horder : order.Covers inMask.length)

include hne hlen horder

/-- with a row that is kept, it depends on the number of characters whether their buffer can be allocated -/
theorem reconstructStringColKeep_of_pos (hcount : 0 < inMask.count true) :
    reconstructStringColKeep order (ofStrings strings) inMask nullMask =
      (alloc (keep inMask strings).flatten.length).bind fun size =>
        (kernelReconstructStringChars size (order .chars) (inclusiveSum ((keep inMask strings).map List.length))
          strings.flatten (inclusiveSum (strings.map List.length)) (strings.map List.length) (maskSum inMask)
          inMask).bind fun allChars =>
        (kernelReconstructNullMask (getNullBitMaskSize (inMask.count true)) (order .nullMask) nullMask (maskSum inMask)
          inMask).bind fun mask =>
        some ⟨⟨allChars, inclusiveSum ((keep inMask strings).map List.length)⟩, inMask.count true, some mask⟩ := by
  have hlengths := kernelLengthsFromIndices_eq (strings.map List.length) (order .lengths)
    (by rw [List.length_map, ← hlen]; exact horder .lengths)
  rw [List.length_map, ← hlen] at hlengths
  have hvalues := kernelReconstructCol_eq (strings.map List.length)
    (show inMask.length = _ by rwa [List.length_map]) (order .values) (by rw [List.length_map, ← hlen]; exact horder .values)
  rw [keep_map] at hvalues
  have hsome : (keep inMask strings).map List.length ≠ [] := by
    rw [Ne, List.map_eq_nil_iff, ← List.length_eq_zero_iff, length_keep hlen]
    exact hcount.ne'
  have htotal := last_inclusiveSum hsome
  rw [List.length_map, length_keep hlen, ← List.length_flatten] at htotal
  rw [reconstructStringColKeep, last_maskSum hne]
  simp only [Option.bind_eq_bind, Option.bind_some]
  rw [if_pos hcount, ofStrings]
  simp only [hlengths, hvalues, Option.bind_some, htotal]

/-- the strings of a column with characters in what is kept -/
theorem reconstructStringColKeep_eq (nullMask : Mask) (hnull : getNullBitMaskSize inMask.length ≤ nullMask.length)
    (hchars : keep inMask strings = [] ∨ (keep inMask strings).flatten ≠ []) :
    ∃ out, reconstructStringColKeep order (ofStrings strings) inMask nullMask = some out ∧
      Holds (ofStrings (keep inMask strings)) (keep inMask (nullBits inMask.length nullMask)) out := by
  have hkept : (keep inMask strings).length = inMask.count true := length_keep hlen
  by_cases hcount : 0 < inMask.count true
  · obtain ⟨mask, hmask, hpacked⟩ := kernelReconstructNullMask_eq (horder .nullMask) hnull
    have hflat : (keep inMask strings).flatten.length ≠ 0 := by
      rw [Ne, List.length_eq_zero_iff]
      refine hchars.resolve_left fun hnil => ?_
      rw [hnil] at hkept
      exact hcount.ne hkept
    rw [reconstructStringColKeep_of_pos hne hlen horder hcount, alloc, if_neg hflat]
    simp only [Option.bind_some, kernelReconstructStringChars_eq hlen (hlen ▸ horder .chars), hmask]
    exact ⟨_, rfl, rfl, length_keep_nullBits.symm, hpacked⟩
  · have h0 : inMask.count true = 0 := by omega
    rw [reconstructStringColKeep, last_maskSum hne]
    simp only [Option.bind_eq_bind, Option.bind_some]
    rw [if_neg hcount]
    refine ⟨_, rfl, ?_, length_keep_nullBits.symm, ?_⟩
    · rw [List.length_eq_zero_iff.1 (hkept.trans h0)]
      rfl
    · exact List.length_eq_zero_iff.1 (length_keep_nullBits.trans h0)

/-- without characters in what is kept, their buffer cannot be allocated -/
theorem reconstructStringColKeep_none (hsome : keep inMask strings ≠ []) (hchars : (keep inMask strings).flatten = []) :
    reconstructStringColKeep order (ofStrings strings) inMask nullMask = none := by
  have hcount : 0 < inMask.count true := by
    rw [← length_keep hlen]
    exact List.length_pos_iff.2 hsome
  rw [reconstructStringColKeep_of_pos hne hlen horder hcount, hchars]
  rfl

end Strings

theorem hostStrings_eq (strings : List (List α)) : hostStrings (ofStrings strings) strings.length = some strings := by
  rw [hostStrings, Traverse.mapM_some (g := fun i => strings.getD i []) fun i hi => ?_]
  · refine congrArg some (List.ext_getElem (by simp) fun i h1 h2 => ?_)
    rw [List.getElem_map, List.getElem_range, List.getD_eq_getElem _ _ h2]
  · have hi := List.mem_range.1 hi
    have hstart : startAt (ofStrings strings).stringIndices i = some (offset strings i) := by
      rw [ofStrings, startAt_inclusiveSum (by rw [List.length_map]; exact hi.le), offset_eq]
    have hcount : countAt (ofStrings strings).stringIndices i = some strings[i].length := by
      rw [ofStrings, countAt_inclusiveSum (by rwa [List.length_map]), List.getElem?_map, List.getElem?_eq_getElem hi]
      rfl
    rw [hstart, hcount]
    simp only [Option.bind_eq_bind, Option.bind_some]
    rw [ofStrings, if_pos (window_le hi), window_flatten hi, List.getD_eq_getElem _ _ hi]

end Columns

/-! ## Rows -/

/-- a row: its value, whether it is NULL and whether the filter mask keeps it -/
structure Row (α : Type) where
  value : α
  isNull : Bool
  selected : Bool
deriving DecidableEq, Repr

/-- a null mask with the bits of these rows -/
structure HasNullMask {α : Type} (rows : List (Row α)) (nullMask : Mask) : Prop where
  words : getNullBitMaskSize rows.length ≤ nullMask.length
  bits : nullBits rows.length nullMask = rows.map Row.isNull

def kept {α : Type} (rows : List (Row α)) : List (Row α) := rows.filter Row.selected

/-- the rows of a numeric column whose mask byte is 1 -/
def NumericFilters {α : Type} (order : Order) (rows : List (Row α)) (nullMask : Mask) : Prop :=
  ∃ out, reconstructColKeep order (rows.map Row.value) (rows.map Row.selected) nullMask = some out ∧
    Holds ((kept rows).map Row.value) ((kept rows).map Row.isNull) out

/-- the rows of a string column whose mask byte is 1, on the device and on the host -/
def StringFilters {α : Type} (order : Order) (rows : List (Row (List α))) (nullMask : Mask) : Prop :=
  (∃ out, reconstructStringColKeep order (ofStrings (rows.map Row.value)) (rows.map Row.selected) nullMask = some out ∧
    Holds (ofStrings ((kept rows).map Row.value)) ((kept rows).map Row.isNull) out) ∧
  ∃ out, reconstructStringCol order (ofStrings (rows.map Row.value)) (rows.map Row.selected) nullMask = some out ∧
    Holds ((kept rows).map Row.value) ((kept rows).map Row.isNull) out

section Filters

variable {α : Type} {order : Order} {nullMask : Mask}

theorem keep_rows {β : Type} (f : Row α → β) (rows : List (Row α)) :
    keep (rows.map Row.selected) (rows.map f) = (kept rows).map f :=
  keep_filter Row.selected f rows

theorem keep_nullBits {rows : List (Row α)} (hnull : HasNullMask rows nullMask) :
    keep (rows.map Row.selected) (nullBits (rows.map Row.selected).length nullMask) = (kept rows).map Row.isNull := by
  rw [List.length_map, hnull.bits, keep_rows]

theorem numericFilters {rows : List (Row α)} (hne : rows ≠ []) (horder : order.Covers rows.length)
    (hnull : HasNullMask rows nullMask) : NumericFilters order rows nullMask := by
  obtain ⟨out, hout, hholds⟩ := reconstructColKeep_eq (rows.map Row.value)
    (show rows.map Row.selected ≠ [] by simpa using hne) (by simp) (by rwa [List.length_map]) (by rw [List.length_map]; exact hnull.words)
  rw [keep_nullBits hnull, keep_rows] at hholds
  exact ⟨out, hout, hholds⟩

theorem stringFilters_iff {rows : List (Row (List α))} (hne : rows ≠ []) (horder : order.Covers rows.length)
    (hnull : HasNullMask rows nullMask) :
    StringFilters order rows nullMask ↔ kept rows = [] ∨ ∃ row ∈ kept rows, row.value ≠ [] := by
  have hcond : (kept rows = [] ∨ ∃ row ∈ kept rows, row.value ≠ []) ↔
      (kept rows).map Row.value = [] ∨ ((kept rows).map Row.value).flatten ≠ [] := by
    rw [List.map_eq_nil_iff, Ne, List.flatten_eq_nil_iff]
    simp
  have hmask : rows.map Row.selected ≠ [] := by simpa using hne
  have hlen : (rows.map Row.selected).length = (rows.map Row.value).length := by simp
  have horder' : order.Covers (rows.map Row.selected).length := by rwa [List.length_map]
  have hkeep : keep (rows.map Row.selected) (rows.map Row.value) = (kept rows).map Row.value := keep_rows _ rows
  rw [hcond]
  constructor
  · rintro ⟨⟨out, hout, -⟩, -⟩
    by_contra hno
    rw [not_or, not_not] at hno
    rw [reconstructStringColKeep_none hmask hlen horder' (hkeep ▸ hno.1) (hkeep ▸ hno.2)] at hout
    cases hout
  · intro hchars
    obtain ⟨out, hout, hholds⟩ := reconstructStringColKeep_eq hmask hlen horder' nullMask
      (by rw [List.length_map]; exact hnull.words) (hkeep ▸ hchars)
    rw [keep_nullBits hnull, hkeep] at hholds
    refine ⟨⟨out, hout, hholds⟩, ⟨(kept rows).map Row.value, out.dataElementCount, out.nullMask⟩, ?_, rfl, hholds.count,
      hholds.nullMask⟩
    have hstrings := hostStrings_eq ((kept rows).map Row.value)
    have hcount : out.dataElementCount = ((kept rows).map Row.value).length := by
      rw [hholds.count, List.length_map, List.length_map]
    rw [reconstructStringCol, hout]
    simp only [Option.bind_eq_bind, Option.bind_some, hholds.data, hcount, hstrings]

end Filters

/-- **Numeric columns are filtered; string columns are filtered, on the device and on the host, exactly when no row is
kept or one of the strings that are kept has characters.** -/
theorem reconstruction_is_filtering_iff {α : Type} (order : Order) (nullMask : Mask) :
    (∀ rows : List (Row α), rows ≠ [] → order.Covers rows.length → HasNullMask rows nullMask →
      NumericFilters order rows nullMask) ∧
    ∀ rows : List (Row (List α)), rows ≠ [] → order.Covers rows.length → HasNullMask rows nullMask →
      (StringFilters order rows nullMask ↔ kept rows = [] ∨ ∃ row ∈ kept rows, row.value ≠ []) :=
  ⟨fun _ hne horder hnull => numericFilters hne horder hnull, fun _ hne horder hnull =>
    stringFilters_iff hne horder hnull⟩

/-- three rows, the last two kept and the last one NULL, each kernel from the last row to the first -/
theorem reconstruction_is_filtering_three :
    NumericFilters (fun _ => [2, 1, 0]) [⟨10, false, false⟩, ⟨20, false, true⟩, ⟨30, true, true⟩] [0b100#64] ∧
      StringFilters (fun _ => [2, 1, 0]) [⟨['a'], false, false⟩, ⟨[], false, true⟩, ⟨['b', 'c'], true, true⟩]
        [0b100#64] := by
  have horder : Order.Covers (fun _ => [2, 1, 0]) 3 := fun _ => (by decide : [2, 1, 0].Perm (List.range 3))
  have hboth := fun α => reconstruction_is_filtering_iff (α := α) (fun _ => [2, 1, 0]) [0b100#64]
  refine ⟨(hboth ℕ).1 _ (by decide) horder ⟨by decide, by decide⟩, ?_⟩
  refine ((hboth Char).2 _ (by decide) ?_ ⟨by decide, by decide⟩).2
    (.inr ⟨⟨['b', 'c'], true, true⟩, by decide, by decide⟩)
  exact horder

/-- one row, which is kept and holds the empty string -/
theorem empty_strings_are_lost : ¬StringFilters (fun _ => [0]) [⟨([] : List Char), false, true⟩] [0#64] := by
  rw [stringFilters_iff (by decide) (fun _ => (by decide : [0].Perm (List.range 1))) ⟨by decide, by decide⟩]
  decide

end QikkDB.Reconstruct

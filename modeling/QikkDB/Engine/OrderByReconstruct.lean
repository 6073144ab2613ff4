/-
The columns of an ordered block (GpuSqlParser/Dispatcher/GpuSqlDispatcherOrderByFunctions.h, `OrderByReconstructCol`;
QueryEngine/GPUCore/GPUOrderBy.cu, `ReOrderNullValuesByIdx`; GPUReconstruct.cuh, `reconstructCol`).

The null mask in the new order has a buffer in any case, but is written only for a column with a null mask. What the
allocator has left in it then sets rows to the lowest value, and goes out as their null bits. `Memory` is what fresh
buffers hold that can be read before they have been written.

- `orderByReconstructCol_eq`: what is pushed, by the bits the mask has after ReOrderNullValuesByIdx.
- `ignores_memory_iff`: it depends on the memory exactly if the column has no null mask and some row passes the filter.
-/
import QikkDB.Engine.OrderByColumn

namespace QikkDB.OrderByReconstruct

open Compaction (mem_of_mem_keep)
open NullValues Select
open OrderByColumn (reOrderByIdx reOrderByIdx_values transformNullValsToSmallestVal transformNullValue_run)
open Reconstruct (alloc readBit readBit_eq orBit orBit_eq orBits_run reconstructColKeep reconstructColKeep_eq nullBits)

/-! ## Model -/

/-- the kernels, each over the rows in an order of its own -/
inductive Launch where
  | reorderFilter
  | reorderColumn
  | reorderNullValues
  | transformNullValues
  | reconstruct (launch : Reconstruct.Launch)
deriving DecidableEq, Repr

abbrev Schedule := Launch → List ℕ

/-- the null masks on the device and on the host, before anything has been written to them -/
structure Memory where
  reorderedNullColumn : Mask
  outNullData : Mask
deriving Repr

/-- a loaded column, the filter of WHERE and the register "$orderByIndices" -/
structure Input (α : Type) where
  col : List α
  nullMask : Option Mask
  filter : Option (List Bool)
  orderByIndices : List ℕ
  nullMask_size : ∀ mask ∈ nullMask, getNullBitMaskSize col.length ≤ mask.length
  filter_length : ∀ f ∈ filter, f.length = col.length
  indices_perm : orderByIndices.Perm (List.range col.length)

/-- a data block and its null block -/
structure Pushed (α : Type) where
  outData : List α
  outNullData : Mask
deriving Repr

/-- kernel_reorder_null_values_by_idx, one row -/
def reorderNullValue (inIndices : List ℕ) (inNullBitMask outNullBitMask : Mask) (i : ℕ) : Option Mask := do
  let idx ← inIndices[i]?
  let nullBit ← readBit inNullBitMask idx
  orBit outNullBitMask i nullBit

def reOrderNullValuesByIdx (order : List ℕ) (outNullBitMask : Mask) (indices : List ℕ) (inNullBitMask : Option Mask)
    (rowCount : ℕ) : Option Mask :=
  match inNullBitMask with
  | none => some outNullBitMask
  | some mask => order.foldlM (reorderNullValue indices mask) (List.replicate (getNullBitMaskSize rowCount) 0)

/-- the first words of a buffer are overwritten -/
def copyTo (buffer words : Mask) : Option Mask :=
  if words.length ≤ buffer.length then some (words ++ buffer.drop words.length) else none

section

variable {α : Type}

/-- reconstructCol, for null masks that are there -/
def reconstructCol (schedule : Schedule) (aCol : List α) (inMask : Option (List Bool)) (outNullMask nullMask : Mask) :
    Option (Pushed α) :=
  match inMask with
  | some inMask => do
    let out ← reconstructColKeep (fun launch => schedule (.reconstruct launch)) aCol inMask nullMask
    let outNullMask ← match out.nullMask with
      | some words => copyTo outNullMask words
      | none => some outNullMask
    some ⟨out.data, outNullMask⟩
  | none => do
    let outNullMask ← copyTo outNullMask (nullMask.take (getNullBitMaskSize aCol.length))
    some ⟨aCol, outNullMask⟩

/-- the filter in the order of the rows -/
def reorderedFilter (schedule : Schedule) (x : Input α) : Option (Option (List Bool)) :=
  match x.filter with
  | some f => (reOrderByIdx x.col.length (schedule .reorderFilter) x.orderByIndices f).map some
  | none => some none

/-- OrderByReconstructCol without a GROUP BY, after LoadCol -/
def orderByReconstructCol (schedule : Schedule) (lowest : α) (x : Input α) (memory : Memory) : Option (Pushed α) := do
  let inSize ← alloc x.col.length
  let reorderedFilterMask ← reorderedFilter schedule x
  let reorderedColumn ← reOrderByIdx inSize (schedule .reorderColumn) x.orderByIndices x.col
  let reorderedNullColumn ← reOrderNullValuesByIdx (schedule .reorderNullValues) memory.reorderedNullColumn
    x.orderByIndices x.nullMask inSize
  let reorderedColumn ← transformNullValsToSmallestVal (schedule .transformNullValues) lowest reorderedColumn
    (some reorderedNullColumn)
  reconstructCol schedule reorderedColumn reorderedFilterMask memory.outNullData reorderedNullColumn

/-- buffers for the bits of this many rows -/
structure Memory.Fits (memory : Memory) (rowCount : ℕ) : Prop where
  reorderedNullColumn : memory.reorderedNullColumn.length = getNullBitMaskSize rowCount
  outNullData : memory.outNullData.length = getNullBitMaskSize rowCount

/-- two blocks with the same rows; no bit behind them is read again -/
def Same (p q : Option (Pushed α)) : Prop :=
  match p, q with
  | none, none => True
  | some p, some q => p.outData = q.outData ∧ ∀ k < p.outData.length, getBit p.outNullData k = getBit q.outNullData k
  | _, _ => False

/-- the rows that the filter lets pass, in their order -/
def Input.passed (x : Input α) : List Bool :=
  x.orderByIndices.map fun i => (x.filter.map fun f => f.getD i false).getD true

/-- the values of the column in their order -/
def Input.reordered (lowest : α) (x : Input α) : List α := x.orderByIndices.map fun i => x.col.getD i lowest

/-- What is pushed does not depend on the memory, and for a column without a null mask it is the reordered values that
pass the filter, none of them NULL. -/
structure IgnoresMemory (schedule : Schedule) (lowest : α) (x : Input α) : Prop where
  same : ∀ memory memory' : Memory, memory.Fits x.col.length → memory'.Fits x.col.length →
    Same (orderByReconstructCol schedule lowest x memory) (orderByReconstructCol schedule lowest x memory')
  notNull : x.nullMask = none → ∀ memory : Memory, memory.Fits x.col.length →
    ∀ out, orderByReconstructCol schedule lowest x memory = some out →
      out.outData = keep x.passed (x.reordered lowest) ∧ ∀ k < out.outData.length, getBit out.outNullData k = false

/-- every kernel runs over every row once -/
def Schedule.Covers (schedule : Schedule) (n : ℕ) : Prop := ∀ launch, (schedule launch).Perm (List.range n)

end

/-! ## What is pushed -/

section Run

variable {α : Type} {x : Input α} {schedule : Schedule} {lowest : α} {memory : Memory}

theorem Input.length_indices (x : Input α) : x.orderByIndices.length = x.col.length := by
  simpa using x.indices_perm.length_eq

theorem Input.index_lt (x : Input α) {i : ℕ} (hi : i ∈ x.orderByIndices) : i < x.col.length :=
  List.mem_range.1 (x.indices_perm.mem_iff.1 hi)

@[simp] theorem Input.length_reordered (x : Input α) : (x.reordered lowest).length = x.col.length :=
  (List.length_map _).trans x.length_indices

@[simp] theorem Input.length_passed (x : Input α) : x.passed.length = x.col.length :=
  (List.length_map _).trans x.length_indices

/-- the bit of a row in the reordered null mask -/
def Input.nullAt (x : Input α) (memory : Memory) (i : ℕ) : Bool :=
  match x.nullMask with
  | some mask => getBit mask (x.orderByIndices.getD i 0)
  | none => getBit memory.reorderedNullColumn i

def Input.nulls (x : Input α) (memory : Memory) : List Bool := (List.range x.col.length).map (x.nullAt memory)

/-- the values, with the lowest one where the reordered mask has a bit -/
def Input.values (lowest : α) (x : Input α) (memory : Memory) : List α :=
  List.zipWith (fun a isNull => if isNull then lowest else a) (x.reordered lowest) (x.nulls memory)

@[simp] theorem Input.length_nulls (x : Input α) (memory : Memory) : (x.nulls memory).length = x.col.length := by
  simp [nulls]

@[simp] theorem Input.length_values (x : Input α) (memory : Memory) :
    (x.values lowest memory).length = x.col.length := by
  simp [values]

section Kernels

variable (hschedule : schedule.Covers x.col.length) (hfits : memory.Fits x.col.length)

include hschedule hfits

theorem reOrderNullValues_eq :
    ∃ mask, reOrderNullValuesByIdx (schedule .reorderNullValues) memory.reorderedNullColumn x.orderByIndices x.nullMask
        x.col.length = some mask ∧ mask.length = getNullBitMaskSize x.col.length ∧
      nullBits x.col.length mask = x.nulls memory := by
  cases hmask : x.nullMask with
  | none =>
    refine ⟨_, rfl, hfits.reorderedNullColumn, ?_⟩
    rw [nullBits, Input.nulls]
    exact List.map_congr_left fun i _ => by rw [Input.nullAt, hmask]
  | some inMask =>
    have hread : ∀ i, i < x.col.length → ∃ idx, x.orderByIndices[i]? = some idx ∧ idx < x.col.length ∧
        x.nullAt memory i = getBit inMask idx := by
      intro i hi
      have hi' : i < x.orderByIndices.length := by rwa [x.length_indices]
      refine ⟨_, List.getElem?_eq_getElem hi', x.index_lt (List.getElem_mem hi'), ?_⟩
      rw [Input.nullAt, hmask, List.getD_eq_getElem _ _ hi']
    obtain ⟨mask, hrun, hsize, hbit⟩ := @orBits_run (reorderNullValue x.orderByIndices inMask)
      (fun i k => k = i ∧ x.nullAt memory i = true) (getNullBitMaskSize x.col.length) (schedule .reorderNullValues)
      (fun i hi mask hsize => by
        have hi := List.mem_range.1 ((hschedule .reorderNullValues).mem_iff.1 hi)
        obtain ⟨idx, hidx, hlt, hnull⟩ := hread i hi
        have hword : idx / 64 < inMask.length := by
          have := x.nullMask_size inMask hmask
          have := le_getNullBitMaskSize x.col.length
          omega
        have hword' : i / 64 < mask.length := by
          have := le_getNullBitMaskSize x.col.length
          omega
        obtain ⟨mask', hor, hlen, hbit⟩ := orBit_eq hword' (getBit inMask idx)
        refine ⟨mask', ?_, hlen.trans hsize, fun k => ?_⟩
        · rw [reorderNullValue, hidx, Option.bind_eq_bind, Option.bind_some, readBit_eq hword]
          exact hor
        rw [hbit, hnull, Bool.or_eq_true, Bool.and_eq_true, decide_eq_true_iff, and_comm (a := k = i)])
      (List.replicate (getNullBitMaskSize x.col.length) 0) (List.length_replicate ..)
    refine ⟨mask, hrun, hsize, List.map_congr_left fun k hk => ?_⟩
    have hzero : getBit (List.replicate (getNullBitMaskSize x.col.length) 0) k = false := getBit_zeroMask x.col.length k
    rw [Bool.eq_iff_iff, hbit, hzero]
    constructor
    · rintro (h | ⟨i, -, rfl, h⟩)
      · cases h
      · exact h
    · exact fun h => .inr ⟨k, (hschedule .reorderNullValues).mem_iff.2 hk, rfl, h⟩

omit hfits in
/-- the values of the rows whose bit is set are replaced -/
theorem transformReordered_eq {mask : Mask} (hsize : mask.length = getNullBitMaskSize x.col.length)
    (hbits : nullBits x.col.length mask = x.nulls memory) :
    transformNullValsToSmallestVal (schedule .transformNullValues) lowest (x.reordered lowest) (some mask) =
      some (x.values lowest memory) := by
  obtain ⟨outCol, hrun, hcell⟩ := @transformNullValue_run _ lowest mask (schedule .transformNullValues)
    (x.reordered lowest) (fun i hi => by simpa using (hschedule .transformNullValues).mem_iff.1 hi)
    (by rw [x.length_reordered, hsize])
  have hvalues : outCol = x.values lowest memory := by
    refine List.ext_getElem? fun k => ?_
    rw [hcell]
    by_cases hk : k < x.col.length
    · have hmem : k ∈ schedule .transformNullValues := (hschedule _).mem_iff.2 (List.mem_range.2 hk)
      have hbit : (x.nulls memory)[k]? = some (getBit mask k) := by
        rw [← hbits, nullBits, List.getElem?_map, List.getElem?_range hk, Option.map_some]
      have hk' : k < (x.reordered lowest).length := by simpa using hk
      rw [Input.values, List.getElem?_zipWith, hbit, List.getElem?_eq_getElem hk']
      simp [hmem]
    · rw [List.getElem?_eq_none (by simpa using hk), List.getElem?_eq_none (by simpa using hk)]
      rfl
  exact hrun.trans (congrArg some hvalues)

omit hfits in
theorem reorderedFilter_eq : reorderedFilter schedule x = some (x.filter.map fun _ => x.passed) := by
  cases hfilter : x.filter with
  | none => rw [reorderedFilter, hfilter]; rfl
  | some f =>
    have hlength := x.filter_length f hfilter
    have h := @reOrderByIdx_values _ x.orderByIndices (schedule .reorderFilter) f (fun i => f.getD i false)
      (fun i hi => by
        have hi : i < f.length := hlength ▸ x.index_lt hi
        rw [List.getElem?_eq_getElem hi, List.getD_eq_getElem _ _ hi])
      (by rw [x.length_indices]; exact hschedule _)
    rw [x.length_indices] at h
    rw [reorderedFilter, hfilter]
    simp only [h, Option.map_some, Input.passed, hfilter, Option.getD_some]

end Kernels

/-- words that have been copied -/
theorem getBit_copyTo {buffer words outNullMask : Mask} (h : copyTo buffer words = some outNullMask) {k : ℕ}
    (hk : k < 64 * words.length) : getBit outNullMask k = getBit words k := by
  obtain ⟨-, heq⟩ := Option.ite_none_right_eq_some.1 h
  rw [← Option.some.inj heq, getBit_append_of_lt hk]

theorem copyTo_of_le {buffer words : Mask} (h : words.length ≤ buffer.length) :
    ∃ outNullMask, copyTo buffer words = some outNullMask := ⟨_, if_pos h⟩

/-- the rows that pass, with the null bits of the mask; without a filter, all rows -/
theorem reconstructCol_eq (hschedule : schedule.Covers x.col.length) (hrows : x.col ≠ [])
    (hfits : memory.Fits x.col.length) {mask : Mask} (hsize : mask.length = getNullBitMaskSize x.col.length)
    {aCol : List α} (hlength : aCol.length = x.col.length) :
    ∃ out, reconstructCol schedule aCol (x.filter.map fun _ => x.passed) memory.outNullData mask = some out ∧
      out.outData = keep x.passed aCol ∧
      ∀ k < out.outData.length,
        getBit out.outNullData k = (keep x.passed (nullBits x.col.length mask)).getD k false := by
  have hpos := List.length_pos_iff.2 hrows
  cases hfilter : x.filter with
  | none =>
    have hall : ∀ b ∈ x.passed, b = true := by
      intro b hb
      obtain ⟨i, -, rfl⟩ := List.mem_map.1 hb
      rw [hfilter]
      rfl
    have hkeep : keep x.passed aCol = aCol := keep_all (by rw [x.length_passed, hlength]) hall
    have hbits : keep x.passed (nullBits x.col.length mask) = nullBits x.col.length mask :=
      keep_all (by simp [nullBits]) hall
    have hwords : mask.take (getNullBitMaskSize aCol.length) = mask := by
      rw [hlength, ← hsize, List.take_length]
    obtain ⟨outNullMask, hcopy⟩ := @copyTo_of_le memory.outNullData mask (by rw [hsize, hfits.outNullData])
    refine ⟨⟨aCol, outNullMask⟩, ?_, hkeep.symm, fun k hk => ?_⟩
    · simp only [reconstructCol, Option.map_none, hwords, hcopy, Option.bind_eq_bind, Option.bind_some]
    · have hk : k < x.col.length := by rwa [hlength] at hk
      rw [hbits, nullBits, List.getD_eq_getElem?_getD, List.getElem?_map, List.getElem?_range hk, Option.map_some,
        Option.getD_some]
      refine getBit_copyTo hcopy ?_
      rw [hsize]
      exact hk.trans_le (le_getNullBitMaskSize _)
  | some f =>
    obtain ⟨out, hout, hholds⟩ := @reconstructColKeep_eq _ (fun launch => schedule (.reconstruct launch)) x.passed mask
      aCol (by rw [← List.length_pos_iff, x.length_passed]; exact hpos) (by rw [x.length_passed, hlength])
      (fun launch => by rw [x.length_passed]; exact hschedule _) (by rw [x.length_passed, hsize])
    rw [x.length_passed] at hholds
    have hcount : out.data.length = out.dataElementCount := by
      rw [hholds.data, hholds.count, length_keep (by rw [x.length_passed, hlength]), length_keep (by simp [nullBits])]
    have hnulls := hholds.nullMask
    cases hwords : out.nullMask with
    | none =>
      rw [hwords] at hnulls
      refine ⟨⟨out.data, memory.outNullData⟩, ?_, hholds.data, fun k hk => ?_⟩
      · simp only [reconstructCol, Option.map_some, hout, hwords, Option.bind_eq_bind, Option.bind_some]
      · rw [hcount, hholds.count, hnulls] at hk
        exact absurd hk (Nat.not_lt_zero k)
    | some words =>
      rw [hwords] at hnulls
      have hle : words.length ≤ memory.outNullData.length := by
        rw [hnulls.size, hfits.outNullData]
        refine getNullBitMaskSize_le_of_le ?_
        rw [length_keep (by simp [nullBits]), ← x.length_passed]
        exact List.count_le_length
      obtain ⟨outNullMask, hcopy⟩ := copyTo_of_le hle
      refine ⟨⟨out.data, outNullMask⟩, ?_, hholds.data, fun k hk => ?_⟩
      · simp only [reconstructCol, Option.map_some, hout, hwords, hcopy, Option.bind_eq_bind, Option.bind_some]
      · rw [hcount, hholds.count] at hk
        have hk : k < 64 * words.length := by
          rw [hnulls.size]
          exact hk.trans_le (le_getNullBitMaskSize _)
        rw [getBit_copyTo hcopy hk, hnulls.bit]

/-- what is pushed, by the bits of the reordered mask -/
theorem orderByReconstructCol_eq (hschedule : schedule.Covers x.col.length) (hrows : x.col ≠ [])
    (hfits : memory.Fits x.col.length) :
    ∃ out, orderByReconstructCol schedule lowest x memory = some out ∧
      out.outData = keep x.passed (x.values lowest memory) ∧
      ∀ k < out.outData.length, getBit out.outNullData k = (keep x.passed (x.nulls memory)).getD k false := by
  obtain ⟨mask, hmask, hsize, hbits⟩ := reOrderNullValues_eq hschedule hfits
  obtain ⟨out, hout, hdata, hnull⟩ := reconstructCol_eq hschedule hrows hfits hsize
    (@Input.length_values _ lowest x memory)
  have hcol := @reOrderByIdx_values _ x.orderByIndices (schedule .reorderColumn) x.col (fun i => x.col.getD i lowest)
    (fun i hi => by
      have hi := x.index_lt hi
      rw [List.getElem?_eq_getElem hi, List.getD_eq_getElem _ _ hi])
    (by rw [x.length_indices]; exact hschedule _)
  rw [x.length_indices] at hcol
  refine ⟨out, ?_, hdata, fun k hk => by rw [hnull k hk, hbits]⟩
  rw [orderByReconstructCol, alloc, if_neg (List.length_pos_iff.2 hrows).ne', Option.bind_eq_bind, Option.bind_some,
    reorderedFilter_eq hschedule, Option.bind_eq_bind, Option.bind_some, hcol, Option.bind_eq_bind, Option.bind_some,
    hmask, Option.bind_eq_bind, Option.bind_some]
  rw [show x.orderByIndices.map (fun i => x.col.getD i lowest) = x.reordered lowest from rfl,
    transformReordered_eq hschedule hsize hbits]
  exact hout

/-- a column without rows: their buffers cannot be allocated -/
theorem orderByReconstructCol_of_nil (hrows : x.col = []) : orderByReconstructCol schedule lowest x memory = none := by
  rw [orderByReconstructCol, hrows]
  rfl

end Run

/-! ## When it depends on the memory -/

section Memory

variable {α : Type} {x : Input α} {schedule : Schedule} {lowest : α}

/-- whether the filter lets a row pass -/
def Input.passes (x : Input α) (i : ℕ) : Bool := (x.filter.map fun f => f.getD i false).getD true

/-- a null mask with one value for all rows -/
def uniform (rowCount : ℕ) (word : BitVec 64) : Memory :=
  ⟨List.replicate (getNullBitMaskSize rowCount) word, List.replicate (getNullBitMaskSize rowCount) 0⟩

theorem uniform_fits (rowCount : ℕ) (word : BitVec 64) : (uniform rowCount word).Fits rowCount :=
  ⟨List.length_replicate .., List.length_replicate ..⟩

theorem nulls_uniform (hmask : x.nullMask = none) (word : BitVec 64) {b : Bool} (hword : ∀ t < 64, word.getLsbD t = b) :
    x.nulls (uniform x.col.length word) = List.replicate x.col.length b := by
  refine List.eq_replicate_iff.2 ⟨x.length_nulls _, fun c hc => ?_⟩
  obtain ⟨i, hi, rfl⟩ := List.mem_map.1 hc
  have hi := List.mem_range.1 hi
  have hlt : i / 64 < getNullBitMaskSize x.col.length := by
    have := le_getNullBitMaskSize x.col.length
    omega
  rw [Input.nullAt, hmask]
  simp only [uniform, getBit, getBitMaskIdx, getShiftMaskIdx, List.getD_eq_getElem?_getD,
    List.getElem?_replicate_of_lt hlt, Option.getD_some]
  exact hword _ (Nat.mod_lt _ (by decide))

theorem exists_passed (h : ∃ i < x.col.length, x.passes i = true) : 0 < x.passed.count true := by
  obtain ⟨i, hi, hpass⟩ := h
  rw [List.count_pos_iff]
  exact List.mem_map.2 ⟨i, x.indices_perm.mem_iff.2 (List.mem_range.2 hi), hpass⟩

theorem keep_passed_of_none {β : Type} (h : ¬∃ i < x.col.length, x.passes i = true) {l : List β}
    (hlength : l.length = x.col.length) : keep x.passed l = [] := by
  rw [← List.length_eq_zero_iff, length_keep (by rw [x.length_passed, hlength]), List.count_eq_zero]
  intro hmem
  obtain ⟨i, hi, hpass⟩ := List.mem_map.1 hmem
  exact h ⟨i, x.index_lt hi, hpass⟩

/-- with a null mask, or without a row that passes, the rows are the same for any memory -/
theorem same_of_independent (hschedule : schedule.Covers x.col.length)
    (h : x.nullMask ≠ none ∨ ¬∃ i < x.col.length, x.passes i = true) {memory memory' : Memory}
    (hfits : memory.Fits x.col.length) (hfits' : memory'.Fits x.col.length) :
    Same (orderByReconstructCol schedule lowest x memory) (orderByReconstructCol schedule lowest x memory') := by
  by_cases hrows : x.col = []
  · rw [orderByReconstructCol_of_nil hrows, orderByReconstructCol_of_nil hrows]
    trivial
  obtain ⟨out, hout, hdata, hnull⟩ := @orderByReconstructCol_eq _ x schedule lowest memory hschedule hrows hfits
  obtain ⟨out', hout', hdata', hnull'⟩ := @orderByReconstructCol_eq _ x schedule lowest memory' hschedule hrows hfits'
  rw [hout, hout']
  rcases h with hmask | hnone
  · have hnulls : x.nulls memory = x.nulls memory' := by
      refine List.map_congr_left fun i _ => ?_
      obtain ⟨mask, hmask⟩ := Option.ne_none_iff_exists'.1 hmask
      rw [Input.nullAt, Input.nullAt, hmask]
    have hvalues : x.values lowest memory = x.values lowest memory' := by rw [Input.values, hnulls, Input.values]
    have hdata'' : out.outData = out'.outData := by rw [hdata, hdata', hvalues]
    exact ⟨hdata'', fun k hk => by rw [hnull k hk, hnull' k (hdata'' ▸ hk), hnulls]⟩
  · rw [keep_passed_of_none hnone (x.length_values _)] at hdata hdata'
    refine ⟨hdata.trans hdata'.symm, fun k hk => ?_⟩
    rw [hdata] at hk
    exact absurd hk (Nat.not_lt_zero k)

/-- a row that passes shows two memories -/
theorem masked_of_same (hschedule : schedule.Covers x.col.length)
    (hsame : ∀ memory memory' : Memory, memory.Fits x.col.length → memory'.Fits x.col.length →
      Same (orderByReconstructCol schedule lowest x memory) (orderByReconstructCol schedule lowest x memory'))
    (hpass : ∃ i < x.col.length, x.passes i = true) : x.nullMask ≠ none := by
  intro hmask
  have hrows : x.col ≠ [] := by
    obtain ⟨i, hi, -⟩ := hpass
    exact List.length_pos_iff.1 (Nat.zero_lt_of_lt hi)
  have hclear := uniform_fits x.col.length 0
  have hset := uniform_fits x.col.length (BitVec.allOnes 64)
  obtain ⟨out, hout, hdata, hnull⟩ := @orderByReconstructCol_eq _ x schedule lowest _ hschedule hrows hclear
  obtain ⟨out', hout', hdata', hnull'⟩ := @orderByReconstructCol_eq _ x schedule lowest _ hschedule hrows hset
  have h := hsame _ _ hclear hset
  rw [hout, hout'] at h
  have hcount : ∀ memory, (keep x.passed (x.values lowest memory)).length = x.passed.count true := fun memory =>
    length_keep (by rw [x.length_passed, x.length_values])
  have h0 : 0 < out.outData.length := by rw [hdata, hcount]; exact exists_passed hpass
  have h0' : 0 < out'.outData.length := by rw [hdata', hcount]; exact exists_passed hpass
  have hbit := h.2 0 h0
  have hkept : ∀ b, (keep x.passed (List.replicate x.col.length b)).getD 0 false = b := by
    intro b
    have hlen : 0 < (keep x.passed (List.replicate x.col.length b)).length := by
      rw [length_keep (by simp)]
      exact exists_passed hpass
    rw [List.getD_eq_getElem _ _ hlen]
    exact List.eq_of_mem_replicate (mem_of_mem_keep (List.getElem_mem hlen))
  rw [hnull 0 h0, hnull' 0 h0', nulls_uniform hmask 0 (b := false) (by simp),
    nulls_uniform hmask (BitVec.allOnes 64) (b := true) (fun t ht => by
      rw [BitVec.getLsbD_allOnes]
      exact decide_eq_true ht), hkept, hkept] at hbit
  cases hbit

/-- **What is pushed does not depend on the memory exactly if the column has a null mask or no row passes the
filter.** -/
theorem ignores_memory_iff (schedule : Schedule) (lowest : α) (x : Input α) (hschedule : schedule.Covers x.col.length) :
    IgnoresMemory schedule lowest x ↔ x.nullMask ≠ none ∨ ¬∃ i < x.col.length, x.passes i = true := by
  constructor
  · rintro ⟨hsame, -⟩
    rw [or_iff_not_imp_right, not_not]
    exact masked_of_same hschedule hsame
  · intro h
    refine ⟨fun memory memory' => same_of_independent hschedule h, ?_⟩
    intro hmask memory hfits out hout
    have hnone := h.resolve_left fun hne => hne hmask
    by_cases hrows : x.col = []
    · rw [orderByReconstructCol_of_nil hrows] at hout
      cases hout
    obtain ⟨out', hout', hdata, -⟩ := @orderByReconstructCol_eq _ x schedule lowest memory hschedule hrows hfits
    obtain rfl := Option.some.inj (hout.symm.trans hout')
    rw [keep_passed_of_none hnone (x.length_values _)] at hdata
    rw [hdata, keep_passed_of_none hnone x.length_reordered]
    exact ⟨rfl, fun k hk => absurd hk (Nat.not_lt_zero k)⟩

end Memory

/-- two rows in the other order, the first one NULL -/
def maskedInput : Input ℤ where
  col := [10, 20]
  nullMask := some [0b01#64]
  filter := none
  orderByIndices := [1, 0]
  nullMask_size mask h := by
    obtain rfl := Option.some.inj h
    decide
  filter_length f h := by cases h
  indices_perm := by decide

/-- the same rows in a column without a null mask -/
def plainInput : Input ℤ where
  col := [10, 20]
  nullMask := none
  filter := none
  orderByIndices := [1, 0]
  nullMask_size mask h := by cases h
  filter_length f h := by cases h
  indices_perm := by decide

theorem ignores_memory_masked : IgnoresMemory (fun _ => [0, 1]) (-2147483648) maskedInput :=
  (ignores_memory_iff _ _ maskedInput fun _ => (by decide : [0, 1].Perm (List.range 2))).2 (.inl (by decide))

/-- set bits that the allocator has left make both rows NULL -/
theorem stale_bits_are_pushed : ¬IgnoresMemory (fun _ => [0, 1]) (-2147483648) plainInput := by
  rintro ⟨hsame, -⟩
  have hschedule : Schedule.Covers (fun _ => [0, 1]) plainInput.col.length := fun _ =>
    (by decide : [0, 1].Perm (List.range 2))
  exact masked_of_same hschedule hsame ⟨0, by decide, by decide⟩ rfl

end QikkDB.OrderByReconstruct

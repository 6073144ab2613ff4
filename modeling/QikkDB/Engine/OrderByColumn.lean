/-
ORDER BY within one block (QueryEngine/GPUCore/GPUOrderBy.cuh, `OrderByColumn`, `TransformNullValsToSmallestVal`,
`ReOrderByIdx`; GPUOrderBy.cu, `kernel_fill_indices`; GpuSqlDispatcherOrderByFunctions.h, `OrderByCol`;
GpuSqlCustomParser.cpp, `WalkSqlSelect`).

The parser hands out the columns last first. For each of them the rows are sorted by that column alone, from the order
in which the column before has left them; the rows with NULL get the lowest value of the type in the column itself. The
radix sorts are parameters, of which only stability is used.

- `Precedes`: what ORDER BY asks of two rows.
- `orderByCol_sorted`: one call turns an order by the later columns into an order by this column and the later ones.
- `order_by_is_lexicographic`: the indices after the last call.
-/
import Mathlib.Tactic
import QikkDB.Engine.OrderByMerge
import QikkDB.Engine.Reconstruct
import QikkDB.Lib.StableSort

namespace QikkDB.OrderByColumn

open NullValues Scatter StableSort
open OrderByMerge (Order)
open Reconstruct (alloc readBit readBit_eq)

/-! ## Model -/

/-- the kernels; the device runs each over the rows in an order of its own -/
inductive Launch where
  | fillIndices
  | transformNullValues
  | reorderByIdx
deriving DecidableEq, Repr

abbrev Schedule := Launch → List ℕ

section Kernels

variable {α : Type}

/-- kernel_fill_indices -/
def kernelFillIndices (dataElementCount : ℕ) (order : List ℕ) : Option (List ℕ) :=
  kernel dataElementCount order fun i => some [((i : ℤ), i)]

/-- one row of kernel_transform_null_values -/
def transformNullValue (lowest : α) (nullBitMask : Mask) (inCol : List α) (i : ℕ) : Option (List α) := do
  let isNullFlag ← readBit nullBitMask i
  if isNullFlag then if i < inCol.length then some (inCol.set i lowest) else none
  else some inCol

/-- without a null mask nothing is launched -/
def transformNullValsToSmallestVal (order : List ℕ) (lowest : α) (inCol : List α) (nullBitMask : Option Mask) :
    Option (List α) :=
  match nullBitMask with
  | none => some inCol
  | some mask => order.foldlM (transformNullValue lowest mask) inCol

/-- inCol[inIndices[i]] -/
def valueByIdx (inIndices : List ℕ) (inCol : List α) (i : ℕ) : Option α := do
  let idx ← inIndices[i]?
  inCol[idx]?

/-- kernel_reorder_by_idx -/
def reOrderByIdx (dataElementCount : ℕ) (order : List ℕ) (inIndices : List ℕ) (inCol : List α) : Option (List α) :=
  kernel dataElementCount order fun i => do
    let a ← valueByIdx inIndices inCol i
    some [((i : ℤ), a)]

/-- cub's sorts of keys with their values -/
structure DeviceRadixSort (α : Type) where
  sortPairs : List (α × ℕ) → List (α × ℕ)
  sortPairsDescending : List (α × ℕ) → List (α × ℕ)

def DeviceRadixSort.sort (cub : DeviceRadixSort α) : Order → List (α × ℕ) → List (α × ℕ)
  | .asc => cub.sortPairs
  | .desc => cub.sortPairsDescending

/-- what is assumed of the sorts -/
structure DeviceRadixSort.Stable [LinearOrder α] (cub : DeviceRadixSort α) : Prop where
  ascending : IsStable (· ≤ ·) cub.sortPairs
  descending : IsStable (· ≥ ·) cub.sortPairsDescending

/-- the front and back buffer; the back buffer is empty before the first sort -/
structure GPUOrderBy where
  indices1 : List ℕ
  indices2 : Option (List ℕ)
deriving Repr

/-- the constructor -/
def GPUOrderBy.new (schedule : Schedule) (dataElementCount : ℕ) : Option GPUOrderBy := do
  let size ← alloc dataElementCount
  let indices ← kernelFillIndices size (schedule .fillIndices)
  some ⟨indices, none⟩

/-- the column after the call, the buffers, and outIndices -/
def GPUOrderBy.orderByColumn (t : GPUOrderBy) (schedule : Schedule) (cub : DeviceRadixSort α) (lowest : α)
    (inCol : List α) (nullBitMask : Option Mask) (dataElementCount : ℕ) (order : Order) :
    Option (List α × GPUOrderBy × List ℕ) := do
  let inCol ← transformNullValsToSmallestVal (schedule .transformNullValues) lowest inCol nullBitMask
  let size ← alloc dataElementCount
  let keys1 ← reOrderByIdx size (schedule .reorderByIdx) t.indices1 inCol
  let indices2 := (cub.sort order (keys1.zip t.indices1)).map Prod.snd
  some (inCol, ⟨indices2, some t.indices1⟩, indices2)

end Kernels

section Model

variable {C : Type} (V : C → Type)

/-- a block of rows: its columns, and the null masks of those that have one -/
structure Block where
  rowCount : ℕ
  column : ∀ c, List (V c)
  nullMask : C → Option Mask
  column_length : ∀ c, (column c).length = rowCount
  nullMask_size : ∀ c, ∀ mask ∈ nullMask c, getNullBitMaskSize rowCount ≤ mask.length

/-- the columns on the device, `orderByTable_` and the register "$orderByIndices" -/
structure Dispatcher where
  column : ∀ c, List (V c)
  orderByTable : Option GPUOrderBy
  orderByIndices : Option (List ℕ)

variable {V}

/-- the dispatcher when the block has been loaded -/
def Block.load (block : Block V) : Dispatcher V := ⟨block.column, none, none⟩

/-- a column of ORDER BY with its direction -/
abbrev OrderByItem (C : Type) := C × Order

variable [DecidableEq C] (cub : ∀ c, DeviceRadixSort (V c)) (lowest : ∀ c, V c) (usingGroupBy : Bool) (block : Block V)

/-- the first call makes the table -/
def Dispatcher.table (d : Dispatcher V) (schedule : Schedule) (inSize : ℕ) : Option GPUOrderBy :=
  match d.orderByTable with
  | none => GPUOrderBy.new schedule inSize
  | some table => some table

/-- OrderByCol, in the last block when there is a GROUP BY -/
def orderByCol (schedule : Schedule) (item : OrderByItem C) (d : Dispatcher V) : Option (Dispatcher V) :=
  let column := d.column item.1
  let inSize := column.length
  if usingGroupBy ∧ inSize = 0 then some d
  else do
    let table ← d.table schedule inSize
    let (column, table, indices) ← table.orderByColumn schedule (cub item.1) (lowest item.1) column
      (block.nullMask item.1) inSize item.2
    some ⟨Function.update d.column item.1 column, some table, some indices⟩

/-- the order of the columns is flipped -/
def flipColumns (orderByColumns : List (OrderByItem C)) : List (OrderByItem C) :=
  orderByColumns.foldl (fun flipped item => item :: flipped) []

/-- the calls for an ORDER BY -/
def walkOrderBy (schedules : ℕ → Schedule) (orderByColumns : List (OrderByItem C)) : Option (Dispatcher V) :=
  (flipColumns orderByColumns).zipIdx.foldlM (fun d call => orderByCol cub lowest usingGroupBy block (schedules call.2) call.1 d)
    block.load

end Model

/-! ## What ORDER BY asks -/

section Spec

variable {C : Type} {V : C → Type}

def Block.isNull (block : Block V) (c : C) (i : ℕ) : Bool :=
  match block.nullMask c with
  | none => false
  | some mask => getBit mask i

/-- the value of a row as ORDER BY sees it -/
def Block.rank (block : Block V) (lowest : ∀ c, V c) (c : C) (i : ℕ) : V c :=
  if block.isNull c i then lowest c else (block.column c).getD i (lowest c)

def before {α : Type} [LinearOrder α] : Order → α → α → Prop
  | .asc, a, b => a < b
  | .desc, a, b => b < a

/-- row `i` stands before row `j`: by the first column in which they differ, and by their places if there is none -/
def Precedes [∀ c, LinearOrder (V c)] (block : Block V) (lowest : ∀ c, V c) : List (OrderByItem C) → ℕ → ℕ → Prop
  | [], i, j => i < j
  | (c, order) :: items, i, j =>
    before order (block.rank lowest c i) (block.rank lowest c j) ∨
      block.rank lowest c i = block.rank lowest c j ∧ Precedes block lowest items i j

end Spec

/-! ## The column -/

section Column

variable {C : Type} {V : C → Type} {lowest : ∀ c, V c} {block : Block V} {c : C}

/-- the column as the sort sees it -/
def Block.ranks (block : Block V) (lowest : ∀ c, V c) (c : C) : List (V c) :=
  (List.range block.rowCount).map (block.rank lowest c)

/-- a column in which at most values of rows with NULL have been replaced -/
structure Block.Agrees (block : Block V) (c : C) (column : List (V c)) : Prop where
  length_eq : column.length = block.rowCount
  value : ∀ i, block.isNull c i = false → column[i]? = (block.column c)[i]?

theorem Block.agrees_column : block.Agrees c (block.column c) := ⟨block.column_length c, fun _ _ => rfl⟩

@[simp] theorem Block.length_ranks : (block.ranks lowest c).length = block.rowCount := by
  simp [Block.ranks]

theorem Block.getElem?_ranks {i : ℕ} (h : i < block.rowCount) :
    (block.ranks lowest c)[i]? = some (block.rank lowest c i) := by
  rw [Block.ranks, List.getElem?_map, List.getElem?_range h, Option.map_some]

theorem Block.rank_of_not_isNull {i : ℕ} (h : i < block.rowCount) (hnull : block.isNull c i = false) :
    some (block.rank lowest c i) = (block.column c)[i]? := by
  have hi : i < (block.column c).length := by rwa [block.column_length]
  rw [Block.rank, hnull, if_neg (by decide), List.getD_eq_getElem _ _ hi, List.getElem?_eq_getElem hi]

theorem Block.agrees_ranks : block.Agrees c (block.ranks lowest c) where
  length_eq := Block.length_ranks
  value i hnull := by
    by_cases hi : i < block.rowCount
    · rw [Block.getElem?_ranks hi, Block.rank_of_not_isNull hi hnull]
    · rw [List.getElem?_eq_none (by simpa using hi), List.getElem?_eq_none (by rw [block.column_length]; omega)]

end Column

section Kernels

variable {α : Type} {lowest : α} {mask : Mask}

theorem transformNullValue_eq {inCol : List α} {i : ℕ} (hi : i < inCol.length) (hmask : i / 64 < mask.length) :
    transformNullValue lowest mask inCol i = some (if getBit mask i then inCol.set i lowest else inCol) := by
  rw [transformNullValue, readBit_eq hmask]
  simp only [Option.bind_eq_bind, Option.bind_some, if_pos hi]
  cases getBit mask i <;> rfl

/-- the rows that have run -/
theorem transformNullValue_run {order : List ℕ} {inCol : List α} (horder : ∀ i ∈ order, i < inCol.length)
    (hmask : getNullBitMaskSize inCol.length ≤ mask.length) :
    ∃ outCol, order.foldlM (transformNullValue lowest mask) inCol = some outCol ∧
      ∀ k, outCol[k]? = inCol[k]?.map fun a => if k ∈ order ∧ getBit mask k = true then lowest else a := by
  induction order generalizing inCol with
  | nil => exact ⟨inCol, rfl, fun k => by simp⟩
  | cons i order ih =>
    obtain ⟨hi, hrest⟩ := List.forall_mem_cons.1 horder
    have hword : i / 64 < mask.length := by
      have := le_getNullBitMaskSize inCol.length
      omega
    have hlen : (if getBit mask i then inCol.set i lowest else inCol).length = inCol.length := by
      split_ifs <;> simp
    obtain ⟨outCol, hrun, hcell⟩ := @ih (if getBit mask i then inCol.set i lowest else inCol)
      (by rwa [hlen]) (by rwa [hlen])
    refine ⟨outCol, by rw [List.foldlM_cons, transformNullValue_eq hi hword]; exact hrun, fun k => ?_⟩
    rw [hcell]
    by_cases hik : i = k
    · subst hik
      cases hbit : getBit mask i <;> simp [hi]
    · have hmem : k ∈ i :: order ↔ k ∈ order := by simp [Ne.symm hik]
      cases getBit mask i <;> simp [List.getElem?_set_ne hik, hmem]

/-- the values in the order of the indices -/
theorem reOrderByIdx_values {inIndices order : List ℕ} {values : List α} {g : ℕ → α}
    (hg : ∀ i ∈ inIndices, values[i]? = some (g i)) (horder : order.Perm (List.range inIndices.length)) :
    reOrderByIdx inIndices.length order inIndices values = some (inIndices.map g) := by
  have h := @kernel_cells _ (inIndices.map g) order (by rwa [List.length_map]) (valueByIdx inIndices values)
    fun i hi => by
      rw [List.length_map] at hi
      rw [valueByIdx, List.getElem?_eq_getElem hi, List.getElem_map]
      exact hg _ (List.getElem_mem hi)
  rwa [List.length_map] at h

end Kernels

/-! ## One call -/

section Call

variable {C : Type} {V : C → Type} {block : Block V} {lowest : ∀ c, V c} {c : C} {schedule : Schedule}
  (hschedule : ∀ k, (schedule k).Perm (List.range block.rowCount))

include hschedule

theorem transformNullValsToSmallestVal_eq {inCol : List (V c)} (hcol : block.Agrees c inCol) :
    transformNullValsToSmallestVal (schedule .transformNullValues) (lowest c) inCol (block.nullMask c) =
      some (block.ranks lowest c) := by
  cases hmask : block.nullMask c with
  | none =>
    have hnull : ∀ i, block.isNull c i = false := fun i => by rw [Block.isNull, hmask]
    have hranks : inCol = block.ranks lowest c := List.ext_getElem? fun i =>
      (hcol.value i (hnull i)).trans (Block.agrees_ranks.value i (hnull i)).symm
    rw [transformNullValsToSmallestVal, hranks]
  | some mask =>
    have hsize : getNullBitMaskSize inCol.length ≤ mask.length := hcol.length_eq ▸ block.nullMask_size c mask hmask
    have hrow : ∀ i, i ∈ schedule .transformNullValues ↔ i < inCol.length := fun i => by
      rw [(hschedule _).mem_iff, List.mem_range, hcol.length_eq]
    obtain ⟨outCol, hrun, hcell⟩ := @transformNullValue_run _ (lowest c) mask (schedule .transformNullValues) inCol
      (fun i hi => (hrow i).1 hi) hsize
    have hranks : outCol = block.ranks lowest c := by
      refine List.ext_getElem? fun i => ?_
      rw [hcell]
      have hisNull : block.isNull c i = getBit mask i := by rw [Block.isNull, hmask]
      by_cases hi : i < inCol.length
      · rw [Block.getElem?_ranks (hcol.length_eq ▸ hi)]
        cases hbit : getBit mask i with
        | true => simp [Block.rank, hisNull, hbit, (hrow i).2 hi, hi]
        | false =>
          rw [hcol.value i (hisNull.trans hbit),
            ← @Block.rank_of_not_isNull _ _ lowest _ _ _ (hcol.length_eq ▸ hi) (hisNull.trans hbit)]
          simp
      · rw [List.getElem?_eq_none (by omega), List.getElem?_eq_none (by rw [Block.length_ranks, ← hcol.length_eq]; omega)]
        rfl
    exact hrun.trans (congrArg some hranks)

theorem kernelFillIndices_eq : kernelFillIndices block.rowCount (schedule .fillIndices) =
    some (List.range block.rowCount) := by
  have h := @kernel_cells _ (List.range block.rowCount) (schedule .fillIndices)
    (by rw [List.length_range]; exact hschedule _) some fun i hi => by rw [List.getElem_range]
  rwa [List.length_range] at h

theorem reOrderByIdx_eq {inIndices : List ℕ} (hindices : inIndices.Perm (List.range block.rowCount)) :
    reOrderByIdx block.rowCount (schedule .reorderByIdx) inIndices (block.ranks lowest c) =
      some (inIndices.map (block.rank lowest c)) := by
  have hlen : inIndices.length = block.rowCount := by rw [hindices.length_eq, List.length_range]
  have h := @reOrderByIdx_values _ inIndices (schedule .reorderByIdx) (block.ranks lowest c) (block.rank lowest c)
    (fun i hi => Block.getElem?_ranks (List.mem_range.1 (hindices.mem_iff.1 hi))) (by rw [hlen]; exact hschedule _)
  rwa [hlen] at h

end Call

section Sorted

variable {α : Type} [LinearOrder α] {cub : DeviceRadixSort α} (hcub : cub.Stable)

include hcub

theorem sort_perm (order : Order) (l : List (α × ℕ)) : (cub.sort order l).Perm l := by
  cases order with
  | asc => exact hcub.ascending.perm l
  | desc => exact hcub.descending.perm l

/-- pairs are ordered by their keys, and those of one key as they were -/
theorem sort_pairwise (order : Order) {R : α × ℕ → α × ℕ → Prop} {l : List (α × ℕ)} (hl : l.Pairwise R) :
    (cub.sort order l).Pairwise fun p q => before order p.1 q.1 ∨ p.1 = q.1 ∧ R p q := by
  cases order with
  | asc =>
    refine (hcub.ascending.pairwise hl).imp fun ⟨hle, htie⟩ => ?_
    exact hle.lt_or_eq.imp id fun heq => ⟨heq, htie heq⟩
  | desc =>
    refine (hcub.descending.pairwise hl).imp fun ⟨hle, htie⟩ => ?_
    exact hle.lt_or_eq.imp id fun heq => ⟨heq.symm, htie heq.symm⟩

end Sorted

section Call

variable {C : Type} {V : C → Type} [∀ c, LinearOrder (V c)] {block : Block V} {lowest : ∀ c, V c} {schedule : Schedule}

/-- one call sorts the rows by its column, and keeps the order they had within one value -/
theorem orderByColumn_sorted (hschedule : ∀ k, (schedule k).Perm (List.range block.rowCount))
    (hrows : block.rowCount ≠ 0) {c : C} {cub : DeviceRadixSort (V c)} (hcub : cub.Stable) {inCol : List (V c)}
    (hcol : block.Agrees c inCol) {t : GPUOrderBy} (hperm : t.indices1.Perm (List.range block.rowCount))
    {items : List (OrderByItem C)} (hsorted : t.indices1.Pairwise (Precedes block lowest items)) (order : Order) :
    ∃ indices, t.orderByColumn schedule cub (lowest c) inCol (block.nullMask c) block.rowCount order =
        some (block.ranks lowest c, ⟨indices, some t.indices1⟩, indices) ∧
      indices.Perm (List.range block.rowCount) ∧ indices.Pairwise (Precedes block lowest ((c, order) :: items)) := by
  have hpairs : (t.indices1.map (block.rank lowest c)).zip t.indices1 =
      t.indices1.map fun i => (block.rank lowest c i, i) := List.map_prod_right_eq_zip.symm
  refine ⟨(cub.sort order (t.indices1.map fun i => (block.rank lowest c i, i))).map Prod.snd, ?_, ?_, ?_⟩
  · rw [GPUOrderBy.orderByColumn, transformNullValsToSmallestVal_eq hschedule hcol, alloc, if_neg hrows]
    simp only [Option.bind_eq_bind, Option.bind_some, reOrderByIdx_eq hschedule hperm, hpairs]
  · have h := (sort_perm hcub order (t.indices1.map fun i => (block.rank lowest c i, i))).map Prod.snd
    rw [List.map_map] at h
    exact (h.trans (by simp [Function.comp_def])).trans hperm
  · have hkey : ∀ p ∈ cub.sort order (t.indices1.map fun i => (block.rank lowest c i, i)), p.1 = block.rank lowest c p.2 := by
      intro p hp
      obtain ⟨i, -, rfl⟩ := List.mem_map.1 ((sort_perm hcub order _).mem_iff.1 hp)
      rfl
    have hbefore := sort_pairwise hcub order (List.pairwise_map.2 hsorted :
      (t.indices1.map fun i => (block.rank lowest c i, i)).Pairwise fun p q => Precedes block lowest items p.2 q.2)
    refine List.pairwise_map.2 (hbefore.imp_of_mem fun hp hq h => ?_)
    rw [hkey _ hp, hkey _ hq] at h
    exact h

end Call

/-! ## All calls -/

section Flip

variable {C : Type}

theorem flipColumns_eq (items : List (OrderByItem C)) : flipColumns items = items.reverse := by
  simp [flipColumns]

theorem length_flipColumns (items : List (OrderByItem C)) : (flipColumns items).length = items.length := by
  rw [flipColumns_eq, List.length_reverse]

theorem flipColumns_cons (item : OrderByItem C) (items : List (OrderByItem C)) :
    flipColumns (item :: items) = flipColumns items ++ [item] := by
  rw [flipColumns_eq, flipColumns_eq, List.reverse_cons]

end Flip

section Ordered

variable {C : Type} {V : C → Type} {block : Block V}

/-- the order of the rows at present -/
def Dispatcher.indices (d : Dispatcher V) (rowCount : ℕ) : List ℕ :=
  match d.orderByTable with
  | none => List.range rowCount
  | some t => t.indices1

theorem table_eq {schedule : Schedule} (hschedule : ∀ k, (schedule k).Perm (List.range block.rowCount))
    (hrows : block.rowCount ≠ 0) (d : Dispatcher V) :
    ∃ table, d.table schedule block.rowCount = some table ∧ table.indices1 = d.indices block.rowCount := by
  rw [Dispatcher.table, Dispatcher.indices]
  cases d.orderByTable with
  | none =>
    refine ⟨⟨List.range block.rowCount, none⟩, ?_, rfl⟩
    simp only [GPUOrderBy.new, alloc, if_neg hrows, Option.bind_eq_bind, Option.bind_some,
      kernelFillIndices_eq hschedule]
  | some t => exact ⟨t, rfl, rfl⟩

variable [∀ c, LinearOrder (V c)] {lowest : ∀ c, V c}

/-- the dispatcher after the calls for `items` -/
structure Ordered (block : Block V) (lowest : ∀ c, V c) (items : List (OrderByItem C)) (d : Dispatcher V) : Prop where
  agrees : ∀ c, block.Agrees c (d.column c)
  perm : (d.indices block.rowCount).Perm (List.range block.rowCount)
  sorted : (d.indices block.rowCount).Pairwise (Precedes block lowest items)
  register : items ≠ [] → d.orderByIndices = some (d.indices block.rowCount)

theorem ordered_load : Ordered block lowest [] block.load where
  agrees _ := Block.agrees_column
  perm := List.Perm.refl _
  sorted := List.pairwise_lt_range
  register h := absurd rfl h

end Ordered

section Walk

variable {C : Type} {V : C → Type} [DecidableEq C] {cub : ∀ c, DeviceRadixSort (V c)} {lowest : ∀ c, V c}
  {usingGroupBy : Bool} {block : Block V}

/-- the call for the first column is the last -/
theorem walkOrderBy_cons (schedules : ℕ → Schedule) (item : OrderByItem C) (items : List (OrderByItem C)) :
    walkOrderBy cub lowest usingGroupBy block schedules (item :: items) =
      (walkOrderBy cub lowest usingGroupBy block schedules items).bind
        (orderByCol cub lowest usingGroupBy block (schedules items.length) item) := by
  rw [walkOrderBy, walkOrderBy, flipColumns_cons, List.zipIdx_append, List.foldlM_append, length_flipColumns]
  simp

/-- a block without rows does not get to OrderByColumn -/
theorem walkOrderBy_empty {schedules : ℕ → Schedule} (hrows : block.rowCount = 0) {items : List (OrderByItem C)}
    {d : Dispatcher V} (h : walkOrderBy cub lowest usingGroupBy block schedules items = some d) : d = block.load := by
  induction items generalizing d with
  | nil => exact (Option.some.inj h).symm
  | cons item items ih =>
    rw [walkOrderBy_cons] at h
    obtain ⟨d₀, hrun, hcall⟩ := Option.bind_eq_some_iff.1 h
    obtain rfl := ih hrun
    have hsize : (block.load.column item.1).length = 0 := (block.column_length item.1).trans hrows
    cases usingGroupBy with
    | true =>
      simp only [orderByCol, hsize, and_self, if_true] at hcall
      exact (Option.some.inj hcall).symm
    | false =>
      have htable : block.load.table (schedules items.length) 0 = none := rfl
      simp [orderByCol, hsize, htable] at hcall

variable [∀ c, LinearOrder (V c)]

theorem orderByCol_sorted (hcub : ∀ c, (cub c).Stable) {schedule : Schedule}
    (hschedule : ∀ k, (schedule k).Perm (List.range block.rowCount)) (hrows : block.rowCount ≠ 0)
    {items : List (OrderByItem C)} {d : Dispatcher V} (hd : Ordered block lowest items d) (item : OrderByItem C) :
    ∃ d', orderByCol cub lowest usingGroupBy block schedule item d = some d' ∧
      Ordered block lowest (item :: items) d' := by
  obtain ⟨c, order⟩ := item
  have hsize : (d.column c).length = block.rowCount := (hd.agrees c).length_eq
  obtain ⟨table, htable, hindices⟩ := table_eq hschedule hrows d
  obtain ⟨indices, hcall, hperm, hsorted⟩ := orderByColumn_sorted hschedule hrows (hcub c) (hd.agrees c)
    (hindices ▸ hd.perm) (hindices ▸ hd.sorted) order
  refine ⟨⟨Function.update d.column c (block.ranks lowest c), some ⟨indices, some table.indices1⟩, some indices⟩, ?_,
    ⟨fun c' => ?_, hperm, hsorted, fun _ => rfl⟩⟩
  · simp only [orderByCol, hsize, hrows, and_false, if_false, htable, hcall, Option.bind_eq_bind, Option.bind_some]
  · by_cases hc : c' = c
    · subst hc
      simp only [Function.update_self]
      exact Block.agrees_ranks
    · simp only [Function.update_of_ne hc]
      exact hd.agrees c'

theorem walkOrderBy_sorted (hcub : ∀ c, (cub c).Stable) {schedules : ℕ → Schedule}
    (hschedules : ∀ i k, (schedules i k).Perm (List.range block.rowCount)) (hrows : block.rowCount ≠ 0)
    (items : List (OrderByItem C)) :
    ∃ d, walkOrderBy cub lowest usingGroupBy block schedules items = some d ∧ Ordered block lowest items d := by
  induction items with
  | nil => exact ⟨block.load, rfl, ordered_load⟩
  | cons item items ih =>
    obtain ⟨d, hrun, hd⟩ := ih
    rw [walkOrderBy_cons, hrun]
    exact orderByCol_sorted hcub (hschedules items.length) hrows hd item

/-- The indices that ORDER BY leaves are the rows in the order of its columns, the first column first, NULL as the
lowest value, and rows that agree in all columns as they stand in the block. -/
theorem order_by_is_lexicographic (hcub : ∀ c, (cub c).Stable) {schedules : ℕ → Schedule}
    (hschedules : ∀ i k, (schedules i k).Perm (List.range block.rowCount)) {items : List (OrderByItem C)}
    (hitems : items ≠ []) :
    (block.rowCount ≠ 0 → ∃ d indices, walkOrderBy cub lowest usingGroupBy block schedules items = some d ∧
      d.orderByIndices = some indices ∧ indices.Perm (List.range block.rowCount) ∧
      indices.Pairwise (Precedes block lowest items)) ∧
    (block.rowCount = 0 → ∀ d, walkOrderBy cub lowest usingGroupBy block schedules items = some d →
      d.orderByTable = none) := by
  refine ⟨fun hrows => ?_, fun hrows d h => ?_⟩
  · obtain ⟨d, hrun, hd⟩ := walkOrderBy_sorted hcub hschedules hrows items
    exact ⟨d, d.indices block.rowCount, hrun, hd.register hitems, hd.perm, hd.sorted⟩
  · rw [walkOrderBy_empty hrows h]
    rfl

end Walk

/-! ## A block -/

/-- two int32 columns, NULL in row 1 of the first -/
def exampleBlock : Block (fun _ : Bool => ℤ) where
  rowCount := 4
  column
    | true => [3, 7, 3, 1]
    | false => [5, 6, 9, 8]
  nullMask
    | true => some [0b0010#64]
    | false => none
  column_length c := by cases c <;> rfl
  nullMask_size c mask h := by
    cases c with
    | true =>
      obtain rfl := Option.some.inj h
      decide
    | false => cases h

/-- merge sort in the place of the radix sorts -/
def mergeSorts : DeviceRadixSort ℤ where
  sortPairs l := l.mergeSort (keyLe (· ≤ ·))
  sortPairsDescending l := l.mergeSort (keyLe (· ≥ ·))

theorem stable_mergeSorts : mergeSorts.Stable where
  ascending := isStable_mergeSort
  descending := isStable_mergeSort

theorem order_by_is_lexicographic_two : ∃ d indices,
    walkOrderBy (fun _ => mergeSorts) (fun _ => -2147483648) false exampleBlock (fun _ _ => List.range 4)
      [(true, .asc), (false, .desc)] = some d ∧
    d.orderByIndices = some indices ∧ indices.Perm (List.range 4) ∧
    indices.Pairwise (Precedes exampleBlock (fun _ => -2147483648) [(true, .asc), (false, .desc)]) :=
  (order_by_is_lexicographic (fun _ => stable_mergeSorts) (fun _ _ => List.Perm.refl _) (by decide)).1 (by decide)

end QikkDB.OrderByColumn

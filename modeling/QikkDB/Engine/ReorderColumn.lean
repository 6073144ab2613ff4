/-
Strings and polygons in the order of ORDER BY (QueryEngine/GPUCore/GPUOrderBy.cu, `ReOrderStringByIdx`,
`ReOrderPolygonByIdx` and their kernels).

Lengths are reordered and summed up to the new offsets, on one level for strings and on two for polygons; then each row
copies its characters or points. The offsets of strings are int64_t, but kernel_reorder_chars_by_idx keeps them, and
counts on from them, in int32_t. The device chooses the order of the rows in each kernel, and no buffer of size 0 can be
allocated.

- `reOrderString_iff`: strings are reordered exactly while the offsets and lengths fit an int32_t and there are
  characters.
- `reOrderPolygon_iff`: polygons are reordered exactly if there are points.
-/
import Mathlib.Tactic
import QikkDB.Engine.OrderByColumn
import QikkDB.Engine.ReconstructPolygon

namespace QikkDB.ReorderColumn

open PolygonColumn PrefixSum Scatter
open OrderByColumn (reOrderByIdx reOrderByIdx_values)
open Reconstruct (alloc)

/-! ## Model -/

/-- the kernels -/
inductive Launch where
  | lengths
  | reorderLengths
  | chars
  | stringIndices
  | polyCount
  | pointCount
  | polyPoints
deriving DecidableEq, Repr

abbrev Order := Launch → List ℕ

/-- a value stored as int32_t -/
def toInt32 (n : ℤ) : ℤ := Int.bmod n (2 ^ 32)

/-- int32_t addition, for which an overflow is undefined -/
def addInt32 (a b : ℤ) : Option ℤ := if -2 ^ 31 ≤ a + b ∧ a + b < 2 ^ 31 then some (a + b) else none

section Strings

variable {α : Type}

/-- GPUString; null pointers stand for no rows -/
structure GPUString (α : Type) where
  allChars : List α
  stringIndices : List ℤ
deriving DecidableEq, Repr

/-- the representation of these strings -/
def ofStrings (strings : List (List α)) : GPUString α :=
  ⟨strings.flatten, (inclusiveSum (strings.map List.length)).map Nat.cast⟩

/-- GetStringIndex -/
def getStringIndex (indices : List ℤ) (i : ℕ) : Option ℤ := if i = 0 then some 0 else indices[i - 1]?

def lengthFromIndices (inIndices : List ℤ) (i : ℕ) : Option ℤ :=
  if i = 0 then inIndices[i]?
  else do
    let stop ← inIndices[i]?
    let start ← inIndices[i - 1]?
    some (stop - start)

/-- kernel_lengths_from_indices of int64_t offsets into int32_t lengths -/
def kernelLengthsFromIndices (size : ℕ) (order : List ℕ) (inIndices : List ℤ) : Option (List ℤ) :=
  kernel size order fun i => do
    let length ← lengthFromIndices inIndices i
    some [((i : ℤ), toInt32 length)]

/-- PrefixSum of int32_t lengths into int64_t offsets -/
def prefixSum (l : List ℤ) : List ℤ := (List.range l.length).map fun i => (l.take (i + 1)).sum

/-- a read of a buffer -/
def readAt (buf : List α) (k : ℤ) : Option α := if 0 ≤ k then buf[k.toNat]? else none

/-- the characters that row `i` of kernel_reorder_chars_by_idx writes -/
def reorderChars (outStringIndices outStringLengths : List ℤ) (inIndices : List ℕ) (inCol : GPUString α) (i : ℕ) :
    Option (List (ℤ × α)) := do
  let outIndex ← getStringIndex outStringIndices i
  let outColIdx := toInt32 outIndex
  let row ← inIndices[i]?
  let inIndex ← getStringIndex inCol.stringIndices row
  let inColIdx := toInt32 inIndex
  let length ← outStringLengths[i]?
  (List.range length.toNat).mapM fun (j : ℕ) => do
    let o ← addInt32 outColIdx j
    let k ← addInt32 inColIdx j
    let c ← readAt inCol.allChars k
    some (o, c)

/-- kernel_reorder_chars_by_idx: the characters, and the offsets -/
def kernelReorderChars (order : Order) (dataElementCount totalCharCount : ℕ)
    (outStringIndices outStringLengths : List ℤ) (inIndices : List ℕ) (inCol : GPUString α) : Option (GPUString α) := do
  let allChars ← kernel totalCharCount (order .chars) (reorderChars outStringIndices outStringLengths inIndices inCol)
  let stringIndices ← kernel dataElementCount (order .stringIndices) fun i => do
    let idx ← outStringIndices[i]?
    some [((i : ℤ), idx)]
  some ⟨allChars, stringIndices⟩

def reOrderStringByIdx (order : Order) (inIndices : List ℕ) (inCol : GPUString α) (dataElementCount : ℕ) :
    Option (GPUString α) :=
  if 0 < dataElementCount then do
    let inStringLengths ← kernelLengthsFromIndices dataElementCount (order .lengths) inCol.stringIndices
    let outStringLengths ← reOrderByIdx dataElementCount (order .reorderLengths) inIndices inStringLengths
    let outStringIndices := prefixSum outStringLengths
    let totalCharCount ← inCol.stringIndices[dataElementCount - 1]?
    let size ← alloc totalCharCount.toNat
    kernelReorderChars order dataElementCount size outStringIndices outStringLengths inIndices inCol
  else some ⟨[], []⟩

end Strings

section Polygons

variable {P : Type}

/-- a row of kernel_reorder_polyCount_col -/
def reorderPolyCount (inIndices : List ℕ) (inPolygon : GPUPolygon P) (i : ℕ) : Option (List (ℤ × ℕ)) := do
  let row ← inIndices[i]?
  let _ ← inPolygon.polyIdxAt row
  let polyCount ← inPolygon.polyCountAt row
  some [((i : ℤ), polyCount)]

/-- the loop over the polygons of a row: `polygon p op` for polygon `p` of the column and polygon `op` of the result -/
def eachPolygon {β : Type} (outPolygon inPolygon : GPUPolygon P) (inIndices : List ℕ) (polygon : ℕ → ℕ → Option β)
    (i : ℕ) : Option (List β) := do
  let row ← inIndices[i]?
  let polyIdx ← inPolygon.polyIdxAt row
  let polyCount ← inPolygon.polyCountAt row
  let outPolyIdx ← outPolygon.polyIdxAt i
  let _ ← outPolygon.polyCountAt i
  (List.range polyCount).mapM fun k => polygon (polyIdx + k) (outPolyIdx + k)

/-- a row of kernel_reorder_pointCount_col -/
def reorderPointCount (outPolygon inPolygon : GPUPolygon P) (inIndices : List ℕ) : ℕ → Option (List (ℤ × ℕ)) :=
  eachPolygon outPolygon inPolygon inIndices fun p op => do
    let _ ← inPolygon.pointIdxAt p
    let pointCount ← inPolygon.pointCountAt p
    some ((op : ℤ), pointCount)

/-- the points that polygon `p` of the column puts into polygon `op` of the result -/
def reorderPolygon (outPolygon inPolygon : GPUPolygon P) (p op : ℕ) : Option (List (ℤ × P)) := do
  let pointIdx ← inPolygon.pointIdxAt p
  let pointCount ← inPolygon.pointCountAt p
  let outPointIdx ← outPolygon.pointIdxAt op
  let _ ← outPolygon.pointCountAt op
  (List.range pointCount).mapM fun j => do
    let point ← inPolygon.polyPoints[pointIdx + j]?
    some (((outPointIdx + j : ℕ) : ℤ), point)

/-- a row of kernel_reorder_polyPoints_col -/
def reorderPolyPoints (outPolygon inPolygon : GPUPolygon P) (inIndices : List ℕ) (i : ℕ) : Option (List (ℤ × P)) := do
  let polygons ← eachPolygon outPolygon inPolygon inIndices (reorderPolygon outPolygon inPolygon) i
  some polygons.flatten

def reOrderPolygonByIdx (order : Order) (inIndices : List ℕ) (inCol : GPUPolygon P) (dataElementCount : ℕ) :
    Option (GPUPolygon P) :=
  if 0 < dataElementCount then do
    let polyCount ← kernel dataElementCount (order .polyCount) (reorderPolyCount inIndices inCol)
    let polyIdx := inclusiveSum polyCount
    let pointCountSize ← inCol.polyIdx[dataElementCount - 1]?
    let size ← alloc pointCountSize
    let pointCount ← kernel size (order .pointCount) (reorderPointCount ⟨[], [], polyIdx⟩ inCol inIndices)
    let pointIdx := inclusiveSum pointCount
    let polyPointSize ← inCol.pointIdx[pointCountSize - 1]?
    let size ← alloc polyPointSize
    let polyPoints ← kernel size (order .polyPoints) (reorderPolyPoints ⟨[], pointIdx, polyIdx⟩ inCol inIndices)
    some ⟨polyPoints, pointIdx, polyIdx⟩
  else some ⟨[], [], []⟩

end Polygons

/-- every kernel runs over every row once -/
def Order.Covers (order : Order) (n : ℕ) : Prop := ∀ launch, (order launch).Perm (List.range n)

/-- the rows in the order of the indices -/
def permuted {β : Type} (inIndices : List ℕ) (rows : List (List β)) : List (List β) :=
  inIndices.map fun i => rows.getD i []

/-- the result represents the strings in their new order, and no index leaves its buffer -/
def ReordersStrings {α : Type} (order : Order) (inIndices : List ℕ) (strings : List (List α)) : Prop :=
  reOrderStringByIdx order inIndices (ofStrings strings) strings.length = some (ofStrings (permuted inIndices strings))

def ReordersPolygons {P : Type} (order : Order) (inIndices : List ℕ) (rows : List (List (List P))) : Prop :=
  reOrderPolygonByIdx order inIndices (ofRows rows) rows.length = some (ofRows (permuted inIndices rows))

/-! ## Offsets in int32_t -/

theorem toInt32_lt (n : ℤ) : toInt32 n < 2 ^ 31 := Int.bmod_lt (by decide)

theorem toInt32_of_lt {n : ℕ} (h : n < 2 ^ 31) : toInt32 n = n := by
  refine (Int.bmod_eq_iff (by decide)).2 ⟨by omega, by omega, by simp⟩

theorem addInt32_toInt32 {o j : ℕ} (h : o + j < 2 ^ 31) : addInt32 (toInt32 o) j = some ((o + j : ℕ) : ℤ) := by
  rw [toInt32_of_lt (by omega), addInt32, if_pos (by omega)]
  push_cast
  rfl

theorem lt_of_addInt32 {a b k : ℤ} (h : addInt32 a b = some k) : k < 2 ^ 31 := by
  obtain ⟨hrange, rfl⟩ : (-2 ^ 31 ≤ a + b ∧ a + b < 2 ^ 31) ∧ a + b = k := by
    simpa [addInt32, Option.ite_none_right_eq_some] using h
  exact hrange.2

/-! ## Rows in a new order -/

section Permuted

variable {β : Type} {inIndices : List ℕ} {rows : List (List β)}

@[simp] theorem length_permuted : (permuted inIndices rows).length = inIndices.length := List.length_map _

theorem permuted_perm (hperm : inIndices.Perm (List.range rows.length)) : (permuted inIndices rows).Perm rows := by
  have hall : (List.range rows.length).map (fun i => rows.getD i []) = rows := by
    refine List.ext_getElem (by simp) fun i h1 h2 => ?_
    rw [List.getElem_map, List.getElem_range, List.getD_eq_getElem _ _ h2]
  have h := hperm.map fun i => rows.getD i []
  rwa [hall] at h

theorem length_flatten_permuted (hperm : inIndices.Perm (List.range rows.length)) :
    (permuted inIndices rows).flatten.length = rows.flatten.length := (permuted_perm hperm).flatten.length_eq

/-- row `i` of the result is the row that index `i` designates -/
theorem permuted_getElem (hperm : inIndices.Perm (List.range rows.length)) {i : ℕ}
    (hi : i < (permuted inIndices rows).length) :
    ∃ (row : ℕ) (hrow : row < rows.length), inIndices[i]? = some row ∧ (permuted inIndices rows)[i] = rows[row] := by
  have hi' : i < inIndices.length := by rwa [length_permuted] at hi
  have hrow : inIndices[i] < rows.length := List.mem_range.1 (hperm.mem_iff.1 (List.getElem_mem hi'))
  refine ⟨inIndices[i], hrow, List.getElem?_eq_getElem hi', ?_⟩
  simp only [permuted, List.getElem_map]
  exact List.getD_eq_getElem _ _ hrow

end Permuted

/-! ## Strings -/

section Strings

variable {α : Type} {strings : List (List α)}

@[simp] theorem ofStrings_allChars : (ofStrings strings).allChars = strings.flatten := rfl

theorem stringIndices_getElem {i : ℕ} (h : i < strings.length) :
    (ofStrings strings).stringIndices[i]? = some (offset strings (i + 1) : ℤ) := by
  rw [ofStrings, List.getElem?_map, getElem?_inclusiveSum (by rwa [List.length_map]), offset_eq]
  rfl

theorem getStringIndex_ofStrings {i : ℕ} (h : i ≤ strings.length) :
    getStringIndex (ofStrings strings).stringIndices i = some (offset strings i : ℤ) := by
  cases i with
  | zero => rfl
  | succ i => exact stringIndices_getElem h

theorem lengthFromIndices_ofStrings {i : ℕ} (h : i < strings.length) :
    lengthFromIndices (ofStrings strings).stringIndices i = some (strings[i].length : ℤ) := by
  have hstop := offset_succ h
  cases i with
  | zero =>
    rw [lengthFromIndices, if_pos rfl, stringIndices_getElem h, hstop]
    simp [offset]
  | succ i =>
    rw [lengthFromIndices, if_neg i.succ_ne_zero, stringIndices_getElem h, Nat.add_sub_cancel,
      stringIndices_getElem (Nat.lt_of_succ_lt h), hstop]
    simp only [Option.bind_eq_bind, Option.bind_some]
    push_cast
    rw [add_sub_cancel_left]

/-- the lengths in int32_t -/
def lengths32 (strings : List (List α)) : List ℤ := strings.map fun s => toInt32 s.length

theorem kernelLengthsFromIndices_eq {order : List ℕ} (horder : order.Perm (List.range strings.length)) :
    kernelLengthsFromIndices strings.length order (ofStrings strings).stringIndices = some (lengths32 strings) := by
  have hlen : (lengths32 strings).length = strings.length := List.length_map _
  have h := @kernel_values _ (lengths32 strings) order (by rwa [hlen])
    (fun i => do
      let length ← lengthFromIndices (ofStrings strings).stringIndices i
      some [((i : ℤ), toInt32 length)]) fun i hi => by
        rw [hlen] at hi
        rw [lengthFromIndices_ofStrings hi]
        simp [lengths32]
  rwa [hlen] at h

theorem lengths32_of_lt (h : ∀ s ∈ strings, s.length < 2 ^ 31) :
    lengths32 strings = (strings.map List.length).map Nat.cast := by
  rw [List.map_map]
  exact List.map_congr_left fun s hs => toInt32_of_lt (h s hs)

/-- the offsets of the strings -/
theorem prefixSum_cast (l : List ℕ) : prefixSum (l.map Nat.cast) = (inclusiveSum l).map Nat.cast := by
  rw [prefixSum, inclusiveSum, List.length_map, List.map_map]
  refine List.map_congr_left fun i _ => ?_
  rw [← List.map_take, Function.comp_apply, Nat.cast_list_sum]

variable {order : Order} {inIndices : List ℕ} (hperm : inIndices.Perm (List.range strings.length))
  (horder : order.Covers strings.length)

include hperm

/-- a row copies its characters -/
theorem reorderChars_eq (hfit : strings.flatten.length ≤ 2 ^ 31) (hshort : ∀ s ∈ strings, s.length < 2 ^ 31) {i : ℕ}
    (hi : i < (permuted inIndices strings).length) :
    reorderChars (prefixSum (lengths32 (permuted inIndices strings))) (lengths32 (permuted inIndices strings)) inIndices
        (ofStrings strings) i =
      some (place (offset (permuted inIndices strings) i) (permuted inIndices strings)[i]) := by
  have hshort' : ∀ s ∈ permuted inIndices strings, s.length < 2 ^ 31 := fun s hs =>
    hshort s ((permuted_perm hperm).mem_iff.1 hs)
  obtain ⟨row, hrow, hidx, hget⟩ := permuted_getElem hperm hi
  have hout := window_le hi
  have hin := window_le hrow
  rw [length_flatten_permuted hperm] at hout
  rw [← hget] at hin
  have hoffsets : prefixSum (lengths32 (permuted inIndices strings)) =
      (ofStrings (permuted inIndices strings)).stringIndices := by
    rw [lengths32_of_lt hshort', prefixSum_cast]
    rfl
  have hlength : (lengths32 (permuted inIndices strings))[i]? = some ((permuted inIndices strings)[i].length : ℤ) := by
    rw [lengths32_of_lt hshort', List.map_map, List.getElem?_map, List.getElem?_eq_getElem hi]
    rfl
  rw [reorderChars, hoffsets, getStringIndex_ofStrings hi.le, hidx]
  simp only [Option.bind_eq_bind, Option.bind_some, getStringIndex_ofStrings hrow.le, hlength, Int.toNat_natCast]
  have hread : ∀ j (hj : j < (permuted inIndices strings)[i].length),
      strings.flatten[offset strings row + j]? = some (permuted inIndices strings)[i][j] := by
    intro j hj
    have hj' : j < strings[row].length := by rwa [hget] at hj
    rw [getElem?_flatten hrow hj', List.getElem?_eq_getElem hj']
    simp only [hget]
  rw [← mapM_place (offset (permuted inIndices strings) i) hread]
  refine Traverse.mapM_congr fun j hj => ?_
  have hj := List.mem_range.1 hj
  rw [addInt32_toInt32 (by omega), addInt32_toInt32 (by omega)]
  simp only [Option.bind_some, readAt, Int.natCast_nonneg, if_true, Int.toNat_natCast, ofStrings_allChars]

include horder

/-- the lengths and offsets in their new order, before the characters are copied -/
theorem reOrderString_chars (hne : strings ≠ []) :
    reOrderStringByIdx order inIndices (ofStrings strings) strings.length =
      (alloc strings.flatten.length).bind fun size => kernelReorderChars order strings.length size
        (prefixSum (lengths32 (permuted inIndices strings))) (lengths32 (permuted inIndices strings)) inIndices
        (ofStrings strings) := by
  have hpos := List.length_pos_iff.2 hne
  have hlength : inIndices.length = strings.length := by simpa using hperm.length_eq
  have hlengths := kernelLengthsFromIndices_eq (horder .lengths)
  have hreorder := @reOrderByIdx_values _ inIndices (order .reorderLengths) (lengths32 strings)
    (fun i => toInt32 (strings.getD i []).length) (fun i hi => by
      have hi := List.mem_range.1 (hperm.mem_iff.1 hi)
      rw [lengths32, List.getElem?_map, List.getElem?_eq_getElem hi, List.getD_eq_getElem _ _ hi]
      rfl) (by rw [hlength]; exact horder _)
  have hpermuted : inIndices.map (fun i => toInt32 (strings.getD i []).length) =
      lengths32 (permuted inIndices strings) := by
    rw [lengths32, permuted, List.map_map, Function.comp_def]
  rw [hlength, hpermuted] at hreorder
  have htotal : (ofStrings strings).stringIndices[strings.length - 1]? = some (strings.flatten.length : ℤ) := by
    rw [stringIndices_getElem (Nat.sub_lt hpos Nat.one_pos), Nat.sub_add_cancel hpos, offset_length]
  rw [reOrderStringByIdx, if_pos hpos, hlengths]
  simp only [Option.bind_eq_bind, Option.bind_some, hreorder, htotal, Int.toNat_natCast]

/-- small enough strings with characters are reordered -/
theorem reorders_of_fit (hchars : strings.flatten ≠ []) (hfit : strings.flatten.length ≤ 2 ^ 31)
    (hshort : ∀ s ∈ strings, s.length < 2 ^ 31) : ReordersStrings order inIndices strings := by
  have hne : strings ≠ [] := fun h => hchars (by rw [h]; rfl)
  have hlength : (permuted inIndices strings).length = strings.length := by simpa using hperm.length_eq
  have hsize : alloc strings.flatten.length = some strings.flatten.length :=
    if_neg fun h => hchars (List.length_eq_zero_iff.1 h)
  have hkernel : kernel strings.flatten.length (order .chars) (reorderChars
      (prefixSum (lengths32 (permuted inIndices strings))) (lengths32 (permuted inIndices strings)) inIndices
      (ofStrings strings)) = some (permuted inIndices strings).flatten := by
    refine kernel_eq (by rw [hlength]; exact horder _) (length_flatten_permuted hperm).symm fun i hi => ?_
    refine ⟨_, reorderChars_eq hperm hfit hshort hi, ?_⟩
    rw [List.getD_eq_getElem _ _ hi]
  have hindices := @kernel_cells _ (prefixSum (lengths32 (permuted inIndices strings))) (order .stringIndices)
    (by simpa [prefixSum, lengths32, hlength] using horder .stringIndices) _ fun i hi => List.getElem?_eq_getElem hi
  have hoffsets : prefixSum (lengths32 (permuted inIndices strings)) =
      (ofStrings (permuted inIndices strings)).stringIndices := by
    rw [lengths32_of_lt fun s hs => hshort s ((permuted_perm hperm).mem_iff.1 hs), prefixSum_cast]
    rfl
  have hcount : (prefixSum (lengths32 (permuted inIndices strings))).length = strings.length := by
    simp [prefixSum, lengths32, ← hlength]
  rw [hcount] at hindices
  rw [ReordersStrings, reOrderString_chars hperm horder hne, hsize, Option.bind_some, kernelReorderChars, hkernel]
  simp only [Option.bind_eq_bind, Option.bind_some] at hindices ⊢
  rw [hindices, Option.bind_some, hoffsets]
  rfl

/-- where the characters are copied, each position has been written by a row with a positive length, from an int32_t -/
theorem written_of_reorders (hchars : strings.flatten ≠ []) (h : ReordersStrings order inIndices strings) {k : ℕ}
    (hk : k < strings.flatten.length) : k < 2 ^ 31 ∧ ∃ s ∈ strings, 0 < toInt32 s.length := by
  have hne : strings ≠ [] := fun h => hchars (by rw [h]; rfl)
  rw [ReordersStrings, reOrderString_chars hperm horder hne] at h
  obtain ⟨size, hsize, hcopy⟩ := Option.bind_eq_some_iff.1 h
  obtain ⟨-, rfl⟩ : strings.flatten.length ≠ 0 ∧ strings.flatten.length = size := by
    simpa only [alloc, Option.ite_none_left_eq_some, Option.some.injEq] using hsize
  rw [kernelReorderChars] at hcopy
  obtain ⟨allChars, hkernel, -⟩ := Option.bind_eq_some_iff.1 hcopy
  obtain ⟨i, -, ws, hrow, a, hmem⟩ := kernel_covers hkernel hk
  rw [reorderChars] at hrow
  obtain ⟨outIndex, -, hrow⟩ := Option.bind_eq_some_iff.1 hrow
  obtain ⟨row, -, hrow⟩ := Option.bind_eq_some_iff.1 hrow
  obtain ⟨inIndex, -, hrow⟩ := Option.bind_eq_some_iff.1 hrow
  obtain ⟨length, hlength, hrow⟩ := Option.bind_eq_some_iff.1 hrow
  obtain ⟨j, hj, hwrite⟩ := Traverse.mem_of_mapM hrow hmem
  obtain ⟨o, ho, hwrite⟩ := Option.bind_eq_some_iff.1 hwrite
  obtain ⟨m, -, hwrite⟩ := Option.bind_eq_some_iff.1 hwrite
  obtain ⟨c, -, hwrite⟩ := Option.bind_eq_some_iff.1 hwrite
  obtain ⟨rfl, -⟩ := Prod.mk.inj (Option.some.inj hwrite)
  refine ⟨by exact_mod_cast lt_of_addInt32 ho, ?_⟩
  obtain ⟨s, hs, rfl⟩ := List.mem_map.1 (List.mem_of_getElem? hlength)
  refine ⟨s, (permuted_perm hperm).mem_iff.1 hs, ?_⟩
  have hj := List.mem_range.1 hj
  omega

theorem fits_of_reorders (hchars : strings.flatten ≠ []) (h : ReordersStrings order inIndices strings) :
    strings.flatten.length ≤ 2 ^ 31 ∧ ∀ s ∈ strings, s.length < 2 ^ 31 := by
  have hfit : strings.flatten.length ≤ 2 ^ 31 := by
    by_contra hlong
    exact absurd (written_of_reorders hperm horder hchars h (not_le.1 hlong)).1 (lt_irrefl _)
  refine ⟨hfit, fun s hs => ?_⟩
  by_contra hlong
  -- a string of 2^31 characters is the only one with characters, and its length is negative in an int32_t
  obtain ⟨-, s', hs', hpos⟩ := written_of_reorders hperm horder hchars h (List.length_pos_iff.2 hchars)
  obtain ⟨before, behind, rfl⟩ := List.append_of_mem hs
  simp only [List.flatten_append, List.flatten_cons, List.length_append] at hfit
  have hlength : s'.length = 0 ∨ s'.length = 2 ^ 31 := by
    rcases List.mem_append.1 hs' with hmem | hmem
    · have := (List.sublist_flatten_of_mem hmem).length_le
      omega
    · rcases List.mem_cons.1 hmem with rfl | hmem
      · omega
      · have := (List.sublist_flatten_of_mem hmem).length_le
        omega
  rcases hlength with hlength | hlength <;> rw [hlength] at hpos <;> exact absurd hpos (by decide)

theorem reOrderString_iff : ReordersStrings order inIndices strings ↔
    strings = [] ∨ strings.flatten ≠ [] ∧ strings.flatten.length ≤ 2 ^ 31 ∧ ∀ s ∈ strings, s.length < 2 ^ 31 := by
  rcases eq_or_ne strings [] with rfl | hne
  · obtain rfl : inIndices = [] := by simpa using hperm
    exact iff_of_true rfl (.inl rfl)
  · rw [or_iff_right hne]
    refine ⟨fun h => ?_, fun ⟨hchars, hfit, hshort⟩ => reorders_of_fit hperm horder hchars hfit hshort⟩
    have hchars : strings.flatten ≠ [] := by
      rintro hnil
      rw [ReordersStrings, reOrderString_chars hperm horder hne, hnil] at h
      cases h
    exact ⟨hchars, fits_of_reorders hperm horder hchars h⟩

end Strings

/-! ## Polygons -/

section Polygons

variable {P : Type} {rows : List (List (List P))} {order : Order} {inIndices : List ℕ}
  (hperm : inIndices.Perm (List.range rows.length))

include hperm

/-- the loop over the polygons of row `i`, when the result has the counts of the rows in their new order -/
theorem eachPolygon_eq {β : Type} {outPolygon : GPUPolygon P}
    (hout : outPolygon.polyIdx = (ofRows (permuted inIndices rows)).polyIdx) {polygon : ℕ → ℕ → Option β} {g : ℕ → β}
    {i : ℕ} (hi : i < (permuted inIndices rows).length)
    (h : ∀ (row k : ℕ) (hrow : row < rows.length), k < rows[row].length → (permuted inIndices rows)[i] = rows[row] →
      polygon (offset rows row + k) (offset (permuted inIndices rows) i + k) = some (g k)) :
    eachPolygon outPolygon (ofRows rows) inIndices polygon i =
      some ((List.range (permuted inIndices rows)[i].length).map g) := by
  obtain ⟨row, hrow, hidx, hget⟩ := permuted_getElem hperm hi
  have hbegin : outPolygon.polyIdxAt i = some (offset (permuted inIndices rows) i) := by
    rw [GPUPolygon.polyIdxAt, hout]
    exact polyIdxAt_ofRows hi.le
  have hcount : outPolygon.polyCountAt i = some (permuted inIndices rows)[i].length := by
    rw [GPUPolygon.polyCountAt, hout]
    exact polyCountAt_ofRows hi
  rw [eachPolygon, hidx]
  simp only [Option.bind_eq_bind, Option.bind_some, polyIdxAt_ofRows hrow.le, polyCountAt_ofRows hrow, hbegin, hcount]
  rw [hget]
  exact Traverse.mapM_some fun k hk => h row k hrow (List.mem_range.1 hk) hget

/-- the counts of the polygons -/
theorem reorderPointCount_eq {outPolygon : GPUPolygon P}
    (hout : outPolygon.polyIdx = (ofRows (permuted inIndices rows)).polyIdx) {i : ℕ}
    (hi : i < (permuted inIndices rows).length) :
    reorderPointCount outPolygon (ofRows rows) inIndices i =
      some (place (offset (permuted inIndices rows) i) ((permuted inIndices rows)[i].map List.length)) := by
  have hread : ∀ k (hk : k < ((permuted inIndices rows)[i].map List.length).length),
      ((permuted inIndices rows)[i].map List.length)[k]? = some ((permuted inIndices rows)[i].map List.length)[k] :=
    fun k hk => List.getElem?_eq_getElem hk
  have hplace := mapM_place (offset (permuted inIndices rows) i) hread
  rw [List.length_map] at hplace
  rw [reorderPointCount, eachPolygon_eq hperm hout hi (g := fun k =>
    (((offset (permuted inIndices rows) i + k : ℕ) : ℤ), ((permuted inIndices rows)[i].getD k []).length)), ← hplace]
  · refine (Traverse.mapM_some fun k hk => ?_).symm
    have hk := List.mem_range.1 hk
    rw [List.getElem?_map, List.getElem?_eq_getElem hk, List.getD_eq_getElem _ _ hk]
    rfl
  · intro row k hrow hk hget
    have hholds := holds_ofRows hrow hk
    have hkeep : (permuted inIndices rows)[i].getD k [] = rows[row][k] := by
      rw [hget, List.getD_eq_getElem _ _ hk]
    rw [hholds.begin, hholds.count, hkeep]
    rfl

/-- the points of a row -/
theorem reorderPolyPoints_eq {outPolygon : GPUPolygon P}
    (hpoly : outPolygon.polyIdx = (ofRows (permuted inIndices rows)).polyIdx)
    (hpoint : outPolygon.pointIdx = (ofRows (permuted inIndices rows)).pointIdx) {i : ℕ}
    (hi : i < (permuted inIndices rows).length) :
    reorderPolyPoints outPolygon (ofRows rows) inIndices i =
      some (place (offset ((permuted inIndices rows).map List.flatten) i) (permuted inIndices rows)[i].flatten) := by
  have hplace := flatMap_place (offset (permuted inIndices rows).flatten (offset (permuted inIndices rows) i))
    (permuted inIndices rows)[i]
  rw [reorderPolyPoints, eachPolygon_eq hperm hpoly hi (g := fun k =>
    place ((offset (permuted inIndices rows).flatten (offset (permuted inIndices rows) i) +
      offset (permuted inIndices rows)[i] k : ℕ) : ℤ) ((permuted inIndices rows)[i].getD k []))]
  · rw [offset_flatten, ← hplace, List.flatMap_def]
    rfl
  · intro row k hrow hk hget
    have hk' : k < (permuted inIndices rows)[i].length := by rwa [hget]
    have hin := holds_ofRows hrow hk
    have hout := holds_ofRows hi hk'
    have hpoints : (permuted inIndices rows)[i].getD k [] = rows[row][k] := by
      rw [hget, List.getD_eq_getElem _ _ hk]
    have hbegin : outPolygon.pointIdxAt (offset (permuted inIndices rows) i + k) =
        some (offset (permuted inIndices rows).flatten (offset (permuted inIndices rows) i + k)) := by
      rw [← hout.begin, GPUPolygon.pointIdxAt, GPUPolygon.pointIdxAt, hpoint]
    have hcount : outPolygon.pointCountAt (offset (permuted inIndices rows) i + k) = some rows[row][k].length := by
      have h := hout.count
      simp only [hget] at h
      rw [← h, GPUPolygon.pointCountAt, GPUPolygon.pointCountAt, hpoint]
    rw [reorderPolygon, hin.begin, hin.count]
    simp only [Option.bind_eq_bind, Option.bind_some, hbegin, hcount, hpoints]
    rw [← offset_flatten_add hi hk'.le]
    exact mapM_place _ hin.point

theorem reorderPolyCount_eq {i : ℕ} (hi : i < (permuted inIndices rows).length) :
    reorderPolyCount inIndices (ofRows rows) i = some [((i : ℤ), (permuted inIndices rows)[i].length)] := by
  obtain ⟨row, hrow, hidx, hget⟩ := permuted_getElem hperm hi
  rw [reorderPolyCount, hidx, hget]
  simp only [Option.bind_eq_bind, Option.bind_some, polyIdxAt_ofRows hrow.le, polyCountAt_ofRows hrow]

variable (horder : order.Covers rows.length)

include horder

/-- the first level always succeeds; the others need their buffers -/
theorem reOrderPolygon_counts (hne : rows ≠ []) :
    reOrderPolygonByIdx order inIndices (ofRows rows) rows.length = (do
      let size ← alloc rows.flatten.length
      let pointCount ← kernel size (order .pointCount)
        (reorderPointCount ⟨[], [], (ofRows (permuted inIndices rows)).polyIdx⟩ (ofRows rows) inIndices)
      let polyPointSize ← (ofRows rows).pointIdx[rows.flatten.length - 1]?
      let size ← alloc polyPointSize
      let polyPoints ← kernel size (order .polyPoints) (reorderPolyPoints
        ⟨[], inclusiveSum pointCount, (ofRows (permuted inIndices rows)).polyIdx⟩ (ofRows rows) inIndices)
      some ⟨polyPoints, inclusiveSum pointCount, (ofRows (permuted inIndices rows)).polyIdx⟩) := by
  have hlength : (permuted inIndices rows).length = rows.length := by simpa using hperm.length_eq
  have hcounts := @kernel_values _ ((permuted inIndices rows).map List.length) (order .polyCount)
    (by rw [List.length_map, hlength]; exact horder _) (reorderPolyCount inIndices (ofRows rows)) fun i hi => by
      rw [List.length_map] at hi
      rw [reorderPolyCount_eq hperm hi, List.getElem_map]
  rw [List.length_map, hlength] at hcounts
  rw [reOrderPolygonByIdx, if_pos (List.length_pos_iff.2 hne), hcounts, ReconstructPolygon.last_polyIdx hne]
  rfl

/-- polygons with points are reordered -/
theorem reorders_of_points (hpoints : rows.flatten.flatten ≠ []) : ReordersPolygons order inIndices rows := by
  have hflat : rows.flatten ≠ [] := fun h => hpoints (by rw [h]; rfl)
  have hne : rows ≠ [] := fun h => hflat (by rw [h]; rfl)
  have hlength : (permuted inIndices rows).length = rows.length := by simpa using hperm.length_eq
  have hpolygons := length_flatten_permuted hperm
  have htotal : (permuted inIndices rows).flatten.flatten.length = rows.flatten.flatten.length :=
    (permuted_perm hperm).flatten.flatten.length_eq
  have hcounts : kernel rows.flatten.length (order .pointCount)
      (reorderPointCount ⟨[], [], (ofRows (permuted inIndices rows)).polyIdx⟩ (ofRows rows) inIndices) =
        some ((permuted inIndices rows).flatten.map List.length) := by
    have htexts : ((permuted inIndices rows).map (List.map List.length)).flatten =
        (permuted inIndices rows).flatten.map List.length := List.map_flatten.symm
    rw [← htexts]
    refine kernel_eq (by rw [List.length_map, hlength]; exact horder _) (by rw [htexts, List.length_map, hpolygons])
      fun i hi => ?_
    rw [List.length_map] at hi
    refine ⟨_, reorderPointCount_eq hperm rfl hi, ?_⟩
    have hoff : offset ((permuted inIndices rows).map (List.map List.length)) i =
        offset (permuted inIndices rows) i := by
      rw [offset_eq, offset_eq, List.map_map]
      simp [Function.comp_def]
    rw [hoff, List.getD_eq_getElem _ _ (by rwa [List.length_map]), List.getElem_map]
  have hcopied : kernel rows.flatten.flatten.length (order .polyPoints) (reorderPolyPoints
      ⟨[], inclusiveSum ((permuted inIndices rows).flatten.map List.length), (ofRows (permuted inIndices rows)).polyIdx⟩
      (ofRows rows) inIndices) = some (permuted inIndices rows).flatten.flatten := by
    have htexts : ((permuted inIndices rows).map List.flatten).flatten = (permuted inIndices rows).flatten.flatten :=
      List.flatten_flatten.symm
    rw [← htexts]
    refine kernel_eq (by rw [List.length_map, hlength]; exact horder _) (by rw [htexts, htotal]) fun i hi => ?_
    rw [List.length_map] at hi
    refine ⟨_, reorderPolyPoints_eq hperm rfl rfl hi, ?_⟩
    rw [List.getD_eq_getElem _ _ (by rwa [List.length_map]), List.getElem_map]
  rw [ReordersPolygons, reOrderPolygon_counts hperm horder hne, ReconstructPolygon.alloc_of_ne_nil hflat,
    Option.bind_eq_bind, Option.bind_some, hcounts, Option.bind_eq_bind, Option.bind_some,
    ReconstructPolygon.last_pointIdx hflat,
    Option.bind_some, ReconstructPolygon.alloc_of_ne_nil hpoints, Option.bind_some]
  rw [hcopied]
  rfl

theorem reOrderPolygon_iff : ReordersPolygons order inIndices rows ↔ rows = [] ∨ rows.flatten.flatten ≠ [] := by
  rcases eq_or_ne rows [] with rfl | hne
  · obtain rfl : inIndices = [] := by simpa using hperm
    exact iff_of_true rfl (.inl rfl)
  · rw [or_iff_right hne]
    refine ⟨fun h hnil => ?_, reorders_of_points hperm horder⟩
    rw [ReordersPolygons, reOrderPolygon_counts hperm horder hne] at h
    obtain ⟨size, hsize, h⟩ := Option.bind_eq_some_iff.1 h
    obtain ⟨pointCount, -, h⟩ := Option.bind_eq_some_iff.1 h
    -- without points in the column, the buffer of the points has size 0
    have hflat : rows.flatten ≠ [] := by
      rintro hflat
      rw [hflat] at hsize
      cases hsize
    rw [ReconstructPolygon.last_pointIdx hflat, hnil] at h
    cases h

end Polygons

/-! ## Both -/

/-- **Strings are reordered exactly while there are characters, at most 2^31 of them and fewer in each string; polygons
exactly while there are points; and a column without rows always.** -/
theorem reordering_is_permutation_iff (order : Order) (inIndices : List ℕ) :
    (∀ {α : Type} (strings : List (List α)), inIndices.Perm (List.range strings.length) →
      order.Covers strings.length → (ReordersStrings order inIndices strings ↔
        strings = [] ∨ strings.flatten ≠ [] ∧ strings.flatten.length ≤ 2 ^ 31 ∧ ∀ s ∈ strings, s.length < 2 ^ 31)) ∧
    ∀ {P : Type} (rows : List (List (List P))), inIndices.Perm (List.range rows.length) →
      order.Covers rows.length → (ReordersPolygons order inIndices rows ↔ rows = [] ∨ rows.flatten.flatten ≠ []) :=
  ⟨fun _ hperm horder => reOrderString_iff hperm horder, fun _ hperm horder => reOrderPolygon_iff hperm horder⟩

/-- three rows from the last to the first; the kernels run over them in the order 1, 2, 0 -/
theorem reordering_is_permutation_three :
    ReordersStrings (fun _ => [1, 2, 0]) [2, 1, 0] [['a', 'b'], [], ['c']] ∧
      ReordersPolygons (fun _ => [1, 2, 0]) [2, 1, 0] [[[1, 2], [3]], [], [[4, 5, 6]]] := by
  have hperm : [2, 1, 0].Perm (List.range 3) := by decide
  have horder : Order.Covers (fun _ => [1, 2, 0]) 3 := fun _ => (by decide : [1, 2, 0].Perm (List.range 3))
  have hboth := reordering_is_permutation_iff (fun _ => [1, 2, 0]) [2, 1, 0]
  refine ⟨(hboth.1 [['a', 'b'], [], ['c']] hperm horder).2 ?_,
    (hboth.2 [[[1, 2], [3]], [], [[4, 5, 6]]] hperm horder).2 ?_⟩
  · exact .inr ⟨by decide, by decide, by decide⟩
  · exact .inr (by decide)

/-- a row that holds the empty string -/
theorem empty_strings_are_not_reordered : ¬ReordersStrings (fun _ => [0]) [0] [([] : List Char)] := by
  intro h
  cases h

end QikkDB.ReorderColumn

/-
Reconstruction of a filtered column of polygons (QueryEngine/GPUCore/GPUReconstruct.cu, `ReconstructPolyColKeep`,
`kernel_reconstruct_polyCount_col`, `kernel_reconstruct_pointCount_col`, `kernel_generate_poly_submask`,
`kernel_generate_point_submask`).

The mask of the rows is expanded to one of the polygons and that to one of the points, and each of the three buffers is
compacted with its own prefix sums. When no polygon is left, the function returns before it has written the null mask.

- `kernelGenerateSubmask_eq`: the mask of the elements of nested lists.
- `reconstructPolyColKeep_eq`: what is returned.
- `polygons_are_filtered_iff`: the rows that are kept with their null bits, except where the early return loses a NULL.
-/
import Mathlib.Tactic
import QikkDB.Engine.PolygonColumn
import QikkDB.Engine.Reconstruct

namespace QikkDB.ReconstructPolygon

open Compaction NullValues PolygonColumn PrefixSum Reconstruct Scatter Select

/-! ## Model -/

/-- the kernels, each over the rows, the polygons or the points -/
inductive Launch where
  | polyCount
  | polySubmask
  | pointCount
  | pointSubmask
  | points
  | nullMask
deriving DecidableEq, Repr

abbrev Order := Launch → List ℕ

/-- kernel_generate_poly_submask and kernel_generate_point_submask -/
def kernelGenerateSubmask (outSize : ℕ) (order : List ℕ) (inMask : List Bool) (idxAt countAt : ℕ → Option ℕ) :
    Option (List Bool) :=
  kernel outSize order fun i => do
    let count ← countAt i
    (List.range count).mapM fun j => do
      let idx ← idxAt i
      let m ← inMask[i]?
      some (((idx + j : ℕ) : ℤ), m)

variable {P : Type}

/-- the part of ReconstructPolyColKeep for the points: polyPoints and pointIdx of the result -/
def reconstructPoints (order : Order) (inCol : GPUPolygon P) (subpolyMask : List Bool) (outSubpolySize : ℕ)
    (inPointSize : ℕ) : Option (List P × List ℕ) := do
  let subpolyPrefixSum := maskSum subpolyMask
  let pointCount ← kernelReconstruct outSubpolySize (order .pointCount) inCol.pointCountAt subpolyPrefixSum subpolyMask
  let pointIdx := inclusiveSum pointCount
  let outPointSize ← pointIdx[outSubpolySize - 1]?
  let pointSubmaskSize ← alloc inPointSize
  let pointMask ← kernelGenerateSubmask pointSubmaskSize (order .pointSubmask) subpolyMask inCol.pointIdxAt
    inCol.pointCountAt
  let pointPrefixSum := maskSum pointMask
  let size ← alloc outPointSize
  let polyPoints ← kernelReconstructCol size (order .points) inCol.polyPoints pointPrefixSum pointMask
  some (polyPoints, pointIdx)

/-- the part for the polygons, with the mask of the rows -/
def reconstructSubpolys (order : Order) (inCol : GPUPolygon P) (inMask : List Bool) (outSubpolySize : ℕ) :
    Option (List P × List ℕ) := do
  let inSubpolySize ← inCol.polyIdx[inMask.length - 1]?
  let inPointSize ← inCol.pointIdx[inSubpolySize - 1]?
  let size ← alloc inSubpolySize
  let subpolyMask ← kernelGenerateSubmask size (order .polySubmask) inMask inCol.polyIdxAt inCol.polyCountAt
  reconstructPoints order inCol subpolyMask outSubpolySize inPointSize

/-- ReconstructPolyColKeep for a column with rows and a filter mask; `outNullMask` is what the pointer holds before -/
def reconstructPolyColKeep (order : Order) (inCol : GPUPolygon P) (inMask : List Bool) (nullMask : Mask)
    (outNullMask : Option Mask) : Option (Reconstruct.Column (GPUPolygon P)) := do
  let prefixSum := maskSum inMask
  let outDataElementCount ← prefixSum[inMask.length - 1]?
  if 0 < outDataElementCount then do
    let polyCount ← kernelReconstruct outDataElementCount (order .polyCount) inCol.polyCountAt prefixSum inMask
    let polyIdx := inclusiveSum polyCount
    let outSubpolySize ← polyIdx[outDataElementCount - 1]?
    -- the early return
    if outSubpolySize = 0 then some ⟨⟨[], [], polyIdx⟩, outDataElementCount, outNullMask⟩
    else do
      let (polyPoints, pointIdx) ← reconstructSubpolys order inCol inMask outSubpolySize
      let mask ← kernelReconstructNullMask (getNullBitMaskSize outDataElementCount) (order .nullMask) nullMask prefixSum
        inMask
      some ⟨⟨polyPoints, pointIdx, polyIdx⟩, outDataElementCount, some mask⟩
  else some ⟨⟨[], [], []⟩, outDataElementCount, none⟩

/-- every kernel runs once over each of the rows, the polygons or the points it is for -/
structure Order.Covers (order : Order) (rows : List (List (List P))) : Prop where
  polyCount : (order .polyCount).Perm (List.range rows.length)
  polySubmask : (order .polySubmask).Perm (List.range rows.length)
  pointCount : (order .pointCount).Perm (List.range rows.flatten.length)
  pointSubmask : (order .pointSubmask).Perm (List.range rows.flatten.length)
  points : (order .points).Perm (List.range rows.flatten.flatten.length)
  nullMask : (order .nullMask).Perm (List.range rows.length)

/-! ## The kernels -/

theorem kernelGenerateSubmask_eq {α : Type} {ls : List (List α)} {inMask : List Bool} (hlen : inMask.length = ls.length)
    (idxAt countAt : ℕ → Option ℕ) (hidx : ∀ i < ls.length, idxAt i = some (offset ls i))
    (hcount : ∀ i (hi : i < ls.length), countAt i = some ls[i].length) {order : List ℕ}
    (horder : order.Perm (List.range ls.length)) :
    kernelGenerateSubmask ls.flatten.length order inMask idxAt countAt = some (expand inMask ls).flatten := by
  have hlengths := length_expand hlen
  have hexpand : (expand inMask ls).length = ls.length := by simp [expand, hlen]
  have hsize : ls.flatten.length = (expand inMask ls).flatten.length := by
    rw [List.length_flatten, List.length_flatten, hlengths]
  refine kernel_eq (by rwa [hexpand]) hsize fun i hi => ?_
  rw [hexpand] at hi
  have hm : i < inMask.length := hlen ▸ hi
  have htext : (expand inMask ls).getD i [] = List.replicate ls[i].length inMask[i] := by
    rw [List.getD_eq_getElem _ _ (by rwa [hexpand])]
    simp [expand]
  have hoff : offset (expand inMask ls) i = offset ls i := by rw [offset_eq, offset_eq, hlengths]
  have hread : ∀ j (hj : j < (List.replicate ls[i].length inMask[i]).length),
      inMask[i]? = some (List.replicate ls[i].length inMask[i])[j] := fun j hj => by
    rw [List.getElem_replicate, List.getElem?_eq_getElem hm]
  have hplace := mapM_place (offset ls i) hread
  rw [List.length_replicate] at hplace
  rw [htext, hoff, hcount i hi]
  simp only [Option.bind_eq_bind, Option.bind_some, hidx i hi]
  exact ⟨_, hplace, List.Perm.refl _⟩

/-! ## The column -/

section Column

variable {rows : List (List (List P))} {inMask : List Bool} (nullMask : Mask) (outNullMask : Option Mask) {order : Order}

/-- the counts of the polygons that are kept -/
theorem polyCount_eq (hlen : inMask.length = rows.length) {order : List ℕ} (horder : order.Perm (List.range rows.length)) :
    kernelReconstruct (inMask.count true) order (ofRows rows).polyCountAt (maskSum inMask) inMask =
      some ((keep inMask rows).map List.length) := by
  rw [← keep_map]
  refine kernelReconstruct_eq (by rwa [List.length_map]) (fun i hi => ?_) (by rwa [List.length_map])
  rw [List.length_map] at hi
  rw [polyCountAt_ofRows hi, List.getElem_map]

theorem last_polyIdx (hne : rows ≠ []) : (ofRows rows).polyIdx[rows.length - 1]? = some rows.flatten.length := by
  have := last_inclusiveSum (l := rows.map List.length) (by simpa using hne)
  rwa [List.length_map, ← List.length_flatten] at this

theorem last_pointIdx (hne : rows.flatten ≠ []) :
    (ofRows rows).pointIdx[rows.flatten.length - 1]? = some rows.flatten.flatten.length := by
  have := last_inclusiveSum (l := rows.flatten.map List.length) (by simpa using hne)
  rwa [List.length_map, ← List.length_flatten] at this

theorem alloc_of_ne_nil {α : Type} {l : List α} (h : l ≠ []) : alloc l.length = some l.length :=
  if_neg fun h0 => h (List.length_eq_zero_iff.1 h0)

/-- polygons that have points have points in all -/
theorem flatten_ne_nil {α : Type} {ls : List (List α)} (hne : ls ≠ []) (h : ∀ l ∈ ls, l ≠ []) : ls.flatten ≠ [] := by
  obtain ⟨l, hl⟩ := List.exists_mem_of_ne_nil ls hne
  exact fun hflat => h l hl (List.flatten_eq_nil_iff.1 hflat l hl)

/-- the polygons that are kept, by the mask of the polygons -/
theorem reconstructPoints_eq {subpolyMask : List Bool} (hlen : subpolyMask.length = rows.flatten.length)
    (horder : order.Covers rows) (hpoints : ∀ polygon ∈ rows.flatten, polygon ≠ [])
    (hsome : keep subpolyMask rows.flatten ≠ []) :
    reconstructPoints order (ofRows rows) subpolyMask (subpolyMask.count true) rows.flatten.flatten.length =
      some ((keep subpolyMask rows.flatten).flatten,
        inclusiveSum ((keep subpolyMask rows.flatten).map List.length)) := by
  have hkept : (keep subpolyMask rows.flatten).length = subpolyMask.count true := length_keep hlen
  have hne : rows.flatten ≠ [] := fun h => hsome (by rw [h, keep_nil])
  have hcounts : kernelReconstruct (subpolyMask.count true) (order .pointCount) (ofRows rows).pointCountAt
      (maskSum subpolyMask) subpolyMask = some ((keep subpolyMask rows.flatten).map List.length) := by
    rw [← keep_map]
    refine kernelReconstruct_eq (by rwa [List.length_map]) (fun i hi => ?_)
      (by rw [List.length_map]; exact horder.pointCount)
    rw [List.length_map] at hi
    rw [pointCountAt_ofRows hi, List.getElem_map]
  have hlast := last_inclusiveSum (l := (keep subpolyMask rows.flatten).map List.length) (by simpa using hsome)
  rw [List.length_map, hkept, ← List.length_flatten] at hlast
  have hmask := kernelGenerateSubmask_eq hlen (ofRows rows).pointIdxAt _ (fun j hj => pointIdxAt_ofRows hj.le)
    (fun j hj => pointCountAt_ofRows hj) horder.pointSubmask
  have hexpand : (expand subpolyMask rows.flatten).flatten.length = (ofRows rows).polyPoints.length := by
    rw [List.length_flatten, length_expand hlen, ← List.length_flatten]
    rfl
  have hcol := kernelReconstructCol_eq _ hexpand (order .points) horder.points
  have hkeep : keep (expand subpolyMask rows.flatten).flatten (ofRows rows).polyPoints =
      (keep subpolyMask rows.flatten).flatten := keep_flatten
  have hcount : (expand subpolyMask rows.flatten).flatten.count true = (keep subpolyMask rows.flatten).flatten.length := by
    rw [← hkeep, length_keep hexpand]
  rw [hkeep, hcount] at hcol
  have hflat : (keep subpolyMask rows.flatten).flatten ≠ [] :=
    flatten_ne_nil hsome fun l hl => hpoints l (mem_of_mem_keep hl)
  rw [reconstructPoints, hcounts]
  simp only [Option.bind_eq_bind, Option.bind_some, hlast, alloc_of_ne_nil (flatten_ne_nil hne hpoints), hmask,
    alloc_of_ne_nil hflat, hcol]

theorem reconstructSubpolys_eq (hlen : inMask.length = rows.length) (horder : order.Covers rows)
    (hpoints : ∀ polygon ∈ rows.flatten, polygon ≠ []) (hsome : (keep inMask rows).flatten ≠ []) :
    reconstructSubpolys order (ofRows rows) inMask (keep inMask rows).flatten.length =
      some ((ofRows (keep inMask rows)).polyPoints, (ofRows (keep inMask rows)).pointIdx) := by
  have hkeep : keep (expand inMask rows).flatten rows.flatten = (keep inMask rows).flatten := keep_flatten
  have hflat : rows.flatten ≠ [] := fun h => hsome (by rw [← hkeep, h, keep_nil])
  have hrows : rows ≠ [] := fun h => hflat (by rw [h]; rfl)
  have hexpand : (expand inMask rows).flatten.length = rows.flatten.length := by
    rw [List.length_flatten, length_expand hlen, ← List.length_flatten]
  have hpoly := last_polyIdx hrows
  rw [← hlen] at hpoly
  have hmask := kernelGenerateSubmask_eq hlen (ofRows rows).polyIdxAt _ (fun j hj => polyIdxAt_ofRows hj.le)
    (fun j hj => polyCountAt_ofRows hj) horder.polySubmask
  have hpart := reconstructPoints_eq hexpand horder hpoints (hkeep ▸ hsome)
  rw [← length_keep hexpand, hkeep] at hpart
  rw [reconstructSubpolys, hpoly]
  simp only [Option.bind_eq_bind, Option.bind_some, last_pointIdx hflat, alloc_of_ne_nil hflat, hmask, hpart]
  rfl

/-- no row is kept -/
theorem reconstruct_of_count_eq_zero (hne : inMask ≠ []) (hcount : inMask.count true = 0) :
    reconstructPolyColKeep order (ofRows rows) inMask nullMask outNullMask = some ⟨⟨[], [], []⟩, 0, none⟩ := by
  rw [reconstructPolyColKeep, last_maskSum hne, hcount]
  rfl

section Kept

variable (hlen : inMask.length = rows.length) (hcount : 0 < inMask.count true) (horder : order.Covers rows)

include hlen hcount horder

/-- no polygon is left: the early return -/
theorem reconstruct_of_no_polygon (hnone : (keep inMask rows).flatten = []) :
    reconstructPolyColKeep order (ofRows rows) inMask nullMask outNullMask =
      some ⟨ofRows (keep inMask rows), inMask.count true, outNullMask⟩ := by
  have hne : inMask ≠ [] := fun h => by simp [h] at hcount
  have hkept : keep inMask rows ≠ [] := List.length_pos_iff.1 ((length_keep hlen).symm ▸ hcount)
  have hlast : (inclusiveSum ((keep inMask rows).map List.length))[inMask.count true - 1]? = some 0 := by
    have := last_polyIdx hkept
    rwa [length_keep hlen, hnone] at this
  rw [reconstructPolyColKeep, last_maskSum hne, Option.bind_eq_bind, Option.bind_some, if_pos hcount,
    polyCount_eq hlen horder.polyCount, Option.bind_eq_bind, Option.bind_some]
  simp only [hlast, Option.bind_some, if_true]
  rw [ofRows, hnone]
  rfl

/-- some polygon is left -/
theorem reconstruct_of_polygon (hpoints : ∀ polygon ∈ rows.flatten, polygon ≠ [])
    (hnull : getNullBitMaskSize inMask.length ≤ nullMask.length) (hsome : (keep inMask rows).flatten ≠ []) :
    ∃ mask, reconstructPolyColKeep order (ofRows rows) inMask nullMask outNullMask =
        some ⟨ofRows (keep inMask rows), inMask.count true, some mask⟩ ∧
      Packed (keep inMask (nullBits inMask.length nullMask)) mask := by
  obtain ⟨mask, hmask, hpacked⟩ := kernelReconstructNullMask_eq (hlen ▸ horder.nullMask) hnull
  refine ⟨mask, ?_, hpacked⟩
  have hne : inMask ≠ [] := fun h => by simp [h] at hcount
  have hkept : keep inMask rows ≠ [] := List.length_pos_iff.1 ((length_keep hlen).symm ▸ hcount)
  have hlast : (inclusiveSum ((keep inMask rows).map List.length))[inMask.count true - 1]? =
      some (keep inMask rows).flatten.length := by
    have := last_polyIdx hkept
    rwa [length_keep hlen] at this
  have h0 : (keep inMask rows).flatten.length ≠ 0 := fun h => hsome (List.length_eq_zero_iff.1 h)
  rw [reconstructPolyColKeep, last_maskSum hne, Option.bind_eq_bind, Option.bind_some, if_pos hcount,
    polyCount_eq hlen horder.polyCount, Option.bind_eq_bind, Option.bind_some]
  simp only [hlast, Option.bind_some]
  rw [if_neg h0, reconstructSubpolys_eq hlen horder hpoints hsome, Option.bind_eq_bind, Option.bind_some, hmask]
  rfl

end Kept

end Column

/-! ## Rows -/

/-- the null bits of rows; without a mask no row is NULL -/
def ShowsNulls (isNull : List Bool) : Option Mask → Prop
  | none => ∀ b ∈ isNull, b = false
  | some mask => Packed isNull mask

/-- the result represents the rows whose mask byte is 1, with their null bits -/
def PolygonFilters (order : Order) (rows : List (Row (List (List P)))) (nullMask : Mask) (outNullMask : Option Mask) :
    Prop :=
  ∃ out, reconstructPolyColKeep order (ofRows (rows.map Row.value)) (rows.map Row.selected) nullMask outNullMask =
      some out ∧
    out.data = ofRows ((kept rows).map Row.value) ∧ out.dataElementCount = (kept rows).length ∧
    ShowsNulls ((kept rows).map Row.isNull) out.nullMask

section Filters

variable {order : Order} {rows : List (Row (List (List P)))} {nullMask : Mask} {outNullMask : Option Mask}

theorem polygonFilters_iff (hne : rows ≠ []) (hpoints : ∀ row ∈ rows, ∀ polygon ∈ row.value, polygon ≠ [])
    (horder : order.Covers (rows.map Row.value)) (hnull : HasNullMask rows nullMask) :
    PolygonFilters order rows nullMask outNullMask ↔
      kept rows = [] ∨ (∃ row ∈ kept rows, row.value ≠ []) ∨ ShowsNulls ((kept rows).map Row.isNull) outNullMask := by
  have hmask : rows.map Row.selected ≠ [] := by simpa using hne
  have hlen : (rows.map Row.selected).length = (rows.map Row.value).length := by simp
  have hkeep : keep (rows.map Row.selected) (rows.map Row.value) = (kept rows).map Row.value := keep_rows _ rows
  have hcount : (rows.map Row.selected).count true = (kept rows).length := by
    rw [← length_keep hlen, hkeep, List.length_map]
  by_cases hkept : kept rows = []
  · refine iff_of_true ⟨_, reconstruct_of_count_eq_zero nullMask outNullMask hmask (by rw [hcount, hkept]; rfl), ?_⟩ (.inl hkept)
    rw [hkept]
    exact ⟨rfl, rfl, nofun⟩
  rw [or_iff_right hkept]
  have hpos : 0 < (rows.map Row.selected).count true := hcount ▸ List.length_pos_iff.2 hkept
  by_cases hpoly : ∃ row ∈ kept rows, row.value ≠ []
  · refine iff_of_true ?_ (.inl hpoly)
    have hall : ∀ polygon ∈ (rows.map Row.value).flatten, polygon ≠ [] := by
      intro polygon hp
      obtain ⟨value, hvalue, hp⟩ := List.mem_flatten.1 hp
      obtain ⟨row, hrow, rfl⟩ := List.mem_map.1 hvalue
      exact hpoints row hrow polygon hp
    have hsome : (keep (rows.map Row.selected) (rows.map Row.value)).flatten ≠ [] := by
      rw [hkeep, Ne, List.flatten_eq_nil_iff]
      obtain ⟨row, hrow, hvalue⟩ := hpoly
      exact fun h => hvalue (h _ (List.mem_map_of_mem hrow))
    obtain ⟨mask, hout, hpacked⟩ := reconstruct_of_polygon nullMask outNullMask hlen hpos horder hall
      (by rw [List.length_map]; exact hnull.words) hsome
    rw [keep_nullBits hnull] at hpacked
    rw [hkeep, hcount] at hout
    exact ⟨_, hout, rfl, rfl, hpacked⟩
  · have hnone : (keep (rows.map Row.selected) (rows.map Row.value)).flatten = [] := by
      rw [hkeep, List.flatten_eq_nil_iff]
      intro value hvalue
      obtain ⟨row, hrow, rfl⟩ := List.mem_map.1 hvalue
      exact not_not.1 fun h => hpoly ⟨row, hrow, h⟩
    have hout := reconstruct_of_no_polygon nullMask outNullMask hlen hpos horder hnone
    rw [hkeep, hcount] at hout
    rw [or_iff_right hpoly]
    constructor
    · rintro ⟨out, h, -, -, hnulls⟩
      obtain rfl := Option.some.inj (hout.symm.trans h)
      exact hnulls
    · exact fun h => ⟨_, hout, rfl, rfl, h⟩

end Filters

/-- **The polygons that are kept come with their null bits exactly when no row is kept, one of them has a polygon, or the
pointer for the null mask already shows their null bits.** -/
theorem polygons_are_filtered_iff (order : Order) (rows : List (Row (List (List P)))) (nullMask : Mask)
    (outNullMask : Option Mask) (hne : rows ≠ []) (hpoints : ∀ row ∈ rows, ∀ polygon ∈ row.value, polygon ≠ [])
    (horder : order.Covers (rows.map Row.value)) (hnull : HasNullMask rows nullMask) :
    PolygonFilters order rows nullMask outNullMask ↔
      kept rows = [] ∨ (∃ row ∈ kept rows, row.value ≠ []) ∨ ShowsNulls ((kept rows).map Row.isNull) outNullMask :=
  polygonFilters_iff hne hpoints horder hnull

/-- an order that covers these rows -/
def naturalOrder (rows : List (List (List P))) : Order
  | .polyCount | .polySubmask | .nullMask => List.range rows.length
  | .pointCount | .pointSubmask => List.range rows.flatten.length
  | .points => List.range rows.flatten.flatten.length

theorem naturalOrder_covers (rows : List (List (List P))) : (naturalOrder rows).Covers rows :=
  ⟨.refl _, .refl _, .refl _, .refl _, .refl _, .refl _⟩

/-- a row without polygons that is NULL and one with two polygons, both kept -/
theorem polygons_are_filtered_two :
    PolygonFilters (naturalOrder [[], [[1, 2], [3]]]) [⟨[], true, true⟩, ⟨[[1, 2], [3]], false, true⟩] [0b01#64] none :=
  (polygons_are_filtered_iff _ _ _ _ (by decide) (by decide) (naturalOrder_covers [[], [[1, 2], [3]]])
    ⟨by decide, by decide⟩).2 (.inr (.inl ⟨⟨[[1, 2], [3]], false, true⟩, by decide, by decide⟩))

/-- one row, NULL and without polygons, is kept: its null bit is lost -/
theorem null_polygon_is_lost :
    ¬PolygonFilters (P := ℕ) (naturalOrder ([[]] : List (List (List ℕ)))) [⟨[], true, true⟩] [0b1#64] none := by
  have hiff := @polygonFilters_iff ℕ _ [⟨[], true, true⟩] [0b1#64] none (by decide) (by decide)
    (naturalOrder_covers [[]]) ⟨by decide, by decide⟩
  rw [hiff]
  simp [kept, ShowsNulls]

end QikkDB.ReconstructPolygon

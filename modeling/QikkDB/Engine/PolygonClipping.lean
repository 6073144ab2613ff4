/-
The lists of polygon clipping (QueryEngine/GPUCore/GPUPolygonClipping.cu up to
`kernel_add_and_crosslink_intersections_to_ll`).

For each row two lists in two buffers, one of the vertices of A and the intersections, one of the vertices of B and the
intersections. The vertices come first, in the order of the column, each sub-polygon linked to a ring. The intersections
come behind them and are linked into the edges they lie on.

- coordinates are rational numbers; a link is `none` where the code has -1;
- the buffers hold anything before the kernels run;
- the rows of a kernel run one after the other, in some order;
- which sub-polygons have intersections is given (`flags`), nothing here depends on it.

Results:
- `forEdges_ofRows`: the four nested loops visit all pairs of edges of a row.
- `size_eq`: the room of a row is what its vertices and intersections need.
-/
import Mathlib.Data.List.GetD
import Mathlib.Tactic
import QikkDB.Lib.Loops
import QikkDB.Lib.PrefixSum
import QikkDB.Lib.Rings
import QikkDB.Engine.PolygonColumn

namespace QikkDB.PolygonClipping

open Loops PrefixSum PolygonColumn Rings

/-! ## Vertices and intersections -/

structure NativeGeoPoint where
  latitude : ℚ
  longitude : ℚ
deriving DecidableEq, Inhabited

/-- the five bits of llflags are fields of their own -/
structure LLPolyVertex where
  vertex : NativeGeoPoint
  hasIntersections : Bool
  isIntersection : Bool
  isValidIntersection : Bool
  isEntry : Bool
  wasProcessed : Bool
  distanceAlongA : ℚ
  distanceAlongB : ℚ
  prevIdx : Option ℕ
  nextIdx : Option ℕ
  crossIdx : Option ℕ
deriving DecidableEq, Inhabited

abbrev Buffer := ℕ → LLPolyVertex

/-- the links of the nodes of a buffer -/
def links (buffer : Buffer) : Links ℕ := ⟨fun i => (buffer i).nextIdx, fun i => (buffer i).prevIdx⟩

@[simp] theorem next_links (buffer : Buffer) (i : ℕ) : (links buffer).next i = (buffer i).nextIdx := rfl

@[simp] theorem prev_links (buffer : Buffer) (i : ℕ) : (links buffer).prev i = (buffer i).prevIdx := rfl

def calcIntersect (sA eA sB eB : NativeGeoPoint) : LLPolyVertex :=
  let adx := eA.latitude - sA.latitude
  let ady := eA.longitude - sA.longitude
  let bdx := eB.latitude - sB.latitude
  let bdy := eB.longitude - sB.longitude
  let axb := adx * bdy - ady * bdx
  if axb = 0 then ⟨⟨0, 0⟩, false, true, false, false, false, -1, -1, none, none, none⟩
  else
    let dx := sA.latitude - sB.latitude
    let dy := sA.longitude - sB.longitude
    let alongA := (bdx * dy - bdy * dx) / axb
    let alongB := (adx * dy - ady * dx) / axb
    let intersectionValidity := decide (alongA > 0 ∧ alongA < 1 ∧ alongB > 0 ∧ alongB < 1)
    ⟨⟨sA.latitude + alongA * adx, sA.longitude + alongA * ady⟩, intersectionValidity, true, intersectionValidity, false,
      false, alongA, alongB, none, none, none⟩

theorem isIntersection_calcIntersect (sA eA sB eB : NativeGeoPoint) : (calcIntersect sA eA sB eB).isIntersection =
    true := by
  unfold calcIntersect
  simp only
  split_ifs <;> rfl

theorem wasProcessed_calcIntersect (sA eA sB eB : NativeGeoPoint) : (calcIntersect sA eA sB eB).wasProcessed =
    false := by
  unfold calcIntersect
  simp only
  split_ifs <;> rfl

/-! ## The loops -/

/-- an edge with the places of its ends among the vertices of the row -/
structure Edge where
  first : NativeGeoPoint
  last : NativeGeoPoint
  begIdx : ℕ
  endIdx : ℕ
deriving DecidableEq

/-- the edge from a point of a sub-polygon on -/
def edgeAt (polygon : GPUPolygon NativeGeoPoint) (polyIdx pointIdx pointCount point : ℕ) : Option Edge := do
  let first ← polygon.polyPoints[point]?
  let last ← polygon.polyPoints[pointIdx + (point - pointIdx + 1) % pointCount]?
  let firstIdx ← polygon.pointIdxAt polyIdx
  let localIdx := pointIdx - firstIdx
  some ⟨first, last, localIdx + (point - pointIdx) % pointCount, localIdx + (point - pointIdx + 1) % pointCount⟩

/-- for (a ...) for (b ...) for (pointA ...) for (pointB ...) -/
def forEdges {σ : Type} (polygonA polygonB : GPUPolygon NativeGeoPoint) (iAIdx iBIdx : ℕ)
    (body : σ → Edge × Edge → Option σ) (s : σ) : Option σ := do
  let polyIdxA ← polygonA.polyIdxAt iAIdx
  let polyCountA ← polygonA.polyCountAt iAIdx
  let polyIdxB ← polygonB.polyIdxAt iBIdx
  let polyCountB ← polygonB.polyCountAt iBIdx
  (List.range' polyIdxA polyCountA).foldlM (fun s a => do
    let pointIdxA ← polygonA.pointIdxAt a
    let pointCountA ← polygonA.pointCountAt a
    (List.range' polyIdxB polyCountB).foldlM (fun s b => do
      let pointIdxB ← polygonB.pointIdxAt b
      let pointCountB ← polygonB.pointCountAt b
      (List.range' pointIdxA pointCountA).foldlM (fun s pointA =>
        (List.range' pointIdxB pointCountB).foldlM (fun s pointB => do
          let edgeA ← edgeAt polygonA polyIdxA pointIdxA pointCountA pointA
          let edgeB ← edgeAt polygonB polyIdxB pointIdxB pointCountB pointB
          body s (edgeA, edgeB)) s) s) s) s

/-- where two edges cross -/
def intersectionOf (e : Edge × Edge) : LLPolyVertex := calcIntersect e.1.first e.1.last e.2.first e.2.last

def totalPointCountAt {P : Type} (polygon : GPUPolygon P) (idx : ℕ) : Option ℕ := do
  let polyIdx ← polygon.polyIdxAt idx
  let polyCount ← polygon.polyCountAt idx
  if idx = 0 then polygon.pointIdxAt (polyIdx + polyCount)
  else do
    let polyIdxPrev ← polygon.polyIdxAt (idx - 1)
    let polyCountPrev ← polygon.polyCountAt (idx - 1)
    let stop ← polygon.pointIdxAt (polyIdx + polyCount)
    let start ← polygon.pointIdxAt (polyIdxPrev + polyCountPrev)
    some (stop - start)

/-- iAIdx or iBIdx: the row of a column, or the only row of a constant -/
def rowOf (isConst : Bool) (i : ℕ) : ℕ := if isConst then 0 else i

/-- one row of kernel_calc_ll_buffers_size: the sizes of its two lists -/
def calcLlBufferSizes (polygonA polygonB : GPUPolygon NativeGeoPoint) (isAConst isBConst : Bool) (i : ℕ) :
    Option (ℕ × ℕ) := do
  let intersectCount ← forEdges polygonA polygonB (rowOf isAConst i) (rowOf isBConst i)
    (fun count e => some (if (intersectionOf e).isValidIntersection then count + 1 else count)) 0
  let n ← totalPointCountAt polygonA (rowOf isAConst i)
  let k ← totalPointCountAt polygonB (rowOf isBConst i)
  some (n + intersectCount, k + intersectCount)

/-- one row of kernel_build_ll -/
def buildLl (polygon : GPUPolygon NativeGeoPoint) (flags : ℕ → Bool) (llPolygonBufferSizesPrefixSum : List ℕ)
    (isConst : Bool) (buffer : Buffer) (i : ℕ) : Option Buffer := do
  let offset ← startAt llPolygonBufferSizesPrefixSum i
  let polyIdx ← polygon.polyIdxAt (rowOf isConst i)
  let polyCount ← polygon.polyCountAt (rowOf isConst i)
  let (buffer, _) ← (List.range' polyIdx polyCount).foldlM (fun s p => do
    let pointIdx ← polygon.pointIdxAt p
    let pointCount ← polygon.pointCountAt p
    let firstIdx ← polygon.pointIdxAt polyIdx
    let localIdx := pointIdx - firstIdx
    (List.range' pointIdx pointCount).foldlM (fun (s : Buffer × ℕ) point => do
      let vertex ← polygon.polyPoints[point]?
      some (Function.update s.1 (offset + s.2) ⟨vertex, flags p, false, false, false, false, -1, -1,
        some (offset + (localIdx + (point - pointIdx + pointCount - 1) % pointCount)),
        some (offset + (localIdx + (point - pointIdx + 1) % pointCount)), none⟩, s.2 + 1)) s) (buffer, 0)
  some buffer

/-! ## Intersections -/

/-- the links of a node that is in the buffer are set, in the edge it lies on -/
def insertInto (distance : LLPolyVertex → ℚ) (fuel begIdx endIdx node : ℕ) (buffer : Buffer) : Option Buffer := do
  let next ← ((links buffer).next begIdx).bind
    ((links buffer).seek endIdx (fun next => decide (distance (buffer node) > distance (buffer next))) fuel)
  let prev ← (buffer next).prevIdx
  let buffer := Function.update buffer node { buffer node with prevIdx := some prev, nextIdx := some next }
  let buffer := Function.update buffer prev { buffer prev with nextIdx := some node }
  some (Function.update buffer next { buffer next with prevIdx := some node })

/-- the two buffers, and the places behind the last node of the row in each -/
structure Lists where
  a : Buffer
  b : Buffer
  endA : ℕ
  endB : ℕ

/-- an intersection with the index of its node in the other buffer -/
def crossNode (e : Edge × Edge) (crossIdx : ℕ) : LLPolyVertex := { intersectionOf e with crossIdx := some crossIdx }

/-- the body of the loops of kernel_add_and_crosslink_intersections_to_ll -/
def addIntersection (offsetA offsetB : ℕ) (s : Lists) (e : Edge × Edge) : Option Lists :=
  if (intersectionOf e).isValidIntersection then do
    let nodeA := offsetA + s.endA
    let nodeB := offsetB + s.endB
    let a ← insertInto (·.distanceAlongA) (s.endA + 1) (offsetA + e.1.begIdx) (offsetA + e.1.endIdx) nodeA
      (Function.update s.a nodeA (crossNode e nodeB))
    let b ← insertInto (·.distanceAlongB) (s.endB + 1) (offsetB + e.2.begIdx) (offsetB + e.2.endIdx) nodeB
      (Function.update s.b nodeB (crossNode e nodeA))
    some ⟨a, b, s.endA + 1, s.endB + 1⟩
  else some s

/-- one row of kernel_add_and_crosslink_intersections_to_ll -/
def addAndCrosslink (polygonA polygonB : GPUPolygon NativeGeoPoint) (prefixSumA prefixSumB : List ℕ)
    (isAConst isBConst : Bool) (buffers : Buffer × Buffer) (i : ℕ) : Option (Buffer × Buffer) := do
  let offsetA ← startAt prefixSumA i
  let offsetB ← startAt prefixSumB i
  let endA ← totalPointCountAt polygonA (rowOf isAConst i)
  let endB ← totalPointCountAt polygonB (rowOf isBConst i)
  let s ← forEdges polygonA polygonB (rowOf isAConst i) (rowOf isBConst i) (addIntersection offsetA offsetB)
    ⟨buffers.1, buffers.2, endA, endB⟩
  some (s.a, s.b)

/-- clip, up to the crosslinked lists; each kernel has its order of the rows -/
def buildLists (polygonA polygonB : GPUPolygon NativeGeoPoint) (flagsA flagsB : ℕ → Bool) (isAConst isBConst : Bool)
    (dataElementCount : ℕ) (orderA orderB order : List ℕ) (buffers : Buffer × Buffer) :
    Option (List ℕ × List ℕ × Buffer × Buffer) := do
  let sizes ← (List.range dataElementCount).mapM (calcLlBufferSizes polygonA polygonB isAConst isBConst)
  let prefixSumA := inclusiveSum (sizes.map Prod.fst)
  let prefixSumB := inclusiveSum (sizes.map Prod.snd)
  let a ← orderA.foldlM (buildLl polygonA flagsA prefixSumA isAConst) buffers.1
  let b ← orderB.foldlM (buildLl polygonB flagsB prefixSumB isBConst) buffers.2
  let (a, b) ← order.foldlM (addAndCrosslink polygonA polygonB prefixSumA prefixSumB isAConst isBConst) (a, b)
  some (prefixSumA, prefixSumB, a, b)

/-! ## What the loops visit -/

/-- the edges of a sub-polygon whose vertices begin at `base` -/
def ringEdges (base : ℕ) (points : List NativeGeoPoint) : List Edge :=
  (List.finRange points.length).map fun (k : Fin points.length) =>
    ⟨points.get k, points.get ⟨(k + 1) % points.length, Nat.mod_lt _ k.pos⟩, base + k, base + (k + 1) % points.length⟩

/-- the edges of each sub-polygon of a row -/
def rowEdges (row : List (List NativeGeoPoint)) : List (List Edge) :=
  (List.finRange row.length).map fun (j : Fin row.length) => ringEdges (offset row j) (row.get j)

def edgePairs (rowA rowB : List (List NativeGeoPoint)) : List (Edge × Edge) :=
  (rowEdges rowA).flatMap fun a => (rowEdges rowB).flatMap fun b => a.flatMap fun x => b.map fun y => (x, y)

/-- the pairs of edges that cross, in the order in which the loops find them -/
def crossings (rowA rowB : List (List NativeGeoPoint)) : List (Edge × Edge) :=
  (edgePairs rowA rowB).filter fun e => (intersectionOf e).isValidIntersection

@[simp] theorem length_ringEdges (base : ℕ) (points : List NativeGeoPoint) :
    (ringEdges base points).length = points.length := by simp [ringEdges]

@[simp] theorem length_rowEdges (row : List (List NativeGeoPoint)) : (rowEdges row).length = row.length := by
  simp [rowEdges]

theorem getElem?_ringEdges {base k : ℕ} {points : List NativeGeoPoint} (hk : k < points.length)
    (hnext : (k + 1) % points.length < points.length) : (ringEdges base points)[k]? =
      some ⟨points[k], points[(k + 1) % points.length], base + k, base + (k + 1) % points.length⟩ := by
  rw [ringEdges, List.getElem?_map, List.getElem?_eq_getElem (by simpa using hk), Option.map_some,
    List.getElem_finRange]
  rfl

theorem getElem?_rowEdges {row : List (List NativeGeoPoint)} {j : ℕ} (hj : j < row.length) :
    (rowEdges row)[j]? = some (ringEdges (offset row j) row[j]) := by
  rw [rowEdges, List.getElem?_map, List.getElem?_eq_getElem (by simpa using hj), Option.map_some, List.getElem_finRange]
  rfl

variable {rows rowsA rowsB : List (List (List NativeGeoPoint))}

theorem edgeAt_ofRows {i j k : ℕ} {e : Edge} (hi : i < rows.length) (hj : j < rows[i].length)
    (hk : (ringEdges (offset rows[i] j) rows[i][j])[k]? = some e) :
    edgeAt (ofRows rows) (offset rows i) (offset rows.flatten (offset rows i + j)) rows[i][j].length
        (offset rows.flatten (offset rows i + j) + k) = some e := by
  obtain ⟨hlt, -⟩ := List.getElem?_eq_some_iff.1 hk
  rw [length_ringEdges] at hlt
  have hholds := holds_ofRows hi hj
  have hnext : (k + 1) % rows[i][j].length < rows[i][j].length := Nat.mod_lt _ (by omega)
  rw [getElem?_ringEdges hlt hnext] at hk
  rw [edgeAt, Nat.add_sub_cancel_left, hholds.point k hlt, hholds.point _ hnext, pointIdxAt_ofRows (offset_le i)]
  simp only [Option.bind_eq_bind, Option.bind_some]
  rw [offset_flatten_add hi hj.le, Nat.add_sub_cancel_left, Nat.mod_eq_of_lt hlt, hk]

/-- **The loops visit all pairs of edges of a row**, those of the first sub-polygons first. -/
theorem forEdges_ofRows {σ : Type} {i i' : ℕ} (hi : i < rowsA.length) (hi' : i' < rowsB.length)
    (body : σ → Edge × Edge → Option σ) (s : σ) :
    forEdges (ofRows rowsA) (ofRows rowsB) i i' body s = (edgePairs rowsA[i] rowsB[i']).foldlM body s := by
  rw [forEdges, polyIdxAt_ofRows hi.le, polyCountAt_ofRows hi, polyIdxAt_ofRows hi'.le, polyCountAt_ofRows hi']
  simp only [Option.bind_eq_bind, Option.bind_some]
  rw [edgePairs, foldlM_flatMap, ← length_rowEdges rowsA[i]]
  refine foldlM_range' _ (fun j a ha s => ?_) s
  have hj := (List.getElem?_eq_some_iff.1 ha).1
  rw [length_rowEdges] at hj
  rw [getElem?_rowEdges hj, Option.some.injEq] at ha
  have hA := holds_ofRows hi hj
  rw [hA.begin, hA.count, Option.bind_some, Option.bind_some, foldlM_flatMap, ← length_rowEdges rowsB[i']]
  refine foldlM_range' _ (fun j' b hb s => ?_) s
  have hj' := (List.getElem?_eq_some_iff.1 hb).1
  rw [length_rowEdges] at hj'
  rw [getElem?_rowEdges hj', Option.some.injEq] at hb
  have hB := holds_ofRows hi' hj'
  rw [hB.begin, hB.count, Option.bind_some, Option.bind_some, foldlM_flatMap, ← ha, ← hb]
  conv_lhs => rw [← length_ringEdges (offset rowsA[i] j) rowsA[i][j]]
  refine foldlM_range' _ (fun k x hx s => ?_) s
  rw [List.foldlM_map]
  conv_lhs => rw [← length_ringEdges (offset rowsB[i'] j') rowsB[i'][j']]
  refine foldlM_range' _ (fun k' y hy s => ?_) s
  rw [length_ringEdges, length_ringEdges, edgeAt_ofRows hi hj hx, Option.bind_some, edgeAt_ofRows hi' hj' hy,
    Option.bind_some]

/-! ## Room -/

theorem stop_ofRows {i : ℕ} (hi : i < rows.length) : (ofRows rows).pointIdxAt (offset rows i + rows[i].length) =
    some (offset rows.flatten (offset rows i) + rows[i].flatten.length) := by
  rw [pointIdxAt_ofRows (window_le hi), offset_flatten_add hi le_rfl, offset_length]

theorem totalPointCountAt_ofRows {i : ℕ} (hi : i < rows.length) :
    totalPointCountAt (ofRows rows) i = some rows[i].flatten.length := by
  rw [totalPointCountAt, polyIdxAt_ofRows hi.le, polyCountAt_ofRows hi]
  simp only [Option.bind_eq_bind, Option.bind_some]
  rw [stop_ofRows hi]
  cases i with
  | zero => simp [offset]
  | succ i =>
    have hprev : i < rows.length := Nat.lt_of_succ_lt hi
    rw [if_neg (Nat.succ_ne_zero i), Nat.add_sub_cancel, polyIdxAt_ofRows hprev.le, polyCountAt_ofRows hprev]
    simp only [Option.bind_some]
    rw [← offset_succ hprev, pointIdxAt_ofRows (offset_le _), Option.bind_some, Nat.add_sub_cancel_left]

theorem count_eq (l : List (Edge × Edge)) (count : ℕ) :
    l.foldl (fun count e => if (intersectionOf e).isValidIntersection then count + 1 else count) count =
      count + (l.filter fun e => (intersectionOf e).isValidIntersection).length := by
  induction l generalizing count with
  | nil => rfl
  | cons e l ih =>
    rw [List.foldl_cons, ih, List.filter_cons]
    split_ifs
    · rw [List.length_cons]
      omega
    · rfl

/-- two columns of polygons, of which one may be a constant, and the rows of the result -/
structure Columns where
  rowsA : List (List (List NativeGeoPoint))
  rowsB : List (List (List NativeGeoPoint))
  isAConst : Bool
  isBConst : Bool
  count : ℕ
  existsA : ∀ i < count, rowOf isAConst i < rowsA.length
  existsB : ∀ i < count, rowOf isBConst i < rowsB.length

namespace Columns

variable (c : Columns)

/-- the complex polygon of A that is read for row `i` -/
def rowA (i : ℕ) : List (List NativeGeoPoint) := c.rowsA.getD (rowOf c.isAConst i) []

def rowB (i : ℕ) : List (List NativeGeoPoint) := c.rowsB.getD (rowOf c.isBConst i) []

def crossings (i : ℕ) : List (Edge × Edge) := PolygonClipping.crossings (c.rowA i) (c.rowB i)

def sizeA (i : ℕ) : ℕ := (c.rowA i).flatten.length + (c.crossings i).length

def sizeB (i : ℕ) : ℕ := (c.rowB i).flatten.length + (c.crossings i).length

variable {c} {i : ℕ}

theorem rowA_eq (h : rowOf c.isAConst i < c.rowsA.length) : c.rowsA[rowOf c.isAConst i] = c.rowA i :=
  (List.getD_eq_getElem _ _ h).symm

theorem rowB_eq (h : rowOf c.isBConst i < c.rowsB.length) : c.rowsB[rowOf c.isBConst i] = c.rowB i :=
  (List.getD_eq_getElem _ _ h).symm

/-- the room of a row is what its vertices and intersections need -/
theorem size_eq (hi : i < c.count) : calcLlBufferSizes (ofRows c.rowsA) (ofRows c.rowsB) c.isAConst c.isBConst i =
    some (c.sizeA i, c.sizeB i) := by
  have hA := c.existsA i hi
  have hB := c.existsB i hi
  rw [calcLlBufferSizes, forEdges_ofRows hA hB, foldlM_some, count_eq, totalPointCountAt_ofRows hA,
    totalPointCountAt_ofRows hB, rowA_eq hA, rowB_eq hB]
  simp only [Option.bind_eq_bind, Option.bind_some, Nat.zero_add]
  rfl

end Columns

end QikkDB.PolygonClipping

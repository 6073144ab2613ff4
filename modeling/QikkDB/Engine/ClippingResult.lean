/-
The result of polygon clipping (GPUPolygonClipping.cuh, `clip_polygons` and `clip`).

The rows are clipped three times: to count the polygons of each row, to count their points, and to write the points. A
row has the sub-polygons of A and of B that are not crossed and lie on the right side of the other polygon, and the
components that are traced along the linked lists.

- the counts are not written again in the second and third pass;
- each launch has its order of the rows.

Results:
- `wholePolygons_ofRows`: which sub-polygons are taken over.
- `pass_eq`: a pass over rows that leave the lists as they were writes what each row has to write.
- `clip_ofRows`: the column of the components of all rows.
-/
import Mathlib.Tactic
import QikkDB.Lib.Scatter
import QikkDB.Engine.ClippingFlags
import QikkDB.Engine.ClippingTrace

namespace QikkDB.PolygonClipping

open Loops PrefixSum PolygonColumn Scatter

/-! ## Sub-polygons without intersections -/

/-- for (a ...): the sub-polygons that are not crossed and are on the right side -/
def wholePolygons (polygon other : GPUPolygon NativeGeoPoint) (flags : List Bool) (isConst isOtherConst : Bool)
    (dataElementCount : ℕ) (turn : Bool) (i : ℕ) : Option (List (List NativeGeoPoint)) := do
  let polyIdx ← polygon.polyIdxAt (rowOf isConst i)
  let polyCount ← polygon.polyCountAt (rowOf isConst i)
  (List.range' polyIdx polyCount).foldlM (fun components a => do
    let pointIdx ← polygon.pointIdxAt a
    let pointCount ← polygon.pointCountAt a
    let flag ← flags[flagIdx isConst dataElementCount i a]?
    if flag then some components
    else do
      let first ← polygon.polyPoints[pointIdx]?
      let inside ← isPointInComplexPolygonAt first other (rowOf isOtherConst i)
      if inside = turn then do
        let points ← (List.range' pointIdx pointCount).mapM fun point => polygon.polyPoints[point]?
        some (components ++ [points])
      else some components) []

/-- one row of clip_polygons: its components, and the lists as it leaves them -/
def clipRow (turnTable : Bool → Bool) (polygonA polygonB : GPUPolygon NativeGeoPoint) (prefixSumA prefixSumB : List ℕ)
    (flags : List Bool × List Bool) (isAConst isBConst : Bool) (dataElementCount : ℕ) (buffers : Buffer × Buffer)
      (i : ℕ) :
    Option (List (List NativeGeoPoint) × Buffer × Buffer) := do
  let wholeA ← wholePolygons polygonA polygonB flags.1 isAConst isBConst dataElementCount (turnTable false) i
  let wholeB ← wholePolygons polygonB polygonA flags.2 isBConst isAConst dataElementCount (turnTable true) i
  let (components, buffers) ← traceRow turnTable polygonA polygonB prefixSumA prefixSumB isAConst isBConst buffers i
  some (wholeA ++ wholeB ++ components, buffers)

/-! ## The three passes -/

/-- clip_polygons over all rows, each of which writes something about its components to a new array -/
def pass {α : Type} (row : Buffer × Buffer → ℕ → Option (List (List NativeGeoPoint) × Buffer × Buffer)) (size : ℕ)
    (writes : ℕ → List (List NativeGeoPoint) → Option (List (ℤ × α))) (order : List ℕ) (buffers : Buffer × Buffer) :
    Option (List α × Buffer × Buffer) := do
  let (written, buffers) ← order.foldlM (fun (s : List (ℤ × α) × Buffer × Buffer) i => do
    let (components, buffers) ← row s.2 i
    let new ← writes i components
    some (s.1 ++ new, buffers)) ([], buffers)
  let out ← fill size written
  some (out, buffers)

def writePolyCount (i : ℕ) (components : List (List NativeGeoPoint)) : Option (List (ℤ × ℕ)) :=
  some [((i : ℤ), components.length)]

def writePointCount (polyIdx : List ℕ) (i : ℕ) (components : List (List NativeGeoPoint)) : Option (List (ℤ × ℕ)) := do
  let first ← startAt polyIdx i
  some (place first (components.map List.length))

def writePolyPoints (polyIdx pointIdx : List ℕ) (i : ℕ) (components : List (List NativeGeoPoint)) :
    Option (List (ℤ × NativeGeoPoint)) := do
  let first ← startAt polyIdx i
  let written ← (List.range components.length).mapM fun k => do
    let start ← startAt pointIdx (first + k)
    some (place start (components.getD k []))
  some written.flatten

/-- the launches of clip that go over the rows -/
inductive Launch where
  | sizes
  | buildA
  | buildB
  | crosslink
  | labelA
  | labelB
  | polyIdx
  | pointIdx
  | polyPoints

/-- the orders of the launches up to the labels -/
def listOrders {α : Type} (order : Launch → α) : Fin 5 → α :=
  ![order .buildA, order .buildB, order .crosslink, order .labelA, order .labelB]

/-- the three passes of clip; null pointers are empty lists -/
def passes (row : Buffer × Buffer → ℕ → Option (List (List NativeGeoPoint) × Buffer × Buffer)) (dataElementCount : ℕ)
    (order : Launch → List ℕ) (buffers : Buffer × Buffer) : Option (GPUPolygon NativeGeoPoint) := do
  let (polyCount, buffers) ← pass row dataElementCount writePolyCount (order .polyIdx) buffers
  let polyIdx := inclusiveSum polyCount
  let pointIdxSize ← polyIdx[dataElementCount - 1]?
  if pointIdxSize = 0 then some ⟨[], [], polyIdx⟩
  else do
    let (pointCount, buffers) ← pass row pointIdxSize (writePointCount polyIdx) (order .pointIdx) buffers
    let pointIdx := inclusiveSum pointCount
    let polyPointsSize ← pointIdx[pointIdxSize - 1]?
    let (polyPoints, _) ← pass row polyPointsSize (writePolyPoints polyIdx pointIdx) (order .polyPoints) buffers
    some ⟨polyPoints, pointIdx, polyIdx⟩

def clip (turnTable : Bool → Bool) (polygonA polygonB : GPUPolygon NativeGeoPoint)
    (dataElementCountA dataElementCountB : ℕ)
    (order : Launch → List ℕ) (buffers : Buffer × Buffer) : Option (GPUPolygon NativeGeoPoint) := do
  let dataElementCount := max dataElementCountA dataElementCountB
  let isAConst := decide (dataElementCountA = 1)
  let isBConst := decide (dataElementCountB = 1)
  let flags ← presenceFlags polygonA polygonB dataElementCountA dataElementCountB (order .sizes)
  let (prefixSumA, prefixSumB, buffers) ← labelLists polygonA polygonB (fun p => flags.1.getD p false)
    (fun p => flags.2.getD p false) isAConst isBConst dataElementCount (listOrders order) buffers
  passes (clipRow turnTable polygonA polygonB prefixSumA prefixSumB flags isAConst isBConst dataElementCount)
    dataElementCount order buffers

/-! ## What a row has -/

/-- the sub-polygons of a row that are taken over -/
def wholeOf (isCrossed : ℕ → Bool) (turn : Bool) (row other : List (List NativeGeoPoint)) :
    List (List NativeGeoPoint) :=
  ((List.range row.length).filter fun j =>
    !isCrossed j && (row.getD j []).head?.any fun first => isInside first other == turn).map fun j => row.getD j []

theorem foldl_taken {α β : Type} (p : α → Bool) (f : α → β) (l : List α) (taken : List β) :
    l.foldl (fun taken x => if p x then taken ++ [f x] else taken) taken = taken ++ (l.filter p).map f := by
  induction l generalizing taken with
  | nil => simp
  | cons x l ih =>
    rw [List.foldl_cons, ih, List.filter_cons]
    cases p x <;> simp

/-- the points of a sub-polygon -/
theorem points_ofRows {rows : List (List (List NativeGeoPoint))} {i j : ℕ} (hi : i < rows.length)
    (hj : j < rows[i].length) :
    (List.range' (offset rows.flatten (offset rows i + j)) rows[i][j].length).mapM
      (fun point => (ofRows rows).polyPoints[point]?) = some rows[i][j] := by
  have hlt := (Nat.add_lt_add_left hj _).trans_le (window_le hi)
  have hget := getElem?_flatten hi hj
  rw [List.getElem?_eq_getElem hlt, List.getElem?_eq_getElem hj, Option.some.injEq] at hget
  have hwindow := mapM_window hlt
  rwa [hget] at hwindow

/-- **Which sub-polygons are taken over**: those that are not crossed and whose first vertex is on the right side. -/
theorem wholePolygons_ofRows {rows others : List (List (List NativeGeoPoint))} {isConst isOtherConst : Bool} (count : ℕ)
    {i : ℕ} (hi : rowOf isConst i < rows.length) (hi' : rowOf isOtherConst i < others.length) (flags : List Bool)
    (isCrossed : ℕ → Bool) (hpoints : ∀ polygon ∈ rows[rowOf isConst i], polygon ≠ [])
    (hflags : ∀ j < rows[rowOf isConst i].length,
      flags[flagIdx isConst count i (offset rows (rowOf isConst i) + j)]? = some (isCrossed j)) (turn : Bool) :
    wholePolygons (ofRows rows) (ofRows others) flags isConst isOtherConst count turn i =
      some (wholeOf isCrossed turn rows[rowOf isConst i] others[rowOf isOtherConst i]) := by
  rw [wholePolygons, polyIdxAt_ofRows hi.le, polyCountAt_ofRows hi]
  simp only [Option.bind_eq_bind, Option.bind_some]
  have htaken := foldl_taken (fun j => !isCrossed j && (rows[rowOf isConst i].getD j []).head?.any fun first =>
    isInside first others[rowOf isOtherConst i] == turn) (fun j => rows[rowOf isConst i].getD j [])
    (List.range rows[rowOf isConst i].length) []
  rw [List.nil_append] at htaken
  rw [wholeOf, ← htaken, ← foldlM_some]
  refine foldlM_range_eq _ (fun j hj components => ?_) _
  have hholds := holds_ofRows hi hj
  have hget : rows[rowOf isConst i].getD j [] = rows[rowOf isConst i][j] := List.getD_eq_getElem _ _ hj
  have hpos : 0 < rows[rowOf isConst i][j].length := List.length_pos_iff.2 (hpoints _ (List.getElem_mem hj))
  have hfirst := hholds.point 0 hpos
  rw [Nat.add_zero] at hfirst
  have hhead : rows[rowOf isConst i][j].head? = some rows[rowOf isConst i][j][0] := by
    rw [List.head?_eq_getElem?, List.getElem?_eq_getElem hpos]
  rw [hholds.begin, hholds.count, Option.bind_some, Option.bind_some, hflags j hj, Option.bind_some, hfirst,
    Option.bind_some,
    isPointIn_ofRows hi', Option.bind_some, points_ofRows hi hj, hget, hhead, Option.any_some]
  cases isCrossed j with
  | true => rfl
  | false =>
    cases isInside rows[rowOf isConst i][j][0] others[rowOf isOtherConst i] <;> cases turn <;> simp

/-! ## Passes -/

/-- **A pass** over rows that leave the lists as they were. -/
theorem pass_eq {α : Type} {row : Buffer × Buffer → ℕ → Option (List (List NativeGeoPoint) × Buffer × Buffer)}
    {components : ℕ → List (List NativeGeoPoint)} {buffers : Buffer × Buffer} {order : List ℕ}
    (h : ∀ i ∈ order, row buffers i = some (components i, buffers)) (size : ℕ)
    (writes : ℕ → List (List NativeGeoPoint) → Option (List (ℤ × α))) :
    pass row size writes order buffers =
      (kernel size order fun i => writes i (components i)).map fun out => (out, buffers) := by
  have hfold : ∀ written : List (ℤ × α), order.foldlM (fun (s : List (ℤ × α) × Buffer × Buffer) i => do
      let (components, buffers) ← row s.2 i
      let new ← writes i components
      some (s.1 ++ new, buffers)) (written, buffers) =
        (order.mapM fun i => writes i (components i)).map fun ws => (written ++ ws.flatten, buffers) := by
    induction order with
    | nil => simp
    | cons i order ih =>
      intro written
      rw [List.foldlM_cons, List.mapM_cons, h i List.mem_cons_self]
      simp only [Option.bind_eq_bind, Option.bind_some]
      cases writes i (components i) with
      | none => rfl
      | some new =>
        have hrest := ih (fun k hk => h k (List.mem_cons_of_mem i hk)) (written ++ new)
        simp only [Option.bind_eq_bind] at hrest
        rw [Option.bind_some, Option.bind_some, hrest]
        cases order.mapM fun i => writes i (components i) <;> simp
  rw [pass, hfold, kernel]
  cases order.mapM fun i => writes i (components i) with
  | none => rfl
  | some ws =>
    simp only [Option.map_some, Option.bind_eq_bind, Option.bind_some, List.nil_append]
    cases fill size ws.flatten <;> rfl

/-! ## The column -/

section Column

variable {rows : List (List (List NativeGeoPoint))} {order : List ℕ}

theorem polyCount_kernel (horder : order.Perm (List.range rows.length)) :
    kernel rows.length order (fun i => writePolyCount i (rows.getD i [])) = some (rows.map List.length) := by
  have hlen : (rows.map List.length).length = rows.length := List.length_map _
  have hker := @kernel_values _ (rows.map List.length) order (by rwa [hlen])
    (fun i => writePolyCount i (rows.getD i [])) fun i hi => by
      rw [hlen] at hi
      rw [writePolyCount, List.getD_eq_getElem _ _ hi, List.getElem_map]
  rwa [hlen] at hker

theorem pointCount_kernel (horder : order.Perm (List.range rows.length)) :
    kernel rows.flatten.length order (fun i => writePointCount (ofRows rows).polyIdx i (rows.getD i [])) =
      some (rows.flatten.map List.length) := by
  have hlen : (rows.map (List.map List.length)).length = rows.length := List.length_map _
  rw [List.map_flatten]
  refine kernel_eq (by rwa [hlen]) (by rw [← List.map_flatten, List.length_map]) fun i hi => ?_
  rw [hlen] at hi
  have hoffset : offset (rows.map (List.map List.length)) i = offset rows i := by
    simp only [offset_eq, List.map_map, Function.comp_def, List.length_map]
  have hstart : startAt (ofRows rows).polyIdx i = some (offset rows i) := polyIdxAt_ofRows hi.le
  refine ⟨_, by rw [writePointCount, hstart]; rfl, ?_⟩
  rw [hoffset, List.getD_eq_getElem _ _ hi, List.getD_eq_getElem _ _ (by rwa [hlen]), List.getElem_map]

theorem polyPoints_kernel (horder : order.Perm (List.range rows.length)) :
    kernel rows.flatten.flatten.length order
        (fun i => writePolyPoints (ofRows rows).polyIdx (ofRows rows).pointIdx i (rows.getD i [])) =
      some rows.flatten.flatten := by
  have hlen : (rows.map List.flatten).length = rows.length := List.length_map _
  rw [List.flatten_flatten]
  refine kernel_eq (by rwa [hlen]) rfl fun i hi => ?_
  rw [hlen] at hi
  have hstart : startAt (ofRows rows).polyIdx i = some (offset rows i) := polyIdxAt_ofRows hi.le
  have hwrites : writePolyPoints (ofRows rows).polyIdx (ofRows rows).pointIdx i rows[i] =
      some ((List.range rows[i].length).map fun k =>
        place ((offset rows.flatten (offset rows i) + offset rows[i] k : ℕ) : ℤ) (rows[i].getD k [])).flatten := by
    rw [writePolyPoints, hstart]
    simp only [Option.bind_eq_bind, Option.bind_some]
    rw [Traverse.mapM_some fun k hk => ?_, Option.bind_some]
    have hk := List.mem_range.1 hk
    have hwindow := window_le hi
    have hread : startAt (ofRows rows).pointIdx (offset rows i + k) = some (offset rows.flatten (offset rows i + k)) :=
      pointIdxAt_ofRows (by omega)
    rw [hread, ← offset_flatten_add hi hk.le]
    rfl
  rw [List.getD_eq_getElem _ _ hi]
  refine ⟨_, hwrites, ?_⟩
  rw [offset_flatten, List.getD_eq_getElem _ _ (by rwa [hlen]), List.getElem_map, ← flatMap_place, List.flatMap_def]

end Column

/-- **The three passes give the column** of the rows' components, when every row leaves the lists as they were. -/
theorem passes_ofRows {rows : List (List (List NativeGeoPoint))} (hne : rows ≠ [])
    {row : Buffer × Buffer → ℕ → Option (List (List NativeGeoPoint) × Buffer × Buffer)} (buffers : Buffer × Buffer)
    (h : ∀ i < rows.length, row buffers i = some (rows.getD i [], buffers)) (order : Launch → List ℕ)
    (horder : ∀ launch, (order launch).Perm (List.range rows.length)) :
    passes row rows.length order buffers = some (ofRows rows) := by
  have hpass : ∀ launch, ∀ i ∈ order launch, row buffers i = some (rows.getD i [], buffers) := fun launch i hi =>
    h i (List.mem_range.1 ((horder launch).mem_iff.1 hi))
  have hlast : (inclusiveSum (rows.map List.length))[rows.length - 1]? = some rows.flatten.length := by
    have hsum := last_inclusiveSum (l := rows.map List.length) (by simpa using hne)
    rwa [List.length_map, ← List.length_flatten] at hsum
  rw [passes, pass_eq (hpass .polyIdx), polyCount_kernel (horder .polyIdx)]
  simp only [Option.map_some, Option.bind_eq_bind, Option.bind_some]
  rw [hlast, Option.bind_some]
  split_ifs with hzero
  · rw [List.length_eq_zero_iff] at hzero
    rw [ofRows, hzero]
    rfl
  · have hlastPoint : (inclusiveSum (rows.flatten.map List.length))[rows.flatten.length - 1]? =
        some rows.flatten.flatten.length := by
      have hsum := last_inclusiveSum (l := rows.flatten.map List.length) (by
        rw [Ne, List.map_eq_nil_iff, ← List.length_eq_zero_iff]
        exact hzero)
      rwa [List.length_map, ← List.length_flatten] at hsum
    rw [pass_eq (hpass .pointIdx)]
    have hcount : kernel rows.flatten.length (order .pointIdx) (fun i =>
        writePointCount (inclusiveSum (rows.map List.length)) i (rows.getD i [])) = _ :=
      pointCount_kernel (horder .pointIdx)
    rw [hcount]
    simp only [Option.map_some, Option.bind_some]
    rw [hlastPoint, Option.bind_some, pass_eq (hpass .polyPoints)]
    have hpoints : kernel rows.flatten.flatten.length (order .polyPoints) (fun i =>
        writePolyPoints (inclusiveSum (rows.map List.length)) (inclusiveSum (rows.flatten.map List.length)) i
          (rows.getD i [])) = _ := polyPoints_kernel (horder .polyPoints)
    rw [hpoints]
    rfl

/-! ## clip -/

/-- what row `i` of the result has: the sub-polygons of A and of B that are taken over, and the loops along the two
lists -/
def Clipped (turnTable : Bool → Bool) (c : Columns) (a b : Buffer) (i : ℕ) (components : List (List NativeGeoPoint)) :
    Prop :=
  ∃ loops, Traced turnTable (c.starts i) (c.pointCounts i) (c.crossings i).length (both a b) loops ∧
    components = wholeOf (crossed Prod.fst (c.crossings i) (c.rowA i)) (turnTable false) (c.rowA i) (c.rowB i) ++
      wholeOf (crossed Prod.snd (c.crossings i) (c.rowB i)) (turnTable true) (c.rowB i) (c.rowA i) ++
      loops.map fun legs => legs.flatMap (Leg.points (c.starts i) (c.pointCounts i) (both a b))

/-- one row of clip_polygons -/
theorem clipRow_clipped {o : Operands} (hrows : o.rowsA.length = o.rowsB.length) (hpoints : o.columns.HavePoints)
    (turnTable : Bool → Bool) {a b : Buffer} {flags : List Bool × List Bool} (hflags : o.FlagsOf flags) {i : ℕ}
    (h : o.columns.RowLabelled a b i) (hi : i < o.columns.count) (heven : o.columns.EvenRow i) :
    ∃ components, clipRow turnTable (ofRows o.rowsA) (ofRows o.rowsB)
        (inclusiveSum ((List.range o.columns.count).map o.columns.sizeA))
        (inclusiveSum ((List.range o.columns.count).map o.columns.sizeB)) flags (decide (o.rowsA.length = 1))
        (decide (o.rowsB.length = 1)) o.columns.count (a, b) i = some (components, a, b) ∧
      Clipped turnTable o.columns a b i components := by
  obtain ⟨loops, htrace, htraced⟩ := Columns.traceRow_traced turnTable h hpoints hi heven
  have hcount := Operands.count_columns hrows
  have hexistsA : rowOf (decide (o.rowsA.length = 1)) i < o.rowsA.length := o.columns.existsA i hi
  have hexistsB : rowOf (decide (o.rowsB.length = 1)) i < o.rowsB.length := o.columns.existsB i hi
  have hrowA : o.rowsA[rowOf (decide (o.rowsA.length = 1)) i] = o.columns.rowA i :=
    Columns.rowA_eq (c := o.columns) hexistsA
  have hrowB : o.rowsB[rowOf (decide (o.rowsB.length = 1)) i] = o.columns.rowB i :=
    Columns.rowB_eq (c := o.columns) hexistsB
  have hwholeA := wholePolygons_ofRows o.columns.count hexistsA hexistsB flags.1
      (crossed Prod.fst (o.columns.crossings i) (o.columns.rowA i)) (by rw [hrowA]; exact hpoints.a i hi)
        (fun j hj => by
    rw [Operands.flagIdx_columns hcount hi]
    rw [hrowA] at hj
    exact hflags.a i hi j hj) (turnTable false)
  have hwholeB := wholePolygons_ofRows o.columns.count hexistsB hexistsA flags.2
      (crossed Prod.snd (o.columns.crossings i) (o.columns.rowB i)) (by rw [hrowB]; exact hpoints.b i hi)
        (fun j hj => by
    rw [Operands.flagIdx_columns (hcount.trans hrows) hi]
    rw [hrowB] at hj
    exact hflags.b i hi j hj) (turnTable true)
  rw [hrowA, hrowB] at hwholeA hwholeB
  have htrace : traceRow turnTable (ofRows o.rowsA) (ofRows o.rowsB) _ _ (decide (o.rowsA.length = 1))
    (decide (o.rowsB.length = 1)) (a, b) i = _ := htrace
  refine ⟨_, ?_, loops, htraced, rfl⟩
  rw [clipRow, hwholeA, hwholeB, Option.bind_eq_bind, Option.bind_some, Option.bind_eq_bind, Option.bind_some, htrace]
  rfl

/-- two squares that cross twice, in columns of one row -/
def squareColumns : Operands where
  rowsA := squares.rowsA
  rowsB := squares.rowsB
  nonemptyA := Nat.one_pos
  nonemptyB := Nat.one_pos
  fit := .inl rfl

-- the square in which the two squares overlap, and what both of them cover
example : clip polyIntersect (ofRows squares.rowsA) (ofRows squares.rowsB) 1 1 (fun _ => [0])
    ⟨fun _ => default, fun _ => default⟩ = some (ofRows [[[⟨2, 1⟩, ⟨2, 2⟩, ⟨1, 2⟩, ⟨1, 1⟩]]]) := by decide +kernel

example : clip polyUnion (ofRows squares.rowsA) (ofRows squares.rowsB) 1 1 (fun _ => [0])
    ⟨fun _ => default, fun _ => default⟩ =
      some (ofRows [[[⟨2, 1⟩, ⟨2, 0⟩, ⟨0, 0⟩, ⟨0, 2⟩, ⟨1, 2⟩, ⟨1, 3⟩, ⟨3, 3⟩, ⟨3, 1⟩]]]) := by decide +kernel

end QikkDB.PolygonClipping

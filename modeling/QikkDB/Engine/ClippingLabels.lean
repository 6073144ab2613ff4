/-
The labels of the intersections (GPUPolygonClipping.cu, `is_point_in_complex_polygon_at`, `kernel_label_intersections`).

Along the ring of a sub-polygon the intersections are labelled entry and exit in turn. A walk from an intersection to
the next one comes to the other label if the ring has an even number of intersections.

- sub-polygons have points; without one the loop would start at a node of the next sub-polygon.

Results:
- `labelLoop_ring`: the loop ends behind one round and labels in turn.
- `labels_alternate`: all rows of both polygons, in any order.
-/
import Mathlib.Tactic
import QikkDB.Engine.ClippingLists

namespace QikkDB.PolygonClipping

open Loops PrefixSum PolygonColumn Rings

/-! ## Points in polygons -/

/-- the ray from a point crosses an edge -/
def rayCrosses (geoPoint first last : NativeGeoPoint) : Bool :=
  (decide (first.longitude > geoPoint.longitude) != decide (last.longitude > geoPoint.longitude)) &&
    decide (geoPoint.latitude < (last.latitude - first.latitude) * (geoPoint.longitude - first.longitude) /
      (last.longitude - first.longitude) + first.latitude)

def isPointInComplexPolygonAt (geoPoint : NativeGeoPoint) (polygon : GPUPolygon NativeGeoPoint) (idx : ℕ) :
    Option Bool := do
  let polyIdx ← polygon.polyIdxAt idx
  let polyCount ← polygon.polyCountAt idx
  (List.range' polyIdx polyCount).foldlM (fun isPointInPolygon p => do
    let pointIdx ← polygon.pointIdxAt p
    let pointCount ← polygon.pointCountAt p
    (List.range' pointIdx pointCount).foldlM (fun isPointInPolygon point => do
      let first ← polygon.polyPoints[point]?
      let last ← polygon.polyPoints[pointIdx + (point - pointIdx + 1) % pointCount]?
      some (if rayCrosses geoPoint first last then !isPointInPolygon else isPointInPolygon)) isPointInPolygon) false

/-- the point is inside: its ray crosses an odd number of edges -/
def isInside (geoPoint : NativeGeoPoint) (row : List (List NativeGeoPoint)) : Bool :=
  (rowEdges row).flatten.foldl (fun inside e => if rayCrosses geoPoint e.first e.last then !inside else inside) false

theorem isPointIn_ofRows {rows : List (List (List NativeGeoPoint))} {i : ℕ} (hi : i < rows.length)
    (geoPoint : NativeGeoPoint) :
    isPointInComplexPolygonAt geoPoint (ofRows rows) i = some (isInside geoPoint rows[i]) := by
  have hflat := foldlM_flatMap (f := id)
    (g := fun inside (e : Edge) => some (if rayCrosses geoPoint e.first e.last then !inside else inside))
      (rowEdges rows[i])
    false
  rw [List.flatMap_id, foldlM_some] at hflat
  rw [isInside, hflat, isPointInComplexPolygonAt, polyIdxAt_ofRows hi.le, polyCountAt_ofRows hi]
  simp only [Option.bind_eq_bind, Option.bind_some]
  conv_lhs => rw [← length_rowEdges rows[i]]
  refine foldlM_range' _ (fun j es hes inside => ?_) false
  have hj := (List.getElem?_eq_some_iff.1 hes).1
  rw [length_rowEdges] at hj
  rw [getElem?_rowEdges hj, Option.some.injEq] at hes
  have hholds := holds_ofRows hi hj
  rw [hholds.begin, hholds.count, Option.bind_some, Option.bind_some, ← hes]
  conv_lhs => rw [← length_ringEdges (offset rows[i] j) rows[i][j]]
  refine foldlM_range' _ (fun k e he inside => ?_) inside
  have hk := (List.getElem?_eq_some_iff.1 he).1
  rw [length_ringEdges] at hk
  have hnext : (k + 1) % rows[i][j].length < rows[i][j].length := Nat.mod_lt _ (Nat.zero_lt_of_lt hk)
  rw [getElem?_ringEdges hk hnext, Option.some.injEq] at he
  rw [length_ringEdges, hholds.point k hk, Nat.add_sub_cancel_left, hholds.point _ hnext, Option.bind_some,
    Option.bind_some,
    ← he]

/-! ## Labels -/

def setIsEntry (buffer : Buffer) (i : ℕ) (flag : Bool) : Buffer :=
  Function.update buffer i { buffer i with isEntry := flag }

/-- do { label an intersection; go to the next node } while (it is not the first one) -/
def labelLoop (begIdx : ℕ) : ℕ → ℕ → Bool → Buffer → Option Buffer
  | 0, _, _, _ => none
  | fuel + 1, nextIdx, isPointInPolygon, buffer => do
    let (buffer, isPointInPolygon) :=
      if (buffer nextIdx).isIntersection then (setIsEntry buffer nextIdx isPointInPolygon, !isPointInPolygon)
      else (buffer, isPointInPolygon)
    let nextIdx ← (buffer nextIdx).nextIdx
    if nextIdx = begIdx then some buffer else labelLoop begIdx fuel nextIdx isPointInPolygon buffer

/-- one row of kernel_label_intersections; no ring has more nodes than there are in front of the end of the row -/
def labelIntersections (polygonPrimary polygonSecondary : GPUPolygon NativeGeoPoint) (prefixSum : List ℕ)
    (isPrimaryConst isSecondaryConst : Bool) (buffer : Buffer) (i : ℕ) : Option Buffer := do
  let offset ← startAt prefixSum i
  let fuel ← prefixSum[i]?
  let polyIdx ← polygonPrimary.polyIdxAt (rowOf isPrimaryConst i)
  let polyCount ← polygonPrimary.polyCountAt (rowOf isPrimaryConst i)
  (List.range' polyIdx polyCount).foldlM (fun buffer p => do
    let pointIdx ← polygonPrimary.pointIdxAt p
    let firstIdx ← polygonPrimary.pointIdxAt polyIdx
    let begIdx := offset + (pointIdx - firstIdx)
    let inside ← isPointInComplexPolygonAt (buffer begIdx).vertex polygonSecondary (rowOf isSecondaryConst i)
    labelLoop begIdx (fuel + 1) begIdx (!inside) buffer) buffer

/-- clip, up to the labels -/
def labelLists (polygonA polygonB : GPUPolygon NativeGeoPoint) (flagsA flagsB : ℕ → Bool) (isAConst isBConst : Bool)
    (dataElementCount : ℕ) (orders : Fin 5 → List ℕ) (buffers : Buffer × Buffer) :
    Option (List ℕ × List ℕ × Buffer × Buffer) := do
  let (prefixSumA, prefixSumB, a, b) ← buildLists polygonA polygonB flagsA flagsB isAConst isBConst dataElementCount
    (orders 0) (orders 1) (orders 2) buffers
  let a ← (orders 3).foldlM (labelIntersections polygonA polygonB prefixSumA isAConst isBConst) a
  let b ← (orders 4).foldlM (labelIntersections polygonB polygonA prefixSumB isBConst isAConst) b
  some (prefixSumA, prefixSumB, a, b)

/-- the labels of the intersections of a list of nodes, in turn -/
def labelled : Bool → List ℕ → Buffer → Buffer
  | _, [], buffer => buffer
  | b, x :: l, buffer =>
    if (buffer x).isIntersection then labelled (!b) l (setIsEntry buffer x b) else labelled b l buffer

/-- a node but for its label -/
def unlabelled (v : LLPolyVertex) : LLPolyVertex := { v with isEntry := false }

theorem unlabelled_setIsEntry (buffer : Buffer) (x : ℕ) (b : Bool) (i : ℕ) :
    unlabelled (setIsEntry buffer x b i) = unlabelled (buffer i) := by
  by_cases h : i = x
  · rw [h, setIsEntry, Function.update_self]
    rfl
  · rw [setIsEntry, Function.update_of_ne h]

theorem unlabelled_labelled (b : Bool) (l : List ℕ) (buffer : Buffer) (i : ℕ) :
    unlabelled (labelled b l buffer i) = unlabelled (buffer i) := by
  induction l generalizing b buffer with
  | nil => rfl
  | cons x l ih =>
    rw [labelled]
    split_ifs
    · rw [ih, unlabelled_setIsEntry]
    · exact ih b buffer

theorem labelled_of_notMem {b : Bool} {l : List ℕ} {i : ℕ} (h : i ∉ l) (buffer : Buffer) :
    labelled b l buffer i = buffer i := by
  induction l generalizing b buffer with
  | nil => rfl
  | cons x l ih =>
    rw [List.mem_cons, not_or] at h
    rw [labelled]
    split_ifs
    · rw [ih h.2, setIsEntry, Function.update_of_ne h.1]
    · exact ih h.2 buffer

/-- buffers that differ in labels only -/
def SameList (buffer buffer' : Buffer) : Prop := ∀ i, unlabelled (buffer' i) = unlabelled (buffer i)

theorem SameList.links {buffer buffer' : Buffer} (h : SameList buffer buffer') :
    links buffer' = PolygonClipping.links buffer := by
  have hnext : ∀ i, (buffer' i).nextIdx = (buffer i).nextIdx := fun i => congrArg (·.nextIdx) (h i)
  have hprev : ∀ i, (buffer' i).prevIdx = (buffer i).prevIdx := fun i => congrArg (·.prevIdx) (h i)
  simp only [PolygonClipping.links, hnext, hprev]

theorem SameList.isIntersection {buffer buffer' : Buffer} (h : SameList buffer buffer') (i : ℕ) :
    (buffer' i).isIntersection = (buffer i).isIntersection :=
  congrArg (·.isIntersection) (h i)

/-- the intersections of a list with different nodes are labelled in turn -/
theorem alternate_labelled {l : List ℕ} (hnodup : l.Nodup) (b : Bool) (buffer : Buffer) :
    Links.Alternate (fun i => (buffer i).isIntersection) (fun i => (labelled b l buffer i).isEntry) b l := by
  induction l generalizing b buffer with
  | nil => trivial
  | cons x l ih =>
    obtain ⟨hx, hl⟩ := List.nodup_cons.1 hnodup
    rw [Links.Alternate, labelled]
    split_ifs with hmark
    · have hsame : ∀ i, (setIsEntry buffer x b i).isIntersection = (buffer i).isIntersection := fun i =>
        congrArg (·.isIntersection) (unlabelled_setIsEntry buffer x b i)
      have hrest := ih hl (!b) (setIsEntry buffer x b)
      simp only [hsame] at hrest
      refine ⟨?_, hrest⟩
      rw [labelled_of_notMem hx, setIsEntry, Function.update_self]
    · exact ih hl b buffer

/-- **The loop labels a ring** and ends behind one round. -/
theorem labelLoop_ring {begIdx : ℕ} {l : List ℕ} {buffer : Buffer} (hring : (links buffer).Ring (begIdx :: l))
    (hnodup : (begIdx :: l).Nodup) {fuel : ℕ} (hfuel : l.length < fuel) (b : Bool) :
    labelLoop begIdx fuel begIdx b buffer = some (labelled b (begIdx :: l) buffer) := by
  have hloop : ∀ (x : ℕ) (l : List ℕ) (buffer : Buffer) (b : Bool) (fuel : ℕ),
    (links buffer).Path (x :: l ++ [begIdx]) →
      begIdx ∉ l → l.length < fuel → labelLoop begIdx fuel x b buffer = some (labelled b (x :: l) buffer) := by
    intro x l
    induction l generalizing x with
    | nil =>
      intro buffer b fuel hpath _ hfuel
      obtain ⟨fuel, rfl⟩ : ∃ k, fuel = k + 1 := ⟨fuel - 1, by omega⟩
      have hnext : ∀ flag, (setIsEntry buffer x flag x).nextIdx = some begIdx := fun flag =>
        (congrArg (·.nextIdx) (unlabelled_setIsEntry buffer x flag x)).trans (List.isChain_cons_cons.1 hpath).1.1
      rw [labelLoop, labelled]
      split_ifs
      · simp only [hnext, Option.bind_eq_bind, Option.bind_some, if_true]
        rfl
      · simp only [show (buffer x).nextIdx = some begIdx from (List.isChain_cons_cons.1 hpath).1.1, Option.bind_eq_bind,
          Option.bind_some, if_true]
        rfl
    | cons y l ih =>
      intro buffer b fuel hpath hbeg hfuel
      obtain ⟨fuel, rfl⟩ : ∃ k, fuel = k + 1 := ⟨fuel - 1, by omega⟩
      obtain ⟨hlink, hrest⟩ := List.isChain_cons_cons.1 hpath
      rw [List.mem_cons, not_or] at hbeg
      have hnext : ∀ flag, (setIsEntry buffer x flag x).nextIdx = some y := fun flag =>
        (congrArg (·.nextIdx) (unlabelled_setIsEntry buffer x flag x)).trans hlink.1
      have hstep : l.length < fuel := by simpa using hfuel
      rw [labelLoop, labelled]
      split_ifs with hmark
      · simp only [hnext, Option.bind_eq_bind, Option.bind_some, if_neg (Ne.symm hbeg.1)]
        have hsame : SameList buffer (setIsEntry buffer x b) := unlabelled_setIsEntry buffer x b
        exact ih y _ _ _ (by rw [hsame.links]; exact hrest) hbeg.2 hstep
      · simp only [show (buffer x).nextIdx = some y from hlink.1, Option.bind_eq_bind, Option.bind_some,
          if_neg (Ne.symm hbeg.1)]
        exact ih y _ _ _ hrest hbeg.2 hstep
  exact hloop begIdx l buffer b fuel hring (List.nodup_cons.1 hnodup).1 hfuel

/-! ## The nodes of a row -/

/-- the node stands behind vertex `k` on the ring of its sub-polygon, or is it -/
def Owner (start n : ℕ) (cs : List ℕ) (x k : ℕ) : Prop :=
  (k < n ∧ x = start + k) ∨ ∃ j, cs[j]? = some k ∧ x = start + n + j

theorem owner_unique {start n x k k' : ℕ} {cs : List ℕ} (h : Owner start n cs x k) (h' : Owner start n cs x k') : k =
    k' := by
  rcases h with ⟨hk, rfl⟩ | ⟨j, hj, rfl⟩ <;> rcases h' with ⟨hk', heq⟩ | ⟨j', hj', heq⟩
  · omega
  · omega
  · omega
  · obtain rfl : j = j' := by omega
    exact Option.some.inj (hj.symm.trans hj')

section Nodes

variable {distance : LLPolyVertex → ℚ} {start cross : ℕ} {row : List (List NativeGeoPoint)} {edge : Edge × Edge → Edge}
  {cs : List (Edge × Edge)} {buffer : Buffer} {chain : ℕ → List ℕ}

/-- the edges of the intersections by their first vertex -/
def edgesOf (edge : Edge × Edge → Edge) (cs : List (Edge × Edge)) : List ℕ := cs.map fun e => (edge e).begIdx

theorem ClippingList.chain_perm (h : ClippingList distance start row edge cross cs buffer chain) {j k : ℕ}
    (hj : j < row.length) (hk : k < row[j].length) :
    (chain (offset row j + k)).Perm (nodesOn (start + row.flatten.length) (edgesOf edge cs) (offset row j + k)) := by
  obtain ⟨e, he, hbeg, -⟩ := exists_edge hj hk
  rw [← hbeg]
  exact h.nodes e he

theorem ClippingList.owner (h : ClippingList distance start row edge cross cs buffer chain) {j x : ℕ}
    (hj : j < row.length) :
    x ∈ ringNodes start chain (offset row j) row[j].length ↔
      ∃ k < row[j].length, Owner start row.flatten.length (edgesOf edge cs) x (offset row j + k) := by
  have hwindow := window_le hj
  simp only [ringNodes, List.mem_flatMap, List.mem_range'_1, List.mem_cons]
  constructor
  · rintro ⟨b, ⟨hb, hb'⟩, hx⟩
    obtain ⟨k, rfl⟩ := Nat.exists_eq_add_of_le hb
    refine ⟨k, by omega, ?_⟩
    rcases hx with rfl | hx
    · exact .inl ⟨by omega, rfl⟩
    · exact .inr (mem_nodesOn.1 ((h.chain_perm hj (by omega)).mem_iff.1 hx))
  · rintro ⟨k, hk, ⟨-, rfl⟩ | hx⟩
    · exact ⟨_, ⟨Nat.le_add_right _ _, by omega⟩, .inl rfl⟩
    · exact ⟨_, ⟨Nat.le_add_right _ _, by omega⟩, .inr ((h.chain_perm hj hk).mem_iff.2 (mem_nodesOn.2 hx))⟩

/-- a node of a ring comes once -/
theorem ClippingList.nodup (h : ClippingList distance start row edge cross cs buffer chain) {j : ℕ}
    (hj : j < row.length) :
    (ringNodes start chain (offset row j) row[j].length).Nodup := by
  have hwindow := window_le hj
  have howner : ∀ b, offset row j ≤ b → b < offset row j + row[j].length → ∀ x ∈ (start + b) :: chain b,
      Owner start row.flatten.length (edgesOf edge cs) x b := fun b hb hb' x hx => by
    obtain ⟨k, rfl⟩ := Nat.exists_eq_add_of_le hb
    rcases List.mem_cons.1 hx with rfl | hx
    · exact .inl ⟨by omega, rfl⟩
    · exact .inr (mem_nodesOn.1 ((h.chain_perm hj (by omega)).mem_iff.1 hx))
  refine List.nodup_flatMap.2 ⟨fun b hb => ?_, (List.nodup_range' (s := offset row j) (n := row[j].length)).imp_of_mem
    fun {b b'} hb hb' hne => ?_⟩
  · rw [List.mem_range'_1] at hb
    obtain ⟨k, rfl⟩ := Nat.exists_eq_add_of_le hb.1
    have hperm := h.chain_perm hj (k := k) (by omega)
    refine List.nodup_cons.2 ⟨fun hx => ?_, hperm.nodup_iff.2 (nodup_nodesOn _ _ _)⟩
    obtain ⟨i, -, hi⟩ := mem_nodesOn.1 (hperm.mem_iff.1 hx)
    omega
  · rw [List.mem_range'_1] at hb hb'
    intro x hx hx'
    exact hne (owner_unique (howner b hb.1 hb.2 x hx) (howner b' hb'.1 hb'.2 x hx'))

/-- the rings have no node in common -/
theorem ClippingList.disjoint (h : ClippingList distance start row edge cross cs buffer chain) {j j' x : ℕ}
    (hj : j < row.length) (hj' : j' < row.length) (hne : j ≠ j')
    (hx : x ∈ ringNodes start chain (offset row j) row[j].length) :
    x ∉ ringNodes start chain (offset row j') row[j'].length := by
  intro hx'
  obtain ⟨k, hk, howner⟩ := (h.owner hj).1 hx
  obtain ⟨k', hk', howner'⟩ := (h.owner hj').1 hx'
  exact hne (place_inj hj hj' hk hk' (owner_unique howner howner'))

theorem owner_range {n : ℕ} {l : List ℕ} {x k : ℕ} (h : Owner start n l x k) : start ≤ x ∧
    x < start + (n + l.length) := by
  rcases h with ⟨hk, rfl⟩ | ⟨j, hj, rfl⟩
  · omega
  · have := (List.getElem?_eq_some_iff.1 hj).1
    omega

/-- a ring is no longer than the row's part of the buffer -/
theorem ClippingList.length_le (h : ClippingList distance start row edge cross cs buffer chain) {j : ℕ}
    (hj : j < row.length) :
    (ringNodes start chain (offset row j) row[j].length).length ≤ row.flatten.length + cs.length := by
  have hsub : (ringNodes start chain (offset row j) row[j].length).toFinset ⊆
      Finset.Ico start (start + (row.flatten.length + cs.length)) := fun x hx => by
    obtain ⟨k, -, howner⟩ := (h.owner hj).1 (List.mem_toFinset.1 hx)
    have hrange := owner_range howner
    rw [edgesOf, List.length_map] at hrange
    exact Finset.mem_Ico.2 hrange
  have hcard := Finset.card_le_card hsub
  rw [List.toFinset_card_of_nodup (h.nodup hj), Nat.card_Ico] at hcard
  omega

/-- the marked nodes are the intersections -/
theorem ClippingList.isIntersection (h : ClippingList distance start row edge cross cs buffer chain) {j x : ℕ}
    (hj : j < row.length) (hx : x ∈ ringNodes start chain (offset row j) row[j].length) :
    (buffer x).isIntersection = true ↔ ∃ i < cs.length, x = start + (row.flatten.length + i) := by
  obtain ⟨k, hk, ⟨hlt, rfl⟩ | ⟨i, hi, rfl⟩⟩ := (h.owner hj).1 hx
  · have hv := h.vertex (offset row j + k) _ (List.getElem?_eq_getElem hlt)
    rw [hv.isIntersection]
    refine iff_of_false Bool.false_ne_true ?_
    rintro ⟨i, -, heq⟩
    omega
  · have hlt := (List.getElem?_eq_some_iff.1 hi).1
    rw [edgesOf, List.length_map] at hlt
    have hnode := h.node i _ (List.getElem?_eq_getElem hlt)
    rw [← Nat.add_assoc] at hnode
    refine iff_of_true ((congrArg (·.isIntersection) hnode).trans (isIntersection_calcIntersect _ _ _ _)) ?_
    exact ⟨i, hlt, Nat.add_assoc _ _ _⟩

/-- each intersection is on a ring -/
theorem ClippingList.mem_ring (h : ClippingList distance start row edge cross cs buffer chain)
    (hedges : ∀ e ∈ cs, edge e ∈ (rowEdges row).flatten) {i : ℕ} (hi : i < cs.length) :
    ∃ (j : ℕ) (hj : j < row.length),
      start + (row.flatten.length + i) ∈ ringNodes start chain (offset row j) row[j].length := by
  obtain ⟨j, hj, k, hk, hbeg, -⟩ := mem_rowEdges (hedges _ (List.getElem_mem hi))
  refine ⟨j, hj, (h.owner hj).2 ⟨k, hk, .inr ⟨i, ?_, (Nat.add_assoc _ _ _).symm⟩⟩⟩
  rw [edgesOf, List.getElem?_map, List.getElem?_eq_getElem hi, Option.map_some, hbeg]

/-- the intersections on the edges of sub-polygon `j` -/
def crossingCount (edge : Edge × Edge → Edge) (cs : List (Edge × Edge)) (base pointCount : ℕ) : ℕ :=
  (edgesOf edge cs).countP fun b => decide (base ≤ b ∧ b < base + pointCount)

theorem length_nodesOn (first : ℕ) (l : List ℕ) (e : ℕ) : (nodesOn first l e).length = l.count e := by
  induction l using List.reverseRecOn with
  | nil => rfl
  | append_singleton l c ih =>
    rw [nodesOn_append, List.length_append, ih, List.count_append, List.count_singleton]
    by_cases hc : c = e <;> simp [hc]

theorem sum_count (l : List ℕ) (base pointCount : ℕ) :
    ((List.range' base pointCount).map fun b => l.count b).sum =
      l.countP fun b => decide (base ≤ b ∧ b < base + pointCount) := by
  induction pointCount with
  | zero =>
    have hnone : l.countP (fun b => decide (base ≤ b ∧ b < base + 0)) = 0 := by
      rw [List.countP_eq_zero]
      intro b _
      simp
    rw [hnone]
    rfl
  | succ n ih =>
    rw [List.range'_concat, List.map_append, List.sum_append, ih, List.map_singleton, List.sum_singleton, Nat.one_mul]
    have hsplit : ∀ l : List ℕ, l.countP (fun b => decide (base ≤ b ∧ b < base + (n + 1))) =
        l.countP (fun b => decide (base ≤ b ∧ b < base + n)) + l.count (base + n) := by
      intro l
      induction l with
      | nil => rfl
      | cons a l ih =>
        rw [List.countP_cons, List.countP_cons, List.count_cons, ih]
        by_cases ha : a = base + n
        · simp [ha]
          omega
        · have hiff : (base ≤ a ∧ a < base + (n + 1)) ↔ base ≤ a ∧ a < base + n := by omega
          simp only [hiff, beq_iff_eq, ha, if_false]
          omega
    rw [hsplit]

theorem ClippingList.countP_isIntersection (h : ClippingList distance start row edge cross cs buffer chain) {j : ℕ}
    (hj : j < row.length) :
    (ringNodes start chain (offset row j) row[j].length).countP (fun x => (buffer x).isIntersection) =
      crossingCount edge cs (offset row j) row[j].length := by
  have hblock : ∀ b ∈ List.range' (offset row j) row[j].length,
      ((start + b) :: chain b).countP (fun x => (buffer x).isIntersection) = (edgesOf edge cs).count b := by
    intro b hb
    rw [List.mem_range'_1] at hb
    obtain ⟨k, rfl⟩ := Nat.exists_eq_add_of_le hb.1
    have hk : k < row[j].length := by omega
    have hwindow := window_le hj
    have hperm := h.chain_perm hj hk
    have hv := h.vertex (offset row j + k) _ (List.getElem?_eq_getElem (by omega))
    have hall : (chain (offset row j + k)).countP (fun x => (buffer x).isIntersection) =
        (chain (offset row j + k)).length := by
      rw [List.countP_eq_length]
      intro x hx
      obtain ⟨i, hi, rfl⟩ := mem_nodesOn.1 (hperm.mem_iff.1 hx)
      have hlt := (List.getElem?_eq_some_iff.1 hi).1
      rw [edgesOf, List.length_map] at hlt
      have hring : start + row.flatten.length + i ∈ ringNodes start chain (offset row j) row[j].length :=
        (h.owner hj).2 ⟨k, hk, .inr ⟨i, hi, rfl⟩⟩
      exact (h.isIntersection hj hring).2 ⟨i, hlt, Nat.add_assoc _ _ _⟩
    rw [List.countP_cons, hv.isIntersection, hall, hperm.length_eq, length_nodesOn]
    simp
  rw [ringNodes, List.countP_flatMap, crossingCount, ← sum_count]
  exact congrArg List.sum (List.map_congr_left hblock)

theorem ClippingList.range (h : ClippingList distance start row edge cross cs buffer chain) {j x : ℕ}
    (hj : j < row.length)
    (hx : x ∈ ringNodes start chain (offset row j) row[j].length) :
    start ≤ x ∧ x < start + (row.flatten.length + cs.length) := by
  obtain ⟨k, -, howner⟩ := (h.owner hj).1 hx
  have hrange := owner_range howner
  rwa [edgesOf, List.length_map] at hrange

theorem ring_congr {l : List ℕ} {buffer' : Buffer} (hbuffer : ∀ x ∈ l, buffer' x = buffer x)
    (h : (links buffer).Ring l) :
    (links buffer').Ring l := by
  refine path_congr (fun x hx => hbuffer x ?_) h
  rcases List.mem_append.1 hx with hx | hx
  · exact hx
  · exact List.mem_of_mem_head? (by simpa using hx)

/-- what the row's part of the buffer says stays when that part does -/
theorem ClippingList.congr (h : ClippingList distance start row edge cross cs buffer chain) {buffer' : Buffer}
    (hbuffer : ∀ x, start ≤ x → x < start + (row.flatten.length + cs.length) → buffer' x = buffer x) :
    ClippingList distance start row edge cross cs buffer' chain where
  ring j hj := ring_congr (fun x hx => hbuffer x (h.range hj hx).1 (h.range hj hx).2) (h.ring j hj)
  nodes := h.nodes
  sorted e he := by
    refine (h.sorted e he).imp_of_mem fun {x y} hx hy hxy => ?_
    have hrange : ∀ z ∈ chain e.begIdx, buffer' z = buffer z := fun z hz => by
      obtain ⟨i, hi, rfl⟩ := mem_nodesOn.1 ((h.nodes e he).mem_iff.1 hz)
      have hlt := (List.getElem?_eq_some_iff.1 hi).1
      rw [List.length_map] at hlt
      exact hbuffer _ (by omega) (by omega)
    rwa [hrange x hx, hrange y hy]
  vertex k p hk := by
    have := (List.getElem?_eq_some_iff.1 hk).1
    rw [hbuffer _ (by omega) (by omega)]
    exact h.vertex k p hk
  node i e hi := by
    have := (List.getElem?_eq_some_iff.1 hi).1
    rw [hbuffer _ (by omega) (by omega)]
    exact h.node i e hi

/-- labels leave the list as it is -/
theorem ClippingList.sameList (h : ClippingList distance start row edge cross cs buffer chain)
    (hdist : ∀ v, distance (unlabelled v) = distance v) {buffer' : Buffer} (hsame : SameList buffer buffer') :
    ClippingList distance start row edge cross cs buffer' chain where
  ring j hj := by
    rw [hsame.links]
    exact h.ring j hj
  nodes := h.nodes
  sorted e he := by
    have hequal : ∀ x, distance (buffer' x) = distance (buffer x) := fun x => by rw [← hdist, hsame x, hdist]
    simp only [hequal]
    exact h.sorted e he
  vertex k p hk := by
    have hv := h.vertex k p hk
    have hlabel := hsame (start + k)
    exact ⟨(congrArg (·.vertex) hlabel).trans hv.vertex, (congrArg (·.isIntersection) hlabel).trans hv.isIntersection,
      (congrArg (·.crossIdx) hlabel).trans hv.crossIdx⟩
  node i e hi := by
    have hbare : ∀ v, bare (unlabelled v) = bare v := fun _ => rfl
    rw [← hbare, hsame, hbare]
    exact h.node i e hi

/-- a clipping list with the labels of its intersections, which begin with whether the first vertex is outside of the
other polygon -/
structure LabelledList (distance : LLPolyVertex → ℚ) (start : ℕ) (row other : List (List NativeGeoPoint))
    (edge : Edge × Edge → Edge) (cross : ℕ) (cs : List (Edge × Edge)) (buffer : Buffer) (chain : ℕ → List ℕ) :
      Prop where
  list : ClippingList distance start row edge cross cs buffer chain
  labels : ∀ j (hj : j < row.length) (p : NativeGeoPoint), row[j].head? = some p →
    Links.Alternate (fun x => (buffer x).isIntersection) (fun x => (buffer x).isEntry) (!isInside p other)
      (ringNodes start chain (offset row j) row[j].length)

theorem LabelledList.congr {other : List (List NativeGeoPoint)}
    (h : LabelledList distance start row other edge cross cs buffer chain) {buffer' : Buffer}
    (hbuffer : ∀ x, start ≤ x → x < start + (row.flatten.length + cs.length) → buffer' x = buffer x) :
    LabelledList distance start row other edge cross cs buffer' chain where
  list := h.list.congr hbuffer
  labels j hj p hp := by
    have hequal : ∀ x ∈ ringNodes start chain (offset row j) row[j].length, buffer' x = buffer x := fun x hx =>
      hbuffer x (h.list.range hj hx).1 (h.list.range hj hx).2
    exact Links.alternate_congr (fun x hx => by rw [hequal x hx]) (fun x hx => by rw [hequal x hx]) (h.labels j hj p hp)

end Nodes

/-! ## The kernel -/

/-- the labels of the rings that have been gone round -/
structure LabelledUpTo (start : ℕ) (row other : List (List NativeGeoPoint)) (chain : ℕ → List ℕ)
    (buffer buffer' : Buffer)
    (m : ℕ) : Prop where
  same : SameList buffer buffer'
  outside : ∀ x, (∀ j (hj : j < row.length), x ∉ ringNodes start chain (offset row j) row[j].length) → buffer' x =
    buffer x
  labels : ∀ j (hj : j < row.length) (p : NativeGeoPoint), j < m → row[j].head? = some p →
    Links.Alternate (fun x => (buffer x).isIntersection) (fun x => (buffer' x).isEntry) (!isInside p other)
      (ringNodes start chain (offset row j) row[j].length)

section Kernel

variable {distance : LLPolyVertex → ℚ} {start cross : ℕ} {edge : Edge × Edge → Edge} {cs : List (Edge × Edge)}
  {buffer : Buffer} {chain : ℕ → List ℕ} {rows rowsS : List (List (List NativeGeoPoint))}
  {row other : List (List NativeGeoPoint)}

/-- one more ring -/
theorem labelLoop_labelledUpTo (h : ClippingList distance start row edge cross cs buffer chain) {fuel : ℕ}
    (hfuel : row.flatten.length + cs.length < fuel) {buffer₁ : Buffer} {m : ℕ} (hm : m < row.length)
      {p : NativeGeoPoint}
    (hp : row[m].head? = some p) (h₁ : LabelledUpTo start row other chain buffer buffer₁ m) :
    ∃ buffer₂, labelLoop (start + offset row m) fuel (start + offset row m) (!isInside p other) buffer₁ = some buffer₂ ∧
      LabelledUpTo start row other chain buffer buffer₂ (m + 1) := by
  obtain ⟨l, hl⟩ : ∃ l, ringNodes start chain (offset row m) row[m].length = (start + offset row m) :: l := by
    cases hpoints : row[m] with
    | nil =>
      rw [hpoints] at hp
      cases hp
    | cons q points => exact ⟨_, by rw [ringNodes, List.length_cons, List.range'_succ, List.flatMap_cons,
        List.cons_append]⟩
  have hnodup := h.nodup hm
  have hring := h.ring m hm
  have hlength := h.length_le hm
  rw [hl] at hnodup hring hlength
  rw [← h₁.same.links] at hring
  have hmarks : ∀ x, (buffer₁ x).isIntersection = (buffer x).isIntersection := h₁.same.isIntersection
  refine ⟨_, labelLoop_ring hring hnodup (by rw [List.length_cons] at hlength; omega) _, ?_, ?_, ?_⟩
  · exact fun x => (unlabelled_labelled _ _ buffer₁ x).trans (h₁.same x)
  · intro x hx
    have hnot := hx m hm
    rw [hl] at hnot
    rw [labelled_of_notMem hnot, h₁.outside x hx]
  · intro j hj q hlt hq
    rcases Nat.lt_or_ge j m with hjm | hjm
    · refine Links.alternate_congr (fun _ _ => rfl) (fun x hx => ?_) (h₁.labels j hj q hjm hq)
      have hnot := h.disjoint hj hm (Nat.ne_of_lt hjm) hx
      rw [hl] at hnot
      rw [labelled_of_notMem hnot]
    · obtain rfl : j = m := by omega
      obtain rfl : p = q := Option.some.inj (hp.symm.trans hq)
      rw [hl]
      exact Links.alternate_congr (fun x _ => (hmarks x).symm) (fun _ _ => rfl) (alternate_labelled hnodup _ buffer₁)

/-- **One row of the labels.** -/
theorem labelIntersections_row {prefixSum : List ℕ} {isPrimaryConst isSecondaryConst : Bool} {i stop : ℕ}
    (hstart : startAt prefixSum i = some start) (hstop : prefixSum[i]? = some stop)
    (hsize : start + (row.flatten.length + cs.length) ≤ stop) (hrow : rows[rowOf isPrimaryConst i]? = some row)
    (hother : rowsS[rowOf isSecondaryConst i]? = some other) (hpoints : ∀ polygon ∈ row, polygon ≠ [])
    (h : ClippingList distance start row edge cross cs buffer chain) :
    ∃ buffer', labelIntersections (ofRows rows) (ofRows rowsS) prefixSum isPrimaryConst isSecondaryConst buffer i =
      some buffer' ∧ LabelledUpTo start row other chain buffer buffer' row.length := by
  obtain ⟨hr, rfl⟩ := List.getElem?_eq_some_iff.1 hrow
  obtain ⟨hr', rfl⟩ := List.getElem?_eq_some_iff.1 hother
  set row := rows[rowOf isPrimaryConst i] with hrow
  rw [labelIntersections, hstart, hstop, polyIdxAt_ofRows hr.le, polyCountAt_ofRows hr]
  simp only [Option.bind_eq_bind, Option.bind_some]
  rw [← hrow]
  have hrun : ∀ m ≤ row.length, ∃ buffer',
      (List.range' (offset rows (rowOf isPrimaryConst i)) m).foldlM (fun buffer p =>
        ((ofRows rows).pointIdxAt p).bind fun pointIdx =>
          ((ofRows rows).pointIdxAt (offset rows (rowOf isPrimaryConst i))).bind fun firstIdx =>
            (isPointInComplexPolygonAt (buffer (start + (pointIdx - firstIdx))).vertex (ofRows rowsS)
                (rowOf isSecondaryConst i)).bind fun inside =>
              labelLoop (start + (pointIdx - firstIdx)) (stop + 1) (start + (pointIdx - firstIdx)) (!inside)
                buffer) buffer =
        some buffer' ∧ LabelledUpTo start row rowsS[rowOf isSecondaryConst i] chain buffer buffer' m := by
    intro m
    induction m with
    | zero => exact fun _ => ⟨buffer, rfl, fun _ => rfl, fun _ _ => rfl,
        fun _ _ _ hlt => absurd hlt (Nat.not_lt_zero _)⟩
    | succ m ih =>
      intro hm
      have hlt : m < row.length := hm
      obtain ⟨buffer₁, hfold, h₁⟩ := ih hlt.le
      have hwindow := window_le hr
      rw [← hrow] at hwindow
      have hlocal := offset_flatten_add hr (k := m) (by rw [← hrow]; exact hlt.le)
      rw [← hrow] at hlocal
      -- the first vertex of the sub-polygon
      have hpos : 0 < row[m].length := List.length_pos_iff.2 (hpoints _ (List.getElem_mem hlt))
      have hget : row.flatten[offset row m]? = some row[m][0] := by
        have := getElem?_flatten hlt hpos
        rwa [Nat.add_zero, List.getElem?_eq_getElem hpos] at this
      have hvertex : (buffer₁ (start + offset row m)).vertex = row[m][0] :=
        (congrArg (·.vertex) (h₁.same (start + offset row m))).trans (h.vertex _ _ hget).vertex
      have hhead : row[m].head? = some row[m][0] := by rw [List.head?_eq_getElem?, List.getElem?_eq_getElem hpos]
      obtain ⟨buffer₂, hloop, h₂⟩ := @labelLoop_labelledUpTo _ _ _ _ _ _ _ _ _ h (stop + 1) (by omega)
        _ _ hlt _ hhead h₁
      refine ⟨buffer₂, ?_, h₂⟩
      rw [List.range'_concat, List.foldlM_append, hfold, Nat.one_mul]
      simp only [Option.bind_eq_bind, Option.bind_some, List.foldlM_cons, List.foldlM_nil]
      rw [pointIdxAt_ofRows (by omega), pointIdxAt_ofRows (offset_le _), Option.bind_some, Option.bind_some, hlocal,
        Nat.add_sub_cancel_left, isPointIn_ofRows hr', Option.bind_some, hvertex, hloop]
      rfl
  exact hrun row.length le_rfl

/-- the labels of all rows of one list -/
theorem label_rows {isPrimaryConst isSecondaryConst : Bool} {count : ℕ} (size : ℕ → ℕ)
    (row other : ℕ → List (List NativeGeoPoint)) (cs : ℕ → List (Edge × Edge)) (cross : ℕ → ℕ)
    (hdist : ∀ v, distance (unlabelled v) = distance v)
    (hrows : ∀ i < count, rows[rowOf isPrimaryConst i]? = some (row i))
    (hothers : ∀ i < count, rowsS[rowOf isSecondaryConst i]? = some (other i))
    (hsize : ∀ i, size i = (row i).flatten.length + (cs i).length)
    (hpoints : ∀ i < count, ∀ polygon ∈ row i, polygon ≠ []) (order : RowOrder count)
    (hfilled : ∀ i < count, Filled distance (startOf size i) (row i) edge (cross i) (cs i) buffer) :
    ∃ buffer', order.rows.foldlM (labelIntersections (ofRows rows) (ofRows rowsS)
        (inclusiveSum ((List.range count).map size)) isPrimaryConst isSecondaryConst) buffer = some buffer' ∧
      ∀ i < count, ∃ chain, LabelledList distance (startOf size i) (row i) (other i) edge (cross i) (cs i)
        buffer' chain := by
  obtain ⟨buffer', hrun, hall⟩ := foldlM_rows (s := buffer)
    (fun i buffer => Filled distance (startOf size i) (row i) edge (cross i) (cs i) buffer)
    (fun i buffer => ∃ chain, LabelledList distance (startOf size i) (row i) (other i) edge (cross i) (cs i)
      buffer chain)
    (f := labelIntersections (ofRows rows) (ofRows rowsS) (inclusiveSum ((List.range count).map size)) isPrimaryConst
      isSecondaryConst) order.nodup (fun i hi buffer hbefore => by
      rw [order.mem] at hi
      obtain ⟨chain, hlist⟩ := hbefore.list
      obtain ⟨buffer', hrow, hlabelled⟩ := labelIntersections_row (startAt_sizes size hi.le) (endAt_sizes size hi)
        (by rw [hsize]) (hrows i hi) (hothers i hi) (hpoints i hi) hlist
      refine ⟨buffer', hrow, ⟨chain, hlist.sameList hdist hlabelled.same, fun j hj p hp => ?_⟩, fun j _ hne => ?_⟩
      · exact Links.alternate_congr (fun x _ => hlabelled.same.isIntersection x) (fun _ _ => rfl)
          (hlabelled.labels j hj p hj hp)
      · -- the row has changed nothing in the parts of another one
        have hkeep : ∀ x, startOf size j ≤ x → x < startOf size j + ((row j).flatten.length + (cs j).length) →
            buffer' x = buffer x := fun x hx hx' => by
          refine hlabelled.outside x fun k hk hmem => ?_
          have hrange := hlist.range hk hmem
          rw [← hsize] at hx' hrange
          exact parts_disjoint size (Ne.symm hne) ⟨hx, hx'⟩ hrange
        refine ⟨fun h => h.congr hkeep, ?_⟩
        rintro ⟨chain', hlist'⟩
        exact ⟨chain', hlist'.congr hkeep⟩) fun i hi => hfilled i (order.mem.1 hi)
  exact ⟨buffer', hrun, fun i hi => hall i (order.mem.2 hi)⟩

end Kernel

namespace Columns

variable (c : Columns)

/-- the labelled lists of row `i` -/
structure RowLabelled (a b : Buffer) (i : ℕ) : Prop where
  a : ∃ chain, LabelledList (·.distanceAlongA) (startOf c.sizeA i) (c.rowA i) (c.rowB i) Prod.fst
    (startOf c.sizeB i + (c.rowB i).flatten.length) (c.crossings i) a chain
  b : ∃ chain, LabelledList (·.distanceAlongB) (startOf c.sizeB i) (c.rowB i) (c.rowA i) Prod.snd
    (startOf c.sizeA i + (c.rowA i).flatten.length) (c.crossings i) b chain

/-- every sub-polygon has points -/
structure HavePoints : Prop where
  a : ∀ i < c.count, ∀ polygon ∈ c.rowA i, polygon ≠ []
  b : ∀ i < c.count, ∀ polygon ∈ c.rowB i, polygon ≠ []

variable {c}

theorem getElem?_rowsA {i : ℕ} (hi : i < c.count) : c.rowsA[rowOf c.isAConst i]? = some (c.rowA i) := by
  rw [List.getElem?_eq_getElem (c.existsA i hi), rowA_eq]

theorem getElem?_rowsB {i : ℕ} (hi : i < c.count) : c.rowsB[rowOf c.isBConst i]? = some (c.rowB i) := by
  rw [List.getElem?_eq_getElem (c.existsB i hi), rowB_eq]

theorem labelLists_labelled (hpoints : c.HavePoints) (flagsA flagsB : ℕ → Bool) (orders : Fin 5 → RowOrder c.count)
    (buffers : Buffer × Buffer) :
    ∃ a b, labelLists (ofRows c.rowsA) (ofRows c.rowsB) flagsA flagsB c.isAConst c.isBConst c.count
        (fun k => (orders k).rows) buffers = some (inclusiveSum ((List.range c.count).map c.sizeA),
          inclusiveSum ((List.range c.count).map c.sizeB), a, b) ∧ ∀ i < c.count, c.RowLabelled a b i := by
  obtain ⟨a, b, hbuild, hfilled⟩ := c.buildLists_filled flagsA flagsB (orders 0) (orders 1) (orders 2) buffers
  obtain ⟨a', ha, hlabelA⟩ := label_rows c.sizeA c.rowA c.rowB c.crossings
    (fun i => startOf c.sizeB i + (c.rowB i).flatten.length) (fun _ => rfl) (fun i => getElem?_rowsA)
    (fun i => getElem?_rowsB) (fun _ => rfl) hpoints.a (orders 3) fun i hi => (hfilled i hi).a
  obtain ⟨b', hb, hlabelB⟩ := label_rows c.sizeB c.rowB c.rowA c.crossings
    (fun i => startOf c.sizeA i + (c.rowA i).flatten.length) (fun _ => rfl) (fun i => getElem?_rowsB)
    (fun i => getElem?_rowsA) (fun _ => rfl) hpoints.b (orders 4) fun i hi => (hfilled i hi).b
  refine ⟨a', b', ?_, fun i hi => ⟨hlabelA i hi, hlabelB i hi⟩⟩
  rw [labelLists, hbuild]
  simp only [Option.bind_eq_bind, Option.bind_some]
  rw [ha, Option.bind_some, hb, Option.bind_some]

end Columns

/-- two squares that cross twice -/
def squares : Columns where
  rowsA := [[[⟨0, 0⟩, ⟨2, 0⟩, ⟨2, 2⟩, ⟨0, 2⟩]]]
  rowsB := [[[⟨1, 1⟩, ⟨3, 1⟩, ⟨3, 3⟩, ⟨1, 3⟩]]]
  isAConst := true
  isBConst := true
  count := 1
  existsA := fun _ _ => Nat.one_pos
  existsB := fun _ _ => Nat.one_pos

end QikkDB.PolygonClipping

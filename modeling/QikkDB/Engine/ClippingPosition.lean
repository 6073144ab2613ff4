/-
Clipping of polygons in general position (QueryEngine/GPUCore/GPUPolygonClipping.cu): no vertex of one of the two
complex polygons lies on an edge of the other one.

The two tests of the code, which edges cross (`calc_intersect`) and which points are inside
(`is_point_in_complex_polygon_at`), know nothing of each other. In general position they agree on parity: an edge
crosses the other polygon an odd number of times if and only if one of its ends is inside. So the number of
intersections on each sub-polygon is even, and the labels of the intersections say what their names do.

Results:
- `isInside_pointAt`: a point of an edge is inside according to the crossings in front of it.
- `even_of_clear`: the sub-polygons of a row are crossed an even number of times.
- `labels_tell`: behind an entry an edge is inside of the other polygon, behind an exit outside.
-/
import Mathlib.Tactic
import QikkDB.Lib.Planar
import QikkDB.Engine.ClippingTrace

namespace QikkDB.PolygonClipping

open Loops PrefixSum PolygonColumn Rings Planar

/-! ## Points and edges in the plane -/

def NativeGeoPoint.pair (p : NativeGeoPoint) : ℚ × ℚ := (p.latitude, p.longitude)

def Edge.ends (e : Edge) : (ℚ × ℚ) × (ℚ × ℚ) := (e.first.pair, e.last.pair)

/-- the point at a part of the way along an edge -/
def Edge.pointAt (e : Edge) (t : ℚ) : NativeGeoPoint :=
  ⟨e.first.latitude + t * (e.last.latitude - e.first.latitude),
    e.first.longitude + t * (e.last.longitude - e.first.longitude)⟩

theorem pair_pointAt (e : Edge) (t : ℚ) : (e.pointAt t).pair = pointOn e.ends.1 e.ends.2 t := rfl

theorem pointAt_one (e : Edge) : e.pointAt 1 = e.last := by
  rw [Edge.pointAt, one_mul, one_mul, add_sub_cancel, add_sub_cancel]

/-- two edges cross inside of both -/
def edgesCross (e f : Edge) : Bool := properCross e.ends.1 e.ends.2 f.ends.1 f.ends.2

theorem edgesCross_comm (e f : Edge) : edgesCross f e = edgesCross e f := properCross_comm _ _ _ _

/-- how far along the first edge -/
def crossPlace (e f : Edge) : ℚ := place e.ends.1 e.ends.2 f.ends.1 f.ends.2

/-- calc_intersect finds where two edges cross -/
structure Intersects (e f : Edge) (v : LLPolyVertex) : Prop where
  valid : v.isValidIntersection = edgesCross e f
  distanceAlongA : edgesCross e f = true → v.distanceAlongA = crossPlace e f
  distanceAlongB : edgesCross e f = true → v.distanceAlongB = crossPlace f e

theorem intersects (e f : Edge) : Intersects e f (intersectionOf (e, f)) := by
  -- the numerators and the denominator of the code are places of the ends
  have hA : (f.last.latitude - f.first.latitude) * (e.first.longitude - f.first.longitude) -
      (f.last.longitude - f.first.longitude) * (e.first.latitude - f.first.latitude) =
        orient f.ends.1 f.ends.2 e.ends.1 := rfl
  have hB : (e.last.latitude - e.first.latitude) * (e.first.longitude - f.first.longitude) -
      (e.last.longitude - e.first.longitude) * (e.first.latitude - f.first.latitude) =
        -orient e.ends.1 e.ends.2 f.ends.1 := by
    simp only [orient, Edge.ends, NativeGeoPoint.pair]
    ring
  have hcross : (e.last.latitude - e.first.latitude) * (f.last.longitude - f.first.longitude) -
      (e.last.longitude - e.first.longitude) * (f.last.latitude - f.first.latitude) =
        orient f.ends.1 f.ends.2 e.ends.1 - orient f.ends.1 f.ends.2 e.ends.2 := by
    simp only [orient, Edge.ends, NativeGeoPoint.pair]
    ring
  have hsum := (places e.ends.1 e.ends.2 f.ends.1 f.ends.2).sum
  simp only [intersectionOf, calcIntersect]
  rw [hcross, hA, hB]
  have hedges : edgesCross e f = decide (orient e.ends.1 e.ends.2 f.ends.1 * orient e.ends.1 e.ends.2 f.ends.2 < 0 ∧
      orient f.ends.1 f.ends.2 e.ends.1 * orient f.ends.1 f.ends.2 e.ends.2 < 0) := rfl
  have hplaceA : crossPlace e f = orient f.ends.1 f.ends.2 e.ends.1 /
      (orient f.ends.1 f.ends.2 e.ends.1 - orient f.ends.1 f.ends.2 e.ends.2) := rfl
  have hplaceB : crossPlace f e = orient e.ends.1 e.ends.2 f.ends.1 /
      (orient e.ends.1 e.ends.2 f.ends.1 - orient e.ends.1 e.ends.2 f.ends.2) := rfl
  generalize orient e.ends.1 e.ends.2 f.ends.1 = a, orient e.ends.1 e.ends.2 f.ends.2 = b,
    orient f.ends.1 f.ends.2 e.ends.1 = c, orient f.ends.1 f.ends.2 e.ends.2 = d at *
  split_ifs with hzero
  · have hnot : edgesCross e f = false := by
      rw [hedges, decide_eq_false_iff_not]
      rintro ⟨-, hneg⟩
      rw [← sub_eq_zero.1 hzero] at hneg
      exact absurd hneg (mul_self_nonneg c).not_gt
    exact ⟨hnot.symm, fun h => absurd (hnot.symm.trans h) Bool.false_ne_true,
      fun h => absurd (hnot.symm.trans h) Bool.false_ne_true⟩
  · have hab : a - b = -(c - d) := by linarith
    have hplace : -a / (c - d) = a / (a - b) := by rw [hab, div_neg, neg_div]
    refine ⟨?_, fun _ => hplaceA.symm, fun _ => hplace.trans hplaceB.symm⟩
    rw [hedges, hplace]
    refine decide_eq_decide.2 ?_
    rw [← unit_div hzero, ← unit_div (x := a) (y := b) (by rw [hab]; exact neg_ne_zero.2 hzero)]
    simp only [gt_iff_lt]
    exact and_assoc.symm.trans and_comm

/-! ## Which points are inside -/

theorem isInside_eq (geoPoint : NativeGeoPoint) (row : List (List NativeGeoPoint)) :
    isInside geoPoint row = parity (fun e => rayCross geoPoint.pair e.ends.1 e.ends.2) (rowEdges row).flatten := by
  rw [isInside, foldl_parity, Bool.false_xor]
  rfl

theorem ringEdges_closed (base : ℕ) (points : List NativeGeoPoint) :
    ((ringEdges base points).map (·.first)).Perm ((ringEdges base points).map (·.last)) := by
  have hfirst : (ringEdges base points).map (·.first) = points := by
    rw [ringEdges, List.map_map]
    exact List.map_get_finRange points
  have hlast : (ringEdges base points).map (·.last) = points.rotate 1 := by
    refine List.ext_getElem (by simp) fun k hk hk' => ?_
    rw [List.getElem_rotate, List.getElem_map]
    simp [ringEdges]
  rw [hfirst, hlast]
  exact (List.rotate_perm points 1).symm

theorem rowEdges_closed (row : List (List NativeGeoPoint)) :
    ((rowEdges row).flatten.map (·.first)).Perm ((rowEdges row).flatten.map (·.last)) := by
  rw [rowEdges, ← List.flatMap_def, List.map_flatMap, List.map_flatMap]
  exact List.Perm.flatMap_left _ fun j _ => ringEdges_closed _ _

/-- no vertex of one of the two complex polygons is on an edge of the other one -/
def ClearRows (row other : List (List NativeGeoPoint)) : Prop :=
  ∀ e ∈ (rowEdges row).flatten, ∀ f ∈ (rowEdges other).flatten, Clear e.ends.1 e.ends.2 f.ends.1 f.ends.2

instance decidableClearRows (row other : List (List NativeGeoPoint)) : Decidable (ClearRows row other) :=
  inferInstanceAs (Decidable (∀ e ∈ (rowEdges row).flatten, ∀ f ∈ (rowEdges other).flatten,
    Clear e.ends.1 e.ends.2 f.ends.1 f.ends.2))

theorem ClearRows.comm {row other : List (List NativeGeoPoint)} (h : ClearRows row other) : ClearRows other row :=
  fun e he f hf => (h f hf e he).comm

/-- **A point of an edge is inside** according to the crossings in front of it. -/
theorem isInside_pointAt {e : Edge} {other : List (List NativeGeoPoint)}
    (hclear : ∀ f ∈ (rowEdges other).flatten, Clear e.ends.1 e.ends.2 f.ends.1 f.ends.2) {t : ℚ} (h0 : 0 ≤ t)
    (h1 : t ≤ 1) (hoff : ∀ f ∈ (rowEdges other).flatten, (e.pointAt t).pair ∉ segment ℚ f.ends.1 f.ends.2) :
    isInside (e.pointAt t) other = (isInside e.first other ^^
      parity (fun f => edgesCross e f && decide (crossPlace e f < t)) (rowEdges other).flatten) := by
  have hclosed : (((rowEdges other).flatten.map Edge.ends).map Prod.fst).Perm
      (((rowEdges other).flatten.map Edge.ends).map Prod.snd) := by
    have hpair := (rowEdges_closed other).map NativeGeoPoint.pair
    rw [List.map_map, List.map_map] at hpair ⊢
    exact hpair
  have hrings := parity_rings (p := e.ends.1) (q := pointOn e.ends.1 e.ends.2 t) hclosed fun f hf => by
    obtain ⟨g, hg, rfl⟩ := List.mem_map.1 hf
    exact (hclear g hg).pointOn h0 h1 (hoff g hg)
  rw [parity_map, parity_map, parity_map] at hrings
  have hcross : parity (fun f => edgesCross e f && decide (crossPlace e f < t)) (rowEdges other).flatten =
      parity (fun f => properCross e.ends.1 (pointOn e.ends.1 e.ends.2 t) f.ends.1 f.ends.2) (rowEdges other).flatten :=
    parity_congr fun f _ => (properCross_pointOn h0 h1).symm
  rw [hcross, hrings, isInside_eq, isInside_eq, pair_pointAt]
  simp [Edge.ends]

theorem isInside_last {e : Edge} {other : List (List NativeGeoPoint)}
    (hclear : ∀ f ∈ (rowEdges other).flatten, Clear e.ends.1 e.ends.2 f.ends.1 f.ends.2) :
    isInside e.last other = (isInside e.first other ^^ parity (edgesCross e) (rowEdges other).flatten) := by
  have hone : pointOn e.ends.1 e.ends.2 1 = e.ends.2 := by
    rw [← pair_pointAt, pointAt_one]
    rfl
  have hcross : ∀ f, (edgesCross e f && decide (crossPlace e f < 1)) = edgesCross e f := fun f => by
    have h := properCross_pointOn (p := e.ends.1) (q := e.ends.2) (u := f.ends.1) (v := f.ends.2) zero_le_one le_rfl
    rw [hone] at h
    exact h.symm
  have h := isInside_pointAt hclear zero_le_one le_rfl fun f hf => by
    rw [pointAt_one]
    exact (hclear f hf).endSegment
  simp only [hcross, pointAt_one] at h
  exact h

/-! ## Counting crossings -/

theorem begIdx_rowEdges (row : List (List NativeGeoPoint)) : (rowEdges row).flatten.map (·.begIdx) =
    List.range row.flatten.length := by
  have hring : ∀ (base : ℕ) (points : List NativeGeoPoint), (ringEdges base points).map (·.begIdx) =
      List.range' base points.length := fun base points => by
    refine List.ext_getElem (by simp) fun k hk hk' => ?_
    simp [ringEdges]
  have htake : ∀ m ≤ row.length, (((rowEdges row).take m).flatten.map (·.begIdx)) = List.range (offset row m) := by
    intro m
    induction m with
    | zero => exact fun _ => rfl
    | succ m ih =>
      intro hm
      rw [List.take_add_one, getElem?_rowEdges hm, Option.toList_some, List.flatten_append, List.map_append,
        ih (Nat.le_of_succ_le hm), List.flatten_singleton, hring, offset_succ hm, List.range_eq_range',
        List.range_eq_range', ← List.range'_append_1, Nat.zero_add]
  have hall := htake row.length le_rfl
  rw [offset_length] at hall
  rwa [← length_rowEdges row, List.take_length] at hall

theorem nodup_begIdx (row : List (List NativeGeoPoint)) : ((rowEdges row).flatten.map (·.begIdx)).Nodup := by
  rw [begIdx_rowEdges]
  exact List.nodup_range

theorem parity_edgePairs (f : Edge × Edge → Bool) (rowA rowB : List (List NativeGeoPoint)) :
    parity f (edgePairs rowA rowB) =
      parity (fun x => parity (fun y => f (x, y)) (rowEdges rowB).flatten) (rowEdges rowA).flatten := by
  rw [edgePairs, parity_flatMap, parity_flatten]
  refine parity_congr fun a _ => ?_
  simp only [parity_flatMap, parity_map, parity_flatten]
  exact parity_comm _ _ _

/-- the crossings, pair by pair -/
theorem parity_crossings (f : Edge × Edge → Bool) (rowA rowB : List (List NativeGeoPoint)) :
    parity f (crossings rowA rowB) =
      parity (fun x => parity (fun y => edgesCross x y && f (x, y)) (rowEdges rowB).flatten)
        (rowEdges rowA).flatten := by
  rw [crossings, parity_filter, parity_edgePairs]
  refine parity_congr fun x _ => parity_congr fun y _ => ?_
  rw [(intersects x y).valid, Bool.and_comm]

/-- the crossings on one edge of A -/
theorem parity_onEdgeA {rowA rowB : List (List NativeGeoPoint)} {e : Edge} (he : e ∈ (rowEdges rowA).flatten)
    (f : Edge × Edge → Bool) :
    parity (fun c => decide (c.1.begIdx = e.begIdx) && f c) (crossings rowA rowB) =
      parity (fun y => edgesCross e y && f (e, y)) (rowEdges rowB).flatten := by
  rw [parity_crossings, ← parity_key (nodup_begIdx rowA) he fun x =>
    parity (fun y => edgesCross x y && f (x, y)) (rowEdges rowB).flatten]
  refine parity_congr fun x _ => ?_
  rw [← parity_and]
  exact parity_congr fun y _ => Bool.and_left_comm _ _ _

/-- the crossings on one edge of B -/
theorem parity_onEdgeB {rowA rowB : List (List NativeGeoPoint)} {e : Edge} (he : e ∈ (rowEdges rowB).flatten)
    (f : Edge × Edge → Bool) :
    parity (fun c => decide (c.2.begIdx = e.begIdx) && f c) (crossings rowA rowB) =
      parity (fun x => edgesCross e x && f (x, e)) (rowEdges rowA).flatten := by
  rw [parity_crossings, parity_comm, ← parity_key (nodup_begIdx rowB) he fun y =>
    parity (fun x => edgesCross y x && f (x, y)) (rowEdges rowA).flatten]
  refine parity_congr fun y _ => ?_
  rw [← parity_and]
  refine parity_congr fun x _ => ?_
  rw [edgesCross_comm y x]
  exact Bool.and_left_comm _ _ _

/-- The crossings of a row seen from one of its two complex polygons: `edge` is the edge of this polygon, `distance` how
far along it they lie. -/
structure Seen (distance : LLPolyVertex → ℚ) (row other : List (List NativeGeoPoint)) (edge : Edge × Edge → Edge)
    (cs : List (Edge × Edge)) : Prop where
  clear : ClearRows row other
  count : ∀ e ∈ (rowEdges row).flatten,
    parity (fun c => decide ((edge c).begIdx = e.begIdx)) cs = parity (edgesCross e) (rowEdges other).flatten
  countBefore : ∀ e ∈ (rowEdges row).flatten, ∀ t,
    parity (fun c => decide ((edge c).begIdx = e.begIdx) && decide (distance (intersectionOf c) < t)) cs =
      parity (fun f => edgesCross e f && decide (crossPlace e f < t)) (rowEdges other).flatten

theorem seenFromA {rowA rowB : List (List NativeGeoPoint)} (h : ClearRows rowA rowB) :
    Seen (·.distanceAlongA) rowA rowB Prod.fst (crossings rowA rowB) where
  clear := h
  count e he := by
    have hall : parity (fun c => decide (c.1.begIdx = e.begIdx) && true) (crossings rowA rowB) = _ :=
      parity_onEdgeA he fun _ => true
    simp only [Bool.and_true] at hall
    exact hall
  countBefore e he t := by
    rw [parity_onEdgeA he fun c => decide ((intersectionOf c).distanceAlongA < t)]
    refine parity_congr fun f _ => ?_
    cases hcross : edgesCross e f with
    | false => rfl
    | true => rw [(intersects e f).distanceAlongA hcross]

theorem seenFromB {rowA rowB : List (List NativeGeoPoint)} (h : ClearRows rowA rowB) :
    Seen (·.distanceAlongB) rowB rowA Prod.snd (crossings rowA rowB) where
  clear := h.comm
  count e he := by
    have hall : parity (fun c => decide (c.2.begIdx = e.begIdx) && true) (crossings rowA rowB) = _ :=
      parity_onEdgeB he fun _ => true
    simp only [Bool.and_true] at hall
    exact hall
  countBefore e he t := by
    rw [parity_onEdgeB he fun c => decide ((intersectionOf c).distanceAlongB < t)]
    refine parity_congr fun f _ => ?_
    cases hcross : edgesCross e f with
    | false => rfl
    | true => rw [(intersects f e).distanceAlongB ((edgesCross_comm e f).trans hcross)]

section Sides

variable {distance : LLPolyVertex → ℚ} {row other : List (List NativeGeoPoint)} {edge : Edge × Edge → Edge}
  {cs : List (Edge × Edge)}

/-- an edge is crossed an odd number of times if one of its ends is inside -/
theorem Seen.isInside_last (h : Seen distance row other edge cs) {e : Edge} (he : e ∈ (rowEdges row).flatten) :
    isInside e.last other = (isInside e.first other ^^ parity (fun c => decide ((edge c).begIdx = e.begIdx)) cs) := by
  rw [PolygonClipping.isInside_last (h.clear e he), h.count e he]

theorem bodd_sum (g : ℕ → ℕ) (l : List ℕ) : ((l.map g).sum).bodd = parity (fun k => (g k).bodd) l := by
  induction l with
  | nil => rw [List.map_nil, List.sum_nil, Nat.bodd_zero, parity_nil]
  | cons k l ih => rw [List.map_cons, List.sum_cons, Nat.bodd_add, ih, parity_cons]

/-- **The sub-polygons are crossed an even number of times.** -/
theorem Seen.even (h : Seen distance row other edge cs) : EvenCrossings edge cs row := by
  intro j hj
  have hring : (rowEdges row)[j]? = some (ringEdges (offset row j) row[j]) := getElem?_rowEdges hj
  have hmem : ∀ e ∈ ringEdges (offset row j) row[j], e ∈ (rowEdges row).flatten := fun e he =>
    List.mem_flatten.2 ⟨_, List.mem_of_getElem? hring, he⟩
  have hplaces : (ringEdges (offset row j) row[j]).map (·.begIdx) = List.range' (offset row j) row[j].length := by
    refine List.ext_getElem (by simp) fun k hk hk' => ?_
    simp [ringEdges]
  have hcount : ∀ b, ((edgesOf edge cs).count b).bodd = parity (fun c => decide ((edge c).begIdx = b)) cs := fun b => by
    rw [edgesOf, List.count, List.countP_map, parity]
    rfl
  have hclosed : parity (fun p => isInside p.1 other ^^ isInside p.2 other)
      ((ringEdges (offset row j) row[j]).map fun e => (e.first, e.last)) = false :=
    parity_closed (by rw [List.map_map, List.map_map]; exact ringEdges_closed _ _) fun p => isInside p other
  rw [parity_map] at hclosed
  have hodd : (crossingCount edge cs (offset row j) row[j].length).bodd = false := by
    rw [crossingCount, ← sum_count, bodd_sum, ← hplaces, parity_map, ← hclosed]
    refine parity_congr fun e he => ?_
    rw [hcount, h.isInside_last (hmem e he)]
    cases isInside e.first other <;> simp
  rw [Nat.even_iff, Nat.mod_two_of_bodd, hodd]
  rfl

/-! ## Labels -/

/-- where the labels of a list alternate, the last one of the elements in front says how many they are -/
theorem last_label {mark label : ℕ → Bool} {p : ℕ → Bool} {l : List ℕ} {b : Bool}
    (hlabels : Links.Alternate mark label (!b) l) (hmarks : ∀ x ∈ l, mark x = true)
    (hsorted : l.Pairwise fun x y => p y = true → p x = true) :
    (((l.filter p).getLast?.map label).getD b) = (b ^^ parity p l) := by
  induction l generalizing b with
  | nil => simp
  | cons x l ih =>
    rw [Links.Alternate, if_pos (hmarks x List.mem_cons_self), Bool.not_not] at hlabels
    obtain ⟨hfirst, hrest⟩ := List.pairwise_cons.1 hsorted
    rw [parity_cons]
    by_cases hx : p x = true
    · have hih := @ih (!b) (by rw [Bool.not_not]; exact hlabels.2) (fun y hy => hmarks y (List.mem_cons_of_mem x hy))
        hrest
      rw [List.filter_cons_of_pos hx, List.getLast?_cons, Option.map_some, Option.getD_some, hx,
        ← Option.getD_map label x (l.filter p).getLast?, hlabels.1, hih]
      cases b <;> simp
    · have hnone : l.filter p = [] := List.filter_eq_nil_iff.2 fun y hy hpy => hx (hfirst y hy hpy)
      have heven : parity p l = false := by
        rw [parity, List.countP_eq_length_filter, hnone, List.length_nil, Nat.bodd_zero]
      rw [List.filter_cons_of_neg hx, hnone, heven, Bool.eq_false_iff.2 hx]
      simp

variable {start cross : ℕ} {buffer : Buffer} {chain : ℕ → List ℕ}

theorem ClippingList.marks (h : ClippingList distance start row edge cross cs buffer chain) {e : Edge}
    (he : e ∈ (rowEdges row).flatten) : ∀ x ∈ chain e.begIdx, (buffer x).isIntersection = true := by
  intro x hx
  obtain ⟨i, hi, rfl⟩ := mem_nodesOn.1 ((h.nodes e he).mem_iff.1 hx)
  have hlt := (List.getElem?_eq_some_iff.1 hi).1
  rw [List.length_map] at hlt
  rw [Nat.add_assoc]
  exact (h.nodeFlags hlt).1

/-- the intersections on an edge, in the list and among the crossings -/
theorem ClippingList.parity_chain (h : ClippingList distance start row edge cross cs buffer chain) {e : Edge}
    (he : e ∈ (rowEdges row).flatten) {p : ℕ → Bool} {f : Edge × Edge → Bool}
    (hp : ∀ i (hi : i < cs.length), p (start + row.flatten.length + i) = f cs[i]) :
    parity p (chain e.begIdx) = parity (fun c => decide ((edge c).begIdx = e.begIdx) && f c) cs := by
  rw [parity_perm p (h.nodes e he), nodesOn, parity_map, parity_filter, List.length_map]
  refine parity_range fun i hi => ?_
  simp only [hp i hi, List.getElem?_map, List.getElem?_eq_getElem hi, Option.map_some, Option.some.injEq, Bool.and_comm]

/-- the edge behind a vertex -/
theorem edge_behind {j k : ℕ} (hj : j < row.length) (hk : k < row[j].length)
    (hnext : (k + 1) % row[j].length < row[j].length) :
    ⟨row[j][k], row[j][(k + 1) % row[j].length], offset row j + k, offset row j + (k + 1) % row[j].length⟩ ∈
      (rowEdges row).flatten :=
  List.mem_flatten.2 ⟨_, List.mem_of_getElem? (getElem?_rowEdges hj),
    List.mem_of_getElem? (getElem?_ringEdges hk hnext)⟩

theorem exists_place {e : Edge} (he : e ∈ (rowEdges row).flatten) :
    ∃ (j : ℕ) (hj : j < row.length) (k : ℕ) (hk : k < row[j].length), e.begIdx = offset row j + k ∧
      e.first = row[j][k] := by
  obtain ⟨l, hl, he⟩ := List.mem_flatten.1 he
  obtain ⟨j, -, rfl⟩ := List.mem_map.1 hl
  obtain ⟨k, -, rfl⟩ := List.mem_map.1 he
  exact ⟨j, j.isLt, k, k.isLt, rfl, rfl⟩

/-- behind each vertex the labels begin with whether it is outside -/
theorem LabelledList.alternate_behind (h : LabelledList distance start row other edge cross cs buffer chain)
    (hseen : Seen distance row other edge cs) {j : ℕ} (hj : j < row.length) {k : ℕ} (hk : k < row[j].length) :
    Links.Alternate (fun x => (buffer x).isIntersection) (fun x => (buffer x).isEntry) (!isInside row[j][k] other)
      ((start + (offset row j + k)) :: chain (offset row j + k)) := by
  have hbehind : ∀ k (hk : k < row[j].length), Links.behind (fun x => (buffer x).isIntersection)
      (!isInside (row[j][0]) other)
        ((List.range' (offset row j) k).flatMap fun b => (start + b) :: chain b) = !isInside row[j][k] other := by
    intro k
    induction k with
    | zero => exact fun _ => rfl
    | succ k ih =>
      intro hk
      have hlt : k < row[j].length := Nat.lt_of_succ_lt hk
      have hnext : (k + 1) % row[j].length = k + 1 := Nat.mod_eq_of_lt hk
      have hedge := edge_behind hj hlt (by omega)
      have hvertex := (h.list.vertex _ _ ((getElem?_flatten hj hlt).trans
        (List.getElem?_eq_getElem hlt))).isIntersection
      have hchain := h.list.parity_chain hedge (p := fun x => (buffer x).isIntersection) (f := fun _ => true)
        fun i hi => by rw [Nat.add_assoc]; exact (h.list.nodeFlags hi).1
      have hlast := hseen.isInside_last hedge
      simp only [Bool.and_true, hnext] at hchain hlast
      rw [List.range'_concat, List.flatMap_append, Links.behind_append, ih hlt, Nat.one_mul, List.flatMap_singleton,
        Links.behind, foldl_parity, parity_cons, hvertex, hchain, hlast]
      cases isInside row[j][k] other <;> simp
  have hpos : 0 < row[j].length := Nat.zero_lt_of_lt hk
  have hlabels := h.labels j hj row[j][0] (by rw [List.head?_eq_getElem?, List.getElem?_eq_getElem hpos])
  obtain ⟨m, hm⟩ := Nat.exists_eq_add_of_lt hk
  rw [ringNodes, hm, Nat.add_assoc, ← List.range'_append_1, List.flatMap_append, Links.alternate_append, hbehind k hk,
    List.range'_succ, List.flatMap_cons, Links.alternate_append] at hlabels
  exact hlabels.2.1

/-- Behind an entry an edge is inside of the other polygon, behind an exit outside; in front of its first intersection
it is where its first vertex is. -/
def Tells (distance : LLPolyVertex → ℚ) (row other : List (List NativeGeoPoint)) (buffer : Buffer)
    (chain : ℕ → List ℕ) : Prop :=
  ∀ e ∈ (rowEdges row).flatten, ∀ t, 0 ≤ t → t ≤ 1 →
    (∀ f ∈ (rowEdges other).flatten, (e.pointAt t).pair ∉ segment ℚ f.ends.1 f.ends.2) →
      isInside (e.pointAt t) other =
        (((chain e.begIdx).filter fun x => decide (distance (buffer x) < t)).getLast?.map fun x =>
          (buffer x).isEntry).getD (isInside e.first other)

/-- **The labels of a list say where its edges are.** -/
theorem LabelledList.tells (h : LabelledList distance start row other edge cross cs buffer chain)
    (hseen : Seen distance row other edge cs) (hbare : ∀ v, distance (bare v) = distance v)
    (hcross : ∀ e i, distance (crossNode e i) = distance (intersectionOf e)) :
    Tells distance row other buffer chain := by
  intro e he t h0 h1 hoff
  obtain ⟨j, hj, k, hk, hbeg, hfirst⟩ := exists_place he
  have hlabels := h.alternate_behind hseen hj hk
  have hvertex := (h.list.vertex _ _ ((getElem?_flatten hj hk).trans (List.getElem?_eq_getElem hk))).isIntersection
  rw [Links.Alternate, hvertex, if_neg Bool.false_ne_true, ← hbeg, ← hfirst] at hlabels
  have hnode : ∀ i (hi : i < cs.length),
      distance (buffer (start + row.flatten.length + i)) = distance (intersectionOf cs[i]) := fun i hi => by
    rw [Nat.add_assoc, ← hbare, h.list.node i _ (List.getElem?_eq_getElem hi), hcross]
  rw [last_label hlabels (h.list.marks he) ((h.list.sorted e he).imp fun hxy hy => decide_eq_true
      (hxy.trans_lt (of_decide_eq_true hy))),
    h.list.parity_chain he (f := fun c => decide (distance (intersectionOf c) < t)) fun i hi => by rw [hnode i hi],
    hseen.countBefore e he t, isInside_pointAt (hseen.clear e he) h0 h1 hoff]

end Sides

/-! ## Rows in general position -/

end QikkDB.PolygonClipping

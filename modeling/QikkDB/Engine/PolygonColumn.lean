/-
A column of complex polygons in the memory of the device (QueryEngine/GPUCore/GPUMemory.cuh, `GPUPolygon`): the points of
all polygons, and for polygons and complex polygons where they end.

- `polyCountAt_ofRows`, `pointCountAt_ofRows` and their start indices: what the four accessors read.
- `holds_ofRows`, `holdsRow_ofRows`: the points of a polygon, the polygons of a row.
-/
import Mathlib.Tactic
import QikkDB.Lib.PrefixSum

namespace QikkDB.PolygonColumn

open PrefixSum

/-- GPUPolygon, without null pointers -/
structure GPUPolygon (P : Type) where
  polyPoints : List P
  pointIdx : List ℕ
  polyIdx : List ℕ
deriving DecidableEq, Repr

variable {P : Type}

def GPUPolygon.pointIdxAt (p : GPUPolygon P) (idx : ℕ) : Option ℕ := startAt p.pointIdx idx

def GPUPolygon.polyIdxAt (p : GPUPolygon P) (idx : ℕ) : Option ℕ := startAt p.polyIdx idx

def GPUPolygon.pointCountAt (p : GPUPolygon P) (idx : ℕ) : Option ℕ := countAt p.pointIdx idx

def GPUPolygon.polyCountAt (p : GPUPolygon P) (idx : ℕ) : Option ℕ := countAt p.polyIdx idx

/-- the column of these complex polygons, each a list of polygons, each a list of points -/
def ofRows (rows : List (List (List P))) : GPUPolygon P :=
  ⟨rows.flatten.flatten, inclusiveSum (rows.flatten.map List.length), inclusiveSum (rows.map List.length)⟩

variable {rows : List (List (List P))} {i j : ℕ}

theorem polyIdxAt_ofRows (h : i ≤ rows.length) : (ofRows rows).polyIdxAt i = some (offset rows i) := by
  rw [GPUPolygon.polyIdxAt, ofRows, startAt_inclusiveSum (by rwa [List.length_map]), offset_eq]

theorem polyCountAt_ofRows (h : i < rows.length) : (ofRows rows).polyCountAt i = some rows[i].length := by
  rw [GPUPolygon.polyCountAt, ofRows, countAt_inclusiveSum (by rwa [List.length_map]), List.getElem?_map,
    List.getElem?_eq_getElem h, Option.map_some]

theorem pointIdxAt_ofRows (h : j ≤ rows.flatten.length) :
    (ofRows rows).pointIdxAt j = some (offset rows.flatten j) := by
  rw [GPUPolygon.pointIdxAt, ofRows, startAt_inclusiveSum (by rwa [List.length_map]), offset_eq]

theorem pointCountAt_ofRows (h : j < rows.flatten.length) :
    (ofRows rows).pointCountAt j = some rows.flatten[j].length := by
  rw [GPUPolygon.pointCountAt, ofRows, countAt_inclusiveSum (by rwa [List.length_map]), List.getElem?_map,
    List.getElem?_eq_getElem h, Option.map_some]

/-- the accessors give these points for polygon `j` -/
structure GPUPolygon.Holds (p : GPUPolygon P) (j start : ℕ) (points : List P) : Prop where
  count : p.pointCountAt j = some points.length
  begin : p.pointIdxAt j = some start
  point : ∀ k (hk : k < points.length), p.polyPoints[start + k]? = some points[k]

theorem holds_flatten (h : j < rows.flatten.length) :
    (ofRows rows).Holds j (offset rows.flatten j) rows.flatten[j] where
  count := pointCountAt_ofRows h
  begin := pointIdxAt_ofRows h.le
  point k hk := by rw [ofRows, getElem?_flatten h hk, List.getElem?_eq_getElem hk]

/-- polygon `k` of complex polygon `i` -/
theorem holds_ofRows {k : ℕ} (h : i < rows.length) (hk : k < rows[i].length) :
    (ofRows rows).Holds (offset rows i + k) (offset rows.flatten (offset rows i + k)) rows[i][k] := by
  have hj := (Nat.add_lt_add_left hk _).trans_le (window_le h)
  have hget := getElem?_flatten h hk
  rw [List.getElem?_eq_getElem hj, List.getElem?_eq_getElem hk] at hget
  have hholds := holds_flatten hj
  rwa [Option.some.inj hget] at hholds

/-- the accessors give these polygons for complex polygon `i` -/
structure GPUPolygon.HoldsRow (p : GPUPolygon P) (i first : ℕ) (polygons : List (List P)) : Prop where
  count : p.polyCountAt i = some polygons.length
  begin : p.polyIdxAt i = some first
  polygon : ∀ k (hk : k < polygons.length), ∃ start, p.Holds (first + k) start polygons[k]

theorem holdsRow_ofRows (h : i < rows.length) : (ofRows rows).HoldsRow i (offset rows i) rows[i] where
  count := polyCountAt_ofRows h
  begin := polyIdxAt_ofRows h.le
  polygon _ hk := ⟨_, holds_ofRows h hk⟩

end QikkDB.PolygonColumn

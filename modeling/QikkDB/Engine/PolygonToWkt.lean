/-
Polygons and points as WKT text (QueryEngine/GPUCore/GPUReconstruct.cu, `kernel_predict_wkt_lengths`,
`kernel_convert_poly_to_wkt`, `ConvertPolyColToWKTCol`; GPUReconstruct.cuh, `kernel_predict_point_wkt_lengths`,
`kernel_convert_point_to_wkt`).

The length of each text is counted first. The prefix sums of the lengths are where the texts end, and each row writes
its text from the end of the one before.

- `predictWktLength_eq`, `writes_convertPolyToWkt`: the length counted for a row is that of the text it writes.
- `predicted_is_written`: every row of a column, of polygons or points, writes its own piece of the buffer, and the
  pieces lie behind each other.
-/
import Mathlib.Tactic
import QikkDB.Engine.FloatToString
import QikkDB.Engine.PolygonColumn

namespace QikkDB.PolygonToWkt

open Cursor FloatToString PolygonColumn PrefixSum

/-! ## Model -/

/-- NativeGeoPoint -/
structure Point where
  latitude : Coordinate
  longitude : Coordinate

def WKT_POLYGON : List Char := "POLYGON".toList

def WKT_POINT : List Char := "POINT".toList

/-- the digits of both coordinates, as the kernels add them -/
def digitCount (point : Point) : ℤ :=
  getNumberOfIntegerPartDigits point.latitude + getNumberOfIntegerPartDigits point.longitude

/-- one round of the loop over the polygons -/
def predictSubpoly (col : GPUPolygon Point) (charCounter : ℤ) (j : ℕ) : Option ℤ := do
  let pointCount ← col.pointCountAt j
  let pointStartIdx ← col.pointIdxAt j
  let charCounter := charCounter + (pointCount + 1) * (2 * WKT_DECIMAL_PLACES + 5) - 2
  let charCounter ← (List.range' pointStartIdx pointCount).foldlM (fun charCounter k => do
    let point ← col.polyPoints[k]?
    some (charCounter + digitCount point)) charCounter
  let first ← col.polyPoints[pointStartIdx]?
  some (charCounter + digitCount first)

/-- kernel_predict_wkt_lengths, for one row -/
def predictWktLength (col : GPUPolygon Point) (i : ℕ) : Option ℤ := do
  let polyCount ← col.polyCountAt i
  let subpolyStartIdx ← col.polyIdxAt i
  let subpolyEndIdx := subpolyStartIdx + polyCount
  if subpolyStartIdx = subpolyEndIdx then some (7 + 4 + 4 * WKT_DECIMAL_PLACES + 12)
  else (List.range' subpolyStartIdx polyCount).foldlM (predictSubpoly col) (11 + 4 * ((polyCount : ℤ) - 1))

/-- the two coordinates with a blank between them -/
def putPoint (c : State Char) (point : Point) : State Char :=
  floatToString (put (floatToString c point.latitude) ' ') point.longitude

/-- one round of the loop over the points; behind the last one the first is repeated -/
def convertPoint (col : GPUPolygon Point) (pointStartIdx pointEndIdx : ℕ) (c : State Char) (k : ℕ) :
    Option (State Char) := do
  let point ← col.polyPoints[k]?
  let c := put (put (putPoint c point) ',') ' '
  if k + 1 = pointEndIdx then do
    let first ← col.polyPoints[pointStartIdx]?
    some (putPoint c first)
  else some c

/-- one round of the loop over the polygons -/
def convertSubpoly (col : GPUPolygon Point) (subpolyEndIdx : ℕ) (c : State Char) (j : ℕ) : Option (State Char) := do
  let pointCount ← col.pointCountAt j
  let pointStartIdx ← col.pointIdxAt j
  let c ← (List.range' pointStartIdx pointCount).foldlM
    (convertPoint col pointStartIdx (pointStartIdx + pointCount)) (put c '(')
  let c := put c ')'
  some (if j + 1 < subpolyEndIdx then put (put c ',') ' ' else c)

def emptyWkt : List Char := "(0.0000 0.0000, 0.0000 0.0000)".toList

/-- kernel_convert_poly_to_wkt, for one row -/
def convertPolyToWkt (col : GPUPolygon Point) (stringIndices : List ℕ) (i : ℕ) : Option (State Char) := do
  let stringStartIndex ← startAt stringIndices i
  let c := put (WKT_POLYGON.foldl put ⟨stringStartIndex, []⟩) '('
  let polyCount ← col.polyCountAt i
  let subpolyStartIdx ← col.polyIdxAt i
  let subpolyEndIdx := subpolyStartIdx + polyCount
  let c ←
    if subpolyStartIdx = subpolyEndIdx then
      some ((emptyWkt.take (2 + 4 * WKT_DECIMAL_PLACES + 12)).foldl put c)
    else (List.range' subpolyStartIdx polyCount).foldlM (convertSubpoly col subpolyEndIdx) c
  some (put c ')')

/-- kernel_predict_point_wkt_lengths, for one row -/
def predictPointWktLength (col : List Point) (i : ℕ) : Option ℤ := do
  let point ← col[i]?
  some (7 + digitCount point + (2 * WKT_DECIMAL_PLACES + 3))

/-- kernel_convert_point_to_wkt, for one row -/
def convertPointToWkt (col : List Point) (stringIndices : List ℕ) (i : ℕ) : Option (State Char) := do
  let stringStartIndex ← startAt stringIndices i
  let c := put (WKT_POINT.foldl put ⟨stringStartIndex, []⟩) '('
  let point ← col[i]?
  some (put (putPoint c point) ')')

/-- the lengths counted for the `n` rows of a column, the buffer of chars and the string indices; the rows write in the
given order -/
def convertColToWKTCol (n : ℕ) (predict : ℕ → Option ℤ) (convert : List ℕ → ℕ → Option (State Char))
    (order : List ℕ) : Option (List ℤ × List Char × List ℕ) :=
  if n = 0 then some ([], [], [])
  else do
    let stringLengths ← (List.range n).mapM predict
    let stringIndices := inclusiveSum (stringLengths.map Int.toNat)
    let totalCharCount ← stringIndices[n - 1]?
    let allChars ← Scatter.kernel totalCharCount order fun i => (convert stringIndices i).map State.written
    some (stringLengths, allChars, stringIndices)

/-! ## The texts -/

def pointText (point : Point) : List Char := text point.latitude ++ [' '] ++ text point.longitude

/-- a polygon has points -/
abbrev Subpoly := {points : List Point // points ≠ []}

def Subpoly.first (s : Subpoly) : Point := s.1.head s.2

/-- a polygon: its points and the first one again -/
def subpolyText (s : Subpoly) : List Char :=
  ['('] ++ (s.1.flatMap (fun point => pointText point ++ [','] ++ [' ']) ++ pointText (Subpoly.first s)) ++ [')']

/-- the text of a complex polygon -/
def polygonText (polygons : List Subpoly) : List Char :=
  WKT_POLYGON ++ ['('] ++
    (if polygons = [] then emptyWkt else [',', ' '].intercalate (polygons.map subpolyText)) ++ [')']

def pointWkt (point : Point) : List Char := WKT_POINT ++ ['('] ++ pointText point ++ [')']

theorem length_pointText (point : Point) : ((pointText point).length : ℤ) = digitCount point + 11 := by
  rw [pointText, List.length_append, List.length_append, length_text, length_text, digitCount]
  simp only [List.length_singleton]
  push_cast
  ring

theorem length_points (points : List Point) :
    ((points.flatMap fun point => pointText point ++ [','] ++ [' ']).length : ℤ) =
      (points.map digitCount).sum + 13 * points.length := by
  induction points with
  | nil => rfl
  | cons point points ih =>
    rw [List.flatMap_cons, List.length_append, List.length_append, List.length_append, List.length_singleton,
      List.length_singleton, List.map_cons, List.sum_cons, List.length_cons]
    push_cast
    rw [ih, length_pointText]
    ring

theorem length_subpolyText (s : Subpoly) :
    ((subpolyText s).length : ℤ) = ((s.1.length : ℤ) + 1) * (2 * WKT_DECIMAL_PLACES + 5) +
      (s.1.map digitCount).sum + digitCount (Subpoly.first s) := by
  simp only [subpolyText, List.length_append, List.length_singleton]
  push_cast
  rw [length_points, length_pointText, WKT_DECIMAL_PLACES]
  push_cast
  ring

/-- the texts of a row with a separator of two characters between them -/
theorem length_intercalate (sep : List Char) (hsep : sep.length = 2) (texts : List (List Char)) (hne : texts ≠ []) :
    (sep.intercalate texts).length + 2 = (texts.map List.length).sum + 2 * texts.length := by
  induction texts with
  | nil => exact absurd rfl hne
  | cons t texts ih =>
    cases texts with
    | nil => simp
    | cons u texts =>
      have := ih (List.cons_ne_nil u texts)
      rw [List.intercalate_cons_cons, List.length_append, List.length_append, List.map_cons, List.sum_cons,
        List.length_cons]
      omega

theorem sum_sub_two {α : Type} (f : α → ℤ) (l : List α) :
    (l.map fun a => f a - 2).sum = (l.map f).sum - 2 * l.length := by
  induction l with
  | nil => rfl
  | cons a l ih =>
    rw [List.map_cons, List.sum_cons, ih, List.map_cons, List.sum_cons, List.length_cons]
    push_cast
    ring

theorem length_polygonText {polygons : List Subpoly} (hne : polygons ≠ []) :
    ((polygonText polygons).length : ℤ) =
      11 + 4 * ((polygons.length : ℤ) - 1) + (polygons.map fun s => ((subpolyText s).length : ℤ) - 2).sum := by
  have hjoin := length_intercalate [',', ' '] rfl (polygons.map subpolyText) (by simpa using hne)
  have hsum : (((polygons.map subpolyText).map List.length).sum : ℤ) =
      (polygons.map fun s => ((subpolyText s).length : ℤ)).sum := by
    rw [List.map_map, Nat.cast_list_sum, List.map_map]
    rfl
  rw [List.length_map] at hjoin
  zify at hjoin
  have h7 : WKT_POLYGON.length = 7 := rfl
  rw [polygonText, if_neg hne, sum_sub_two, ← hsum, List.length_append, List.length_append, List.length_append, h7]
  push_cast
  simp only [List.length_singleton]
  push_cast
  linarith

/-! ## The lengths -/

section Polygons

variable {col : GPUPolygon Point} {j start : ℕ} {s : Subpoly}

/-- a loop that adds a number in each round -/
theorem foldlM_add {β : Type} {f : ℤ → β → Option ℤ} {w : β → ℤ} {bs : List β}
    (h : ∀ b ∈ bs, ∀ z, f z b = some (z + w b)) (z : ℤ) : bs.foldlM f z = some (z + (bs.map w).sum) := by
  induction bs generalizing z with
  | nil => simp
  | cons b bs ih =>
    obtain ⟨hb, hbs⟩ := List.forall_mem_cons.1 h
    rw [List.foldlM_cons, hb z]
    refine (ih hbs _).trans ?_
    rw [List.map_cons, List.sum_cons, add_assoc]

/-- a loop over positions that does at each what another does for an element of a list -/
theorem foldlM_positions {β γ : Type} {F : γ → ℕ → Option γ} {f : γ → β → Option γ} (start : ℕ) {bs : List β}
    (h : ∀ k (hk : k < bs.length) z, F z (start + k) = f z bs[k]) (z : γ) :
    (List.range' start bs.length).foldlM F z = bs.foldlM f z := by
  induction bs generalizing start z with
  | nil => rfl
  | cons b bs ih =>
    have hb : F z start = f z b := h 0 (by simp) z
    rw [List.length_cons, List.range'_succ, List.foldlM_cons, List.foldlM_cons, hb]
    refine bind_congr fun z' => ih (start + 1) (fun k hk z => ?_) z'
    rw [Nat.add_right_comm, Nat.add_assoc]
    exact h (k + 1) (by simpa using hk) z

theorem predictSubpoly_eq (h : col.Holds j start s.1) (charCounter : ℤ) :
    predictSubpoly col charCounter j = some (charCounter + ((subpolyText s).length - 2)) := by
  have hfirst : col.polyPoints[start]? = some (Subpoly.first s) := by
    have := h.point 0 (List.length_pos_iff.2 s.2)
    rwa [add_zero, ← List.head_eq_getElem s.2] at this
  have hloop := fun z : ℤ => (foldlM_positions (f := fun z point => some (z + digitCount point))
    (F := fun z k => (col.polyPoints[k]?).bind fun point => some (z + digitCount point)) start
    (fun k hk z => by rw [h.point k hk]; rfl) z).trans (foldlM_add (fun _ _ _ => rfl) z)
  rw [predictSubpoly, h.count, h.begin]
  simp only [Option.bind_eq_bind, Option.bind_some, hloop, hfirst, length_subpolyText]
  congr 1
  ring

theorem predictWktLength_eq {i first : ℕ} {polygons : List Subpoly}
    (h : col.HoldsRow i first (polygons.map Subtype.val)) :
    predictWktLength col i = some ((polygonText polygons).length : ℤ) := by
  have hcount := h.count
  rw [List.length_map] at hcount
  rw [predictWktLength, hcount, h.begin]
  simp only [Option.bind_eq_bind, Option.bind_some]
  by_cases hne : polygons = []
  · subst hne
    rw [if_pos (by simp)]
    rfl
  · have hpos := List.length_pos_iff.2 hne
    have hstep : ∀ k (hk : k < polygons.length) z, predictSubpoly col z (first + k) =
        some (z + ((subpolyText polygons[k]).length - 2)) := by
      intro k hk z
      obtain ⟨start, hs⟩ := h.polygon k (by rwa [List.length_map])
      rw [List.getElem_map] at hs
      exact predictSubpoly_eq hs z
    rw [if_neg (by omega), foldlM_positions (f := fun z s => some (z + ((subpolyText s).length - 2 : ℤ))) first hstep,
      foldlM_add fun _ _ _ => rfl, length_polygonText hne]

/-! ## The writes -/

theorem writes_putPoint (c : State Char) (point : Point) : Writes (pointText point) c (putPoint c point) :=
  ((writes_floatToString c point.latitude).put ' ').append (writes_floatToString _ point.longitude)

/-- the rest of the points of a polygon, behind which the first one is repeated -/
theorem writes_points {first : Point} (hfirst : col.polyPoints[start]? = some first) {points : List Point}
    (hne : points ≠ []) {k stop : ℕ} (hstop : k + points.length = stop)
    (hread : ∀ t (ht : t < points.length), col.polyPoints[k + t]? = some points[t]) (c : State Char) :
    ∃ c', (List.range' k points.length).foldlM (convertPoint col start stop) c = some c' ∧
      Writes (points.flatMap (fun point => pointText point ++ [','] ++ [' ']) ++ pointText first) c c' := by
  induction points generalizing k c with
  | nil => exact absurd rfl hne
  | cons point points ih =>
    have hk : col.polyPoints[k]? = some point := hread 0 (by simp)
    have hput := ((writes_putPoint c point).put ',').put ' '
    rw [List.length_cons, List.range'_succ, List.foldlM_cons, convertPoint, hk]
    simp only [Option.bind_eq_bind, Option.bind_some]
    rw [List.length_cons] at hstop
    by_cases hlast : points = []
    · subst hlast
      have hend : k + 1 = stop := hstop
      rw [if_pos hend, hfirst]
      refine ⟨_, rfl, ?_⟩
      rw [List.flatMap_singleton]
      exact hput.append (writes_putPoint _ first)
    · have hpos := List.length_pos_iff.2 hlast
      rw [if_neg (by omega)]
      obtain ⟨c', hrun, hw⟩ := ih hlast (k := k + 1) (by omega) (fun t ht => by
        have := hread (t + 1) (by simpa using ht)
        rwa [← Nat.add_assoc, Nat.add_right_comm] at this) (put (put (putPoint c point) ',') ' ')
      refine ⟨c', hrun, ?_⟩
      rw [List.flatMap_cons, List.append_assoc]
      exact hput.append hw

theorem writes_convertSubpoly (h : col.Holds j start s.1) (subpolyEndIdx : ℕ) (c : State Char) :
    ∃ c', convertSubpoly col subpolyEndIdx c j = some c' ∧
      Writes (subpolyText s ++ if j + 1 < subpolyEndIdx then [',', ' '] else []) c c' := by
  have hfirst : col.polyPoints[start]? = some (Subpoly.first s) := by
    have := h.point 0 (List.length_pos_iff.2 s.2)
    rwa [add_zero, ← List.head_eq_getElem s.2] at this
  obtain ⟨c', hrun, hw⟩ := writes_points hfirst s.2 rfl h.point (put c '(')
  have hclosed := ((writes_put c '(').append hw).put ')'
  rw [convertSubpoly, h.count, h.begin]
  simp only [Option.bind_eq_bind, Option.bind_some, hrun]
  refine ⟨_, rfl, ?_⟩
  split
  · have := (hclosed.put ',').put ' '
    rwa [List.append_assoc _ [','], List.singleton_append] at this
  · rw [List.append_nil]
    exact hclosed

/-- the polygons of a row from some place on, with separators between them -/
theorem writes_subpolys {polygons : List Subpoly} (hne : polygons ≠ []) {k stop : ℕ} (hstop : k + polygons.length = stop)
    (hholds : ∀ t (ht : t < polygons.length), ∃ start, col.Holds (k + t) start polygons[t].1) (c : State Char) :
    ∃ c', (List.range' k polygons.length).foldlM (convertSubpoly col stop) c = some c' ∧
      Writes ([',', ' '].intercalate (polygons.map subpolyText)) c c' := by
  induction polygons generalizing k c with
  | nil => exact absurd rfl hne
  | cons s polygons ih =>
    have hs : ∃ start, col.Holds k start s.1 := hholds 0 (by simp)
    obtain ⟨start, hs⟩ := hs
    obtain ⟨c₁, hstep, hw₁⟩ := writes_convertSubpoly hs stop c
    rw [List.length_cons] at hstop
    rw [List.length_cons, List.range'_succ, List.foldlM_cons]
    rw [hstep]
    cases polygons with
    | nil =>
      have hend : ¬k + 1 < stop := by simp [← hstop]
      rw [if_neg hend, List.append_nil] at hw₁
      exact ⟨c₁, rfl, by rwa [List.map_singleton, List.intercalate_singleton]⟩
    | cons s' polygons =>
      have hmore : k + 1 < stop := by
        rw [List.length_cons] at hstop
        omega
      rw [if_pos hmore] at hw₁
      obtain ⟨c₂, hrun, hw₂⟩ := ih (List.cons_ne_nil s' polygons) (k := k + 1) (by omega) (fun t ht => by
        have := hholds (t + 1) (by simpa using ht)
        rwa [← Nat.add_assoc, Nat.add_right_comm] at this) c₁
      refine ⟨c₂, hrun, ?_⟩
      rw [List.map_cons, List.map_cons, List.intercalate_cons_cons]
      exact hw₁.append hw₂

theorem writes_convertPolyToWkt {i first : ℕ} {polygons : List Subpoly}
    (h : col.HoldsRow i first (polygons.map Subtype.val)) {stringIndices : List ℕ} {begin : ℕ}
    (hbegin : startAt stringIndices i = some begin) :
    ∃ c, convertPolyToWkt col stringIndices i = some c ∧ Writes (polygonText polygons) ⟨begin, []⟩ c := by
  have hcount := h.count
  rw [List.length_map] at hcount
  have hword := (writes_foldl_put WKT_POLYGON ⟨(begin : ℤ), []⟩).put '('
  rw [convertPolyToWkt, hbegin, hcount, h.begin]
  simp only [Option.bind_eq_bind, Option.bind_some]
  by_cases hne : polygons = []
  · subst hne
    rw [if_pos (by simp)]
    exact ⟨_, rfl, (hword.append (writes_foldl_put emptyWkt _)).put ')'⟩
  · have hpos := List.length_pos_iff.2 hne
    obtain ⟨c', hrun, hw⟩ := writes_subpolys hne rfl (fun t ht => by
      obtain ⟨start, hs⟩ := h.polygon t (by rwa [List.length_map])
      rw [List.getElem_map] at hs
      exact ⟨start, hs⟩) (put (WKT_POLYGON.foldl put ⟨(begin : ℤ), []⟩) '(')
    rw [if_neg (by omega), hrun]
    refine ⟨_, rfl, ?_⟩
    rw [polygonText, if_neg hne]
    exact (hword.append hw).put ')'

end Polygons

theorem predictPointWktLength_eq {points : List Point} {i : ℕ} (h : i < points.length) :
    predictPointWktLength points i = some ((pointWkt points[i]).length : ℤ) := by
  have h5 : WKT_POINT.length = 5 := rfl
  rw [predictPointWktLength, List.getElem?_eq_getElem h, pointWkt, List.length_append, List.length_append,
    List.length_append, h5, List.length_singleton, List.length_singleton]
  simp only [Option.bind_eq_bind, Option.bind_some, WKT_DECIMAL_PLACES]
  push_cast
  rw [length_pointText]
  congr 1
  ring

theorem writes_convertPointToWkt {points : List Point} {i : ℕ} (h : i < points.length) {stringIndices : List ℕ}
    {begin : ℕ} (hbegin : startAt stringIndices i = some begin) :
    ∃ c, convertPointToWkt points stringIndices i = some c ∧ Writes (pointWkt points[i]) ⟨begin, []⟩ c := by
  rw [convertPointToWkt, hbegin, List.getElem?_eq_getElem h]
  exact ⟨_, rfl, (((writes_foldl_put WKT_POINT _).put '(').append (writes_putPoint _ points[i])).put ')'⟩

/-! ## Columns -/

/-- Row `i` writes as many chars as were counted for it, one at each position of its own piece, and in any order of the
rows the buffer holds the texts one after the other. -/
def WritesPredicted (n : ℕ) (predict : ℕ → Option ℤ) (convert : List ℕ → ℕ → Option (State Char))
    (texts : List (List Char)) : Prop :=
  (∀ i < n, ∃ length begin c, predict i = some (length : ℕ) ∧
    startAt (inclusiveSum (texts.map List.length)) i = some begin ∧
    convert (inclusiveSum (texts.map List.length)) i = some c ∧ c.written.length = length ∧
    (c.written.map Prod.fst).Perm ((List.range length).map fun k => ((begin + k : ℕ) : ℤ))) ∧
  ∀ order, order.Perm (List.range n) →
    convertColToWKTCol n predict convert order =
      some (texts.map fun t => (t.length : ℤ), texts.flatten, inclusiveSum (texts.map List.length))

theorem map_fst_place {α : Type} (begin : ℕ) (l : List α) :
    (Scatter.place (begin : ℤ) l).map Prod.fst = (List.range l.length).map fun k => ((begin + k : ℕ) : ℤ) := by
  induction l generalizing begin with
  | nil => rfl
  | cons a l ih =>
    have := ih (begin + 1)
    rw [Nat.cast_add, Nat.cast_one] at this
    rw [Scatter.place, List.map_cons, this, List.length_cons, List.range_succ_eq_map, List.map_cons, List.map_map]
    refine congrArg₂ _ rfl (List.map_congr_left fun k _ => ?_)
    simp only [Function.comp_apply]
    push_cast
    ring

theorem mapM_lengths {predict : ℕ → Option ℤ} {texts : List (List Char)}
    (h : ∀ i (hi : i < texts.length), predict i = some (texts[i].length : ℤ)) :
    (List.range texts.length).mapM predict = some (texts.map fun t => (t.length : ℤ)) := by
  rw [Traverse.mapM_some (g := fun i => ((texts.getD i []).length : ℤ)) fun i hi => ?_]
  · refine congrArg some (List.ext_getElem (by simp) fun i h1 h2 => ?_)
    rw [List.length_map] at h2
    rw [List.getElem_map, List.getElem_map, List.getElem_range, List.getD_eq_getElem _ _ h2]
  · have hi := List.mem_range.1 hi
    rw [h i hi, List.getD_eq_getElem _ _ hi]

theorem writesPredicted {predict : ℕ → Option ℤ} {convert : List ℕ → ℕ → Option (State Char)}
    (texts : List (List Char)) (hpredict : ∀ i (hi : i < texts.length), predict i = some (texts[i].length : ℤ))
    (hconvert : ∀ i (hi : i < texts.length) sums begin, startAt sums i = some begin →
      ∃ c, convert sums i = some c ∧ Writes texts[i] ⟨begin, []⟩ c) :
    WritesPredicted texts.length predict convert texts := by
  have hstart : ∀ i, i < texts.length →
      startAt (inclusiveSum (texts.map List.length)) i = some (offset texts i) := fun i hi => by
    rw [startAt_inclusiveSum (by rw [List.length_map]; exact hi.le), offset_eq]
  have hrow : ∀ i (hi : i < texts.length), ∃ c, convert (inclusiveSum (texts.map List.length)) i = some c ∧
      c.written.Perm (Scatter.place (offset texts i : ℤ) texts[i]) := by
    intro i hi
    obtain ⟨c, hc, hw⟩ := hconvert i hi _ _ (hstart i hi)
    exact ⟨c, hc, by simpa using hw.written⟩
  refine ⟨fun i hi => ?_, fun order horder => ?_⟩
  · obtain ⟨c, hc, hw⟩ := hrow i hi
    refine ⟨texts[i].length, offset texts i, c, hpredict i hi, hstart i hi, hc, ?_, ?_⟩
    · rw [hw.length_eq, Scatter.length_place]
    · rw [← map_fst_place]
      exact hw.map _
  · rw [convertColToWKTCol]
    split
    case isTrue h =>
      obtain rfl := List.length_eq_zero_iff.1 h
      rfl
    case isFalse h =>
      have hne : texts.map List.length ≠ [] := fun hnil => h (by rw [List.map_eq_nil_iff.1 hnil]; rfl)
      have htotal := last_inclusiveSum hne
      rw [List.length_map, ← List.length_flatten] at htotal
      have hsums : (texts.map fun t => (t.length : ℤ)).map Int.toNat = texts.map List.length := by
        rw [List.map_map]
        rfl
      rw [mapM_lengths hpredict]
      simp only [Option.bind_eq_bind, Option.bind_some, hsums, htotal]
      rw [Scatter.kernel_eq horder rfl fun i hi => ?_]
      · rfl
      · obtain ⟨c, hc, hw⟩ := hrow i hi
        exact ⟨c.written, by rw [hc]; rfl, by rwa [List.getD_eq_getElem _ _ hi]⟩

theorem writesPredicted_map {β : Type} {predict : ℕ → Option ℤ} {convert : List ℕ → ℕ → Option (State Char)}
    {rows : List β} {wkt : β → List Char}
    (hpredict : ∀ i (hi : i < rows.length), predict i = some ((wkt rows[i]).length : ℤ))
    (hconvert : ∀ i (hi : i < rows.length) sums begin, startAt sums i = some begin →
      ∃ c, convert sums i = some c ∧ Writes (wkt rows[i]) ⟨begin, []⟩ c) :
    WritesPredicted rows.length predict convert (rows.map wkt) := by
  have h : WritesPredicted (rows.map wkt).length predict convert (rows.map wkt) := writesPredicted (rows.map wkt)
    (fun i hi => by
      rw [List.getElem_map]
      exact hpredict i (by rwa [List.length_map] at hi))
    fun i hi sums begin hbegin => by
      rw [List.getElem_map]
      exact hconvert i (by rwa [List.length_map] at hi) sums begin hbegin
  rwa [List.length_map] at h

/-- the column of these complex polygons -/
def polygonColumn (rows : List (List Subpoly)) : GPUPolygon Point := ofRows (rows.map fun row => row.map Subtype.val)

theorem holdsRow_polygonColumn {rows : List (List Subpoly)} {i : ℕ} (h : i < rows.length) :
    ∃ first, (polygonColumn rows).HoldsRow i first (rows[i].map Subtype.val) := by
  have hrow := @holdsRow_ofRows _ (rows.map fun row => row.map Subtype.val) i (by rwa [List.length_map])
  rw [List.getElem_map] at hrow
  exact ⟨_, hrow⟩

/-- **Every row of a polygon column and of a point column writes exactly the chars that were counted for it.** -/
theorem predicted_is_written (rows : List (List Subpoly)) (points : List Point) :
    WritesPredicted rows.length (predictWktLength (polygonColumn rows)) (convertPolyToWkt (polygonColumn rows))
        (rows.map polygonText) ∧
      WritesPredicted points.length (predictPointWktLength points) (convertPointToWkt points)
        (points.map pointWkt) := by
  constructor
  · refine writesPredicted_map (fun i hi => ?_) fun i hi sums begin hbegin => ?_
    · obtain ⟨first, hrow⟩ := holdsRow_polygonColumn hi
      exact predictWktLength_eq hrow
    · obtain ⟨first, hrow⟩ := holdsRow_polygonColumn hi
      exact writes_convertPolyToWkt hrow hbegin
  · exact writesPredicted_map (fun _ hi => predictPointWktLength_eq hi) fun _ hi _ _ hbegin =>
      writes_convertPointToWkt hi hbegin

theorem latitude_range : |(1 / 2 : ℚ)| < 2 ^ 31 := by norm_num

theorem longitude_range : |(-12 : ℚ)| < 2 ^ 31 := by norm_num

/-- an empty row and one of a single point, written in the other order -/
theorem predicted_is_written_two :
    convertColToWKTCol 2
        (predictWktLength (polygonColumn [[], [⟨[⟨⟨1 / 2, latitude_range⟩, ⟨-12, longitude_range⟩⟩], by simp⟩]]))
        (convertPolyToWkt (polygonColumn [[], [⟨[⟨⟨1 / 2, latitude_range⟩, ⟨-12, longitude_range⟩⟩], by simp⟩]])) [1, 0] =
      some ([39, 43],
        "POLYGON((0.0000 0.0000, 0.0000 0.0000))POLYGON((0.5000 -12.0000, 0.5000 -12.0000))".toList, [39, 82]) := by
  have hlatitude : text ⟨1 / 2, latitude_range⟩ = "0.5000".toList := by
    have h1 : integerPart ⟨1 / 2, latitude_range⟩ = 0 := by norm_num [integerPart]
    have h2 : decimalPart ⟨1 / 2, latitude_range⟩ = 5000 := by
      norm_num [decimalPart, roundf, WKT_DECIMAL_PLACES, Int.fract]
      rfl
    rw [text, sign, if_neg (by norm_num), h1, h2]
    decide
  have hlongitude : text ⟨-12, longitude_range⟩ = "-12.0000".toList := by
    have h1 : integerPart ⟨-12, longitude_range⟩ = 12 := by
      norm_num [integerPart]
      rfl
    have h2 : decimalPart ⟨-12, longitude_range⟩ = 0 := by
      norm_num [decimalPart, roundf, WKT_DECIMAL_PLACES, Int.fract]
    rw [text, sign, if_pos (by norm_num), h1, h2]
    decide
  have hrow : polygonText [⟨[⟨⟨1 / 2, latitude_range⟩, ⟨-12, longitude_range⟩⟩], by simp⟩] =
      "POLYGON((0.5000 -12.0000, 0.5000 -12.0000))".toList := by
    rw [polygonText, if_neg (List.cons_ne_nil _ _), List.map_singleton, List.intercalate_singleton, subpolyText,
      List.flatMap_singleton, Subpoly.first, List.head_cons, pointText, hlatitude, hlongitude]
    decide
  refine ((predicted_is_written [[], [⟨[⟨⟨1 / 2, latitude_range⟩, ⟨-12, longitude_range⟩⟩], by simp⟩]] []).1.2 [1, 0]
    (by decide)).trans ?_
  simp only [List.map_cons, List.map_nil, hrow]
  decide

end QikkDB.PolygonToWkt

/-
Crossings of line segments and of rays in the plane over an ordered field, and their parity along closed polygons.

A ray goes from a point towards greater first coordinates. An edge has a begin and an end; whether it meets the ray is
decided by the second coordinates, the lower end belonging to the edge and the upper one not.

- `mem_segment_box`: a point is on a segment if it is on its line and in its box.
- `parity_edge`: how often an edge meets a segment and the rays from its two ends, up to where the ends of the edge lie.
- `parity_rings`: a segment crosses closed polygons an odd number of times if and only if one of its ends is inside.
- `properCross_pointOn`: the crossings on a part of a segment are those whose place is in front of its end.
-/
import Mathlib.Tactic

namespace Planar

/-! ## Parity -/

section Parity

variable {α β : Type*}

/-- an odd number of the list's elements has the property -/
def parity (f : α → Bool) (l : List α) : Bool := (l.countP f).bodd

variable {f g : α → Bool} {l l' : List α}

@[simp] theorem parity_nil (f : α → Bool) : parity f [] = false := by
  rw [parity, List.countP_nil, Nat.bodd_zero]

theorem parity_cons (f : α → Bool) (x : α) (l : List α) : parity f (x :: l) = (f x ^^ parity f l) := by
  rw [parity, List.countP_cons, Nat.bodd_add, Bool.xor_comm]
  cases f x <;> rfl

theorem parity_append (f : α → Bool) (l l' : List α) : parity f (l ++ l') = (parity f l ^^ parity f l') := by
  rw [parity, List.countP_append, Nat.bodd_add]
  rfl

theorem parity_perm (f : α → Bool) (h : l.Perm l') : parity f l = parity f l' := by
  rw [parity, h.countP_eq]
  rfl

theorem parity_congr (h : ∀ x ∈ l, f x = g x) : parity f l = parity g l := by
  rw [parity, List.countP_congr fun x hx => by rw [h x hx]]
  rfl

theorem parity_map (f : β → Bool) (g : α → β) (l : List α) : parity f (l.map g) = parity (fun x => f (g x)) l := by
  rw [parity, List.countP_map]
  rfl

theorem parity_xor (f g : α → Bool) (l : List α) :
    parity (fun x => f x ^^ g x) l = (parity f l ^^ parity g l) := by
  induction l with
  | nil => simp
  | cons x l ih =>
    rw [parity_cons, parity_cons, parity_cons, ih]
    cases f x <;> cases g x <;> simp

theorem parity_and (b : Bool) (f : α → Bool) (l : List α) : parity (fun x => b && f x) l = (b && parity f l) := by
  cases b <;> simp [parity]

theorem parity_false (l : List α) : parity (fun _ => false) l = false := by
  simp [parity]

theorem parity_filter (p f : α → Bool) (l : List α) : parity f (l.filter p) = parity (fun x => f x && p x) l := by
  rw [parity, List.countP_filter]
  rfl

/-- rows and columns -/
theorem parity_comm (f : α → β → Bool) (l : List α) (l' : List β) :
    parity (fun x => parity (f x) l') l = parity (fun y => parity (fun x => f x y) l) l' := by
  induction l with
  | nil => simp only [parity_nil, parity_false]
  | cons x l ih => simp only [parity_cons, parity_xor, ih]

theorem parity_flatMap (f : β → Bool) (g : α → List β) (l : List α) :
    parity f (l.flatMap g) = parity (fun x => parity f (g x)) l := by
  induction l with
  | nil => rw [List.flatMap_nil, parity_nil, parity_nil]
  | cons x l ih => rw [List.flatMap_cons, parity_append, parity_cons, ih]

theorem parity_flatten (f : α → Bool) (ls : List (List α)) : parity f ls.flatten = parity (fun l => parity f l) ls := by
  rw [← List.flatMap_id, parity_flatMap]
  rfl

/-- one element has a key -/
theorem parity_key {κ : Type*} [DecidableEq κ] {key : α → κ} (hnodup : (l.map key).Nodup) {a : α} (ha : a ∈ l)
    (g : α → Bool) :
    parity (fun x => decide (key x = key a) && g x) l = g a := by
  induction l with
  | nil => exact absurd ha List.not_mem_nil
  | cons x l ih =>
    rw [List.map_cons, List.nodup_cons] at hnodup
    rw [parity_cons]
    rcases List.mem_cons.1 ha with rfl | ha
    · have hnone : parity (fun x => decide (key x = key a) && g x) l = parity (fun _ => false) l := by
        refine parity_congr fun x hx => ?_
        have hne : key x ≠ key a := fun heq => hnodup.1 (heq ▸ List.mem_map_of_mem hx)
        rw [decide_eq_false hne, Bool.false_and]
      rw [hnone, parity_false, decide_eq_true rfl, Bool.true_and, Bool.xor_false]
    · have hne : key x ≠ key a := fun heq => hnodup.1 (heq ▸ List.mem_map_of_mem ha)
      rw [ih hnodup.2 ha, decide_eq_false hne, Bool.false_and, Bool.false_xor]

/-- the places of a list -/
theorem parity_range {f : ℕ → Bool} (h : ∀ k (hk : k < l.length), f k = g l[k]) :
    parity f (List.range l.length) = parity g l := by
  conv_rhs => rw [← List.map_get_finRange l]
  rw [← List.map_coe_finRange_eq_range, parity_map, parity_map]
  exact parity_congr fun k _ => h k k.isLt

/-- a loop that changes a truth value at some of the elements -/
theorem foldl_parity (f : α → Bool) (b : Bool) (l : List α) :
    l.foldl (fun b x => if f x then !b else b) b = (b ^^ parity f l) := by
  induction l generalizing b with
  | nil => simp
  | cons x l ih =>
    rw [List.foldl_cons, ih, parity_cons]
    cases f x <;> simp

theorem parity_false_iff : parity f l = false ↔ Even (l.countP f) := by
  rw [parity, Nat.even_iff, Nat.mod_two_of_bodd]
  cases (l.countP f).bodd <;> simp

/-- what is counted at the begin and at the end of each edge of closed polygons -/
theorem parity_closed {edges : List (α × α)} (h : (edges.map Prod.fst).Perm (edges.map Prod.snd)) (f : α → Bool) :
    parity (fun e => f e.1 ^^ f e.2) edges = false := by
  rw [parity_xor, ← parity_map f Prod.fst, ← parity_map f Prod.snd, parity_perm f h, Bool.xor_self]

end Parity

variable {K : Type*} [Field K] [LinearOrder K] [IsStrictOrderedRing K]

/-- twice the area of a triangle, positive if it goes round counterclockwise -/
def orient (p q r : K × K) : K := (q.1 - p.1) * (r.2 - p.2) - (q.2 - p.2) * (r.1 - p.1)

/-- the point of the line from `p` to `q` at a part of the way -/
def pointOn (p q : K × K) (t : K) : K × K := (p.1 + t * (q.1 - p.1), p.2 + t * (q.2 - p.2))

/-- two segments cross in a point inside of both -/
def properCross (p q u v : K × K) : Bool :=
  decide (orient p q u * orient p q v < 0 ∧ orient u v p * orient u v q < 0)

/-- an edge meets the ray from `p` -/
def rayCross (p u v : K × K) : Bool :=
  (decide (p.2 < u.2) != decide (p.2 < v.2)) && decide (p.1 < (v.1 - u.1) * (p.2 - u.2) / (v.2 - u.2) + u.1)

/-- two heights are on different sides of an end, and the first one goes with `s` -/
def meets (h h' s : Bool) : Bool := (h != h') && (h == s)

/-- a point lies between the rays from `p` and `q`, on the side of the segment to which they go -/
def between (p q u : K × K) : Bool :=
  meets (decide (p.2 < u.2)) (decide (q.2 < u.2)) (decide (orient p q u < 0))

variable {p q u v w : K × K}

omit [LinearOrder K] [IsStrictOrderedRing K] in
theorem orient_swap (p q r : K × K) : orient q p r = -orient p q r := by
  simp only [orient]
  ring

omit [IsStrictOrderedRing K] in
theorem properCross_comm (p q u v : K × K) : properCross u v p q = properCross p q u v :=
  decide_eq_decide.2 and_comm

/-! ## Points on segments -/

theorem mem_segment_iff : w ∈ segment K p q ↔ ∃ t, 0 ≤ t ∧ t ≤ 1 ∧ pointOn p q t = w := by
  rw [segment_eq_image']
  exact ⟨fun ⟨t, ht, hw⟩ => ⟨t, ht.1, ht.2, hw⟩, fun ⟨t, h0, h1, hw⟩ => ⟨t, ⟨h0, h1⟩, hw⟩⟩

omit [IsStrictOrderedRing K] in
theorem mem_segment_comm : w ∈ segment K q p ↔ w ∈ segment K p q := by
  rw [segment_symm]

/-- a point of the line at a height between those of the ends -/
theorem mem_segment_of_height (h : orient p q w = 0) (hpq : p.2 < q.2) (hp : p.2 ≤ w.2) (hq : w.2 ≤ q.2) :
    w ∈ segment K p q := by
  have hpos : 0 < q.2 - p.2 := sub_pos.2 hpq
  refine mem_segment_iff.2 ⟨(w.2 - p.2) / (q.2 - p.2), div_nonneg (sub_nonneg.2 hp) hpos.le,
    (div_le_one hpos).2 (by linarith),
    Prod.ext ?_ ?_⟩
  · rw [orient] at h
    simp only [pointOn]
    field_simp
    linear_combination h
  · simp only [pointOn]
    field_simp
    ring

/-- a point between two others at the same height -/
theorem mem_segment_of_level (hp : p.2 = w.2) (hq : q.2 = w.2) (hl : p.1 ≤ w.1) (hr : w.1 ≤ q.1) :
    w ∈ segment K p q := by
  rcases eq_or_lt_of_le hl with heq | hlt
  · exact Prod.ext heq hp ▸ left_mem_segment K p q
  · have hpos : 0 < q.1 - p.1 := by linarith
    refine mem_segment_iff.2 ⟨(w.1 - p.1) / (q.1 - p.1), div_nonneg (by linarith) hpos.le,
      (div_le_one hpos).2 (by linarith),
      Prod.ext ?_ ?_⟩
    · simp only [pointOn]
      field_simp
      ring
    · simp only [pointOn]
      rw [hp, hq, sub_self, mul_zero, add_zero]

/-- **A point is on a segment** if it is on its line and in its box. -/
theorem mem_segment_box : w ∈ segment K p q ↔ orient p q w = 0 ∧ (min p.1 q.1 ≤ w.1 ∧ w.1 ≤ max p.1 q.1) ∧
    (min p.2 q.2 ≤ w.2 ∧ w.2 ≤ max p.2 q.2) := by
  constructor
  · intro hmem
    obtain ⟨t, h0, h1, rfl⟩ := mem_segment_iff.1 hmem
    have hbox : ∀ x y : K, min x y ≤ x + t * (y - x) ∧ x + t * (y - x) ≤ max x y := fun x y => by
      rcases le_total x y with hle | hle
      · rw [min_eq_left hle, max_eq_right hle]
        have hmul := mul_nonneg h0 (sub_nonneg.2 hle)
        have hmul' := mul_nonneg (sub_nonneg.2 h1) (sub_nonneg.2 hle)
        exact ⟨by linarith, by linarith⟩
      · rw [min_eq_right hle, max_eq_left hle]
        have hmul := mul_nonneg h0 (sub_nonneg.2 hle)
        have hmul' := mul_nonneg (sub_nonneg.2 h1) (sub_nonneg.2 hle)
        exact ⟨by linarith, by linarith⟩
    refine ⟨?_, hbox p.1 q.1, hbox p.2 q.2⟩
    simp only [orient, pointOn]
    ring
  · rintro ⟨horient, ⟨hx, hx'⟩, hy, hy'⟩
    rcases lt_trichotomy p.2 q.2 with hlt | heq | hgt
    · rw [min_eq_left hlt.le] at hy
      rw [max_eq_right hlt.le] at hy'
      exact mem_segment_of_height horient hlt hy hy'
    · rw [← heq, min_self] at hy
      rw [← heq, max_self] at hy'
      have hp : p.2 = w.2 := le_antisymm hy hy'
      have hq : q.2 = w.2 := heq.symm.trans hp
      rcases le_total p.1 q.1 with hle | hle
      · rw [min_eq_left hle] at hx
        rw [max_eq_right hle] at hx'
        exact mem_segment_of_level hp hq hx hx'
      · rw [min_eq_right hle] at hx
        rw [max_eq_left hle] at hx'
        exact mem_segment_comm.1 (mem_segment_of_level hq hp hx hx')
    · rw [min_eq_right hgt.le] at hy
      rw [max_eq_left hgt.le] at hy'
      rw [← neg_eq_zero, ← orient_swap] at horient
      exact mem_segment_comm.1 (mem_segment_of_height horient hgt hy hy')

instance decidableMemSegment (p q w : K × K) : Decidable (w ∈ segment K p q) := decidable_of_iff' _ mem_segment_box

/-! ## One edge -/

section Edge

variable {a b c d py qy uy vy : K}

/-- what the places of four points to each other have to do with their heights; `a`, `b` are those of `u`, `v` to the
segment from `p` to `q`, `c`, `d` those of `p`, `q` to the segment from `u` to `v` -/
structure Places (a b c d py qy uy vy : K) : Prop where
  sum : a + c = b + d
  moment : c * qy + a * vy = d * py + b * uy

omit [LinearOrder K] [IsStrictOrderedRing K] in
theorem places (p q u v : K × K) :
    Places (orient p q u) (orient p q v) (orient u v p) (orient u v q) p.2 q.2 u.2 v.2 where
  sum := by
    simp only [orient]
    ring
  moment := by
    simp only [orient]
    ring

omit [LinearOrder K] [IsStrictOrderedRing K] in
theorem Places.shift (h : Places a b c d py qy uy vy) (s : K) :
    c * (qy - s) + a * (vy - s) = d * (py - s) + b * (uy - s) := by
  linear_combination h.moment - s * h.sum

/-- both signs changed -/
theorem Places.neg (h : Places a b c d py qy uy vy) : Places (-a) (-b) (-c) (-d) py qy uy vy where
  sum := by linear_combination -h.sum
  moment := by linear_combination -h.moment

/-- signs of a crossing: `u` and `p` lie on different sides -/
theorem Places.crossing (h : Places a b c d py qy uy vy) (hab : a * b < 0) (hcd : c * d < 0) :
    (a < 0 ∧ 0 < b ∧ 0 < c ∧ d < 0) ∨ (0 < a ∧ b < 0 ∧ c < 0 ∧ 0 < d) := by
  have hsum := h.sum
  rcases mul_neg_iff.1 hab with ⟨ha, hb⟩ | ⟨ha, hb⟩ <;> rcases mul_neg_iff.1 hcd with ⟨hc, hd⟩ | ⟨hc, hd⟩
  · exact absurd hsum (by linarith)
  · exact .inr ⟨ha, hb, hc, hd⟩
  · exact .inl ⟨ha, hb, hc, hd⟩
  · exact absurd hsum (by linarith)

/-- no edge below -/
theorem Places.below (h : Places a b c d py qy uy vy) (hpq : py ≤ qy) (hu : uy ≤ py) (hv : vy ≤ py)
    (hlevel : uy = py → vy = py → qy = py → a = 0) : ¬ (a < 0 ∧ 0 < b ∧ 0 < c ∧ d < 0) := by
  rintro ⟨ha, hb, hc, -⟩
  have hshift := h.shift py
  have hq := mul_nonneg hc.le (sub_nonneg.2 hpq)
  have hvy := mul_nonneg_of_nonpos_of_nonpos ha.le (sub_nonpos.2 hv)
  have huy := mul_nonpos_of_nonneg_of_nonpos hb.le (sub_nonpos.2 hu)
  rw [sub_self, mul_zero, zero_add] at hshift
  have hq0 : c * (qy - py) = 0 := by linarith
  have hv0 : a * (vy - py) = 0 := by linarith
  have hu0 : b * (uy - py) = 0 := by linarith
  have hq1 := (mul_eq_zero.1 hq0).resolve_left hc.ne'
  have hv1 := (mul_eq_zero.1 hv0).resolve_left ha.ne
  have hu1 := (mul_eq_zero.1 hu0).resolve_left hb.ne'
  exact ha.ne (hlevel (sub_eq_zero.1 hu1) (sub_eq_zero.1 hv1) (sub_eq_zero.1 hq1))

/-- nor above -/
theorem Places.above (h : Places a b c d py qy uy vy) (hpq : py ≤ qy) (hu : qy < uy) (hv : qy < vy) :
    ¬ (a < 0 ∧ 0 < b ∧ 0 < c ∧ d < 0) := by
  rintro ⟨ha, hb, -, hd⟩
  have hshift := h.shift qy
  have hvy := mul_neg_of_neg_of_pos ha (sub_pos.2 hv)
  have hpy := mul_nonneg_of_nonpos_of_nonpos hd.le (sub_nonpos.2 hpq)
  have huy := mul_pos hb (sub_pos.2 hu)
  rw [sub_self, mul_zero, zero_add] at hshift
  linarith

/-- an edge that comes up between the two heights -/
theorem Places.entering (h : Places a b c d py qy uy vy) (hu : uy ≤ py) (hp : py < vy) (hv : vy ≤ qy) (hb : 0 < b)
    (hc : 0 < c) : a < 0 ∧ d < 0 := by
  have hshift := h.shift py
  have hshift' := h.shift vy
  have hq := mul_pos hc (show 0 < qy - py by linarith)
  have huy := mul_nonpos_of_nonneg_of_nonpos hb.le (sub_nonpos.2 hu)
  rw [sub_self, mul_zero, zero_add] at hshift
  rw [sub_self, mul_zero, add_zero] at hshift'
  have hav : a * (vy - py) < 0 := by linarith
  have hqv := mul_nonneg hc.le (sub_nonneg.2 hv)
  have huv := mul_neg_of_pos_of_neg hb (show uy - vy < 0 by linarith)
  have hdp : 0 < d * (py - vy) := by linarith
  exact ⟨neg_of_mul_neg_left hav (by linarith), neg_of_mul_pos_left hdp (by linarith)⟩

/-- an edge that goes on above -/
theorem Places.leaving (h : Places a b c d py qy uy vy) (hu : py < uy) (hq : uy ≤ qy) (hv : qy < vy) (ha : 0 < a)
    (hd : 0 < d) : b < 0 ∧ c < 0 := by
  have hshift := h.shift uy
  have hshift' := h.shift qy
  have hav := mul_pos ha (show 0 < vy - uy by linarith)
  have hdp := mul_neg_of_pos_of_neg hd (show py - uy < 0 by linarith)
  rw [sub_self, mul_zero, add_zero] at hshift
  rw [sub_self, mul_zero, zero_add] at hshift'
  have hcq : c * (qy - uy) < 0 := by linarith
  have hav' := mul_pos ha (sub_pos.2 hv)
  have hdp' := mul_nonpos_of_nonneg_of_nonpos hd.le (show py - qy ≤ 0 by linarith)
  have hbu : 0 < b * (uy - qy) := by linarith
  exact ⟨neg_of_mul_pos_left hbu (sub_nonpos.2 hq), neg_of_mul_neg_left hcq (sub_nonneg.2 hq)⟩

/-- an edge from below to above -/
theorem Places.through (h : Places a b c d py qy uy vy) (hpq : py ≤ qy) (hu : uy ≤ py) (hv : qy < vy)
    (hlevel : py = uy → qy = uy → ¬ (0 < c ∧ d < 0)) (hc : 0 < c) (hd : d < 0) : a < 0 ∧ 0 < b := by
  have hshift := h.shift uy
  have hshift' := h.shift vy
  have huv : uy < vy := by linarith
  have hcq := mul_nonneg hc.le (show 0 ≤ qy - uy by linarith)
  have hdp := mul_nonpos_of_nonpos_of_nonneg hd.le (sub_nonneg.2 hu)
  rw [sub_self, mul_zero, add_zero] at hshift
  rw [sub_self, mul_zero, add_zero] at hshift'
  have hcq' := mul_neg_of_pos_of_neg hc (show qy - vy < 0 by linarith)
  have hdp' := mul_pos_of_neg_of_neg hd (show py - vy < 0 by linarith)
  have hb : b * (uy - vy) < 0 := by linarith
  have hane : a ≠ 0 := fun ha => by
    rw [ha, zero_mul, add_zero] at hshift
    have hq0 : c * (qy - uy) = 0 := by linarith
    have hp0 : d * (py - uy) = 0 := by linarith
    have hq1 := (mul_eq_zero.1 hq0).resolve_left hc.ne'
    have hp1 := (mul_eq_zero.1 hp0).resolve_left hd.ne
    exact hlevel (sub_eq_zero.1 hp1) (sub_eq_zero.1 hq1) ⟨hc, hd⟩
  have ha : a * (vy - uy) ≤ 0 := by linarith
  have hale : a ≤ 0 := nonpos_of_mul_nonpos_left ha (by linarith)
  exact ⟨lt_of_le_of_ne hale hane, pos_of_mul_neg_left hb (by linarith)⟩

/-- an edge between the two heights -/
theorem Places.inside (h : Places a b c d py qy uy vy) (hu : py < uy) (hu' : uy ≤ qy) (hv : py < vy) (hv' : vy ≤ qy)
    (hlevel : uy = qy → vy = qy → ¬ (a < 0 ∧ 0 < b)) (ha : a < 0) (hb : 0 < b) : 0 < c ∧ d < 0 := by
  have hshift := h.shift py
  have hshift' := h.shift qy
  rw [sub_self, mul_zero, zero_add] at hshift
  rw [sub_self, mul_zero, zero_add] at hshift'
  have hav := mul_neg_of_neg_of_pos ha (sub_pos.2 hv)
  have hbu := mul_pos hb (sub_pos.2 hu)
  have hc : 0 < c * (qy - py) := by linarith
  have hav' := mul_nonneg_of_nonpos_of_nonpos ha.le (sub_nonpos.2 hv')
  have hbu' := mul_nonpos_of_nonneg_of_nonpos hb.le (sub_nonpos.2 hu')
  have hd : 0 ≤ d * (py - qy) := by linarith
  have hpq : py < qy := by linarith
  have hdne : d ≠ 0 := fun hd0 => by
    rw [hd0, zero_mul, zero_add] at hshift'
    have hv0 : a * (vy - qy) = 0 := by linarith
    have hu0 : b * (uy - qy) = 0 := by linarith
    have hv1 := (mul_eq_zero.1 hv0).resolve_left ha.ne
    have hu1 := (mul_eq_zero.1 hu0).resolve_left hb.ne'
    exact hlevel (sub_eq_zero.1 hu1) (sub_eq_zero.1 hv1) ⟨ha, hb⟩
  have hdle : d ≤ 0 := nonpos_of_mul_nonneg_left hd (by linarith)
  exact ⟨pos_of_mul_pos_left hc (by linarith), lt_of_le_of_ne hdle hdne⟩

/-- no point of the four lies on the segment of the others -/
structure Apart (a b c d py qy uy vy : K) : Prop where
  begEdge : ¬ (py < uy ↔ qy < uy) → a ≠ 0
  endEdge : ¬ (py < vy ↔ qy < vy) → b ≠ 0
  begSegment : ¬ (py < uy ↔ py < vy) → c ≠ 0
  endSegment : ¬ (qy < uy ↔ qy < vy) → d ≠ 0
  flatEdge : uy = vy → uy = py ∨ uy = qy → ¬ a * b < 0
  flatSegment : py = qy → py = uy ∨ py = vy → ¬ c * d < 0

theorem meets_self (h s : Bool) : meets h h s = false := by
  simp [meets]

theorem meets_true_false (s : Bool) : meets true false s = s := by
  cases s <;> rfl

theorem meets_swap {h h' s s' : Bool} (hs : h ≠ h' → s' = !s) : meets h' h s' = meets h h' s := by
  by_cases heq : h = h'
  · rw [heq]
    simp [meets]
  · rw [hs heq]
    cases h <;> cases h' <;> cases s <;> simp_all [meets]

omit [IsStrictOrderedRing K] in
theorem decide_pos_neg {x : K} (h : x ≠ 0) : decide (0 < x) = !decide (x < 0) := by
  rcases lt_or_gt_of_ne h with hneg | hpos
  · simp [hneg, hneg.le]
  · simp [hpos, hpos.le]

/-- where the edge meets the segment or one of the rays, and where its ends lie -/
def EdgeParity (a b c d py qy uy vy : K) : Prop :=
  decide (a * b < 0 ∧ c * d < 0) =
    ((meets (decide (py < vy)) (decide (py < uy)) (decide (0 < c)) ^^
      meets (decide (qy < vy)) (decide (qy < uy)) (decide (0 < d))) ^^
    (meets (decide (py < uy)) (decide (qy < uy)) (decide (a < 0)) ^^
      meets (decide (py < vy)) (decide (qy < vy)) (decide (b < 0))))

/-- signs of the two ends that make a crossing -/
theorem Places.decide_crossing (h : Places a b c d py qy uy vy) {x y : Prop} [Decidable x] [Decidable y]
    (hpos : x ∧ y ↔ a < 0 ∧ 0 < b ∧ 0 < c ∧ d < 0) (hneg : ¬ x ∧ ¬ y ↔ 0 < a ∧ b < 0 ∧ c < 0 ∧ 0 < d) :
    decide (a * b < 0 ∧ c * d < 0) = (decide x ^^ !decide y) := by
  have hiff : (a * b < 0 ∧ c * d < 0) ↔ (x ↔ y) := by
    constructor
    · intro hx
      rcases h.crossing hx.1 hx.2 with hs | hs
      · exact iff_of_true (hpos.2 hs).1 (hpos.2 hs).2
      · exact iff_of_false (hneg.2 hs).1 (hneg.2 hs).2
    · intro hxy
      by_cases hx : x
      · obtain ⟨ha, hb, hc, hd⟩ := hpos.1 ⟨hx, hxy.1 hx⟩
        exact ⟨mul_neg_of_neg_of_pos ha hb, mul_neg_of_pos_of_neg hc hd⟩
      · obtain ⟨ha, hb, hc, hd⟩ := hneg.1 ⟨hx, fun hy => hx (hxy.2 hy)⟩
        exact ⟨mul_neg_of_pos_of_neg ha hb, mul_neg_of_neg_of_pos hc hd⟩
  by_cases hx : x <;> by_cases hy : y <;> simp only [hiff, hx, hy] <;> rfl

/-- the edge and the segment go up -/
theorem Places.edgeParity_sorted (h : Places a b c d py qy uy vy) (hapart : Apart a b c d py qy uy vy) (hpq : py ≤ qy)
    (huv : uy ≤ vy) : EdgeParity a b c d py qy uy vy := by
  rw [EdgeParity]
  have hneg : ∀ {x : K}, x ≠ 0 → (¬ x < 0 ↔ 0 < x) := fun hx =>
    ⟨fun hlt => lt_of_le_of_ne (not_lt.1 hlt) hx.symm, fun hlt => hlt.not_gt⟩
  have hpos : ∀ {x : K}, x ≠ 0 → (¬ 0 < x ↔ x < 0) := fun hx =>
    ⟨fun hlt => lt_of_le_of_ne (not_lt.1 hlt) hx, fun hlt => hlt.not_gt⟩
  by_cases hpu : py < uy
  · have hpv : py < vy := hpu.trans_le huv
    by_cases hqu : qy < uy
    · -- both ends above
      have hqv : qy < vy := hqu.trans_le huv
      have hnot : ¬ (a * b < 0 ∧ c * d < 0) := fun hx => by
        rcases h.crossing hx.1 hx.2 with hsign | ⟨ha, hb, hc, hd⟩
        · exact h.above hpq hqu hqv hsign
        · exact h.neg.above hpq hqu hqv ⟨neg_lt_zero.2 ha, neg_pos.2 hb, neg_pos.2 hc, neg_lt_zero.2 hd⟩
      simp [meets_self, hpu, hpv, hqu, hqv, hnot]
    · have ha := hapart.begEdge (by simp [hpu, hqu])
      by_cases hqv : qy < vy
      · -- the first end between the heights, the other one above
        have hd := hapart.endSegment (by simp [hqu, hqv])
        rw [h.decide_crossing (x := a < 0) (y := d < 0)]
        · simp [meets_self, meets_true_false, hpu, hpv, hqu, hqv, decide_pos_neg hd, Bool.xor_comm]
        · refine ⟨fun hx => ?_, fun hs => ⟨hs.1, hs.2.2.2⟩⟩
          obtain ⟨hb, hc⟩ := h.neg.leaving hpu (not_lt.1 hqu) hqv (neg_pos.2 hx.1) (neg_pos.2 hx.2)
          exact ⟨hx.1, neg_lt_zero.1 hb, neg_lt_zero.1 hc, hx.2⟩
        · rw [hneg ha, hneg hd]
          refine ⟨fun hx => ?_, fun hs => ⟨hs.1, hs.2.2.2⟩⟩
          obtain ⟨hb, hc⟩ := h.leaving hpu (not_lt.1 hqu) hqv hx.1 hx.2
          exact ⟨hx.1, hb, hc, hx.2⟩
      · -- both ends between the heights
        have hb := hapart.endEdge (by simp [hpv, hqv])
        have hflat : uy = qy → vy = qy → ¬ a * b < 0 := fun hu hv => hapart.flatEdge (hu.trans hv.symm) (.inr hu)
        rw [h.decide_crossing (x := a < 0) (y := 0 < b)]
        · simp [meets_self, meets_true_false, hpu, hpv, hqu, hqv, decide_pos_neg hb]
        · refine ⟨fun hx => ?_, fun hs => ⟨hs.1, hs.2.1⟩⟩
          obtain ⟨hc, hd⟩ := h.inside hpu (not_lt.1 hqu) hpv (not_lt.1 hqv)
            (fun hu hv hs => hflat hu hv (mul_neg_of_neg_of_pos hs.1 hs.2)) hx.1 hx.2
          exact ⟨hx.1, hx.2, hc, hd⟩
        · rw [hneg ha, hpos hb]
          refine ⟨fun hx => ?_, fun hs => ⟨hs.1, hs.2.1⟩⟩
          obtain ⟨hc, hd⟩ := h.neg.inside hpu (not_lt.1 hqu) hpv (not_lt.1 hqv)
            (fun hu hv hs => hflat hu hv (mul_neg_of_pos_of_neg (neg_lt_zero.1 hs.1) (neg_pos.1 hs.2)))
            (neg_lt_zero.2 hx.1) (neg_pos.2 hx.2)
          exact ⟨hx.1, hx.2, neg_pos.1 hc, neg_lt_zero.1 hd⟩
  · have hqu : ¬ qy < uy := fun hlt => hpu (hpq.trans_lt hlt)
    by_cases hpv : py < vy
    · have hc := hapart.begSegment (by simp [hpu, hpv])
      by_cases hqv : qy < vy
      · -- from below to above
        have hd := hapart.endSegment (by simp [hqu, hqv])
        have hflat : py = uy → qy = uy → ¬ c * d < 0 := fun hp hq => hapart.flatSegment (hp.trans hq.symm) (.inl hp)
        rw [h.decide_crossing (x := 0 < c) (y := d < 0)]
        · simp [meets_self, meets_true_false, hpu, hpv, hqu, hqv, decide_pos_neg hd, Bool.xor_comm]
        · refine ⟨fun hx => ?_, fun hs => hs.2.2⟩
          obtain ⟨ha, hb⟩ := h.through hpq (not_lt.1 hpu) hqv
            (fun hp hq hs => hflat hp hq (mul_neg_of_pos_of_neg hs.1 hs.2)) hx.1 hx.2
          exact ⟨ha, hb, hx⟩
        · rw [hpos hc, hneg hd]
          refine ⟨fun hx => ?_, fun hs => hs.2.2⟩
          obtain ⟨ha, hb⟩ := h.neg.through hpq (not_lt.1 hpu) hqv
            (fun hp hq hs => hflat hp hq (mul_neg_of_neg_of_pos (neg_pos.1 hs.1) (neg_lt_zero.1 hs.2)))
            (neg_pos.2 hx.1) (neg_lt_zero.2 hx.2)
          exact ⟨neg_lt_zero.1 ha, neg_pos.1 hb, hx⟩
      · -- from below to between the heights
        have hb := hapart.endEdge (by simp [hpv, hqv])
        rw [h.decide_crossing (x := 0 < b) (y := 0 < c)]
        · simp [meets_self, meets_true_false, hpu, hpv, hqu, hqv, decide_pos_neg hb, Bool.xor_comm]
        · refine ⟨fun hx => ?_, fun hs => ⟨hs.2.1, hs.2.2.1⟩⟩
          obtain ⟨ha, hd⟩ := h.entering (not_lt.1 hpu) hpv (not_lt.1 hqv) hx.1 hx.2
          exact ⟨ha, hx.1, hx.2, hd⟩
        · rw [hpos hb, hpos hc]
          refine ⟨fun hx => ?_, fun hs => ⟨hs.2.1, hs.2.2.1⟩⟩
          obtain ⟨ha, hd⟩ := h.neg.entering (not_lt.1 hpu) hpv (not_lt.1 hqv) (neg_pos.2 hx.1) (neg_pos.2 hx.2)
          exact ⟨neg_lt_zero.1 ha, hx.1, hx.2, neg_lt_zero.1 hd⟩
    · -- both ends below
      have hqv : ¬ qy < vy := fun hlt => hpv (hpq.trans_lt hlt)
      have hflat : uy = py → vy = py → qy = py → ¬ a * b < 0 := fun hu hv _ =>
        hapart.flatEdge (hu.trans hv.symm) (.inl hu)
      have hnot : ¬ (a * b < 0 ∧ c * d < 0) := fun hx => by
        rcases h.crossing hx.1 hx.2 with hsign | ⟨ha, hb, hc, hd⟩
        · exact h.below hpq (not_lt.1 hpu) (not_lt.1 hpv) (fun hu hv hq => absurd hx.1 (hflat hu hv hq)) hsign
        · exact h.neg.below hpq (not_lt.1 hpu) (not_lt.1 hpv) (fun hu hv hq => absurd hx.1 (hflat hu hv hq))
            ⟨neg_lt_zero.2 ha, neg_pos.2 hb, neg_pos.2 hc, neg_lt_zero.2 hd⟩
      simp [meets_self, hpu, hpv, hqu, hqv, hnot]

theorem Places.swap (h : Places a b c d py qy uy vy) : Places (-a) (-b) d c qy py uy vy where
  sum := by linear_combination -h.sum
  moment := by linear_combination -h.moment

omit [IsStrictOrderedRing K] in
theorem Apart.swap (h : Apart a b c d py qy uy vy) : Apart (-a) (-b) d c qy py uy vy where
  begEdge hne := neg_ne_zero.2 (h.begEdge fun hiff => hne hiff.symm)
  endEdge hne := neg_ne_zero.2 (h.endEdge fun hiff => hne hiff.symm)
  begSegment := h.endSegment
  endSegment := h.begSegment
  flatEdge huv hor := by
    rw [neg_mul_neg]
    exact h.flatEdge huv hor.symm
  flatSegment hpq hor := by
    rw [mul_comm]
    exact h.flatSegment hpq.symm (hpq ▸ hor)

/-- the other direction of the segment -/
theorem EdgeParity.swap (h : EdgeParity (-a) (-b) d c qy py uy vy) (hapart : Apart a b c d py qy uy vy) :
    EdgeParity a b c d py qy uy vy := by
  have ha : decide (py < uy) ≠ decide (qy < uy) → decide (-a < 0) = !decide (a < 0) := fun hne => by
    rw [← decide_pos_neg (hapart.begEdge fun hiff => hne (decide_eq_decide.2 hiff))]
    exact decide_eq_decide.2 neg_lt_zero
  have hb : decide (py < vy) ≠ decide (qy < vy) → decide (-b < 0) = !decide (b < 0) := fun hne => by
    rw [← decide_pos_neg (hapart.endEdge fun hiff => hne (decide_eq_decide.2 hiff))]
    exact decide_eq_decide.2 neg_lt_zero
  rw [EdgeParity, neg_mul_neg, mul_comm d c, meets_swap ha, meets_swap hb] at h
  rw [EdgeParity, h, Bool.xor_comm (meets (decide (qy < vy)) _ _)]

theorem Places.swapEdge (h : Places a b c d py qy uy vy) : Places b a (-c) (-d) py qy vy uy where
  sum := by linear_combination -h.sum
  moment := by linear_combination -h.moment

omit [IsStrictOrderedRing K] in
theorem Apart.swapEdge (h : Apart a b c d py qy uy vy) : Apart b a (-c) (-d) py qy vy uy where
  begEdge := h.endEdge
  endEdge := h.begEdge
  begSegment hne := neg_ne_zero.2 (h.begSegment fun hiff => hne hiff.symm)
  endSegment hne := neg_ne_zero.2 (h.endSegment fun hiff => hne hiff.symm)
  flatEdge huv hor := by
    rw [mul_comm]
    exact h.flatEdge huv.symm (huv ▸ hor)
  flatSegment hpq hor := by
    rw [neg_mul_neg]
    exact h.flatSegment hpq hor.symm

/-- the other direction of the edge -/
theorem EdgeParity.swapEdge (h : EdgeParity b a (-c) (-d) py qy vy uy) (hapart : Apart a b c d py qy uy vy) :
    EdgeParity a b c d py qy uy vy := by
  have hc : decide (py < vy) ≠ decide (py < uy) → decide (0 < -c) = !decide (0 < c) := fun hne => by
    rw [decide_pos_neg (hapart.begSegment fun hiff => hne (decide_eq_decide.2 hiff.symm)), Bool.not_not]
    exact decide_eq_decide.2 neg_pos
  have hd : decide (qy < vy) ≠ decide (qy < uy) → decide (0 < -d) = !decide (0 < d) := fun hne => by
    rw [decide_pos_neg (hapart.endSegment fun hiff => hne (decide_eq_decide.2 hiff.symm)), Bool.not_not]
    exact decide_eq_decide.2 neg_pos
  rw [EdgeParity, neg_mul_neg, mul_comm b a, meets_swap hc, meets_swap hd] at h
  rw [EdgeParity, h, Bool.xor_comm (meets (decide (py < vy)) (decide (qy < vy)) _)]

theorem Places.edgeParity (h : Places a b c d py qy uy vy) (hapart : Apart a b c d py qy uy vy) :
    EdgeParity a b c d py qy uy vy := by
  rcases le_total py qy with hpq | hpq <;> rcases le_total uy vy with huv | huv
  · exact h.edgeParity_sorted hapart hpq huv
  · exact (h.swapEdge.edgeParity_sorted hapart.swapEdge hpq huv).swapEdge hapart
  · exact (h.swap.edgeParity_sorted hapart.swap hpq huv).swap hapart
  · exact ((h.swap.swapEdge.edgeParity_sorted hapart.swap.swapEdge hpq huv).swapEdge hapart.swap).swap hapart

end Edge

/-- no end of one of the two segments is on the other -/
structure Clear (p q u v : K × K) : Prop where
  begEdge : u ∉ segment K p q
  endEdge : v ∉ segment K p q
  begSegment : p ∉ segment K u v
  endSegment : q ∉ segment K u v

instance decidableClear (p q u v : K × K) : Decidable (Clear p q u v) :=
  decidable_of_iff (u ∉ segment K p q ∧ v ∉ segment K p q ∧ p ∉ segment K u v ∧ q ∉ segment K u v)
    ⟨fun h => ⟨h.1, h.2.1, h.2.2.1, h.2.2.2⟩, fun h => ⟨h.begEdge, h.endEdge, h.begSegment, h.endSegment⟩⟩

omit [IsStrictOrderedRing K] in
theorem Clear.comm (h : Clear p q u v) : Clear u v p q := ⟨h.begSegment, h.endSegment, h.begEdge, h.endEdge⟩

omit [Field K] [IsStrictOrderedRing K] in
theorem height_between {x y z : K} (hlt : x < y) (hne : ¬ (x < z ↔ y < z) ∨ ¬ (z < x ↔ z < y)) : x ≤ z ∧ z ≤ y := by
  rcases hne with hne | hne
  · exact ⟨not_lt.1 fun h => hne (iff_of_false h.not_gt (h.trans hlt).not_gt),
      not_lt.1 fun h => hne (iff_of_true (hlt.trans h) h)⟩
  · exact ⟨not_lt.1 fun h => hne (iff_of_true h (h.trans hlt)),
      not_lt.1 fun h => hne (iff_of_false (hlt.trans h).not_gt h.not_gt)⟩

/-- a point beside a segment, at a height between its ends -/
theorem orient_ne_of_height (h : w ∉ segment K p q) (hne : ¬ (p.2 < w.2 ↔ q.2 < w.2) ∨ ¬ (w.2 < p.2 ↔ w.2 < q.2)) :
    orient p q w ≠ 0 := fun horient => by
  rcases lt_trichotomy p.2 q.2 with hlt | heq | hgt
  · obtain ⟨hp, hq⟩ := height_between hlt hne
    exact h (mem_segment_of_height horient hlt hp hq)
  · rw [heq] at hne
    exact hne.elim (fun hne => hne Iff.rfl) fun hne => hne Iff.rfl
  · obtain ⟨hq, hp⟩ := height_between hgt (hne.imp (fun hne hiff => hne hiff.symm) fun hne hiff => hne hiff.symm)
    rw [← neg_eq_zero, ← orient_swap] at horient
    exact h (mem_segment_comm.1 (mem_segment_of_height horient hgt hq hp))

/-- points at one height with an end of a segment that is not between them are on the same side of it -/
theorem not_cross_of_level (h : p ∉ segment K u v) (hu : p.2 = u.2) (hv : u.2 = v.2) :
    ¬ orient p q u * orient p q v < 0 := fun hneg => by
  have hprod : orient p q u * orient p q v = (q.2 - p.2) ^ 2 * ((u.1 - p.1) * (v.1 - p.1)) := by
    simp only [orient, ← hv, ← hu]
    ring
  have hside : (u.1 - p.1) * (v.1 - p.1) < 0 := by
    rw [hprod] at hneg
    exact neg_of_mul_neg_right hneg (sq_nonneg _)
  rcases mul_neg_iff.1 hside with ⟨hgt, hlt⟩ | ⟨hlt, hgt⟩
  · exact h (mem_segment_comm.1 (mem_segment_of_level (hv.symm.trans hu.symm) hu.symm (by linarith) (by linarith)))
  · exact h (mem_segment_of_level hu.symm (hv.symm.trans hu.symm) (by linarith) (by linarith))

theorem Clear.apart (h : Clear p q u v) :
    Apart (orient p q u) (orient p q v) (orient u v p) (orient u v q) p.2 q.2 u.2 v.2 where
  begEdge hne := orient_ne_of_height h.begEdge (.inl hne)
  endEdge hne := orient_ne_of_height h.endEdge (.inl hne)
  begSegment hne := orient_ne_of_height h.begSegment (.inr hne)
  endSegment hne := orient_ne_of_height h.endSegment (.inr hne)
  flatEdge huv hor := by
    rcases hor with hp | hq
    · exact not_cross_of_level h.begSegment hp.symm huv
    · rw [← neg_mul_neg, ← orient_swap, ← orient_swap]
      exact not_cross_of_level h.endSegment hq.symm huv
  flatSegment hpq hor := by
    rcases hor with hu | hv
    · exact not_cross_of_level h.begEdge hu.symm hpq
    · rw [← neg_mul_neg, ← orient_swap, ← orient_swap]
      exact not_cross_of_level h.endEdge hv.symm hpq

/-- the formula for the ray says on which side of the edge its origin is -/
theorem rayCross_eq (h : p ∉ segment K u v) :
    rayCross p u v = meets (decide (p.2 < v.2)) (decide (p.2 < u.2)) (decide (0 < orient u v p)) := by
  have hpos : v.2 - u.2 > 0 →
      (p.1 < (v.1 - u.1) * (p.2 - u.2) / (v.2 - u.2) + u.1 ↔ 0 < orient u v p) := fun hpos => by
    rw [← sub_lt_iff_lt_add, lt_div_iff₀ hpos, orient, sub_pos, mul_comm (p.1 - u.1)]
  have hneg : v.2 - u.2 < 0 →
      (p.1 < (v.1 - u.1) * (p.2 - u.2) / (v.2 - u.2) + u.1 ↔ orient u v p < 0) := fun hneg => by
    rw [← sub_lt_iff_lt_add, lt_div_iff_of_neg hneg, orient, sub_neg, mul_comm (p.1 - u.1)]
  by_cases hu : p.2 < u.2 <;> by_cases hv : p.2 < v.2
  · simp [rayCross, meets, hu, hv]
  · have hside := orient_ne_of_height h (.inr fun hiff => hv (hiff.1 hu))
    simp [rayCross, meets, hu, hv, hneg (by linarith), decide_pos_neg hside]
  · simp [rayCross, meets, hu, hv, hpos (by linarith)]
  · simp [rayCross, meets, hu, hv]

/-- **How often an edge meets a segment and the rays from its ends**, up to where the ends of the edge lie. -/
theorem parity_edge (h : Clear p q u v) :
    properCross p q u v = ((rayCross p u v ^^ rayCross q u v) ^^ (between p q u ^^ between p q v)) := by
  rw [rayCross_eq h.begSegment, rayCross_eq h.endSegment]
  exact (places p q u v).edgeParity h.apart

/-- **A segment crosses closed polygons an odd number of times** if and only if one of its ends is inside. -/
theorem parity_rings {edges : List ((K × K) × (K × K))} (hclosed : (edges.map Prod.fst).Perm (edges.map Prod.snd))
    (hclear : ∀ e ∈ edges, Clear p q e.1 e.2) :
    parity (fun e => properCross p q e.1 e.2) edges =
      (parity (fun e => rayCross p e.1 e.2) edges ^^ parity (fun e => rayCross q e.1 e.2) edges) := by
  calc parity (fun e => properCross p q e.1 e.2) edges
      = parity (fun e => (rayCross p e.1 e.2 ^^ rayCross q e.1 e.2) ^^ (between p q e.1 ^^ between p q e.2)) edges :=
        parity_congr fun e he => parity_edge (hclear e he)
    _ = ((parity (fun e => rayCross p e.1 e.2) edges ^^ parity (fun e => rayCross q e.1 e.2) edges) ^^ false) := by
        rw [parity_xor, parity_xor, parity_closed hclosed]
    _ = _ := Bool.xor_false _

/-! ## Parts of a segment -/

/-- a quotient lies between 0 and 1 -/
theorem unit_div {x y : K} (hne : x - y ≠ 0) : (0 < x / (x - y) ∧ x / (x - y) < 1) ↔ x * y < 0 := by
  have hsq : 0 < (x - y) * (x - y) := mul_self_pos.2 hne
  have hcompl : 1 - x / (x - y) = -y / (x - y) := by
    field_simp
    ring
  have hpos : ∀ z : K, 0 < z / (x - y) ↔ 0 < z * (x - y) := fun z => by rw [div_pos_iff, mul_pos_iff]
  rw [← sub_pos (a := (1 : K)), hcompl, hpos, hpos]
  constructor
  · rintro ⟨hx, hy⟩
    have hprod := mul_pos hx hy
    have hneg : (x - y) * (x - y) * (x * y) < 0 := by linarith
    exact neg_of_mul_neg_right hneg hsq.le
  · intro hxy
    have hx := mul_self_nonneg x
    have hy := mul_self_nonneg y
    exact ⟨by linarith, by linarith⟩

/-- how far along the segment from `p` to `q` the other line crosses it -/
def place (p q u v : K × K) : K := orient u v p / (orient u v p - orient u v q)

omit [LinearOrder K] [IsStrictOrderedRing K] in
theorem orient_pointOn (p q r : K × K) (t : K) : orient p (pointOn p q t) r = t * orient p q r := by
  simp only [orient, pointOn]
  ring

omit [LinearOrder K] [IsStrictOrderedRing K] in
theorem orient_pointOn_right (p q u v : K × K) (t : K) :
    orient u v (pointOn p q t) = orient u v p - t * (orient u v p - orient u v q) := by
  simp only [orient, pointOn]
  ring

theorem mem_segment_pointOn {t : K} (h0 : 0 ≤ t) (h1 : t ≤ 1) (h : w ∈ segment K p (pointOn p q t)) :
    w ∈ segment K p q := by
  obtain ⟨s, hs0, hs1, rfl⟩ := mem_segment_iff.1 h
  refine mem_segment_iff.2 ⟨s * t, mul_nonneg hs0 h0, mul_le_one₀ hs1 h0 h1, Prod.ext ?_ ?_⟩
  · simp only [pointOn]
    ring
  · simp only [pointOn]
    ring

/-- a part of a segment with both ends off the edge -/
theorem Clear.pointOn (h : Clear p q u v) {t : K} (h0 : 0 ≤ t) (h1 : t ≤ 1) (hend : (pointOn p q t) ∉ segment K u v) :
    Clear p (Planar.pointOn p q t) u v where
  begEdge hon := h.begEdge (mem_segment_pointOn h0 h1 hon)
  endEdge hon := h.endEdge (mem_segment_pointOn h0 h1 hon)
  begSegment := h.begSegment
  endSegment := hend

/-- **The crossings on a part of a segment** are those whose place is in front of its end. -/
theorem properCross_pointOn {t : K} (h0 : 0 ≤ t) (h1 : t ≤ 1) :
    properCross p (pointOn p q t) u v = (properCross p q u v && decide (place p q u v < t)) := by
  rw [properCross, properCross, place, ← Bool.decide_and, orient_pointOn, orient_pointOn, orient_pointOn_right]
  refine decide_eq_decide.2 ?_
  generalize orient p q u = a, orient p q v = b, orient u v p = c, orient u v q = d
  have hsq := mul_self_nonneg c
  have hplace : 0 < c * (c - d) → (c / (c - d) < t ↔ c * c < t * (c * (c - d))) := fun hpos => by
    have hc : c ≠ 0 := left_ne_zero_of_mul hpos.ne'
    rw [← mul_div_mul_left c (c - d) hc, div_lt_iff₀ hpos]
  constructor
  · rintro ⟨hab, hcd⟩
    have hlt : c * c < t * (c * (c - d)) := by linarith
    have hpos : 0 < c * (c - d) := pos_of_mul_pos_right (hsq.trans_lt hlt) h0
    have hle : t * (c * (c - d)) ≤ 1 * (c * (c - d)) := mul_le_mul_of_nonneg_right h1 hpos.le
    have hab' : t * t * (a * b) < 0 := by linarith
    exact ⟨⟨neg_of_mul_neg_right hab' (mul_self_nonneg t), by linarith⟩, (hplace hpos).2 hlt⟩
  · rintro ⟨⟨hab, hcd⟩, hlt⟩
    have hpos : 0 < c * (c - d) := by linarith
    have hlt' := (hplace hpos).1 hlt
    have ht : 0 < t := pos_of_mul_pos_left (hsq.trans_lt hlt') hpos.le
    have hab' := mul_neg_of_pos_of_neg (mul_pos ht ht) hab
    exact ⟨by linarith, by linarith⟩

end Planar

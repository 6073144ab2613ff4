/-
Cutting a list into consecutive pieces of a fixed length, the last one possibly shorter.

- `flatten_chunks`: the pieces together are the list.
- `chunks_shape`: every piece but the last has the full length, and none is empty.
- `piece_append`: what appending behind the list changes in its pieces by number, and `flatten_pieces`.
-/
import Mathlib.Tactic

namespace Chunks

variable {α : Type*}

/-- pieces of length n, taken from the front `fuel` times at most -/
def chunksAux (n : ℕ) : ℕ → List α → List (List α)
  | 0, _ => []
  | fuel + 1, l => if l.isEmpty then [] else l.take n :: chunksAux n fuel (l.drop n)

/-- cut a list into pieces of length n -/
def chunks (n : ℕ) (l : List α) : List (List α) := chunksAux n l.length l

theorem chunks_nil (n : ℕ) : chunks n ([] : List α) = [] := rfl

theorem mem_of_mem_chunksAux {n : ℕ} {fuel : ℕ} {l : List α} {a : α} (h : a ∈ (chunksAux n fuel l).flatten) : a ∈ l := by
  induction fuel generalizing l with
  | zero => exact absurd h List.not_mem_nil
  | succ fuel ih =>
    unfold chunksAux at h
    split at h
    · exact absurd h List.not_mem_nil
    · rcases List.mem_append.1 h with h | h
      · exact List.mem_of_mem_take h
      · exact List.mem_of_mem_drop (ih h)

theorem chunksAux_fuel {n : ℕ} (hn : 0 < n) (l : List α) (f g : ℕ) (hf : l.length ≤ f) (hg : l.length ≤ g) :
    chunksAux n f l = chunksAux n g l := by
  induction f generalizing l g with
  | zero =>
    obtain rfl : l = [] := List.length_eq_zero_iff.1 (by omega)
    cases g <;> simp [chunksAux]
  | succ f ih =>
    cases g with
    | zero =>
      obtain rfl : l = [] := List.length_eq_zero_iff.1 (by omega)
      simp [chunksAux]
    | succ g =>
      simp only [chunksAux]
      rw [ih (l.drop n) g (by simp only [List.length_drop]; omega) (by simp only [List.length_drop]; omega)]

/-- one step of the cut -/
theorem chunks_eq {n : ℕ} (hn : 0 < n) {l : List α} (hl : l ≠ []) : chunks n l = l.take n :: chunks n (l.drop n) := by
  obtain ⟨a, t, rfl⟩ := List.exists_cons_of_ne_nil hl
  simp only [chunks, List.length_cons, chunksAux, List.isEmpty_cons, Bool.false_eq_true, ↓reduceIte]
  congr 1
  exact chunksAux_fuel hn _ _ _ (by simp only [List.length_drop, List.length_cons]; omega) le_rfl

/-- induction along the cut -/
theorem chunks_induction {n : ℕ} (hn : 0 < n) {P : List α → Prop} (hnil : P [])
    (hstep : ∀ l : List α, l ≠ [] → P (l.drop n) → P l) (l : List α) : P l := by
  induction hlen : l.length using Nat.strong_induction_on generalizing l with
  | _ k ih =>
    by_cases hl : l = []
    · exact hl ▸ hnil
    · have hpos : 0 < l.length := List.length_pos_iff.2 hl
      exact hstep l hl (ih (l.drop n).length (by simp only [List.length_drop]; omega) _ rfl)

theorem flatten_chunks {n : ℕ} (hn : 0 < n) (l : List α) : (chunks n l).flatten = l := by
  induction l using chunks_induction hn with
  | hnil => rfl
  | hstep l hl ih => rw [chunks_eq hn hl, List.flatten_cons, ih, List.take_append_drop]

/-- every piece is full except possibly the last, and none is empty -/
def Shape (n : ℕ) : List (List α) → Prop
  | [] => True
  | [c] => 0 < c.length ∧ c.length ≤ n
  | c :: d :: cs => c.length = n ∧ Shape n (d :: cs)

theorem chunks_shape {n : ℕ} (hn : 0 < n) (l : List α) : Shape n (chunks n l) := by
  induction l using chunks_induction hn with
  | hnil => trivial
  | hstep l hl ih =>
    have hpos : 0 < l.length := List.length_pos_iff.2 hl
    rw [chunks_eq hn hl]
    cases hrest : chunks n (l.drop n) with
    | nil =>
      simp only [Shape, List.length_take]
      omega
    | cons d ds =>
      have hdrop : l.drop n ≠ [] := by
        intro h
        rw [h, chunks_nil] at hrest
        cases hrest
      have hlen : 0 < (l.drop n).length := List.length_pos_iff.2 hdrop
      rw [List.length_drop] at hlen
      refine ⟨by simp only [List.length_take]; omega, ?_⟩
      rwa [hrest] at ih

theorem mem_chunks_length {n : ℕ} (hn : 0 < n) (l : List α) : ∀ c ∈ chunks n l, 0 < c.length ∧ c.length ≤ n := by
  induction l using chunks_induction hn with
  | hnil => simp [chunks_nil]
  | hstep l hl ih =>
    have hpos : 0 < l.length := List.length_pos_iff.2 hl
    rw [chunks_eq hn hl]
    intro c hc
    rcases List.mem_cons.1 hc with rfl | hc
    · simp only [List.length_take]
      omega
    · exact ih c hc

/-! ## Pieces by number -/

/-- the i-th piece of length n -/
def piece (n : ℕ) (l : List α) (i : ℕ) : List α := (l.drop (i * n)).take n

theorem piece_of_le {n i : ℕ} {l : List α} (h : l.length ≤ i * n) : piece n l i = [] := by
  rw [piece, List.drop_eq_nil_of_le h, List.take_nil]

/-- what is appended without crossing the end of a piece goes to this piece -/
theorem piece_append {n : ℕ} (hn : 0 < n) {l m : List α} (hfit : l.length % n + m.length ≤ n) (i : ℕ) :
    piece n (l ++ m) i = if i = l.length / n then piece n l i ++ m else piece n l i := by
  have hdiv := Nat.div_add_mod' l.length n
  rcases lt_trichotomy i (l.length / n) with hlt | rfl | hgt
  · -- pieces before it are full
    have hle : (i + 1) * n ≤ l.length / n * n := Nat.mul_le_mul_right n hlt
    rw [Nat.add_mul, one_mul] at hle
    rw [if_neg hlt.ne, piece, piece, List.drop_append_of_le_length (by omega),
      List.take_append_of_le_length (by rw [List.length_drop]; omega)]
  · rw [if_pos rfl, piece, piece, List.drop_append_of_le_length (by omega), List.take_append]
    have hlen : (l.drop (l.length / n * n)).length = l.length % n := by
      rw [List.length_drop]
      omega
    rw [hlen, List.take_of_length_le (l := m) (by omega)]
  · have hle : (l.length / n + 1) * n ≤ i * n := Nat.mul_le_mul_right n hgt
    have hmod : l.length % n < n := Nat.mod_lt _ hn
    rw [Nat.add_mul, one_mul] at hle
    rw [if_neg hgt.ne', piece_of_le (by rw [List.length_append]; omega), piece_of_le (by omega)]

theorem length_piece_of_lt {n i : ℕ} {l : List α} (h : (i + 1) * n ≤ l.length) : (piece n l i).length = n := by
  rw [Nat.add_mul, one_mul] at h
  rw [piece, List.length_take, List.length_drop]
  omega

/-- the end of the piece of a position is within the pieces -/
theorem end_le {n k m : ℕ} (hpos : 0 < n) (h : k < m * n) : k + (n - k % n) ≤ m * n := by
  have hdiv := Nat.div_add_mod' k n
  have hmod := Nat.mod_lt k hpos
  have hlt : k / n < m := Nat.div_lt_of_lt_mul (by rwa [Nat.mul_comm])
  calc k + (n - k % n) = (k / n + 1) * n := by rw [Nat.add_mul, one_mul]; omega
    _ ≤ m * n := Nat.mul_le_mul_right n hlt

/-- the place behind the list when what is appended ends its piece -/
theorem place_next {n k m : ℕ} (hn : 0 < n) (h : k % n + m = n) : (k + m) / n = k / n + 1 ∧ (k + m) % n = 0 := by
  have hsum : k + m = n * (k / n + 1) := by
    have := Nat.div_add_mod k n
    rw [Nat.mul_add, Nat.mul_one]
    omega
  rw [hsum]
  exact ⟨Nat.mul_div_cancel_left _ hn, Nat.mul_mod_right n _⟩

/-- the place behind the list when what is appended leaves room in its piece -/
theorem place_same {n k m : ℕ} (h : k % n + m < n) : (k + m) / n = k / n ∧ (k + m) % n = k % n + m := by
  have hsum : k + m = k % n + m + n * (k / n) := by
    have := Nat.div_add_mod k n
    omega
  have hn : 0 < n := by omega
  rw [hsum, Nat.add_mul_div_left _ _ hn, Nat.add_mul_mod_self_left, Nat.div_eq_of_lt h, Nat.mod_eq_of_lt h, Nat.zero_add]
  exact ⟨rfl, rfl⟩

/-- enough pieces are the list -/
theorem flatten_pieces {n count : ℕ} {l : List α} (h : l.length ≤ count * n) :
    ((List.range count).map (piece n l)).flatten = l := by
  induction count generalizing l with
  | zero =>
    obtain rfl : l = [] := List.length_eq_zero_iff.1 (by omega)
    rfl
  | succ count ih =>
    rw [Nat.add_mul, one_mul] at h
    have hshift : (List.range count).map (fun i => piece n l (i + 1)) = (List.range count).map (piece n (l.drop n)) := by
      apply List.map_congr_left
      intro i _
      rw [piece, piece, List.drop_drop, Nat.add_mul, one_mul, Nat.add_comm]
    rw [List.range_succ_eq_map, List.map_cons, List.flatten_cons, List.map_map]
    have hrest := ih (l := l.drop n) (by rw [List.length_drop]; omega)
    rw [← hshift] at hrest
    have hfirst : piece n l 0 = l.take n := by rw [piece, Nat.zero_mul, List.drop_zero]
    rw [hfirst]
    calc l.take n ++ ((List.range count).map (piece n l ∘ Nat.succ)).flatten = l.take n ++ l.drop n := by
          exact congrArg (l.take n ++ ·) hrest
      _ = l := List.take_append_drop n l

end Chunks

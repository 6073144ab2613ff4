/-
Stream compaction: the rows whose mask byte is set write behind each other, each at a position taken from the prefix sums
of the mask. Over an arbitrary type of values.

- `take_keep`: what is kept of the rows before a row is as long as the prefix sum says.
- `getElem?_keep_iff`: the rows that are kept, by their places.
- `kernel_compact`: rows that write behind what is kept of the rows before them leave what is kept.
- `keep_flatten`: a mask expanded by the lengths of lists keeps the elements of the lists that are kept.
-/
import Mathlib.Tactic
import QikkDB.Lib.Scatter
import QikkDB.Lib.Select

namespace Compaction

open PrefixSum Scatter Select

variable {α : Type*}

/-- the inclusive prefix sums of a mask -/
def maskSum (m : List Bool) : List ℕ := inclusiveSum (m.map Bool.toNat)

theorem sum_toNat (m : List Bool) : (m.map Bool.toNat).sum = m.count true := by
  induction m with
  | nil => rfl
  | cons b m ih => cases b <;> simp [ih, Nat.add_comm]

theorem getElem?_maskSum {m : List Bool} {i : ℕ} (h : i < m.length) : (maskSum m)[i]? = some ((m.take (i + 1)).count true) := by
  rw [maskSum, getElem?_inclusiveSum (by rwa [List.length_map]), ← List.map_take, sum_toNat]

theorem count_take_succ {m : List Bool} {i : ℕ} (h : m[i]? = some true) :
    (m.take (i + 1)).count true = (m.take i).count true + 1 := by
  rw [List.take_add_one, h, List.count_append]
  rfl

theorem last_maskSum {m : List Bool} (h : m ≠ []) : (maskSum m)[m.length - 1]? = some (m.count true) := by
  have hne : m.map Bool.toNat ≠ [] := by simpa using h
  have := last_inclusiveSum hne
  rwa [List.length_map, sum_toNat] at this

theorem take_keep {m : List Bool} {l : List α} (hlen : m.length = l.length) (i : ℕ) :
    (keep m l).take ((m.take i).count true) = keep (m.take i) (l.take i) := by
  induction m generalizing l i with
  | nil => simp [keep]
  | cons b m ih =>
    cases l with
    | nil => simp at hlen
    | cons a l =>
      cases i with
      | zero => rfl
      | succ i =>
        have := ih (l := l) (by simpa using hlen) i
        cases b <;> simp [keep, this]

/-- the places of the rows that are kept -/
theorem getElem?_keep_iff {m : List Bool} {l : List α} (hlen : m.length = l.length) {k : ℕ} {a : α} :
    (keep m l)[k]? = some a ↔ ∃ i, m[i]? = some true ∧ (m.take i).count true = k ∧ l[i]? = some a := by
  induction m generalizing l k with
  | nil => simp [keep]
  | cons b m ih =>
    cases l with
    | nil => simp at hlen
    | cons c l =>
      have ih := fun k => ih (l := l) (by simpa using hlen) (k := k)
      cases b with
      | false =>
        rw [show keep (false :: m) (c :: l) = keep m l from rfl, ih]
        constructor
        · rintro ⟨i, hi⟩
          exact ⟨i + 1, by simpa using hi⟩
        · rintro ⟨i, hm, hi⟩
          cases i with
          | zero => cases hm
          | succ i => exact ⟨i, hm, by simpa using hi⟩
      | true =>
        rw [show keep (true :: m) (c :: l) = c :: keep m l from rfl]
        cases k with
        | zero =>
          constructor
          · exact fun h => ⟨0, rfl, rfl, h⟩
          · rintro ⟨i, hm, hcount, hi⟩
            cases i with
            | zero => exact hi
            | succ i => simp at hcount
        | succ k =>
          rw [List.getElem?_cons_succ, ih]
          constructor
          · rintro ⟨i, hm, hcount, hi⟩
            exact ⟨i + 1, hm, by simp [hcount], hi⟩
          · rintro ⟨i, hm, hcount, hi⟩
            cases i with
            | zero => simp at hcount
            | succ i => exact ⟨i, hm, by simpa using hcount, hi⟩

theorem mem_of_mem_keep {m : List Bool} {l : List α} {a : α} (h : a ∈ keep m l) : a ∈ l := by
  induction m generalizing l with
  | nil => cases h
  | cons b m ih =>
    cases l with
    | nil => cases h
    | cons c l =>
      cases b with
      | false => exact List.mem_cons_of_mem c (ih h)
      | true => exact (List.mem_cons.1 h).elim (fun h => h ▸ List.mem_cons_self) fun h => List.mem_cons_of_mem c (ih h)

/-- the lists of the rows that are kept, and nothing for the others -/
def blank (m : List Bool) (ls : List (List α)) : List (List α) := List.zipWith (fun b l => if b then l else []) m ls

theorem flatten_blank (m : List Bool) (ls : List (List α)) : (blank m ls).flatten = (keep m ls).flatten := by
  induction m generalizing ls with
  | nil => rfl
  | cons b m ih =>
    cases ls with
    | nil => rfl
    | cons l ls =>
      have := ih ls
      rw [blank] at this
      cases b <;> simp [blank, keep, this]

theorem offset_blank {m : List Bool} {ls : List (List α)} (hlen : m.length = ls.length) (i : ℕ) :
    offset (blank m ls) i = offset (keep m ls) ((m.take i).count true) := by
  have htake : (blank m ls).take i = blank (m.take i) (ls.take i) := by simp [blank, List.take_zipWith]
  rw [offset, offset, htake, take_keep hlen, ← List.length_flatten, flatten_blank, List.length_flatten]

/-- rows that write behind what is kept of the rows before them -/
theorem kernel_compact {m : List Bool} {ls : List (List α)} (hlen : m.length = ls.length) {order : List ℕ}
    (horder : order.Perm (List.range ls.length)) {row : ℕ → Option (List (ℤ × α))} {size : ℕ}
    (hsize : size = (keep m ls).flatten.length)
    (hkeep : ∀ i (hi : i < ls.length), m[i]? = some true →
      ∃ ws, row i = some ws ∧ ws.Perm (place (offset (keep m ls) ((m.take i).count true)) ls[i]))
    (hdrop : ∀ i, m[i]? = some false → row i = some []) :
    kernel size order row = some (keep m ls).flatten := by
  have hblank : (blank m ls).length = ls.length := by simp [blank, hlen]
  rw [← flatten_blank] at hsize ⊢
  refine kernel_eq (by rwa [hblank]) hsize fun i hi => ?_
  rw [hblank] at hi
  have hm : i < m.length := hlen ▸ hi
  have hget : (blank m ls).getD i [] = if m[i] then ls[i] else [] := by
    rw [List.getD_eq_getElem _ _ (by rwa [hblank])]
    simp [blank]
  rw [hget, offset_blank hlen]
  cases hb : m[i] with
  | true => exact hkeep i hi (hb ▸ List.getElem?_eq_getElem hm)
  | false => exact ⟨[], hdrop i (hb ▸ List.getElem?_eq_getElem hm), List.Perm.refl []⟩

/-! ## Masks of nested lists -/

/-- the mask of the elements of lists, from the mask of the lists -/
def expand (m : List Bool) (ls : List (List α)) : List (List Bool) :=
  List.zipWith (fun b l => List.replicate l.length b) m ls

theorem keep_append {m m' : List Bool} {l l' : List α} (h : m.length = l.length) :
    keep (m ++ m') (l ++ l') = keep m l ++ keep m' l' := by
  induction m generalizing l with
  | nil =>
    obtain rfl := List.length_eq_zero_iff.1 h.symm
    rfl
  | cons b m ih =>
    cases l with
    | nil => simp at h
    | cons a l =>
      have := ih (l := l) (by simpa using h)
      cases b <;> simp [keep, this]

theorem keep_replicate (b : Bool) (l : List α) : keep (List.replicate l.length b) l = if b then l else [] := by
  induction l with
  | nil => cases b <;> rfl
  | cons a l ih => cases b <;> simp [List.replicate_succ, keep, ih]

theorem keep_flatten {m : List Bool} {ls : List (List α)} :
    keep (expand m ls).flatten ls.flatten = (keep m ls).flatten := by
  induction m generalizing ls with
  | nil => simp [expand, keep]
  | cons b m ih =>
    cases ls with
    | nil => simp
    | cons l ls =>
      have hcons : expand (b :: m) (l :: ls) = List.replicate l.length b :: expand m ls := rfl
      rw [hcons, List.flatten_cons, List.flatten_cons, keep_append (List.length_replicate ..), keep_replicate, ih]
      cases b <;> simp [keep]

theorem length_expand {m : List Bool} {ls : List (List α)} (hlen : m.length = ls.length) :
    (expand m ls).map List.length = ls.map List.length := by
  induction m generalizing ls with
  | nil =>
    obtain rfl := List.length_eq_zero_iff.1 hlen.symm
    rfl
  | cons b m ih =>
    cases ls with
    | nil => simp at hlen
    | cons l ls =>
      have := @ih ls (by simpa using hlen)
      rw [expand] at this
      simp [expand, this]

end Compaction

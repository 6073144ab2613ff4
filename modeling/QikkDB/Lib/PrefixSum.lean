/-
Lists of lists as one list and the inclusive prefix sums of the lengths, over arbitrary types.

- `startAt_inclusiveSum`, `countAt_inclusiveSum`: begin and length of a list, read off the prefix sums.
- `window_flatten`: the elements of a list lie together, from its begin on.
- `offset_flatten`, `offset_flatten_add`: the begins of lists that are grouped themselves.
-/
import Mathlib.Tactic
import QikkDB.Lib.Traverse

namespace PrefixSum

variable {α β : Type*}

/-- the inclusive prefix sums: each value added to those before it -/
def inclusiveSum (l : List ℕ) : List ℕ := (List.range l.length).map fun i => (l.take (i + 1)).sum

/-- idx == 0 ? 0 : sums[idx - 1] -/
def startAt (sums : List ℕ) (idx : ℕ) : Option ℕ := if idx = 0 then some 0 else sums[idx - 1]?

/-- the difference of two consecutive sums -/
def countAt (sums : List ℕ) (idx : ℕ) : Option ℕ := do
  let stop ← sums[idx]?
  let start ← startAt sums idx
  some (stop - start)

/-- where list `i` begins in all of them -/
def offset (ls : List (List α)) (i : ℕ) : ℕ := ((ls.take i).map List.length).sum

@[simp] theorem length_inclusiveSum (l : List ℕ) : (inclusiveSum l).length = l.length := by
  simp [inclusiveSum]

theorem getElem?_inclusiveSum {l : List ℕ} {i : ℕ} (h : i < l.length) :
    (inclusiveSum l)[i]? = some (l.take (i + 1)).sum := by
  rw [inclusiveSum, List.getElem?_map, List.getElem?_range h, Option.map_some]

theorem sum_take_succ {l : List ℕ} {i : ℕ} (h : i < l.length) : (l.take (i + 1)).sum = (l.take i).sum + l[i] := by
  rw [List.take_add_one, List.getElem?_eq_getElem h, List.sum_append, Option.toList_some, List.sum_singleton]

theorem startAt_inclusiveSum {l : List ℕ} {i : ℕ} (h : i ≤ l.length) :
    startAt (inclusiveSum l) i = some (l.take i).sum := by
  cases i with
  | zero => rfl
  | succ i => exact getElem?_inclusiveSum h

theorem countAt_inclusiveSum {l : List ℕ} {i : ℕ} (h : i < l.length) : countAt (inclusiveSum l) i = l[i]? := by
  rw [countAt, getElem?_inclusiveSum h, startAt_inclusiveSum h.le, sum_take_succ h, List.getElem?_eq_getElem h]
  simp

theorem last_inclusiveSum {l : List ℕ} (h : l ≠ []) : (inclusiveSum l)[l.length - 1]? = some l.sum := by
  have hpos := List.length_pos_iff.2 h
  rw [getElem?_inclusiveSum (by omega), List.take_of_length_le (by omega)]

theorem offset_eq (ls : List (List α)) (i : ℕ) : offset ls i = ((ls.map List.length).take i).sum := by
  rw [offset, List.map_take]

theorem offset_succ {ls : List (List α)} {i : ℕ} (h : i < ls.length) :
    offset ls (i + 1) = offset ls i + (ls[i]).length := by
  rw [offset_eq, offset_eq, sum_take_succ (by rwa [List.length_map]), List.getElem_map]

theorem offset_length (ls : List (List α)) : offset ls ls.length = ls.flatten.length := by
  rw [offset, List.take_length, List.length_flatten]

theorem offset_le {ls : List (List α)} (i : ℕ) : offset ls i ≤ ls.flatten.length := by
  conv_rhs => rw [← List.take_append_drop i ls]
  rw [List.flatten_append, List.length_append, offset, ← List.length_flatten]
  exact Nat.le_add_right ..

theorem offset_mono (ls : List (List α)) : Monotone (offset ls) := by
  intro i j h
  obtain ⟨k, rfl⟩ := Nat.exists_eq_add_of_le h
  rw [offset, offset, List.take_add, List.map_append, List.sum_append]
  exact Nat.le_add_right _ _

/-- the elements before a list are those of the lists before it -/
theorem take_offset (ls : List (List α)) (i : ℕ) : ls.flatten.take (offset ls i) = (ls.take i).flatten := by
  rw [offset, ← List.length_flatten]
  conv_lhs => rw [← List.take_append_drop i ls, List.flatten_append, List.take_append_drop i ls]
  exact List.take_left

/-- lists of lists: the elements before the lists of one group, and before list `k` of the group -/
theorem offset_flatten (groups : List (List (List α))) (i : ℕ) :
    offset (groups.map List.flatten) i = offset groups.flatten (offset groups i) := by
  rw [offset, ← List.map_take, ← List.length_flatten, offset, take_offset, ← List.length_flatten,
    ← List.flatten_flatten]

/-- a list lies in one piece behind those before it -/
theorem window_flatten {ls : List (List α)} {i : ℕ} (h : i < ls.length) :
    (ls.flatten.drop (offset ls i)).take (ls[i]).length = ls[i] := by
  induction ls generalizing i with
  | nil => exact absurd h (Nat.not_lt_zero i)
  | cons l ls ih =>
    cases i with
    | zero => simp [offset]
    | succ i =>
      have hoff : offset (l :: ls) (i + 1) = l.length + offset ls i := by simp [offset]
      rw [hoff, List.flatten_cons, ← List.drop_drop, List.drop_left]
      exact ih (Nat.lt_of_succ_lt_succ h)

theorem offset_flatten_add {groups : List (List (List α))} {i k : ℕ} (h : i < groups.length)
    (hk : k ≤ (groups[i]).length) :
    offset groups.flatten (offset groups i + k) = offset groups.flatten (offset groups i) + offset groups[i] k := by
  have hdrop : (groups.flatten.drop (offset groups i)).take k = groups[i].take k := by
    conv_rhs => rw [← window_flatten h, List.take_take, Nat.min_eq_left hk]
  rw [offset, List.take_add, List.map_append, List.sum_append, hdrop]
  rfl

theorem window_le {ls : List (List α)} {i : ℕ} (h : i < ls.length) :
    offset ls i + (ls[i]).length ≤ ls.flatten.length := by
  rw [← offset_succ h]
  exact offset_le (i + 1)

/-- the elements of a list, read one after the other -/
theorem mapM_window {ls : List (List α)} {i : ℕ} (h : i < ls.length) :
    (List.range' (offset ls i) (ls[i]).length).mapM (fun k => ls.flatten[k]?) = some ls[i] := by
  rw [Traverse.mapM_getElem (window_le h), window_flatten h]

theorem getElem?_flatten {ls : List (List α)} {i j : ℕ} (h : i < ls.length) (hj : j < (ls[i]).length) :
    ls.flatten[offset ls i + j]? = (ls[i])[j]? := by
  conv_rhs => rw [← window_flatten h]
  rw [List.getElem?_take_of_lt hj, List.getElem?_drop]

end PrefixSum

/-
Stable sorts of pairs by their keys, over arbitrary types and any order of the keys.

- `IsStable.pairwise`: pairs of one key stay as they were, so what held between a pair and the later ones still holds
  between pairs of one key. Sorting by one key after the other this way orders by the last key first.
- `isStable_mergeSort`: merge sort is one.
-/
import Mathlib.Data.List.Sort
import Mathlib.Tactic

namespace StableSort

variable {α β : Type*}

/-- the result has the same pairs, in the order `r` of the keys, and those of one key in the order they had -/
structure IsStable [DecidableEq α] (r : α → α → Prop) (sort : List (α × β) → List (α × β)) : Prop where
  perm : ∀ l, (sort l).Perm l
  sorted : ∀ l, (sort l).Pairwise fun p q => r p.1 q.1
  stable : ∀ l k, (sort l).filter (fun p => p.1 = k) = l.filter fun p => p.1 = k

section

variable [DecidableEq α]

/-- a relation between the pairs of each key -/
theorem pairwise_of_filter {R : α × β → α × β → Prop} {l : List (α × β)}
    (h : ∀ k, (l.filter fun p => p.1 = k).Pairwise R) : l.Pairwise fun p q => p.1 = q.1 → R p q := by
  induction l with
  | nil => exact List.Pairwise.nil
  | cons p l ih =>
    refine List.pairwise_cons.2 ⟨fun q hq hkey => ?_, ih fun k => ?_⟩
    · have hp := h p.1
      rw [List.filter_cons_of_pos (by simp)] at hp
      exact (List.pairwise_cons.1 hp).1 q (List.mem_filter.2 ⟨hq, by simp [hkey]⟩)
    · exact (h k).sublist ((List.sublist_cons_self p l).filter _)

theorem IsStable.pairwise {r : α → α → Prop} {sort : List (α × β) → List (α × β)} (h : IsStable r sort)
    {R : α × β → α × β → Prop} {l : List (α × β)} (hl : l.Pairwise R) :
    (sort l).Pairwise fun p q => r p.1 q.1 ∧ (p.1 = q.1 → R p q) := by
  refine (h.sorted l).and (pairwise_of_filter fun k => ?_)
  rw [h.stable]
  exact hl.filter _

end

/-! ## Merge sort -/

/-- pairs are compared by their keys alone -/
def keyLe (r : α → α → Prop) [DecidableRel r] (p q : α × β) : Bool := decide (r p.1 q.1)

variable {r : α → α → Prop} [DecidableRel r]

theorem keyLe_trans [IsTrans α r] (p q s : α × β) (hpq : keyLe r p q) (hqs : keyLe r q s) : keyLe r p s :=
  decide_eq_true (IsTrans.trans _ _ _ (of_decide_eq_true hpq) (of_decide_eq_true hqs))

theorem keyLe_total [Std.Total r] (p q : α × β) : keyLe r p q || keyLe r q p := by
  rw [Bool.or_eq_true]
  exact (Std.Total.total (r := r) p.1 q.1).imp decide_eq_true decide_eq_true

variable [DecidableEq α] [Std.Total r] [IsTrans α r]

/-- pairs of one key are in order already, so merge sort leaves them in the order they have -/
theorem filter_mergeSort (l : List (α × β)) (k : α) :
    (l.mergeSort (keyLe r)).filter (fun p => p.1 = k) = l.filter fun p => p.1 = k := by
  have hordered : (l.filter fun p => p.1 = k).Pairwise fun p q => keyLe r p q := by
    refine List.pairwise_of_forall_mem_list fun p hp q hq => decide_eq_true ?_
    have hpk : p.1 = k := by simpa using (List.mem_filter.1 hp).2
    have hqk : q.1 = k := by simpa using (List.mem_filter.1 hq).2
    rw [hpk, hqk]
    exact (Std.Total.total (r := r) k k).elim id id
  have hsub := (List.sublist_mergeSort keyLe_trans keyLe_total hordered List.filter_sublist).filter fun p => p.1 = k
  rw [List.filter_filter] at hsub
  simp only [Bool.and_self] at hsub
  exact (hsub.eq_of_length ((List.mergeSort_perm l _).filter _).length_eq.symm).symm

theorem isStable_mergeSort : IsStable r fun l : List (α × β) => l.mergeSort (keyLe r) where
  perm l := List.mergeSort_perm l _
  sorted l := (List.pairwise_mergeSort keyLe_trans keyLe_total l).imp of_decide_eq_true
  stable l k := filter_mergeSort l k

end StableSort

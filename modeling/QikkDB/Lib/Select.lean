/-
Selecting the elements of a list by a mask, as a reconstruction by prefix sums does: element i is kept when flag i is
set, in order.

- `keep_map`, `keep_all`: the selection of an image; what a mask without gaps selects.
- `keep_filter`: the selection of one field of a list of rows by another is a filter of the rows.
- `keep_of_passFirst`, `passFirst_of_take`: the selection is a beginning of the list exactly when the flags that are set
  come before the others.
-/
import Mathlib.Tactic

namespace Select

variable {α β : Type*}

/-- the elements whose flag is set -/
def keep : List Bool → List α → List α
  | [], _ => []
  | _, [] => []
  | m :: ms, a :: l => if m then a :: keep ms l else keep ms l

@[simp] theorem keep_nil (m : List Bool) : keep m ([] : List α) = [] := by
  cases m <;> rfl

theorem keep_map (f : α → β) (m : List Bool) (l : List α) : keep m (l.map f) = (keep m l).map f := by
  induction m generalizing l with
  | nil => rfl
  | cons b m ih =>
    cases l with
    | nil => rfl
    | cons a l =>
      cases b
      · exact ih l
      · exact congrArg (f a :: ·) (ih l)

theorem keep_filter (p : α → Bool) (f : α → β) (l : List α) :
    keep (l.map p) (l.map f) = (l.filter p).map f := by
  induction l with
  | nil => rfl
  | cons a l ih =>
    cases h : p a
    · simpa [keep, h] using ih
    · simpa [keep, h] using ih

theorem length_keep {m : List Bool} {l : List α} (h : m.length = l.length) :
    (keep m l).length = m.count true := by
  induction m generalizing l with
  | nil => rfl
  | cons b m ih =>
    cases l with
    | nil => simp at h
    | cons a l =>
      have := ih (l := l) (by simpa using h)
      cases b
      · simpa [keep] using this
      · simpa [keep] using this

theorem keep_all {m : List Bool} {l : List α} (h : m.length = l.length) (hall : ∀ b ∈ m, b = true) : keep m l = l := by
  induction m generalizing l with
  | nil => exact (List.length_eq_zero_iff.1 h.symm).symm
  | cons b m ih =>
    cases l with
    | nil => simp at h
    | cons a l =>
      obtain rfl : b = true := hall b List.mem_cons_self
      exact congrArg (a :: ·) (ih (by simpa using h) fun c hc => hall c (List.mem_cons_of_mem _ hc))

/-- no flag that is set follows one that is not -/
def PassFirst (m : List Bool) : Prop := m.Pairwise fun a b => b = true → a = true

instance (m : List Bool) : Decidable (PassFirst m) := inferInstanceAs (Decidable (m.Pairwise _))

theorem keep_of_passFirst {m : List Bool} {l : List α} (hlen : m.length = l.length) (h : PassFirst m) :
    keep m l = l.take (m.count true) := by
  induction m generalizing l with
  | nil => rfl
  | cons b m ih =>
    cases l with
    | nil => simp at hlen
    | cons a l =>
      obtain ⟨hfirst, hrest⟩ := List.pairwise_cons.1 h
      have htail : m.length = l.length := by simpa using hlen
      cases b with
      | true => simpa [keep] using ih htail hrest
      | false =>
        have hnone : m.count true = 0 := List.count_eq_zero.2 fun hm => absurd (hfirst true hm rfl) (by decide)
        have hkeep : keep m l = [] := List.length_eq_zero_iff.1 (by rw [length_keep htail, hnone])
        simp [keep, hkeep, hnone]

theorem passFirst_of_take {m : List Bool} (h : ∀ b ∈ m.take (m.count true), b = true) : PassFirst m := by
  induction m with
  | nil => exact List.Pairwise.nil
  | cons b m ih =>
    cases b with
    | true =>
      rw [List.count_cons_self, List.take_succ_cons] at h
      exact List.pairwise_cons.2 ⟨fun _ _ _ => rfl, ih fun b hb => h b (List.mem_cons_of_mem _ hb)⟩
    | false =>
      rw [List.count_cons_of_ne (by decide)] at h
      have hnone : true ∉ m := by
        intro hm
        have hpos : 0 < m.count true := List.count_pos_iff.2 hm
        obtain ⟨k, hk⟩ := Nat.exists_eq_add_of_lt hpos
        rw [hk] at h
        exact absurd (h false (by simp)) (by decide)
      have hfirst : ∀ b ∈ m, b = true → false = true := by
        rintro b hb rfl
        exact absurd hb hnone
      refine List.pairwise_cons.2 ⟨hfirst, List.pairwise_of_forall_mem_list fun a _ b hb hbt => ?_⟩
      exact absurd (hbt ▸ hb) hnone

theorem keep_self (m : List Bool) : ∀ b ∈ keep m m, b = true := by
  induction m with
  | nil => simp [keep]
  | cons b m ih =>
    cases b with
    | true => simpa [keep] using ih
    | false => simpa [keep] using ih

end Select

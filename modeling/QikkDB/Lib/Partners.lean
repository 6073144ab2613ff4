/-
Two partners for each element, taken in turn.

- `first_return`: the elements that come in turn are pairwise different until the first one comes again, behind an even
  number of steps.
- `visited_closed`: with an element, both its partners have come by then.
- `exists_return`: in a finite set there is such a return.
-/
import Mathlib.Tactic

namespace Partners

variable {ι : Type*}

/-- each element of `S` has a partner other than itself, in `S`, of which it is the partner -/
structure Paired (S : Set ι) (α : ι → ι) : Prop where
  mem : ∀ x ∈ S, α x ∈ S
  back : ∀ x ∈ S, α (α x) = x
  ne : ∀ x ∈ S, α x ≠ x

/-- `x`, its first partner, the second partner of that one, and so on -/
def turn (α β : ι → ι) (x : ι) : ℕ → ι
  | 0 => x
  | k + 1 => if Even k then α (turn α β x k) else β (turn α β x k)

variable {S : Set ι} {α β : ι → ι} {x : ι}

theorem turn_mem (hα : Paired S α) (hβ : Paired S β) (hx : x ∈ S) (k : ℕ) : turn α β x k ∈ S := by
  induction k with
  | zero => exact hx
  | succ k ih =>
    rw [turn]
    split_ifs
    · exact hα.mem _ ih
    · exact hβ.mem _ ih

theorem turn_succ_of_even {k : ℕ} (h : Even k) : turn α β x (k + 1) = α (turn α β x k) := if_pos h

theorem turn_succ_of_odd {k : ℕ} (h : ¬ Even k) : turn α β x (k + 1) = β (turn α β x k) := if_neg h

/-- the turns behind the first one -/
theorem turn_succ (α β : ι → ι) (x : ι) (k : ℕ) : turn α β x (k + 1) = turn β α (α x) k := by
  induction k with
  | zero => rfl
  | succ k ih =>
    rw [turn, ih, turn]
    by_cases hk : Even k
    · rw [if_neg fun h => Nat.even_add_one.1 h hk, if_pos hk]
    · rw [if_pos (Nat.even_add_one.2 hk), if_neg hk]

theorem image_turn_succ (α β : ι → ι) (x : ι) (m : ℕ) :
    turn α β x '' Set.Iic (m + 1) = insert x (turn β α (α x) '' Set.Iic m) := by
  ext y
  constructor
  · rintro ⟨k, hk, rfl⟩
    cases k with
    | zero => exact .inl rfl
    | succ k => exact .inr ⟨k, Nat.le_of_succ_le_succ hk, (turn_succ α β x k).symm⟩
  · rintro (rfl | ⟨k, hk, rfl⟩)
    · exact ⟨0, Nat.zero_le _, rfl⟩
    · exact ⟨k + 1, Nat.succ_le_succ hk, turn_succ α β x k⟩

/-- one step back -/
theorem partner_turn (hα : Paired S α) (hβ : Paired S β) (hx : x ∈ S) (k : ℕ) :
    (if Even k then α else β) (turn α β x (k + 1)) = turn α β x k := by
  by_cases hk : Even k
  · rw [if_pos hk, turn_succ_of_even hk, hα.back _ (turn_mem hα hβ hx k)]
  · rw [if_neg hk, turn_succ_of_odd hk, hβ.back _ (turn_mem hα hβ hx k)]

/-- no element comes twice before the first one does -/
theorem first_return (hα : Paired S α) (hβ : Paired S β) (hx : x ∈ S) {k j : ℕ} (hj : j < k)
    (hreturn : turn α β x k = turn α β x j)
    (hdistinct : ∀ i < k, ∀ i' < k, turn α β x i = turn α β x i' → i = i') : Even k ∧ j = 0 := by
  obtain ⟨k, rfl⟩ : ∃ i, k = i + 1 := ⟨k - 1, by omega⟩
  have hback := partner_turn hα hβ hx k
  rw [hreturn] at hback
  by_cases hk : Even k
  · -- the last step was one to a first partner; so was the step from `j` or that to `j`
    exfalso
    rw [if_pos hk] at hback
    by_cases hparity : Even j
    · rw [← turn_succ_of_even (α := α) (β := β) (x := x) hparity] at hback
      rcases Nat.lt_or_ge (j + 1) (k + 1) with hlt | hge
      · have heq := hdistinct _ hlt _ (Nat.lt_succ_self k) hback
        rw [← heq] at hk
        exact (Nat.even_add_one.1 hk) hparity
      · have heq : j = k := by omega
        subst heq
        rw [hreturn] at hback
        rw [turn_succ_of_even hparity] at hreturn
        exact hα.ne _ (turn_mem hα hβ hx j) hreturn
    · obtain ⟨i, rfl⟩ : ∃ i, j = i + 1 := ⟨j - 1, by
        have : j ≠ 0 := fun h => hparity (by rw [h]; exact Even.zero)
        omega⟩
      have hi : Even i := by rwa [Nat.even_add_one, not_not] at hparity
      have hstep := partner_turn hα hβ hx i
      rw [if_pos hi, hback] at hstep
      have heq := hdistinct _ (Nat.lt_succ_self k) _ (by omega) hstep
      omega
  · refine ⟨Nat.even_add_one.2 hk, ?_⟩
    rw [if_neg hk] at hback
    by_cases hparity : Even j
    · cases j with
      | zero => rfl
      | succ i =>
        exfalso
        have hi : ¬ Even i := Nat.even_add_one.1 hparity
        have hstep := partner_turn hα hβ hx i
        rw [if_neg hi, hback] at hstep
        have heq := hdistinct _ (Nat.lt_succ_self k) _ (by omega) hstep
        omega
    · exfalso
      rw [← turn_succ_of_odd (α := α) (β := β) (x := x) hparity] at hback
      rcases Nat.lt_or_ge (j + 1) (k + 1) with hlt | hge
      · have heq := hdistinct _ hlt _ (Nat.lt_succ_self k) hback
        rw [← heq] at hk
        exact hk (Nat.even_add_one.2 hparity)
      · have heq : j = k := by omega
        subst heq
        rw [turn_succ_of_odd hparity] at hreturn
        exact hβ.ne _ (turn_mem hα hβ hx j) hreturn

/-- when the first element comes again, all partners have come -/
theorem visited_closed (hα : Paired S α) (hβ : Paired S β) (hx : x ∈ S) {k : ℕ} (hk : Even k) (hpos : 0 < k)
    (hreturn : turn α β x k = x) {i : ℕ} (hi : i < k) :
    (∃ j < k, α (turn α β x i) = turn α β x j) ∧ ∃ j < k, β (turn α β x i) = turn α β x j := by
  by_cases heven : Even i
  · constructor
    · refine ⟨i + 1, ?_, (turn_succ_of_even heven).symm⟩
      have hne : i + 1 ≠ k := fun h => by
        rw [← h] at hk
        exact (Nat.even_add_one.1 hk) heven
      omega
    · cases i with
      | zero =>
        obtain ⟨j, rfl⟩ : ∃ j, k = j + 1 := ⟨k - 1, by omega⟩
        have hj : ¬ Even j := Nat.even_add_one.1 hk
        have hstep := partner_turn hα hβ hx j
        rw [if_neg hj, hreturn] at hstep
        exact ⟨j, Nat.lt_succ_self j, hstep⟩
      | succ i =>
        have hstep := partner_turn hα hβ hx i
        rw [if_neg (Nat.even_add_one.1 heven)] at hstep
        exact ⟨i, by omega, hstep⟩
  · constructor
    · cases i with
      | zero => exact absurd Even.zero heven
      | succ i =>
        have hstep := partner_turn hα hβ hx i
        rw [if_pos (by rwa [Nat.even_add_one, not_not] at heven)] at hstep
        exact ⟨i, by omega, hstep⟩
    · rcases Nat.lt_or_ge (i + 1) k with hlt | hge
      · exact ⟨i + 1, hlt, (turn_succ_of_odd heven).symm⟩
      · have heq : i + 1 = k := by omega
        refine ⟨0, hpos, ?_⟩
        rw [← turn_succ_of_odd (α := α) (β := β) (x := x) heven, heq, hreturn]
        rfl

/-- some element of a finite set comes again -/
theorem exists_return (hα : Paired S α) (hβ : Paired S β) (hx : x ∈ S) (hS : S.Finite) :
    ∃ k, 0 < k ∧ k ≤ S.ncard ∧ Even k ∧ turn α β x k = x ∧
      ∀ i < k, ∀ i' < k, turn α β x i = turn α β x i' → i = i' := by
  have hrepeat : ∃ k, ∃ j < k, turn α β x k = turn α β x j := by
    obtain ⟨i, hi, j, hj, hne, heq⟩ := Set.infinite_univ.exists_ne_map_eq_of_mapsTo
      (f := turn α β x) (s := Set.univ) (t := S) (fun k _ => turn_mem hα hβ hx k) hS
    rcases Nat.lt_or_gt_of_ne hne with hlt | hgt
    · exact ⟨j, i, hlt, heq.symm⟩
    · exact ⟨i, j, hgt, heq⟩
  classical
  obtain ⟨j, hj, hreturn⟩ := Nat.find_spec hrepeat
  have hdistinct : ∀ i < Nat.find hrepeat, ∀ i' < Nat.find hrepeat, turn α β x i = turn α β x i' → i = i' := by
    intro i hi i' hi' heq
    rcases Nat.lt_trichotomy i i' with hlt | he | hgt
    · exact absurd ⟨i, hlt, heq.symm⟩ (Nat.find_min hrepeat hi')
    · exact he
    · exact absurd ⟨i', hgt, heq⟩ (Nat.find_min hrepeat hi)
  obtain ⟨heven, rfl⟩ := first_return hα hβ hx hj hreturn hdistinct
  refine ⟨Nat.find hrepeat, hj, ?_, heven, hreturn, hdistinct⟩
  have hsub : (turn α β x) '' Set.Iio (Nat.find hrepeat) ⊆ S := by
    rintro _ ⟨i, -, rfl⟩
    exact turn_mem hα hβ hx i
  have hcard := Set.ncard_le_ncard hsub hS
  have hinj : Set.InjOn (turn α β x) (Set.Iio (Nat.find hrepeat)) := fun i hi i' hi' => hdistinct i hi i' hi'
  rw [hinj.ncard_image, Set.ncard_eq_toFinset_card', Set.toFinset_Iio, Nat.card_Iio] at hcard
  exact hcard

end Partners

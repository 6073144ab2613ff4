/-
Bisection of an interval of integers by an arbitrary rule: the rule says of the middle point whether it is the one
looked for, whether the search goes on below or above it, or whether the search is given up.

- `visits_inv`: what holds of the middle of every interval that an invariant admits holds of every point visited.
- `reaches`: a rule that points towards `x` from every other point (the upper end apart, which is the middle of no
  longer interval) visits `x`, and finds it when it is the one looked for.
- `not_mem_visits_hi`: the upper end is not visited when the rule does not point at it from the point before.
- `found_mem`: what is found was visited, and the rule says so of it.
-/
import Mathlib.Tactic

namespace Bisection

inductive Move where
  | giveUp
  | found
  | below
  | above
  deriving DecidableEq, Repr

/-- the middle, rounded towards the lower end -/
def mid (lo hi : ℤ) : ℤ := lo + (hi - lo) / 2

theorem lo_le_mid {lo hi : ℤ} (h : lo ≤ hi) : lo ≤ mid lo hi := by
  unfold mid
  omega

theorem mid_le_hi {lo hi : ℤ} (h : lo ≤ hi) : mid lo hi ≤ hi := by
  unfold mid
  omega

theorem mid_lt_hi {lo hi : ℤ} (h : lo < hi) : mid lo hi < hi := by
  unfold mid
  omega

/-- the points visited, in order, and the one found -/
def bisect (move : ℤ → Move) (lo hi : ℤ) : List ℤ × Option ℤ :=
  if h : lo ≤ hi then
    have := lo_le_mid h
    have := mid_le_hi h
    match move (mid lo hi) with
    | .giveUp => ([mid lo hi], none)
    | .found => ([mid lo hi], some (mid lo hi))
    | .below => (mid lo hi :: (bisect move lo (mid lo hi - 1)).1, (bisect move lo (mid lo hi - 1)).2)
    | .above => (mid lo hi :: (bisect move (mid lo hi + 1) hi).1, (bisect move (mid lo hi + 1) hi).2)
  else ([], none)
termination_by (hi + 1 - lo).toNat

variable {move : ℤ → Move} {lo hi : ℤ}

theorem bisect_of_lt (h : hi < lo) : bisect move lo hi = ([], none) := by
  rw [bisect, dif_neg (not_le.2 h)]

theorem bisect_giveUp (h : lo ≤ hi) (hm : move (mid lo hi) = .giveUp) :
    bisect move lo hi = ([mid lo hi], none) := by
  rw [bisect, dif_pos h]
  simp only [hm]

theorem bisect_found (h : lo ≤ hi) (hm : move (mid lo hi) = .found) :
    bisect move lo hi = ([mid lo hi], some (mid lo hi)) := by
  rw [bisect, dif_pos h]
  simp only [hm]

theorem bisect_below (h : lo ≤ hi) (hm : move (mid lo hi) = .below) :
    bisect move lo hi =
      (mid lo hi :: (bisect move lo (mid lo hi - 1)).1, (bisect move lo (mid lo hi - 1)).2) := by
  rw [bisect, dif_pos h]
  simp only [hm]

theorem bisect_above (h : lo ≤ hi) (hm : move (mid lo hi) = .above) :
    bisect move lo hi =
      (mid lo hi :: (bisect move (mid lo hi + 1) hi).1, (bisect move (mid lo hi + 1) hi).2) := by
  rw [bisect, dif_pos h]
  simp only [hm]

/-- the rule of invariants -/
theorem visits_inv {P : ℤ → Prop} (Inv : ℤ → ℤ → Prop) (h₀ : Inv lo hi)
    (hvisit : ∀ l h, Inv l h → l ≤ h → P (mid l h))
    (hbelow : ∀ l h, Inv l h → l ≤ h → move (mid l h) = .below → Inv l (mid l h - 1))
    (habove : ∀ l h, Inv l h → l ≤ h → move (mid l h) = .above → Inv (mid l h + 1) h) :
    ∀ m ∈ (bisect move lo hi).1, P m := by
  induction lo, hi using bisect.induct move with
  | case1 lo hi h _ _ hm =>
    rw [bisect_giveUp h hm]
    simpa using hvisit lo hi h₀ h
  | case2 lo hi h _ _ hm =>
    rw [bisect_found h hm]
    simpa using hvisit lo hi h₀ h
  | case3 lo hi h _ _ hm ih =>
    rw [bisect_below h hm]
    intro m hmem
    rcases List.mem_cons.1 hmem with rfl | hmem
    · exact hvisit lo hi h₀ h
    · exact ih (hbelow lo hi h₀ h hm) m hmem
  | case4 lo hi h _ _ hm ih =>
    rw [bisect_above h hm]
    intro m hmem
    rcases List.mem_cons.1 hmem with rfl | hmem
    · exact hvisit lo hi h₀ h
    · exact ih (habove lo hi h₀ h hm) m hmem
  | case5 lo hi h =>
    rw [bisect_of_lt (not_le.1 h)]
    simp

theorem visits_mem_range : ∀ m ∈ (bisect move lo hi).1, lo ≤ m ∧ m ≤ hi := by
  refine visits_inv (fun l h => lo ≤ l ∧ h ≤ hi) ⟨le_refl _, le_refl _⟩ ?_ ?_ ?_
  · rintro l h ⟨hl, hh⟩ hle
    exact ⟨hl.trans (lo_le_mid hle), (mid_le_hi hle).trans hh⟩
  · rintro l h ⟨hl, hh⟩ hle -
    exact ⟨hl, by linarith [mid_le_hi hle]⟩
  · rintro l h ⟨hl, hh⟩ hle -
    exact ⟨by linarith [lo_le_mid hle], hh⟩

/-- the upper end is visited from a shorter interval only, and then from the point before it -/
theorem not_mem_visits_hi (h : lo < hi) (hm : move (hi - 1) ≠ .above) : hi ∉ (bisect move lo hi).1 := by
  intro hmem
  refine visits_inv (P := fun m => m ≠ hi) (fun l h' => l < hi ∧ h' ≤ hi) ⟨h, le_refl _⟩ ?_ ?_ ?_ hi hmem rfl
  · rintro l h' ⟨hl, hh⟩ hle heq
    rcases hle.eq_or_lt with rfl | hlt
    · have := mid_le_hi hle
      omega
    · have := mid_lt_hi hlt
      omega
  · rintro l h' ⟨hl, hh⟩ hle -
    exact ⟨hl, by linarith [mid_le_hi hle]⟩
  · rintro l h' ⟨hl, hh⟩ hle habove
    refine ⟨?_, hh⟩
    by_contra hge
    rcases hle.eq_or_lt with rfl | hlt
    · have hmid : mid l l = hi - 1 := by
        have := mid_le_hi hle
        omega
      exact hm (hmid ▸ habove)
    · have hmid : mid l h' = hi - 1 := by
        have := mid_lt_hi hlt
        omega
      exact hm (hmid ▸ habove)

theorem found_mem {m : ℤ} (h : (bisect move lo hi).2 = some m) : m ∈ (bisect move lo hi).1 ∧ move m = .found := by
  induction lo, hi using bisect.induct move with
  | case1 lo hi hle _ _ hm =>
    rw [bisect_giveUp hle hm] at h
    exact absurd h (by simp)
  | case2 lo hi hle _ _ hm =>
    rw [bisect_found hle hm] at h ⊢
    obtain rfl := Option.some.inj h
    exact ⟨by simp, hm⟩
  | case3 lo hi hle _ _ hm ih =>
    rw [bisect_below hle hm] at h ⊢
    exact ⟨List.mem_cons_of_mem _ (ih h).1, (ih h).2⟩
  | case4 lo hi hle _ _ hm ih =>
    rw [bisect_above hle hm] at h ⊢
    exact ⟨List.mem_cons_of_mem _ (ih h).1, (ih h).2⟩
  | case5 lo hi hle =>
    rw [bisect_of_lt (not_le.1 hle)] at h
    exact absurd h (by simp)

/-- where the middle of an interval lies, and what a rule that points towards `x` says of it -/
theorem toward {x : ℤ} (hlo : lo ≤ x) (hhi : x ≤ hi) (habove : ∀ m, lo ≤ m → m < x → move m = .above)
    (hbelow : ∀ m, x < m → m < hi → move m = .below) :
    mid lo hi = x ∨ mid lo hi < x ∧ move (mid lo hi) = .above ∨ x < mid lo hi ∧ move (mid lo hi) = .below := by
  rcases lt_trichotomy (mid lo hi) x with hlt | heq | hgt
  · exact Or.inr (Or.inl ⟨hlt, habove _ (lo_le_mid (hlo.trans hhi)) hlt⟩)
  · exact Or.inl heq
  · have hne : lo < hi := by
      have := mid_le_hi (hlo.trans hhi)
      omega
    exact Or.inr (Or.inr ⟨hgt, hbelow _ hgt (mid_lt_hi hne)⟩)

/-- a rule that points towards `x` visits it and, where it is the one looked for, finds it -/
theorem reaches {x : ℤ} (hlo : lo ≤ x) (hhi : x ≤ hi) (habove : ∀ m, lo ≤ m → m < x → move m = .above)
    (hbelow : ∀ m, x < m → m < hi → move m = .below) :
    x ∈ (bisect move lo hi).1 ∧ (move x = .found → (bisect move lo hi).2 = some x) := by
  induction lo, hi using bisect.induct move with
  | case5 lo hi h => exact absurd (hlo.trans hhi) h
  | case1 lo hi h _ _ hm =>
    rcases toward hlo hhi habove hbelow with heq | ⟨-, hm'⟩ | ⟨-, hm'⟩
    · rw [bisect_giveUp h hm, heq]
      exact ⟨by simp, fun hf => absurd (heq ▸ hm) (by simp [hf])⟩
    · exact absurd (hm.symm.trans hm') (by decide)
    · exact absurd (hm.symm.trans hm') (by decide)
  | case2 lo hi h _ _ hm =>
    rcases toward hlo hhi habove hbelow with heq | ⟨-, hm'⟩ | ⟨-, hm'⟩
    · rw [bisect_found h hm, heq]
      exact ⟨by simp, fun _ => rfl⟩
    · exact absurd (hm.symm.trans hm') (by decide)
    · exact absurd (hm.symm.trans hm') (by decide)
  | case3 lo hi h _ _ hm ih =>
    rw [bisect_below h hm]
    rcases toward hlo hhi habove hbelow with heq | ⟨-, hm'⟩ | ⟨hlt, -⟩
    · exact ⟨by simp [heq], fun hf => absurd (heq ▸ hm) (by simp [hf])⟩
    · exact absurd (hm.symm.trans hm') (by decide)
    · have hle := mid_le_hi h
      obtain ⟨hmem, hfound⟩ := ih hlo (by omega) habove fun m h₁ h₂ => hbelow m h₁ (by omega)
      exact ⟨List.mem_cons_of_mem _ hmem, hfound⟩
  | case4 lo hi h _ _ hm ih =>
    rw [bisect_above h hm]
    rcases toward hlo hhi habove hbelow with heq | ⟨hlt, -⟩ | ⟨-, hm'⟩
    · exact ⟨by simp [heq], fun hf => absurd (heq ▸ hm) (by simp [hf])⟩
    · have hge := lo_le_mid h
      obtain ⟨hmem, hfound⟩ := ih (by omega) hhi (fun m h₁ h₂ => habove m (by omega) h₂) hbelow
      exact ⟨List.mem_cons_of_mem _ hmem, hfound⟩
    · exact absurd (hm.symm.trans hm') (by decide)

end Bisection

/-
Rounding of natural numbers to p bits: to the nearest one, and to the even one of two that are equally near.

- `roundBits_eq_self_iff`: exactly the numbers of p bits times a power of two stay.
- `le_roundBits`, `roundBits_le`: such a number is not jumped over.
- `roundBits_error`: a number moves by at most half a unit in its last place.
-/
import Mathlib.Tactic

namespace Rounding

/-- the bits that are too many -/
def excess (p n : ℕ) : ℕ := n.log2 + 1 - p

/-- the unit in the last place -/
def unit (p n : ℕ) : ℕ := 2 ^ excess p n

def roundBits (p n : ℕ) : ℕ :=
  let u := unit p n
  if 2 * (n % u) < u ∨ 2 * (n % u) = u ∧ n / u % 2 = 0 then n / u * u else (n / u + 1) * u

/-- p bits times a power of two -/
def Representable (p n : ℕ) : Prop := ∃ m k, m < 2 ^ p ∧ n = m * 2 ^ k

variable {p m n : ℕ}

theorem unit_pos (p n : ℕ) : 0 < unit p n := Nat.two_pow_pos _

theorem representable_of_lt (h : n < 2 ^ p) : Representable p n := ⟨n, 0, h, by simp⟩

theorem representable_two_pow (hp : 0 < p) (k : ℕ) : Representable p (2 ^ k) :=
  ⟨1, k, Nat.one_lt_two_pow hp.ne', by simp⟩

theorem div_unit_lt (p n : ℕ) : n / unit p n < 2 ^ p := by
  rw [Nat.div_lt_iff_lt_mul (unit_pos p n), unit, ← pow_add]
  refine Nat.lt_log2_self.trans_le (Nat.pow_le_pow_right (by decide) ?_)
  unfold excess
  omega

/-- what is rounded down, and what is rounded up -/
theorem roundBits_cases (p n : ℕ) :
    (roundBits p n = n / unit p n * unit p n ∧ 2 * (n % unit p n) ≤ unit p n) ∨
      (roundBits p n = (n / unit p n + 1) * unit p n ∧ unit p n ≤ 2 * (n % unit p n)) := by
  unfold roundBits
  simp only
  split
  case isTrue h => exact Or.inl ⟨rfl, by omega⟩
  case isFalse h => exact Or.inr ⟨rfl, by omega⟩

theorem roundBits_error (p n : ℕ) :
    2 * roundBits p n ≤ 2 * n + unit p n ∧ 2 * n ≤ 2 * roundBits p n + unit p n := by
  have hn := Nat.div_add_mod n (unit p n)
  rw [mul_comm] at hn
  rcases roundBits_cases p n with ⟨hround, hrem⟩ | ⟨hround, hrem⟩
  · rw [hround]
    omega
  · rw [hround, add_mul, one_mul]
    have hlt := Nat.mod_lt n (unit_pos p n)
    omega

/-- A number of p bits times a power of two is a multiple of the unit of a number, or lies before its first bit. -/
theorem Representable.dvd_or_lt (h : Representable p m) (n : ℕ) : unit p n ∣ m ∨ m < 2 ^ n.log2 := by
  obtain ⟨a, k, ha, rfl⟩ := h
  rcases Nat.le_total (excess p n) k with hk | hk
  · exact Or.inl (Dvd.dvd.mul_left (pow_dvd_pow 2 hk) a)
  · rcases Nat.eq_or_lt_of_le hk with heq | hlt
    · exact Or.inl (by rw [unit, ← heq]; exact Dvd.intro_left a rfl)
    · right
      calc a * 2 ^ k < 2 ^ p * 2 ^ k := Nat.mul_lt_mul_of_pos_right ha (Nat.two_pow_pos k)
        _ = 2 ^ (p + k) := (pow_add 2 p k).symm
        _ ≤ 2 ^ n.log2 := Nat.pow_le_pow_right (by decide) (by unfold excess at hlt; omega)

theorem roundBits_of_dvd (h : unit p n ∣ n) : roundBits p n = n := by
  have hzero : n % unit p n = 0 := Nat.mod_eq_zero_of_dvd h
  have hpos := unit_pos p n
  rcases roundBits_cases p n with ⟨hround, -⟩ | ⟨-, hrem⟩
  · rw [hround, Nat.div_mul_cancel h]
  · omega

/-- Exactly the numbers of p bits times a power of two stay. -/
theorem roundBits_eq_self_iff : roundBits p n = n ↔ Representable p n := by
  constructor
  · intro h
    have hn := Nat.div_add_mod n (unit p n)
    have hlt := Nat.mod_lt n (unit_pos p n)
    rw [mul_comm] at hn
    rcases roundBits_cases p n with ⟨hround, -⟩ | ⟨hround, -⟩
    · exact ⟨n / unit p n, excess p n, div_unit_lt p n, h.symm.trans hround⟩
    · rw [add_mul, one_mul] at hround
      omega
  · intro h
    by_cases hn : n = 0
    · subst hn
      exact roundBits_of_dvd (dvd_zero _)
    · rcases h.dvd_or_lt n with hdvd | hlt
      · exact roundBits_of_dvd hdvd
      · exact absurd hlt (not_lt.2 (Nat.log2_self_le hn))

/-- no number of p bits lies between a number and what it is rounded down to -/
theorem le_roundBits (hp : 0 < p) (h : Representable p m) (hle : m ≤ n) : m ≤ roundBits p n := by
  by_cases hn : n = 0
  · rw [hn] at hle
    omega
  have hdown : m ≤ n / unit p n * unit p n := by
    rcases h.dvd_or_lt n with hdvd | hlt
    · obtain ⟨a, rfl⟩ := hdvd
      rw [mul_comm] at hle ⊢
      exact Nat.mul_le_mul_right _ ((Nat.le_div_iff_mul_le (unit_pos p n)).2 hle)
    · -- the first bit itself is a multiple of the unit
      have hfirst : unit p n ∣ 2 ^ n.log2 := pow_dvd_pow 2 (by unfold excess; omega)
      obtain ⟨a, ha⟩ := hfirst
      have hself := Nat.log2_self_le hn
      rw [ha, mul_comm] at hself
      refine hlt.le.trans ?_
      rw [ha, mul_comm]
      exact Nat.mul_le_mul_right _ ((Nat.le_div_iff_mul_le (unit_pos p n)).2 hself)
  rcases roundBits_cases p n with ⟨hround, -⟩ | ⟨hround, -⟩
  · rwa [hround]
  · rw [hround, add_mul]
    exact hdown.trans (Nat.le_add_right _ _)

/-- no number of p bits lies between a number and what it is rounded up to -/
theorem roundBits_le (h : Representable p m) (hle : n ≤ m) : roundBits p n ≤ m := by
  by_cases hn : n = 0
  · subst hn
    have hzero : roundBits p 0 = 0 := roundBits_of_dvd (dvd_zero _)
    rw [hzero]
    exact Nat.zero_le m
  have hdiv := Nat.div_mul_le_self n (unit p n)
  rcases roundBits_cases p n with ⟨hround, -⟩ | ⟨hround, hrem⟩
  · exact hround ▸ hdiv.trans hle
  · rcases h.dvd_or_lt n with hdvd | hlt
    · obtain ⟨a, rfl⟩ := hdvd
      have hpos := unit_pos p n
      have hsplit := Nat.div_add_mod n (unit p n)
      have hless : n / unit p n < a := by
        rw [Nat.div_lt_iff_lt_mul hpos, mul_comm]
        refine lt_of_le_of_ne hle fun heq => ?_
        have hzero : n % unit p n = 0 := Nat.mod_eq_zero_of_dvd ⟨a, heq⟩
        omega
      rw [hround, mul_comm (unit p n)]
      exact Nat.mul_le_mul_right _ hless
    · exact absurd (hlt.trans_le (Nat.log2_self_le hn)) (not_lt.2 hle)

theorem roundBits_eq_zero_iff (hp : 0 < p) : roundBits p n = 0 ↔ n = 0 := by
  constructor
  · intro h
    by_contra hn
    have hone : 1 ≤ roundBits p n := le_roundBits hp (representable_two_pow hp 0) (Nat.one_le_iff_ne_zero.2 hn)
    omega
  · rintro rfl
    exact roundBits_of_dvd (dvd_zero _)

end Rounding

/-
Merging sorted blocks: at each step a rule chooses a block from the heads alone, and the head of that block is the next
row of the output.

A rule that never prefers a block to an earlier one with an equivalent head can only sort as the stable merge does, so
when a row is taken the other heads are known from the input: `cut`.

Results:
- `Merges.coe_eq_sum`: the output is a permutation of the rows.
- `sorted_iff`: the output is sorted exactly when the rule chooses the block of every row at the cut of that row.
-/
import Mathlib.Algebra.BigOperators.Group.Finset.Basic
import Mathlib.Data.Fintype.BigOperators
import Mathlib.Order.WellFounded
import Mathlib.Tactic

namespace QikkDB.Merging

variable {ι ρ : Type}

def heads (rest : ι → List ρ) : ι → Option ρ := fun j => (rest j).head?

theorem heads_eq_some {rest : ι → List ρ} {j : ι} {x : ρ} : heads rest j = some x ↔ ∃ xs, rest j = x :: xs := by
  simp only [heads]
  cases rest j with
  | nil => simp
  | cons y ys => simp

variable [LinearOrder ι]

/-- the rows that a rule takes from blocks, in order -/
inductive Merges (choose : (ι → Option ρ) → Option ι) : (ι → List ρ) → List ρ → Prop
  | done {rest : ι → List ρ} : (∀ j, rest j = []) → Merges choose rest []
  | take {rest : ι → List ρ} {j : ι} {x : ρ} {xs out : List ρ} : choose (heads rest) = some j → rest j = x :: xs →
      Merges choose (Function.update rest j xs) out → Merges choose rest (x :: out)

/-! ## The rows of the output -/

variable {choose : (ι → Option ρ) → Option ι}

theorem coe_update_sum [Fintype ι] {rest : ι → List ρ} {j : ι} {x : ρ} {xs : List ρ} (h : rest j = x :: xs) :
    (∑ k, (rest k : Multiset ρ)) = x ::ₘ ∑ k, (Function.update rest j xs k : Multiset ρ) := by
  rw [← Finset.add_sum_erase _ _ (Finset.mem_univ j), ← Finset.add_sum_erase _ _ (Finset.mem_univ j),
    Function.update_self, h, ← Multiset.cons_coe, Multiset.cons_add]
  congr 2
  apply Finset.sum_congr rfl
  intro k hk
  rw [Function.update_of_ne (Finset.ne_of_mem_erase hk)]

theorem Merges.coe_eq_sum [Fintype ι] {rest : ι → List ρ} {out : List ρ} (h : Merges choose rest out) :
    (out : Multiset ρ) = ∑ j, (rest j : Multiset ρ) := by
  induction h with
  | done hempty => simp [hempty]
  | take _ hj _ ih => rw [coe_update_sum hj, ← ih, Multiset.cons_coe]

theorem Merges.mem_iff [Fintype ι] {rest : ι → List ρ} {out : List ρ} (h : Merges choose rest out) {x : ρ} :
    x ∈ out ↔ ∃ j, x ∈ rest j := by
  rw [← Multiset.mem_coe, h.coe_eq_sum, Multiset.mem_sum]
  simp

/-! ## The stable merge -/

variable (lt : ρ → ρ → Prop)

/-- the next row of each block when `x` comes up in block `b`: earlier blocks are past the rows equivalent to `x`, later
blocks are not -/
def cut [DecidableRel lt] (blocks : ι → List ρ) (b : ι) (x : ρ) : ι → Option ρ := fun j =>
  if j < b then (blocks j).find? fun y => lt x y
  else if j = b then some x
  else (blocks j).find? fun y => !lt y x

/-- the head that comes first: no head is before it, and no earlier block has an equivalent head -/
structure FirstHead (rest : ι → List ρ) (b : ι) (x : ρ) (xs : List ρ) : Prop where
  head : rest b = x :: xs
  least : ∀ j y, heads rest j = some y → ¬ lt y x
  first : ∀ j y, heads rest j = some y → ¬ lt x y → b ≤ j

/-- the rows taken so far come before the others in the stable order -/
structure Split (blocks taken rest : ι → List ρ) : Prop where
  eq : ∀ j, blocks j = taken j ++ rest j
  before : ∀ {j k t u}, t ∈ taken j → u ∈ rest k → ¬ lt u t
  stable : ∀ {j k t u}, t ∈ taken j → u ∈ rest k → ¬ lt t u → j ≤ k

def Sorted (rows : List ρ) : Prop := rows.Pairwise fun u v => ¬ lt v u

theorem split_init (blocks : ι → List ρ) : Split lt blocks (fun _ => []) blocks where
  eq := by simp
  before := by simp
  stable := by simp

variable {lt}

theorem firstHead_mem {rest : ι → List ρ} {b : ι} {x : ρ} {xs : List ρ} (h : FirstHead lt rest b x xs) :
    x ∈ rest b := by
  simp [h.head]

/-- at a state of the stable merge the heads are the cut of the row that comes first -/
theorem heads_eq_cut [DecidableRel lt] {blocks taken rest : ι → List ρ} (hsplit : Split lt blocks taken rest) {b : ι}
    {x : ρ} {xs : List ρ} (h : FirstHead lt rest b x xs) : heads rest = cut lt blocks b x := by
  have hx := firstHead_mem h
  funext j
  simp only [cut]
  rcases lt_trichotomy j b with hj | rfl | hj
  · rw [if_pos hj, hsplit.eq j, List.find?_append, List.find?_eq_none.2 fun t ht => ?_, Option.none_or]
    · cases hrest : rest j with
      | nil => simp [heads, hrest]
      | cons y ys =>
        have hlt : lt x y := by
          by_contra hnot
          exact absurd (h.first j y (heads_eq_some.2 ⟨ys, hrest⟩) hnot) (not_le.2 hj)
        simp [heads, hrest, hlt]
    · simpa using hsplit.before ht hx
  · rw [if_neg (lt_irrefl j), if_pos rfl, heads, h.head, List.head?_cons]
  · rw [if_neg (not_lt.2 hj.le), if_neg hj.ne', hsplit.eq j, List.find?_append,
      List.find?_eq_none.2 fun t ht => ?_, Option.none_or]
    · cases hrest : rest j with
      | nil => simp [heads, hrest]
      | cons y ys =>
        have hnot : ¬ lt y x := h.least j y (heads_eq_some.2 ⟨ys, hrest⟩)
        simp [heads, hrest, hnot]
    · have hlt : lt t x := by
        by_contra hnot
        exact absurd (hsplit.stable ht hx hnot) (not_le.2 hj)
      simpa using hlt

theorem mem_update {rest : ι → List ρ} {b k : ι} {x u : ρ} {xs : List ρ} (h : rest b = x :: xs) :
    u ∈ Function.update rest b xs k → u ∈ rest k := by
  intro hu
  by_cases hk : k = b
  · subst hk
    rw [Function.update_self] at hu
    simp [h, hu]
  · rwa [Function.update_of_ne hk] at hu

theorem sorted_update {rest : ι → List ρ} {b : ι} {x : ρ} {xs : List ρ} (h : rest b = x :: xs)
    (hsorted : ∀ j, Sorted lt (rest j)) (j : ι) : Sorted lt (Function.update rest b xs j) := by
  by_cases hj : j = b
  · subst hj
    have hcons := hsorted j
    rw [Sorted, h] at hcons
    rw [Function.update_self]
    exact hcons.of_cons
  · rw [Function.update_of_ne hj]
    exact hsorted j

section Order

variable [IsStrictWeakOrder ρ lt]

theorem not_lt_trans {x y z : ρ} (hxy : ¬ lt x y) (hyz : ¬ lt y z) : ¬ lt x z := by
  intro hxz
  by_cases hyx : lt y x
  · exact hyz (IsTrans.trans _ _ _ hyx hxz)
  by_cases hzy : lt z y
  · exact hxy (IsTrans.trans _ _ _ hxz hzy)
  exact (IsStrictWeakOrder.incomp_trans x y z ⟨hxy, hyx⟩ ⟨hyz, hzy⟩).1 hxz

/-- the stable order of the blocks that have rows left -/
def Ahead (lt : ρ → ρ → Prop) (rest : ι → List ρ) (j k : ι) : Prop :=
  ∃ x y, heads rest j = some x ∧ heads rest k = some y ∧ (lt x y ∨ (¬ lt y x ∧ j < k))

instance irrefl_ahead (rest : ι → List ρ) : Std.Irrefl (Ahead lt rest) where
  irrefl j := by
    rintro ⟨x, y, hx, hy, h⟩
    obtain rfl : x = y := Option.some.inj (hx.symm.trans hy)
    rcases h with h | h
    · exact Std.Irrefl.irrefl x h
    · exact absurd h.2 (lt_irrefl j)

instance trans_ahead (rest : ι → List ρ) : IsTrans ι (Ahead lt rest) where
  trans j k l := by
    rintro ⟨x, y, hx, hy, hxy⟩ ⟨y', z, hy', hz, hyz⟩
    obtain rfl : y = y' := Option.some.inj (hy.symm.trans hy')
    refine ⟨x, z, hx, hz, ?_⟩
    rcases hxy with hxy | ⟨hyx, hjk⟩
    · left
      rcases hyz with hyz | ⟨hzy, -⟩
      · exact IsTrans.trans _ _ _ hxy hyz
      · by_contra hxz
        exact not_lt_trans hxz hzy hxy
    · rcases hyz with hyz | ⟨hzy, hkl⟩
      · left
        by_contra hxz
        exact not_lt_trans hyx hxz hyz
      · exact Or.inr ⟨not_lt_trans hzy hyx, hjk.trans hkl⟩

theorem exists_firstHead [Finite ι] {rest : ι → List ρ} (h : ∃ j, rest j ≠ []) :
    ∃ b x xs, FirstHead lt rest b x xs := by
  obtain ⟨b, hb, hmin⟩ := (Finite.wellFounded_of_trans_of_irrefl (Ahead lt rest)).has_min {j | rest j ≠ []} h
  obtain ⟨x, xs, hx⟩ := List.exists_cons_of_ne_nil hb
  have hhead : heads rest b = some x := heads_eq_some.2 ⟨xs, hx⟩
  have hnot : ∀ j y, heads rest j = some y → ¬ (lt y x ∨ (¬ lt x y ∧ j < b)) := by
    intro j y hy hahead
    obtain ⟨ys, hys⟩ := heads_eq_some.1 hy
    exact hmin j (by simp [hys]) ⟨y, x, hy, hhead, hahead⟩
  refine ⟨b, x, xs, hx, ?_, ?_⟩
  · intro j y hy hlt
    exact hnot j y hy (Or.inl hlt)
  · intro j y hy hxy
    by_contra hj
    exact hnot j y hy (Or.inr ⟨hxy, not_le.1 hj⟩)

/-- the first head is before no row that is left -/
theorem FirstHead.not_lt {rest : ι → List ρ} {b : ι} {x : ρ} {xs : List ρ} (h : FirstHead lt rest b x xs)
    (hsorted : ∀ j, Sorted lt (rest j)) {j : ι} {u : ρ} (hu : u ∈ rest j) : ¬ lt u x := by
  obtain ⟨y, ys, hy⟩ := List.exists_cons_of_ne_nil (List.ne_nil_of_mem hu)
  have hyx : ¬ lt y x := h.least j y (heads_eq_some.2 ⟨ys, hy⟩)
  have hrest := hsorted j
  rw [Sorted, hy, List.pairwise_cons] at hrest
  rw [hy, List.mem_cons] at hu
  rcases hu with rfl | hu
  · exact hyx
  · exact not_lt_trans (hrest.1 u hu) hyx

/-- an equivalent row that is left is in no earlier block -/
theorem FirstHead.le {rest : ι → List ρ} {b : ι} {x : ρ} {xs : List ρ} (h : FirstHead lt rest b x xs)
    (hsorted : ∀ j, Sorted lt (rest j)) {j : ι} {u : ρ} (hu : u ∈ rest j) (hxu : ¬ lt x u) : b ≤ j := by
  obtain ⟨y, ys, hy⟩ := List.exists_cons_of_ne_nil (List.ne_nil_of_mem hu)
  have hrest := hsorted j
  rw [Sorted, hy, List.pairwise_cons] at hrest
  rw [hy, List.mem_cons] at hu
  apply h.first j y (heads_eq_some.2 ⟨ys, hy⟩)
  rcases hu with rfl | hu
  · exact hxu
  · exact not_lt_trans hxu (hrest.1 u hu)

/-- taking the first head keeps the split -/
theorem split_take {blocks taken rest : ι → List ρ} (hsplit : Split lt blocks taken rest)
    (hsorted : ∀ j, Sorted lt (rest j)) {b : ι} {x : ρ} {xs : List ρ} (h : FirstHead lt rest b x xs) :
    Split lt blocks (Function.update taken b (taken b ++ [x])) (Function.update rest b xs) where
  eq j := by
    by_cases hj : j = b
    · subst hj
      simp [hsplit.eq j, h.head]
    · simp [hj, hsplit.eq j]
  before {j k t u} ht hu := by
    have hu' := mem_update h.head hu
    by_cases hj : j = b
    · subst hj
      rw [Function.update_self, List.mem_append, List.mem_singleton] at ht
      rcases ht with ht | rfl
      · exact hsplit.before ht hu'
      · exact h.not_lt hsorted hu'
    · rw [Function.update_of_ne hj] at ht
      exact hsplit.before ht hu'
  stable {j k t u} ht hu hnot := by
    have hu' := mem_update h.head hu
    by_cases hj : j = b
    · subst hj
      rw [Function.update_self, List.mem_append, List.mem_singleton] at ht
      rcases ht with ht | rfl
      · exact hsplit.stable ht hu' hnot
      · exact h.le hsorted hu' hnot
    · rw [Function.update_of_ne hj] at ht
      exact hsplit.stable ht hu' hnot

/-! ## When a rule sorts -/

/-- A sorted output is the stable merge, because the rule prefers the first of equivalent heads. -/
theorem take_first {rest : ι → List ρ} {b j : ι} {x y : ρ} {xs ys out : List ρ} [Fintype ι]
    (hfirst : ∀ h j x, choose h = some j → h j = some x → ∀ k y, h k = some y → ¬ lt x y → ¬ lt y x → j ≤ k)
    (h : FirstHead lt rest b x xs) (hchoose : choose (heads rest) = some j) (hj : rest j = y :: ys)
    (hmem : x ∈ y :: out) (hout : Sorted lt (y :: out)) : j = b := by
  have hx : heads rest b = some x := heads_eq_some.2 ⟨xs, h.head⟩
  have hy : heads rest j = some y := heads_eq_some.2 ⟨ys, hj⟩
  have hxy : ¬ lt x y := by
    rw [List.mem_cons] at hmem
    rcases hmem with rfl | hmem
    · exact Std.Irrefl.irrefl x
    · exact (List.pairwise_cons.1 hout).1 x hmem
  apply le_antisymm
  · exact hfirst _ j y hchoose hy b x hx (h.least j y hy) hxy
  · exact h.first j y hy hxy

theorem sorted_iff_aux [Fintype ι] [DecidableRel lt]
    (hfirst : ∀ h j x, choose h = some j → h j = some x → ∀ k y, h k = some y → ¬ lt x y → ¬ lt y x → j ≤ k)
    {blocks : ι → List ρ} (n : ℕ) : ∀ taken rest : ι → List ρ, Split lt blocks taken rest →
    (∀ j, Sorted lt (rest j)) → ∑ j, (rest j).length = n →
    ((∃ out, Merges choose rest out ∧ Sorted lt out) ↔ ∀ b, ∀ x ∈ rest b, choose (cut lt blocks b x) = some b) := by
  induction n with
  | zero =>
    intro taken rest hsplit hsorted hn
    have hempty : ∀ j, rest j = [] := by
      simpa [List.length_eq_zero_iff] using hn
    constructor
    · intro _ b x hx
      simp [hempty] at hx
    · intro _
      exact ⟨[], .done hempty, List.Pairwise.nil⟩
  | succ n ih =>
    intro taken rest hsplit hsorted hn
    have hne : ∃ j, rest j ≠ [] := by
      by_contra hall
      simp only [not_exists, not_not] at hall
      simp [hall] at hn
    obtain ⟨b, x, xs, hb⟩ : ∃ b x xs, FirstHead lt rest b x xs := exists_firstHead hne
    have hcut := heads_eq_cut hsplit hb
    have hlen : ∑ j, (Function.update rest b xs j).length = n := by
      have hsum := congrArg Multiset.card (coe_update_sum hb.head)
      simp only [Multiset.card_sum, Multiset.coe_card, Multiset.card_cons] at hsum
      omega
    have hnext := ih _ _ (split_take hsplit hsorted hb) (sorted_update hb.head hsorted) hlen
    constructor
    · rintro ⟨out, hmerges, hout⟩
      cases hmerges with
      | done hempty => exact absurd (hempty b) (by simp [hb.head])
      | @take _ j y ys out hchoose hj hrest =>
        have hx : x ∈ y :: out := (Merges.take hchoose hj hrest).mem_iff.2 ⟨b, firstHead_mem hb⟩
        obtain rfl := take_first hfirst hb hchoose hj hx hout
        obtain ⟨rfl, rfl⟩ := List.cons.inj (hj.symm.trans hb.head)
        have hothers := hnext.1 ⟨out, hrest, hout.of_cons⟩
        intro k u hu
        by_cases hk : k = j
        · subst hk
          rw [hj, List.mem_cons] at hu
          rcases hu with rfl | hu
          · rw [← hcut]
            exact hchoose
          · exact hothers k u (by rwa [Function.update_self])
        · exact hothers k u (by rwa [Function.update_of_ne hk])
    · intro h
      have hchoose : choose (heads rest) = some b := by
        rw [hcut]
        exact h b x (firstHead_mem hb)
      obtain ⟨out, hmerges, hout⟩ := hnext.2 fun k u hu => h k u (mem_update hb.head hu)
      refine ⟨x :: out, .take hchoose hb.head hmerges, List.pairwise_cons.2 ⟨?_, hout⟩⟩
      intro u hu
      obtain ⟨k, hk⟩ := hmerges.mem_iff.1 hu
      exact hb.not_lt hsorted (mem_update hb.head hk)

theorem sorted_iff [Fintype ι] [DecidableRel lt]
    (hfirst : ∀ h j x, choose h = some j → h j = some x → ∀ k y, h k = some y → ¬ lt x y → ¬ lt y x → j ≤ k)
    {blocks : ι → List ρ} (hsorted : ∀ j, Sorted lt (blocks j)) :
    (∃ out, Merges choose blocks out ∧ Sorted lt out) ↔ ∀ b, ∀ x ∈ blocks b, choose (cut lt blocks b x) = some b :=
  sorted_iff_aux hfirst _ _ _ (split_init lt blocks) hsorted rfl

end Order

end QikkDB.Merging

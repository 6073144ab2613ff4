/-
Loops that may fail, over a range, over lists in each other, and over rows in any order.

- `foldlM_range'`, `foldlM_flatMap`: a loop over indices as a loop over what is read there, loops in each other as one.
- `foldlM_rows`: when each row keeps what the other rows need and leave, every order of the rows leaves it for all.
-/
import Mathlib.Tactic

namespace Loops

variable {σ α β : Type*}

theorem foldlM_range' {l : List α} {f : σ → ℕ → Option σ} {g : σ → α → Option σ} (start : ℕ)
    (h : ∀ k a, l[k]? = some a → ∀ s, f s (start + k) = g s a) (s : σ) :
    (List.range' start l.length).foldlM f s = l.foldlM g s := by
  induction l generalizing start s with
  | nil => rfl
  | cons a l ih =>
    rw [List.length_cons, List.range'_succ, List.foldlM_cons, List.foldlM_cons, ← h 0 a rfl, Nat.add_zero]
    congr 1
    funext s
    refine ih (start + 1) (fun k b hb s => ?_) s
    rw [← h (k + 1) b hb, Nat.add_right_comm, Nat.add_assoc]

theorem foldlM_flatMap {f : α → List β} {g : σ → β → Option σ} (l : List α) (s : σ) :
    (l.flatMap f).foldlM g s = l.foldlM (fun s a => (f a).foldlM g s) s := by
  induction l generalizing s with
  | nil => rfl
  | cons a l ih =>
    rw [List.flatMap_cons, List.foldlM_append, List.foldlM_cons]
    congr 1
    funext s
    exact ih s

/-- a step that can only be taken -/
theorem foldlM_some (f : σ → α → σ) (l : List α) (s : σ) : l.foldlM (fun s a => some (f s a)) s =
    some (l.foldl f s) := by
  induction l generalizing s with
  | nil => rfl
  | cons a l ih => exact ih (f s a)

/-- `Before i` is what row `i` finds, `After i` what it leaves -/
theorem foldlM_rows {f : σ → ℕ → Option σ} (Before After : ℕ → σ → Prop) {order : List ℕ} (horder : order.Nodup)
    (h : ∀ i ∈ order, ∀ s, Before i s → ∃ s', f s i = some s' ∧ After i s' ∧
      ∀ j ∈ order, j ≠ i → (Before j s → Before j s') ∧ (After j s → After j s')) {s : σ}
    (hs : ∀ i ∈ order, Before i s) : ∃ s', order.foldlM f s = some s' ∧ ∀ i ∈ order, After i s' := by
  -- the rows that have run, the rows that are left
  have hrun : ∀ done rest : List ℕ, (done ++ rest).Nodup → (∀ i ∈ done ++ rest, i ∈ order) → ∀ s,
      (∀ i ∈ done, After i s) → (∀ i ∈ rest, Before i s) →
      ∃ s', rest.foldlM f s = some s' ∧ ∀ i ∈ done ++ rest, After i s' := by
    intro done rest
    induction rest generalizing done with
    | nil => exact fun _ _ s hdone _ => ⟨s, rfl, by simpa using hdone⟩
    | cons i rest ih =>
      intro hnodup hsub s hdone hrest
      obtain ⟨s₁, hstep, hafter, hkeep⟩ := h i (hsub i (by simp)) s (hrest i List.mem_cons_self)
      have hsplit : done ++ i :: rest = (done ++ [i]) ++ rest := by simp
      have hother : ∀ j ∈ done ++ rest, j ≠ i := fun j hj => by
        rintro rfl
        rw [List.nodup_middle, List.nodup_cons] at hnodup
        exact hnodup.1 hj
      rw [hsplit] at hnodup hsub ⊢
      obtain ⟨s', hfold, hall⟩ := ih (done ++ [i]) hnodup hsub s₁ (fun j hj => by
        rcases List.mem_append.1 hj with hj | hj
        · exact (hkeep j (hsub j (by simp [hj])) (hother j (by simp [hj]))).2 (hdone j hj)
        · rw [List.mem_singleton.1 hj]
          exact hafter) fun j hj =>
        (hkeep j (hsub j (by simp [hj])) (hother j (by simp [hj]))).1 (hrest j (List.mem_cons_of_mem i hj))
      exact ⟨s', by rw [List.foldlM_cons, hstep]; exact hfold, hall⟩
  obtain ⟨s', hfold, hall⟩ := hrun [] order (by simpa using horder) (fun i hi => by simpa using hi) s (by simp) hs
  exact ⟨s', hfold, by simpa using hall⟩

end Loops

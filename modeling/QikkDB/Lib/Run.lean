/-
Runs of a partial step function, over arbitrary states and operations. A step returns `none` where the behaviour is
undefined; a run is undefined as soon as one of its steps is.

- `exec_inv`: a step that is always defined and keeps an invariant gives runs that are always defined and keep it.
- `reach_inv`: an invariant that every admitted step keeps holds in every state reached by admitted steps.
- `reach_exec`, `reach_execAdmitted`: the end of a run of admitted operations is reached.
-/
import Mathlib.Tactic

namespace Run

variable {σ ο : Type*}

/-! ## Total runs -/

/-- run a list of operations, `none` once a step is undefined -/
def exec (step : σ → ο → Option σ) (s : σ) : List ο → Option σ
  | [] => some s
  | o :: os => (step s o).bind fun s' => exec step s' os

theorem exec_inv (step : σ → ο → Option σ) (Inv : σ → Prop)
    (hstep : ∀ s o, Inv s → ∃ s', step s o = some s' ∧ Inv s') (s : σ) (os : List ο) (h : Inv s) :
    ∃ s', exec step s os = some s' ∧ Inv s' := by
  induction os generalizing s with
  | nil => exact ⟨s, rfl, h⟩
  | cons o os ih =>
    obtain ⟨s₁, h₁, hinv⟩ := hstep s o h
    obtain ⟨s₂, h₂, hinv₂⟩ := ih s₁ hinv
    exact ⟨s₂, by simp [exec, h₁, h₂], hinv₂⟩

/-! ## Reachability under a condition on the steps -/

/-- states reached from `s₀` by defined steps that each meet `ok` in the state before them -/
inductive Reach (step : σ → ο → Option σ) (ok : σ → ο → Prop) (s₀ : σ) : σ → Prop where
  | refl : Reach step ok s₀ s₀
  | tail {s s' : σ} (o : ο) : Reach step ok s₀ s → ok s o → step s o = some s' → Reach step ok s₀ s'

theorem reach_inv {step : σ → ο → Option σ} {ok : σ → ο → Prop} {s₀ s : σ} (Inv : σ → Prop) (h₀ : Inv s₀)
    (hstep : ∀ s o s', Inv s → ok s o → step s o = some s' → Inv s') (h : Reach step ok s₀ s) : Inv s := by
  induction h with
  | refl => exact h₀
  | tail o _ hok hs ih => exact hstep _ o _ ih hok hs

/-- a run whose operations are admitted in every state -/
theorem reach_exec {step : σ → ο → Option σ} {ok : σ → ο → Prop} {s₀ s s' : σ} (h : Reach step ok s₀ s) (os : List ο)
    (hok : ∀ o ∈ os, ∀ s, ok s o) (hs : exec step s os = some s') : Reach step ok s₀ s' := by
  induction os generalizing s with
  | nil =>
    obtain rfl := Option.some.inj hs
    exact h
  | cons o os ih =>
    obtain ⟨s₁, h₁, hs⟩ := Option.bind_eq_some_iff.1 hs
    exact ih (h.tail o (hok o (by simp) s) h₁) (fun o' h' => hok o' (by simp [h'])) hs

/-- run a list of operations that have to be admitted, `none` once a step is undefined or not admitted -/
def execAdmitted (step : σ → ο → Option σ) (ok : σ → ο → Prop) [∀ s o, Decidable (ok s o)] (s : σ) : List ο → Option σ
  | [] => some s
  | o :: os => if ok s o then (step s o).bind fun s' => execAdmitted step ok s' os else none

theorem reach_execAdmitted {step : σ → ο → Option σ} {ok : σ → ο → Prop} [∀ s o, Decidable (ok s o)] {s₀ s s' : σ}
    (h : Reach step ok s₀ s) (os : List ο) (hs : execAdmitted step ok s os = some s') : Reach step ok s₀ s' := by
  induction os generalizing s with
  | nil =>
    obtain rfl := Option.some.inj hs
    exact h
  | cons o os ih =>
    unfold execAdmitted at hs
    split_ifs at hs with hok
    obtain ⟨s₁, h₁, hs⟩ := Option.bind_eq_some_iff.1 hs
    exact ih (h.tail o hok h₁) hs

end Run

/-
Threads over a shared memory whose only operation is a read-modify-write of one cell that is not atomic: a thread loads
the cell, and in a later step stores what it makes of the value it loaded. Steps of different threads interleave in
every order. Cells and values are arbitrary, and so are the updates.

- `preserved`: what every update of a cell preserves holds of the cell at the end of every run.
- `private_cell`: a cell that one thread alone updates holds at the end what that thread's updates make of it.
- `exists_end`: every program can be run to its end.
- `lost_updates`: whatever one thread's updates of a cell preserve holds of the cell at the end of some run, no matter
  what the other threads store there.
-/
import Mathlib.Tactic

namespace Interleaving

variable {ι α : Type*}

/-- a read-modify-write of one cell -/
structure Update (ι α : Type*) where
  cell : ι
  apply : α → α

/-- the value loaded for the next update, if it is under way, and the updates still to be done -/
structure Thread (ι α : Type*) where
  loaded : Option α
  todo : List (Update ι α)

structure State (ι α : Type*) where
  mem : ι → α
  threads : ℕ → Thread ι α

/-- what the updates of a list make of a value, those of cell `c` taken one after the other -/
def settle [DecidableEq ι] (c : ι) : List (Update ι α) → α → α
  | [], v => v
  | u :: us, v => settle c us (if u.cell = c then u.apply v else v)

/-- the updates of cell `c` in a list preserve `P` -/
def Preserves (P : α → Prop) (c : ι) (us : List (Update ι α)) : Prop :=
  ∀ u ∈ us, u.cell = c → ∀ v, P v → P (u.apply v)

section Runs

variable [DecidableEq ι]

theorem settle_inv {P : α → Prop} {c : ι} {us : List (Update ι α)} (h : Preserves P c us) {v : α} (hv : P v) :
    P (settle c us v) := by
  induction us generalizing v with
  | nil => exact hv
  | cons u us ih =>
    refine ih (fun u' hu' => h u' (List.mem_cons_of_mem _ hu')) ?_
    split_ifs with hcell
    · exact h u (by simp) hcell v hv
    · exact hv

/-- an update that brings `P` about and others that preserve it -/
theorem settle_of_mem {P : α → Prop} {c : ι} {us : List (Update ι α)} (h : Preserves P c us) {u : Update ι α}
    (hu : u ∈ us) (hcell : u.cell = c) (hP : ∀ v, P (u.apply v)) (v : α) : P (settle c us v) := by
  induction us generalizing v with
  | nil => exact absurd hu (by simp)
  | cons u' us ih =>
    have htail : Preserves P c us := fun w hw => h w (List.mem_cons_of_mem _ hw)
    rcases List.mem_cons.1 hu with rfl | hu
    · rw [settle, if_pos hcell]
      exact settle_inv htail (hP v)
    · exact ih htail hu _

inductive Step : State ι α → State ι α → Prop where
  | load (s : State ι α) (t : ℕ) {u : Update ι α} {us : List (Update ι α)} (h : s.threads t = ⟨none, u :: us⟩) :
      Step s { s with threads := Function.update s.threads t ⟨some (s.mem u.cell), u :: us⟩ }
  | store (s : State ι α) (t : ℕ) {v : α} {u : Update ι α} {us : List (Update ι α)}
      (h : s.threads t = ⟨some v, u :: us⟩) :
      Step s ⟨Function.update s.mem u.cell (u.apply v), Function.update s.threads t ⟨none, us⟩⟩

abbrev Runs : State ι α → State ι α → Prop := Relation.ReflTransGen Step

def start (mem : ι → α) (programs : ℕ → List (Update ι α)) : State ι α := ⟨mem, fun t => ⟨none, programs t⟩⟩

/-- a run of all programs to their end leaves `mem'` -/
def Ends (mem : ι → α) (programs : ℕ → List (Update ι α)) (mem' : ι → α) : Prop :=
  ∃ s, Runs (start mem programs) s ∧ (∀ t, (s.threads t).todo = []) ∧ s.mem = mem'

/-- the rule of invariants -/
theorem runs_inv (Inv : State ι α → Prop) (hstep : ∀ s s', Inv s → Step s s' → Inv s') {s s' : State ι α}
    (h : Runs s s') (h₀ : Inv s) : Inv s' := by
  induction h with
  | refl => exact h₀
  | tail _ hs ih => exact hstep _ _ ih hs

/-! ## What holds at the end of every run -/

/-- `P` holds of cell `c`, also of the value a thread has loaded from it, and is preserved by what is to be done -/
structure Kept (P : α → Prop) (c : ι) (s : State ι α) : Prop where
  mem : P (s.mem c)
  todo : ∀ t, Preserves P c (s.threads t).todo
  loaded : ∀ t v u us, s.threads t = ⟨some v, u :: us⟩ → u.cell = c → P v

theorem step_kept {P : α → Prop} {c : ι} (s s' : State ι α) (h : Kept P c s) (hs : Step s s') : Kept P c s' := by
  cases hs with
  | load t hload =>
    rename_i u us
    refine ⟨h.mem, ?_, ?_⟩
    · intro t'
      by_cases ht : t' = t
      · subst ht
        simpa [hload] using h.todo t'
      · simpa [Function.update_of_ne ht] using h.todo t'
    · intro t' v u' us' heq hcell
      by_cases ht : t' = t
      · subst ht
        simp only [Function.update_self, Thread.mk.injEq, Option.some.injEq, List.cons.injEq] at heq
        obtain ⟨rfl, rfl, -⟩ := heq
        exact hcell ▸ h.mem
      · exact h.loaded t' v u' us' (by simpa [Function.update_of_ne ht] using heq) hcell
  | store t hstore =>
    rename_i v u us
    have htodo : Preserves P c (u :: us) := by simpa [hstore] using h.todo t
    refine ⟨?_, ?_, ?_⟩
    · by_cases hcell : u.cell = c
      · subst hcell
        simpa using htodo u (by simp) rfl v (h.loaded t v u us hstore rfl)
      · simpa [Function.update_of_ne (Ne.symm hcell)] using h.mem
    · intro t'
      by_cases ht : t' = t
      · subst ht
        simp only [Function.update_self]
        exact fun u' hu' => htodo u' (List.mem_cons_of_mem _ hu')
      · simpa [Function.update_of_ne ht] using h.todo t'
    · intro t' v' u' us' heq hcell
      by_cases ht : t' = t
      · subst ht
        simp at heq
      · exact h.loaded t' v' u' us' (by simpa [Function.update_of_ne ht] using heq) hcell

theorem preserved {P : α → Prop} {c : ι} {mem mem' : ι → α} {programs : ℕ → List (Update ι α)} (h₀ : P (mem c))
    (h : ∀ t, Preserves P c (programs t)) (hend : Ends mem programs mem') : P (mem' c) := by
  obtain ⟨s, hrun, -, rfl⟩ := hend
  exact (runs_inv (Kept P c) step_kept hrun ⟨h₀, h, fun _ _ _ _ heq _ => by simp [start] at heq⟩).mem

/-- only thread `t` updates cell `c`, its loaded value is the cell's, and what it has to do leads to `v` -/
structure Private (c : ι) (t : ℕ) (v : α) (s : State ι α) : Prop where
  others : ∀ t', t' ≠ t → ∀ u ∈ (s.threads t').todo, u.cell ≠ c
  loaded : ∀ w u us, s.threads t = ⟨some w, u :: us⟩ → u.cell = c → w = s.mem c
  settled : settle c (s.threads t).todo (s.mem c) = v

theorem step_private {c : ι} {t : ℕ} {v : α} (s s' : State ι α) (h : Private c t v s) (hs : Step s s') :
    Private c t v s' := by
  cases hs with
  | load t₁ hload =>
    rename_i u us
    by_cases ht : t₁ = t
    · subst ht
      refine ⟨?_, ?_, by simpa [hload] using h.settled⟩
      · intro t' ht'
        simpa [Function.update_of_ne ht'] using h.others t' ht'
      · intro w u' us' heq hcell
        simp only [Function.update_self, Thread.mk.injEq, Option.some.injEq, List.cons.injEq] at heq
        obtain ⟨rfl, rfl, -⟩ := heq
        rw [hcell]
    · refine ⟨?_, ?_, by simpa [Function.update_of_ne (Ne.symm ht)] using h.settled⟩
      · intro t' ht'
        by_cases htt : t' = t₁
        · subst htt
          simpa [hload] using h.others t' ht'
        · simpa [Function.update_of_ne htt] using h.others t' ht'
      · intro w u' us' heq hcell
        exact h.loaded w u' us' (by simpa [Function.update_of_ne (Ne.symm ht)] using heq) hcell
  | store t₁ hstore =>
    rename_i w u us
    by_cases ht : t₁ = t
    · subst ht
      refine ⟨?_, fun _ _ _ heq _ => by simp at heq, ?_⟩
      · intro t' ht'
        simpa [Function.update_of_ne ht'] using h.others t' ht'
      · have hsettled := h.settled
        simp only [hstore, settle] at hsettled
        by_cases hcell : u.cell = c
        · have hw := h.loaded w u us hstore hcell
          subst hcell
          simpa [← hw] using hsettled
        · simpa [hcell, Function.update_of_ne (Ne.symm hcell)] using hsettled
    · have hcell : u.cell ≠ c := h.others t₁ ht u (by simp [hstore])
      refine ⟨?_, ?_,
        by simpa [Function.update_of_ne (Ne.symm ht), Function.update_of_ne (Ne.symm hcell)] using h.settled⟩
      · intro t' ht'
        by_cases htt : t' = t₁
        · subst htt
          have hothers := h.others t' ht'
          rw [hstore] at hothers
          simpa using fun u' hu' => hothers u' (List.mem_cons_of_mem _ hu')
        · simpa [Function.update_of_ne htt] using h.others t' ht'
      · intro w' u' us' heq hcell'
        have hw := h.loaded w' u' us' (by simpa [Function.update_of_ne (Ne.symm ht)] using heq) hcell'
        simpa [Function.update_of_ne (Ne.symm hcell)] using hw

theorem private_cell {c : ι} {t : ℕ} {mem mem' : ι → α} {programs : ℕ → List (Update ι α)}
    (h : ∀ t', t' ≠ t → ∀ u ∈ programs t', u.cell ≠ c) (hend : Ends mem programs mem') :
    mem' c = settle c (programs t) (mem c) := by
  obtain ⟨s, hrun, hdone, rfl⟩ := hend
  have hp : Private c t (settle c (programs t) (mem c)) s :=
    runs_inv _ step_private hrun ⟨h, fun _ _ _ heq _ => by simp [start] at heq, rfl⟩
  simpa [hdone t, settle] using hp.settled

/-! ## Runs that exist -/

/-- a thread can do its next updates while the others rest -/
theorem runs_alone (us vs : List (Update ι α)) (s : State ι α) (t : ℕ)
    (ht : s.threads t = ⟨none, us ++ vs⟩) :
    ∃ s', Runs s s' ∧ s'.threads t = ⟨none, vs⟩ ∧ (∀ t', t' ≠ t → s'.threads t' = s.threads t') ∧
      ∀ (P : α → Prop) (c : ι), Preserves P c us → P (s.mem c) → P (s'.mem c) := by
  induction us generalizing s with
  | nil => exact ⟨s, Relation.ReflTransGen.refl, ht, fun _ _ => rfl, fun _ _ _ h => h⟩
  | cons u us ih =>
    -- load and store of the first update
    set s₁ : State ι α := { s with threads := Function.update s.threads t ⟨some (s.mem u.cell), u :: (us ++ vs)⟩ }
      with hs₁
    have hload : Step s s₁ := Step.load s t ht
    set s₂ : State ι α := ⟨Function.update s₁.mem u.cell (u.apply (s.mem u.cell)),
      Function.update s₁.threads t ⟨none, us ++ vs⟩⟩ with hs₂
    have hstore : Step s₁ s₂ := Step.store s₁ t (by simp [hs₁])
    obtain ⟨s', hrun, hmine, hothers, hkeep⟩ := ih s₂ (by simp [hs₂])
    have hruns := (Relation.ReflTransGen.single hload).trans ((Relation.ReflTransGen.single hstore).trans hrun)
    refine ⟨s', hruns, hmine, ?_,
      ?_⟩
    · intro t' ht'
      rw [hothers t' ht']
      simp [hs₂, hs₁, Function.update_of_ne ht']
    · intro P c hpres h₀
      refine hkeep P c (fun u' hu' => hpres u' (List.mem_cons_of_mem _ hu')) ?_
      by_cases hcell : u.cell = c
      · subst hcell
        simpa [hs₂] using hpres u (by simp) rfl _ h₀
      · simpa [hs₂, hs₁, Function.update_of_ne (Ne.symm hcell)] using h₀

/-- all threads below `n` but one can be run to their end while that one rests -/
theorem runs_others (n b : ℕ) (s : State ι α) (h : ∀ t, t ≠ b → (s.threads t).loaded = none) :
    ∃ s', Runs s s' ∧ s'.threads b = s.threads b ∧ (∀ t, n ≤ t → s'.threads t = s.threads t) ∧
      (∀ t, t ≠ b → (s'.threads t).loaded = none) ∧ ∀ t, t < n → t ≠ b → (s'.threads t).todo = [] := by
  induction n with
  | zero => exact ⟨s, Relation.ReflTransGen.refl, rfl, fun _ _ => rfl, h, fun t ht => absurd ht (Nat.not_lt_zero t)⟩
  | succ n ih =>
    obtain ⟨s₁, hrun, hb, hrest, hloaded, hdone⟩ := ih
    by_cases hnb : n = b
    · refine ⟨s₁, hrun, hb, fun t ht => hrest t (by omega), hloaded, ?_⟩
      intro t ht htb
      exact hdone t (by omega) htb
    · have hn : s₁.threads n = ⟨none, (s₁.threads n).todo ++ []⟩ := by
        rw [List.append_nil, ← hloaded n hnb]
      obtain ⟨s', hrun', hmine, hothers, -⟩ := runs_alone _ [] s₁ n hn
      refine ⟨s', hrun.trans hrun', (hothers b (Ne.symm hnb)).trans hb, ?_, ?_, ?_⟩
      · intro t ht
        rw [hothers t (by omega), hrest t (by omega)]
      · intro t htb
        by_cases htn : t = n
        · rw [htn, hmine]
        · rw [hothers t htn]
          exact hloaded t htb
      · intro t ht htb
        by_cases htn : t = n
        · rw [htn, hmine]
        · rw [hothers t htn]
          exact hdone t (by omega) htb

/-- there is a run in which one thread's stores of a cell are the last ones, made of what was there before the other
threads began -/
theorem lost_updates {P : α → Prop} {c : ι} {n b : ℕ} {m : ι → α} {programs : ℕ → List (Update ι α)}
    (hn : ∀ t, n ≤ t → programs t = []) (h₀ : P (m c)) (hb : Preserves P c (programs b))
    (hc : ∃ u ∈ programs b, u.cell = c) : ∃ m', Ends m programs m' ∧ P (m' c) := by
  obtain ⟨u, hu, hcell⟩ := hc
  obtain ⟨pre, post, hsplit⟩ := List.append_of_mem hu
  rw [hsplit] at hb
  -- the thread runs up to the update and loads the cell
  obtain ⟨s₁, hrun₁, hmine₁, hothers₁, hkeep₁⟩ :=
    runs_alone pre (u :: post) (start m programs) b (by simp [start, hsplit])
  have hP₁ : P (s₁.mem c) := hkeep₁ P c (fun u' hu' => hb u' (by simp [hu'])) h₀
  set s₂ : State ι α := { s₁ with threads := Function.update s₁.threads b ⟨some (s₁.mem u.cell), u :: post⟩ } with hs₂
  have hload : Step s₁ s₂ := Step.load s₁ b hmine₁
  have hthreads₂ : ∀ t, t ≠ b → s₂.threads t = ⟨none, programs t⟩ := by
    intro t ht
    simp [hs₂, Function.update_of_ne ht, hothers₁ t ht, start]
  -- the others run to their end
  obtain ⟨s₃, hrun₃, hmine₃, hrest₃, hloaded₃, hdone₃⟩ := runs_others n b s₂ fun t ht => by rw [hthreads₂ t ht]
  have hthread₃ : s₃.threads b = ⟨some (s₁.mem u.cell), u :: post⟩ := by
    rw [hmine₃]
    simp [hs₂]
  -- the thread stores what it makes of the value loaded
  set s₄ : State ι α := ⟨Function.update s₃.mem u.cell (u.apply (s₁.mem u.cell)),
    Function.update s₃.threads b ⟨none, post⟩⟩ with hs₄
  have hstore : Step s₃ s₄ := Step.store s₃ b hthread₃
  have hP₄ : P (s₄.mem c) := by
    subst hcell
    simpa [hs₄] using hb u (by simp) rfl _ hP₁
  obtain ⟨s₅, hrun₅, hmine₅, hothers₅, hkeep₅⟩ := runs_alone post [] s₄ b (by simp [hs₄])
  refine ⟨s₅.mem, ⟨s₅, ?_, ?_, rfl⟩, hkeep₅ P c (fun u' hu' => hb u' (by simp [hu'])) hP₄⟩
  · exact hrun₁.trans ((Relation.ReflTransGen.single hload).trans
      (hrun₃.trans ((Relation.ReflTransGen.single hstore).trans hrun₅)))
  · intro t
    by_cases ht : t = b
    · rw [ht, hmine₅]
    · rw [hothers₅ t ht]
      simp only [hs₄, Function.update_of_ne ht]
      rcases lt_or_ge t n with hlt | hge
      · exact hdone₃ t hlt ht
      · rw [hrest₃ t hge, hthreads₂ t ht, hn t hge]

theorem exists_end {n : ℕ} (mem : ι → α) {programs : ℕ → List (Update ι α)} (hn : ∀ t, n ≤ t → programs t = []) :
    ∃ mem', Ends mem programs mem' := by
  obtain ⟨s, hrun, -, hrest, -, hdone⟩ := runs_others n n (start mem programs) fun _ _ => rfl
  refine ⟨s.mem, s, hrun, ?_, rfl⟩
  intro t
  rcases lt_or_ge t n with hlt | hge
  · exact hdone t hlt (by omega)
  · rw [hrest t hge]
    exact hn t hge

end Runs

end Interleaving

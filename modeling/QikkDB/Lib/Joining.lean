/-
Running a join over a list: a binary operation that gives least upper bounds among some of the elements, folded over a
list of these.

- `foldl_le_iff`: the fold is the least upper bound of the list.
- `foldl_perm`: it does not depend on the order, nor on which element the fold starts with.
-/
import Mathlib.Data.List.Perm.Basic
import Mathlib.Tactic.Basic

namespace Joining

/-- `join` gives least upper bounds among the elements of `S` -/
structure JoinOn {α : Type} (le : α → α → Prop) (join : α → α → α) (S : α → Prop) : Prop where
  refl : ∀ a, le a a
  antisymm : ∀ {a b}, le a b → le b a → a = b
  mem : ∀ {a b}, S a → S b → S (join a b)
  le_iff : ∀ {a b}, S a → S b → ∀ u, le (join a b) u ↔ le a u ∧ le b u

variable {α : Type} {le : α → α → Prop} {join : α → α → α} {S : α → Prop}

namespace JoinOn

theorem foldl_mem (h : JoinOn le join S) {a : α} {l : List α} (ha : S a) (hl : ∀ b ∈ l, S b) : S (l.foldl join a) := by
  induction l generalizing a with
  | nil => exact ha
  | cons b l ih => exact ih (h.mem ha (hl b List.mem_cons_self)) fun c hc => hl c (List.mem_cons_of_mem b hc)

theorem foldl_le_iff (h : JoinOn le join S) {a : α} {l : List α} (ha : S a) (hl : ∀ b ∈ l, S b) (u : α) :
    le (l.foldl join a) u ↔ le a u ∧ ∀ b ∈ l, le b u := by
  induction l generalizing a with
  | nil => simp
  | cons b l ih =>
    have hb := hl b List.mem_cons_self
    rw [List.foldl_cons, ih (h.mem ha hb) fun c hc => hl c (List.mem_cons_of_mem b hc), h.le_iff ha hb,
      List.forall_mem_cons, and_assoc]

/-- an upper bound of every element -/
theorem le_foldl (h : JoinOn le join S) {a b : α} {l : List α} (ha : S a) (hl : ∀ b ∈ l, S b) (hb : b ∈ l) :
    le b (l.foldl join a) :=
  ((h.foldl_le_iff ha hl _).1 (h.refl _)).2 b hb

theorem foldl_perm (h : JoinOn le join S) {a b : α} {l l' : List α} (hl : ∀ c ∈ l, S c) (hp : l.Perm l') (ha : a ∈ l)
    (hb : b ∈ l') : l.foldl join a = l'.foldl join b := by
  have hl' : ∀ c ∈ l', S c := fun c hc => hl c (hp.mem_iff.2 hc)
  have hiff : ∀ u, le (l.foldl join a) u ↔ le (l'.foldl join b) u := by
    intro u
    rw [h.foldl_le_iff (hl a ha) hl, h.foldl_le_iff (hl' b hb) hl']
    have hmem : (∀ c ∈ l, le c u) ↔ ∀ c ∈ l', le c u :=
      ⟨fun hall c hc => hall c (hp.mem_iff.2 hc), fun hall c hc => hall c (hp.mem_iff.1 hc)⟩
    constructor
    · rintro ⟨-, hall⟩
      exact ⟨hmem.1 hall b hb, hmem.1 hall⟩
    · rintro ⟨-, hall⟩
      exact ⟨hmem.2 hall a ha, hmem.2 hall⟩
  exact h.antisymm ((hiff _).2 (h.refl _)) ((hiff _).1 (h.refl _))

end JoinOn

end Joining

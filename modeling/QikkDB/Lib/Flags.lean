/-
An array of flags that are set by `|=`.

- `orAll_eq`: writes that stay inside of the array set exactly the flags that some write sets; a write behind it fails.
- `foldlM_orAll`: a loop that writes to two arrays in turn is a loop over each of them.
-/
import Mathlib.Data.List.GetD
import Mathlib.Tactic

namespace Flags

variable {α : Type*} {flags : List Bool}

/-- flags[idx] |= present -/
def orAt (flags : List Bool) (idx : ℕ) (present : Bool) : Option (List Bool) := do
  let flag ← flags[idx]?
  some (flags.set idx (flag || present))

def orAll (flags : List Bool) (writes : List (ℕ × Bool)) : Option (List Bool) :=
  writes.foldlM (fun flags w => orAt flags w.1 w.2) flags

/-- the flags that were set or are in `P` -/
def marked (flags : List Bool) (P : ℕ → Bool) : List Bool := flags.mapIdx fun k flag => flag || P k

/-- the flags that the writes set -/
def setBy (writes : List (ℕ × Bool)) (k : ℕ) : Bool := writes.any fun w => w.1 == k && w.2

@[simp] theorem length_marked (flags : List Bool) (P : ℕ → Bool) : (marked flags P).length = flags.length :=
  List.length_mapIdx

theorem getElem?_marked (flags : List Bool) (P : ℕ → Bool) (k : ℕ) :
    (marked flags P)[k]? = flags[k]?.map fun flag => flag || P k := List.getElem?_mapIdx

theorem marked_marked (flags : List Bool) (P Q : ℕ → Bool) :
    marked (marked flags P) Q = marked flags fun k => P k || Q k := by
  refine List.ext_getElem? fun k => ?_
  simp only [getElem?_marked, Option.map_map, Function.comp_def, Bool.or_assoc]

theorem marked_false (flags : List Bool) : (marked flags fun _ => false) = flags := by
  refine List.ext_getElem? fun k => ?_
  simp [getElem?_marked]

theorem setBy_iff {writes : List (ℕ × Bool)} {k : ℕ} : setBy writes k = true ↔ (k, true) ∈ writes := by
  rw [setBy, List.any_eq_true]
  constructor
  · rintro ⟨⟨i, v⟩, hw, h⟩
    rw [Bool.and_eq_true, beq_iff_eq] at h
    obtain ⟨rfl, rfl⟩ := h
    exact hw
  · exact fun h => ⟨_, h, by simp⟩

theorem orAt_of_lt {idx : ℕ} (h : idx < flags.length) (present : Bool) :
    orAt flags idx present = some (marked flags fun k => idx == k && present) := by
  rw [orAt, List.getElem?_eq_getElem h]
  simp only [Option.bind_eq_bind, Option.bind_some, Option.some.injEq]
  refine List.ext_getElem? fun k => ?_
  rw [getElem?_marked, List.getElem?_set]
  split_ifs with hk
  · subst hk
    rw [List.getElem?_eq_getElem h]
    simp
  · have hne : (idx == k) = false := beq_eq_false_iff_ne.2 hk
    simp [hne]

theorem orAt_of_le {idx : ℕ} (h : flags.length ≤ idx) (present : Bool) : orAt flags idx present = none := by
  rw [orAt, List.getElem?_eq_none h]
  rfl

@[simp] theorem orAll_singleton (flags : List Bool) (w : ℕ × Bool) : orAll flags [w] = orAt flags w.1 w.2 := by
  rw [orAll, List.foldlM_cons]
  exact bind_pure _

theorem orAll_append (flags : List Bool) (ws ws' : List (ℕ × Bool)) :
    orAll flags (ws ++ ws') = (orAll flags ws).bind fun flags => orAll flags ws' := List.foldlM_append

/-- **What writes do to flags.** -/
theorem orAll_eq (flags : List Bool) (writes : List (ℕ × Bool)) :
    orAll flags writes = if ∀ w ∈ writes, w.1 < flags.length then some (marked flags (setBy writes)) else none := by
  induction writes generalizing flags with
  | nil =>
    rw [if_pos fun w hw => absurd hw List.not_mem_nil]
    exact congrArg some (marked_false flags).symm
  | cons w writes ih =>
    rw [show orAll flags (w :: writes) = (orAt flags w.1 w.2).bind fun flags => orAll flags writes from rfl]
    by_cases hw : w.1 < flags.length
    · rw [orAt_of_lt hw, Option.bind_some, ih, marked_marked]
      simp only [length_marked, List.forall_mem_cons, hw, true_and]
      rfl
    · rw [orAt_of_le (Nat.le_of_not_lt hw), if_neg fun h => hw (h w List.mem_cons_self)]
      rfl

theorem orAll_isSome_iff {writes : List (ℕ × Bool)} :
    (orAll flags writes).isSome = true ↔ ∀ w ∈ writes, w.1 < flags.length := by
  rw [orAll_eq]
  split_ifs with h
  · exact iff_of_true rfl h
  · exact iff_of_false Bool.false_ne_true h

/-- writes to two arrays -/
def orBoth (flags : List Bool × List Bool) (first second : List (ℕ × Bool)) : Option (List Bool × List Bool) := do
  let b ← orAll flags.2 second
  let a ← orAll flags.1 first
  some (a, b)

theorem orBoth_append (flags : List Bool × List Bool) (first first' second second' : List (ℕ × Bool)) :
    orBoth flags (first ++ first') (second ++ second') =
      (orBoth flags first second).bind fun flags => orBoth flags first' second' := by
  simp only [orBoth, orAll_append, Option.bind_eq_bind]
  cases orAll flags.2 second with
  | none => rfl
  | some b =>
    cases orAll flags.1 first with
    | none => simp
    | some a => rfl

/-- steps that write to two arrays, as writes to each of them -/
theorem foldlM_orBoth {f : List Bool × List Bool → α → Option (List Bool × List Bool)}
    {first second : α → List (ℕ × Bool)}
    {l : List α} (h : ∀ x ∈ l, ∀ flags, f flags x = orBoth flags (first x) (second x)) (flags : List Bool × List Bool) :
    l.foldlM f flags = orBoth flags (l.flatMap first) (l.flatMap second) := by
  induction l generalizing flags with
  | nil => rfl
  | cons x l ih =>
    rw [List.foldlM_cons, List.flatMap_cons, List.flatMap_cons, orBoth_append, h x List.mem_cons_self]
    exact congrArg _ (funext fun flags => ih (fun y hy => h y (List.mem_cons_of_mem x hy)) flags)

/-- both arrays have room for their writes -/
theorem orBoth_isSome_iff {flags : List Bool × List Bool} {first second : List (ℕ × Bool)} :
    (orBoth flags first second).isSome = true ↔
      (∀ w ∈ first, w.1 < flags.1.length) ∧ ∀ w ∈ second, w.1 < flags.2.length := by
  rw [← orAll_isSome_iff, ← orAll_isSome_iff, orBoth]
  cases orAll flags.2 second <;> cases orAll flags.1 first <;> simp

end Flags

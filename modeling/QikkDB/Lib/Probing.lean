/-
Open addressing: cells for keys, a path of cells for every key, and rows that go one after the other to the first cell
of their key's path that is free or holds the key. Each cell accumulates its rows.

Keys never leave a cell, so a cell that holds a key has only cells of other keys before it on the path (`Placed`), and
a key that has a cell is found there again.

Results:
- `locate_spec`: the cell found holds the key, or is free and no cell holds it.
- `Grouped.insert`: after every row each key has one cell, with the accumulation of its rows.
- `Grouped.groupsBy`: the occupied cells are the groups of the rows.
-/
import Mathlib.Tactic

namespace QikkDB.Probing

variable {κ ρ A β : Type} [DecidableEq κ]

/-! ## Paths -/

/-- the first cell of a path that is free or holds the key -/
def locate (cell : ℕ → Option κ) (path : List ℕ) (k : κ) : Option ℕ :=
  path.find? fun i => cell i = none ∨ cell i = some k

/-- up to the cell of a key its path has cells of other keys -/
def Placed (path : κ → List ℕ) (cell : ℕ → Option κ) : Prop :=
  ∀ i k, cell i = some k → ∃ pre post, path k = pre ++ i :: post ∧ ∀ j ∈ pre, ∃ k', cell j = some k' ∧ k' ≠ k

variable {path : κ → List ℕ} {cell : ℕ → Option κ} {i j : ℕ} {k : κ}

omit [DecidableEq κ] in
theorem placed_empty : Placed path fun _ => none := by
  intro i k h
  cases h

/-- of two places in one list one comes first -/
theorem append_cons_cases {α : Type} {pre post pre' post' : List α} {x y : α}
    (h : pre ++ x :: post = pre' ++ y :: post') : x ∈ pre' ∨ y ∈ pre ∨ x = y := by
  rcases List.append_eq_append_iff.1 h with ⟨l, hpre, hpost⟩ | ⟨l, hpre, hpost⟩
  · cases l with
    | nil => exact .inr (.inr (List.cons.inj hpost).1)
    | cons z l =>
      left
      rw [hpre, (List.cons.inj hpost).1]
      simp
  · cases l with
    | nil => exact .inr (.inr (List.cons.inj hpost).1.symm)
    | cons z l =>
      right
      left
      rw [hpre, (List.cons.inj hpost).1]
      simp

omit [DecidableEq κ] in
theorem Placed.injective (h : Placed path cell) (hi : cell i = some k) (hj : cell j = some k) : i = j := by
  obtain ⟨pre, post, hpath, hpre⟩ := h i k hi
  obtain ⟨pre', post', hpath', hpre'⟩ := h j k hj
  rcases append_cons_cases (hpath.symm.trans hpath') with hmem | hmem | heq
  · obtain ⟨k', hk', hne⟩ := hpre' i hmem
    exact absurd (Option.some.inj (hk'.symm.trans hi)) hne
  · obtain ⟨k', hk', hne⟩ := hpre j hmem
    exact absurd (Option.some.inj (hk'.symm.trans hj)) hne
  · exact heq

/-- the cells before the one found are those of other keys -/
theorem locate_prefix {p : List ℕ} (hi : locate cell p k = some i) : ∃ pre post, p = pre ++ i :: post ∧
    (cell i = none ∨ cell i = some k) ∧ ∀ j ∈ pre, ∃ k', cell j = some k' ∧ k' ≠ k := by
  obtain ⟨hfound, pre, post, hpath, hpre⟩ := List.find?_eq_some_iff_append.1 hi
  refine ⟨pre, post, hpath, by simpa using hfound, fun j hj => ?_⟩
  have hother := hpre j hj
  simp only [Bool.not_eq_true', decide_eq_false_iff_not, not_or] at hother
  obtain ⟨k', hk'⟩ := Option.ne_none_iff_exists'.1 hother.1
  exact ⟨k', hk', fun heq => hother.2 (heq ▸ hk')⟩

theorem locate_spec (h : Placed path cell) (hi : locate cell (path k) k = some i) :
    cell i = some k ∨ cell i = none ∧ ∀ j, cell j ≠ some k := by
  obtain ⟨pre, post, hpath, hfound, hpre⟩ := locate_prefix hi
  rcases hfound with hnone | hsome
  · refine .inr ⟨hnone, fun j hj => ?_⟩
    obtain ⟨pre', post', hpath', hpre'⟩ := h j k hj
    rcases append_cons_cases (hpath.symm.trans hpath') with hmem | hmem | heq
    · obtain ⟨k', hk', -⟩ := hpre' i hmem
      cases hnone.symm.trans hk'
    · obtain ⟨k', hk', hne⟩ := hpre j hmem
      exact hne (Option.some.inj (hk'.symm.trans hj))
    · rw [heq, hj] at hnone
      cases hnone
  · exact .inl hsome

theorem Placed.update (h : Placed path cell) (hi : locate cell (path k) k = some i) :
    Placed path (Function.update cell i (some k)) := by
  obtain ⟨pre, post, hpath, hfound, hpre⟩ := locate_prefix hi
  intro j k' hj
  by_cases hji : j = i
  · subst hji
    obtain rfl : k = k' := by simpa using hj
    refine ⟨pre, post, hpath, fun l hl => ?_⟩
    obtain ⟨k', hk', hne⟩ := hpre l hl
    have hli : l ≠ j := by
      rintro rfl
      rcases hfound with hnone | hsome
      · cases hnone.symm.trans hk'
      · exact hne (Option.some.inj (hk'.symm.trans hsome))
    exact ⟨k', by rw [Function.update_of_ne hli, hk'], hne⟩
  · rw [Function.update_of_ne hji] at hj
    obtain ⟨pre', post', hpath', hpre'⟩ := h j k' hj
    refine ⟨pre', post', hpath', fun l hl => ?_⟩
    obtain ⟨k'', hk'', hne⟩ := hpre' l hl
    by_cases hli : l = i
    · subst hli
      refine ⟨k, Function.update_self .., ?_⟩
      rcases hfound with hnone | hsome
      · cases hnone.symm.trans hk''
      · rwa [← Option.some.inj (hk''.symm.trans hsome)]
    · exact ⟨k'', by rw [Function.update_of_ne hli, hk''], hne⟩

/-! ## Rows -/

structure Table (κ A : Type) where
  cell : ℕ → Option κ
  acc : ℕ → A

def Table.insert (t : Table κ A) (put : A → ρ → A) (i : ℕ) (k : κ) (row : ρ) : Table κ A :=
  ⟨Function.update t.cell i (some k), Function.update t.acc i (put (t.acc i) row)⟩

/-- what a table holds after some rows; `known` are the keys that it had before them -/
structure Grouped (path : κ → List ℕ) (key : ρ → κ) (put : A → ρ → A) (start : A) (known : List κ) (t : Table κ A)
    (rows : List ρ) : Prop where
  placed : Placed path t.cell
  stored : ∀ k, k ∈ known ∨ (∃ row ∈ rows, key row = k) → ∃ i, t.cell i = some k
  stems : ∀ i k, t.cell i = some k → k ∈ known ∨ ∃ row ∈ rows, key row = k
  free : ∀ i, t.cell i = none → t.acc i = start
  acc : ∀ i k, t.cell i = some k → t.acc i = (rows.filter fun row => key row = k).foldl put start

variable {key : ρ → κ} {put : A → ρ → A} {start : A} {known : List κ} {t : Table κ A} {rows : List ρ} {row : ρ}

theorem Grouped.insert (h : Grouped path key put start known t rows)
    (hi : locate t.cell (path (key row)) (key row) = some i) :
    Grouped path key put start known (t.insert put i (key row) row) (rows ++ [row]) := by
  have hspec := locate_spec h.placed hi
  refine ⟨h.placed.update hi, ?_, ?_, ?_, ?_⟩
  · intro k hk
    by_cases hkey : key row = k
    · exact ⟨i, by rw [← hkey]; exact Function.update_self ..⟩
    · obtain ⟨j, hj⟩ : ∃ j, t.cell j = some k := by
        refine h.stored k (hk.imp_right ?_)
        rintro ⟨r, hr, hrk⟩
        rcases List.mem_append.1 hr with hr | hr
        · exact ⟨r, hr, hrk⟩
        · obtain rfl := List.mem_singleton.1 hr
          exact absurd hrk hkey
      have hji : j ≠ i := by
        rintro rfl
        rcases hspec with hsome | ⟨hnone, -⟩
        · exact hkey (Option.some.inj (hsome.symm.trans hj))
        · cases hnone.symm.trans hj
      exact ⟨j, (Function.update_of_ne hji _ _).trans hj⟩
  · intro j k hj
    by_cases hji : j = i
    · subst hji
      obtain rfl : key row = k := by simpa [Table.insert] using hj
      exact .inr ⟨row, by simp, rfl⟩
    · have hj' : t.cell j = some k := by simpa [Table.insert, Function.update_of_ne hji] using hj
      exact (h.stems j k hj').imp_right fun ⟨r, hr, hrk⟩ => ⟨r, List.mem_append_left _ hr, hrk⟩
  · intro j hj
    by_cases hji : j = i
    · subst hji
      simp [Table.insert] at hj
    · have hj' : t.cell j = none := by simpa [Table.insert, Function.update_of_ne hji] using hj
      exact (Function.update_of_ne hji _ _).trans (h.free j hj')
  · intro j k hj
    by_cases hji : j = i
    · subst hji
      obtain rfl : key row = k := by simpa [Table.insert] using hj
      have hold : t.acc j = (rows.filter fun r => key r = key row).foldl put start := by
        rcases hspec with hsome | ⟨hnone, hnew⟩
        · exact h.acc j _ hsome
        · rw [h.free j hnone, List.filter_eq_nil_iff.2, List.foldl_nil]
          intro r hr hrk
          obtain ⟨l, hl⟩ := h.stored (key row) (.inr ⟨r, hr, of_decide_eq_true hrk⟩)
          exact hnew l hl
      simp [Table.insert, hold]
    · have hj' : t.cell j = some k := by simpa [Table.insert, Function.update_of_ne hji] using hj
      have hne : key row ≠ k := by
        rintro rfl
        rcases hspec with hsome | ⟨-, hnew⟩
        · exact hji (h.placed.injective hj' hsome)
        · exact hnew j hj'
      have hacc : (t.insert put i (key row) row).acc j = t.acc j := Function.update_of_ne hji _ _
      rw [hacc, h.acc j k hj']
      simp [hne]

/-- the groups of rows: every key once, with the value of its rows -/
structure GroupsBy (key : ρ → κ) (value : List ρ → β) (rows : List ρ) (out : List (κ × β)) : Prop where
  nodup : (out.map Prod.fst).Nodup
  keys : ∀ k, k ∈ out.map Prod.fst ↔ ∃ row ∈ rows, key row = k
  values : ∀ g ∈ out, g.2 = value (rows.filter fun row => key row = g.1)

/-- the groups do not depend on the order of the rows where their values do not -/
theorem GroupsBy.perm {value : List ρ → β} {rows' : List ρ} {out : List (κ × β)} (h : GroupsBy key value rows out)
    (hvalue : ∀ l l' : List ρ, l.Perm l' → value l = value l') (hperm : rows.Perm rows') :
    GroupsBy key value rows' out := by
  refine ⟨h.nodup, fun k => (h.keys k).trans ?_, fun g hg => (h.values g hg).trans ?_⟩
  · simp only [hperm.mem_iff]
  · exact hvalue _ _ (hperm.filter _)

theorem GroupsBy.mem_iff {value : List ρ → β} {out : List (κ × β)} (h : GroupsBy key value rows out) {g : κ × β} :
    g ∈ out ↔ (∃ row ∈ rows, key row = g.1) ∧ g.2 = value (rows.filter fun row => key row = g.1) := by
  constructor
  · intro hg
    exact ⟨(h.keys g.1).1 (List.mem_map_of_mem hg), h.values g hg⟩
  · rintro ⟨hkey, hvalue⟩
    obtain ⟨g', hg', hfst⟩ := List.mem_map.1 ((h.keys g.1).2 hkey)
    have hsnd : g'.2 = g.2 := by rw [h.values g' hg', hvalue, hfst]
    rwa [← Prod.ext hfst hsnd]

/-- the group of a key -/
theorem GroupsBy.filter_key {value : List ρ → β} {out : List (κ × β)} (h : GroupsBy key value rows out) (k : κ) :
    out.filter (fun g => g.1 = k) =
      if ∃ row ∈ rows, key row = k then [(k, value (rows.filter fun row => key row = k))] else [] := by
  have hnodup : (out.filter fun g => g.1 = k).Nodup := h.nodup.of_map.filter _
  split_ifs with hkey
  · refine List.Perm.eq_singleton ((List.perm_ext_iff_of_nodup hnodup (List.nodup_singleton _)).2 fun g => ?_)
    rw [List.mem_filter, List.mem_singleton, h.mem_iff]
    constructor
    · rintro ⟨⟨-, hvalue⟩, hk⟩
      obtain rfl : g.1 = k := of_decide_eq_true hk
      exact Prod.ext rfl hvalue
    · rintro rfl
      exact ⟨⟨hkey, rfl⟩, decide_eq_true rfl⟩
  · refine List.filter_eq_nil_iff.2 fun g hg hk => ?_
    obtain rfl : g.1 = k := of_decide_eq_true hk
    exact hkey (h.mem_iff.1 hg).1

/-- the occupied cells in order -/
def Table.groups (t : Table κ A) (finish : A → β) (n : ℕ) : List (κ × β) :=
  (List.range n).filterMap fun i => (t.cell i).map fun k => (k, finish (t.acc i))

omit [DecidableEq κ] in
theorem Table.mem_groups {finish : A → β} {n : ℕ} {g : κ × β} :
    g ∈ t.groups finish n ↔ ∃ i < n, t.cell i = some g.1 ∧ finish (t.acc i) = g.2 := by
  simp only [Table.groups, List.mem_filterMap, List.mem_range, Option.map_eq_some_iff]
  constructor
  · rintro ⟨i, hi, k, hk, rfl⟩
    exact ⟨i, hi, hk, rfl⟩
  · rintro ⟨i, hi, hk, hv⟩
    exact ⟨i, hi, g.1, hk, by rw [hv]⟩

omit [DecidableEq κ] in
theorem Table.groups_nodup (h : Placed path t.cell) (finish : A → β) (n : ℕ) :
    ((t.groups finish n).map Prod.fst).Nodup := by
  unfold Table.groups
  rw [List.map_filterMap]
  refine List.Nodup.filterMap ?_ List.nodup_range
  intro i j k hi hj
  simp only [Option.map_map, Option.mem_def, Option.map_eq_some_iff] at hi hj
  obtain ⟨k', hi, rfl⟩ := hi
  obtain ⟨k'', hj, heq⟩ := hj
  exact h.injective hi (hj.trans (congrArg some heq))

theorem Grouped.groupsBy {value : List ρ → β} {finish : A → β} {n : ℕ}
    (h : Grouped path key put start known t rows) (hknown : ∀ k ∈ known, ∃ row ∈ rows, key row = k)
    (hcells : ∀ i k, t.cell i = some k → i < n) (hfinish : ∀ l : List ρ, finish (l.foldl put start) = value l) :
    GroupsBy key value rows (t.groups finish n) := by
  refine ⟨Table.groups_nodup h.placed finish n, fun k => ?_, fun g hg => ?_⟩
  · constructor
    · intro hk
      obtain ⟨g, hg, rfl⟩ := List.mem_map.1 hk
      obtain ⟨i, -, hi, -⟩ := Table.mem_groups.1 hg
      exact (h.stems i _ hi).elim (hknown _) id
    · intro hk
      obtain ⟨i, hi⟩ := h.stored k (.inr hk)
      exact List.mem_map.2 ⟨(k, finish (t.acc i)), Table.mem_groups.2 ⟨i, hcells i k hi, hi, rfl⟩, rfl⟩
  · obtain ⟨i, -, hi, hv⟩ := Table.mem_groups.1 hg
    rw [← hv, h.acc i _ hi, hfinish]

end QikkDB.Probing

/-
RENAME COLUMN in one ALTER TABLE statement (GpuSqlParser/GpuSqlListener.cpp, `exitSqlAlterTable`;
GpuSqlDispatcher.cpp, `AlterTable`; Table.cpp, `RenameColumn`).

The listener accepts different old names that are columns, and different new names; it does not compare a new name with
the columns of the table. The dispatcher renames one column after the other, in the order of an unordered map.

Results:
- `renames_keep_columns_iff`: the columns arrive under their new names exactly when each renaming in its turn finds its
  new name free.
- `rename_to_a_column`: a column that is renamed to the name of another one is lost.
- `renames_keep_columns_in_any_order`: every order does exactly when no new name is that of another column.
-/
import Mathlib.Tactic
import QikkDB.Lib.Renaming
import QikkDB.Table.Constraints

namespace QikkDB.RenameColumns

open Constraints

variable {V : Type} [DecidableEq V] {t t' : Table V} {renames : List (String × String)} {p q : Plan}

/-- the entries RENAME COLUMN of a statement -/
def renameEntries (renames : List (String × String)) : List Entry := renames.map fun r => .renameColumn r.1 r.2

/-- as many columns as before, each with its data under its new name, or under its own when it is not renamed -/
def Renamed (t : Table V) (renames : List (String × String)) (t' : Table V) : Prop :=
  Renaming.Moved t.columns renames t'.columns

/-- each renaming in its turn has a new name that is the old one, that no column had, or that its column has given up -/
def InOrder (t : Table V) (renames : List (String × String)) : Prop := Renaming.InOrder t.columns [] renames

/-! ## One column -/

omit [DecidableEq V] in
/-- `RenameColumn` of a column of the table is the move of its entry. -/
theorem renameColumn_eq {r : String × String} (h : (t.columns r.1).isSome) :
    t.renameColumn r.1 r.2 = .ok { t with columns := Renaming.move t.columns r } := by
  obtain ⟨c, hc⟩ := Option.isSome_iff_exists.1 h
  simp only [Table.renameColumn, Renaming.move, hc, Table.eraseColumn]
  cases Function.update t.columns r.1 none r.2 <;> rfl

omit [DecidableEq V] in
/-- The dispatcher's loop throws nothing. -/
theorem renameEntries_eq (hnodup : (renames.map Prod.fst).Nodup) (hexist : ∀ r ∈ renames, (t.columns r.1).isSome) :
    each Table.renameEntry t renames = ({ t with columns := Renaming.run t.columns renames }, none) := by
  induction renames generalizing t with
  | nil => rfl
  | cons r renames ih =>
    rw [List.map_cons, List.nodup_cons] at hnodup
    have hfirst : Table.renameEntry t r = ({ t with columns := Renaming.move t.columns r }, none) := by
      rw [Table.renameEntry, renameColumn_eq (hexist r List.mem_cons_self)]
    have hrest : ∀ s ∈ renames, (Renaming.move t.columns r s.1).isSome := by
      intro s hs
      apply Renaming.move_isSome
      · intro heq
        exact hnodup.1 (heq ▸ List.mem_map_of_mem hs)
      · exact hexist s (List.mem_cons_of_mem r hs)
    simp only [each, hfirst]
    exact ih hnodup.2 hrest

/-! ## The statement -/

/-- what the listener passes on after some entries -/
def plan (t : Table V) (renames : List (String × String)) : Plan := ⟨[], [], [], renames, [], [], t.blockSize⟩

omit [DecidableEq V] in
theorem exitEntries_distinct (done : List (String × String)) (hdone : Renaming.Distinct t.columns done)
    (h : (renameEntries renames).foldlM (exitEntry t) (plan t done) = .ok p) :
    p = plan t (done ++ renames) ∧ Renaming.Distinct t.columns (done ++ renames) := by
  induction renames generalizing done with
  | nil =>
    obtain rfl := Except.ok.inj h
    rw [List.append_nil]
    exact ⟨rfl, hdone⟩
  | cons r renames ih =>
    obtain ⟨a, b⟩ := r
    rw [renameEntries, List.map_cons, List.foldlM_cons] at h
    cases hstep : exitEntry t (plan t done) (.renameColumn a b) with
    | error e =>
      rw [hstep] at h
      cases h
    | ok p₁ =>
      rw [hstep] at h
      simp only [exitEntry] at hstep
      split_ifs at hstep with hmissing htwice htaken
      obtain rfl := Except.ok.inj hstep
      have hdistinct : Renaming.Distinct t.columns (done ++ [(a, b)]) := by
        refine ⟨?_, ?_, ?_⟩
        · rw [List.map_append, List.map_singleton, List.nodup_append]
          refine ⟨hdone.nodup, List.nodup_singleton _, ?_⟩
          intro x hx y hy heq
          obtain rfl := List.mem_singleton.1 hy
          exact htwice (heq ▸ hx)
        · intro s hs
          rcases List.mem_append.1 hs with hs | hs
          · exact hdone.exist s hs
          · obtain rfl := List.mem_singleton.1 hs
            simpa [Option.isSome_iff_ne_none] using hmissing
        · rw [List.pairwise_append]
          refine ⟨hdone.apart, List.pairwise_singleton _ _, ?_⟩
          intro s hs x hx _ hne heq
          obtain rfl := List.mem_singleton.1 hx
          exact htaken ⟨hne, List.mem_map.2 ⟨s, hs, heq⟩⟩
      have hassoc : done ++ (a, b) :: renames = (done ++ [(a, b)]) ++ renames := by simp
      rw [hassoc]
      exact ih _ hdistinct h

omit [DecidableEq V] in
theorem exitSqlAlterTable_distinct (h : exitSqlAlterTable t (renameEntries renames) = .ok p) :
    p = plan t renames ∧ Renaming.Distinct t.columns renames :=
  exitEntries_distinct [] ⟨List.nodup_nil, by simp, List.Pairwise.nil⟩ h

/-- an accepted statement renames column by column, and does nothing else -/
theorem alterTable_renames (env : Environment V) (hexit : exitSqlAlterTable t (renameEntries renames) = .ok p)
    (horder : Reorders p q) :
    alterTable env q t = ({ t with columns := Renaming.run t.columns q.renameColumns }, none) := by
  obtain ⟨rfl, hdistinct⟩ := exitSqlAlterTable_distinct hexit
  have hdistinct' := hdistinct.perm horder.renameColumns
  have hadd : q.addColumns = [] := horder.addColumns.eq_nil
  have hdrop : q.dropColumns = [] := horder.dropColumns.eq_nil
  have halter : q.alterColumns = [] := horder.alterColumns.eq_nil
  have hnew : q.newConstraints = [] := horder.newConstraints.eq_nil
  have hold : q.dropConstraints = [] := horder.dropConstraints.eq_nil
  have hsize : q.newBlockSize = t.blockSize := horder.newBlockSize
  simp only [alterTable, hadd, hdrop, halter, hnew, hold, hsize, each, andThen,
    renameEntries_eq hdistinct'.nodup hdistinct'.exist, Table.changeBlockSize, if_true]

/-- Columns keep their data and arrive under their new names exactly when each renaming, in the order in which they are
applied, finds its new name free. -/
theorem renames_keep_columns_iff (env : Environment V) (hfinite : (Renaming.keys t.columns).Finite)
    (hexit : exitSqlAlterTable t (renameEntries renames) = .ok p) (horder : Reorders p q) :
    Renamed t renames (alterTable env q t).1 ↔ InOrder t q.renameColumns := by
  rw [alterTable_renames env hexit horder]
  obtain ⟨rfl, hdistinct⟩ := exitSqlAlterTable_distinct hexit
  exact Renaming.moved_iff hfinite hdistinct horder.renameColumns

/-- the table with the columns a and b -/
def sampleTable : Table ℕ where
  columns name :=
    if name = "a" then some ⟨.int, true, false, [[⟨1, false⟩]]⟩
    else if name = "b" then some ⟨.int, true, false, [[⟨2, false⟩]]⟩ else none
  sortingColumns := []
  constraints _ := none
  blockSize := 4

theorem keys_sampleTable : Renaming.keys sampleTable.columns = {"a", "b"} := by
  ext name
  by_cases ha : name = "a"
  · simp [Renaming.keys, sampleTable, ha]
  · by_cases hb : name = "b"
    · simp [Renaming.keys, sampleTable, hb]
    · simp [Renaming.keys, sampleTable, ha, hb]

/-- the chain of renamings b to c and a to b, with the order in which it keeps the columns -/
theorem renames_keep_columns_chain :
    Renamed sampleTable [("a", "b"), ("b", "c")]
      (alterTable sampleEnv (plan sampleTable [("b", "c"), ("a", "b")]) sampleTable).1 := by
  refine (renames_keep_columns_iff (p := plan sampleTable [("a", "b"), ("b", "c")]) sampleEnv ?_ rfl ?_).2 ?_
  · rw [keys_sampleTable]
    exact Set.toFinite _
  · decide
  · exact ⟨Or.inr (Or.inl rfl), Or.inr (Or.inr ⟨("b", "c"), by decide⟩), trivial⟩

/-- RENAME COLUMN a TO b, where b is a column: the data of a is lost. -/
theorem rename_to_a_column : ¬ ∀ (env : Environment ℕ) (t : Table ℕ) (renames : List (String × String)) (p q : Plan),
    (Renaming.keys t.columns).Finite → exitSqlAlterTable t (renameEntries renames) = .ok p → Reorders p q →
      Renamed t renames (alterTable env q t).1 := by
  intro h
  have hfinite : (Renaming.keys sampleTable.columns).Finite := by
    rw [keys_sampleTable]
    exact Set.toFinite _
  have hrenamed := h sampleEnv sampleTable [("a", "b")] (plan sampleTable [("a", "b")])
    (plan sampleTable [("a", "b")]) hfinite rfl (by decide)
  have hfound := hrenamed.found "a" ⟨.int, true, false, [[⟨1, false⟩]]⟩ rfl
  revert hfound
  decide

/-- Columns keep their data in every order of the renamings exactly when no new name is that of another column. -/
theorem renames_keep_columns_in_any_order (env : Environment V) (hfinite : (Renaming.keys t.columns).Finite)
    (hexit : exitSqlAlterTable t (renameEntries renames) = .ok p) :
    (∀ q, Reorders p q → Renamed t renames (alterTable env q t).1) ↔
      ∀ r ∈ renames, r.1 ≠ r.2 → t.columns r.2 = none := by
  have hplan := exitSqlAlterTable_distinct hexit
  have hiff : ∀ q, Reorders p q → (Renamed t renames (alterTable env q t).1 ↔ InOrder t q.renameColumns) := by
    intro q horder
    rw [alterTable_renames env hexit horder]
    refine Renaming.moved_iff hfinite hplan.2 ?_
    exact (by simpa [hplan.1, plan] using horder.renameColumns)
  rw [← Renaming.inOrder_perm_iff]
  constructor
  · intro h l hperm
    have horder : Reorders p (plan t l) := by
      rw [hplan.1]
      exact ⟨.refl _, .refl _, .refl _, hperm, .refl _, List.Pairwise.nil, .refl _, List.Pairwise.nil, rfl⟩
    exact (hiff _ horder).1 (h _ horder)
  · intro h q horder
    refine (hiff q horder).2 (h q.renameColumns ?_)
    simpa [hplan.1, plan] using horder.renameColumns

end QikkDB.RenameColumns

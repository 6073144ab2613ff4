/-
ALTER TABLE ... ALTER BLOCK SIZE (Database.cpp, `ChangeTableBlockSize`, `CopyBlocksOfColumn`, `RenameTable`), with what a
table holds besides its columns: the registered constraints and the sorting columns.

The columns are copied into a table with the prefix `temp_` in its name, which then takes the place of the old one. A
table that has this name already is taken for the new one, and the constraints stay with the old one.

- `forget_changeTableBlockSize`: without constraints this is the function of BlockBuffers.
- `copyColumns_eq`: what the threads copy.
- `only_its_table_iff`: when the other tables, and the rows and constraints of the table, stay.
-/
import Mathlib.Tactic
import QikkDB.Core.ResizeCells
import QikkDB.Table.BlockBuffers
import QikkDB.Table.Constraints

namespace QikkDB.TableBlockSize

open BlockBuffers ColumnTypes
open Constraints (ConstraintType)

/-! ## Model -/

section Model

variable (T : Type) [ColumnTypes T]

structure Table extends BlockBuffers.Table T where
  constraints : List (String × ConstraintType × List String)
  sortingColumns : List String

structure Database where
  blockSize : ℕ
  tables : List (String × Table T)

/-- how a change of the block size ends -/
inductive Changed where
  | done (d : Database T)
  /-- left by an exception -/
  | thrown (d : Database T)
  /-- an exception in a thread ends the process -/
  | terminated

variable {T} [DecidableEq T]

/-- the new table, or the one that has the name -/
def Database.temporary (d : Database T) (newBlockSize : ℕ) (tableName : String) : Table T :=
  (lookup ("temp_" ++ tableName) d.tables).getD ⟨⟨newBlockSize, []⟩, [], []⟩

/-- ChangeTableBlockSize -/
def changeTableBlockSize (rowsLimit : Option ℕ) (newBlockSize : ℕ) (tableName : String) (d : Database T) : Changed T :=
  match lookup tableName d.tables with
  | none => .thrown d
  | some old =>
    if newBlockSize = old.blockSize then .done d
    else
      let temp := d.temporary newBlockSize tableName
      match copyColumns rowsLimit old.columns
          (old.columns.foldl (fun t c => t.createColumn (c.2.again c.1)) temp.toTable) with
      | none => .terminated
      | some new =>
        let others := d.tables.filter fun e => e.1 ≠ tableName ∧ e.1 ≠ "temp_" ++ tableName
        .done { d with tables := others ++ [(tableName, ⟨new, temp.constraints, []⟩)] }

/-! ### Without constraints -/

def Database.forget (d : Database T) : BlockBuffers.Database T := ⟨d.blockSize, d.tables.map fun e => (e.1, e.2.toTable)⟩

def Changed.forget : Changed T → BlockBuffers.Changed T
  | done d => .done d.forget
  | thrown d => .thrown d.forget
  | terminated => .terminated

end Model

/-! ## What should stay -/

section Spec

variable {T : Type} [ColumnTypes T]

/-- type, nullability, uniqueness and rows of a column -/
structure Content (T : Type) [ColumnTypes T] where
  type : T
  isNullable : Bool
  isUnique : Bool
  cells : List (Elem type × Bool)

def content (s : StoredColumn T) : Content T := ⟨s.type, s.column.isNullable, s.column.isUnique, s.column.cells⟩

/-- a table with the same columns, and the same constraints but for indices -/
structure Same (t t' : Table T) : Prop where
  columns : ∀ name, (lookup name t'.columns).map content = (lookup name t.columns).map content
  constraints : ∀ name type columns, type ≠ .index →
    (lookup name t'.constraints = some (type, columns) ↔ lookup name t.constraints = some (type, columns))

/-- the other tables are what they were, and this one is the same -/
structure OnlyItsTable (tableName : String) (d d' : Database T) : Prop where
  others : ∀ name, name ≠ tableName → lookup name d'.tables = lookup name d.tables
  table : ∀ t, lookup tableName d.tables = some t → ∃ t', lookup tableName d'.tables = some t' ∧ Same t t'

/-- tables and columns by distinct names, and blocks as columns keep them -/
structure WellFormed (d : Database T) : Prop where
  names : (d.tables.map Prod.fst).Nodup
  columnNames : ∀ e ∈ d.tables, (e.2.columns.map Prod.fst).Nodup
  valid : ∀ e ∈ d.tables, ∀ s ∈ e.2.columns, ∀ b ∈ s.2.column.getBlocksList,
    b.Valid s.2.column.blockSize s.2.column.isNullable

/-- no table has the temporary name, no constraint but indices is registered, and every column can be copied -/
structure Changeable (rowsLimit : Option ℕ) (newBlockSize : ℕ) (tableName : String) (d : Database T) (t : Table T) :
    Prop where
  free : lookup ("temp_" ++ tableName) d.tables = none
  indices : ∀ name type columns, lookup name t.constraints = some (type, columns) → type = .index
  fillable : ∀ s ∈ t.columns, s.2.column.Fillable rowsLimit newBlockSize

end Spec

/-! ## Maps -/

section Maps

variable {β γ : Type} {key : String}

theorem lookup_cons (e : String × β) (m : List (String × β)) :
    lookup key (e :: m) = if e.1 = key then some e.2 else lookup key m := by
  unfold lookup
  by_cases h : e.1 = key <;> simp [h]

theorem lookup_map (g : String → β → γ) (m : List (String × β)) :
    lookup key (m.map fun e => (e.1, g e.1 e.2)) = (lookup key m).map (g key) := by
  induction m with
  | nil => rfl
  | cons e m ih =>
    rw [List.map_cons, lookup_cons, lookup_cons, ih]
    split_ifs with h
    · rw [h]
      rfl
    · rfl

theorem lookup_append (m m' : List (String × β)) : lookup key (m ++ m') = (lookup key m).or (lookup key m') := by
  induction m with
  | nil => rfl
  | cons e m ih =>
    rw [List.cons_append, lookup_cons, lookup_cons, ih]
    split_ifs <;> rfl

theorem lookup_filter {p : String → Bool} (m : List (String × β)) :
    lookup key (m.filter fun e => p e.1) = if p key then lookup key m else none := by
  induction m with
  | nil => simp [lookup]
  | cons e m ih =>
    rw [List.filter_cons]
    by_cases h : e.1 = key
    · subst h
      cases hp : p e.1 <;> simp [hp, ih, lookup_cons]
    · cases hp : p e.1 <;> simp [ih, lookup_cons, h]

theorem lookup_of_mem {m : List (String × β)} (hnodup : (m.map Prod.fst).Nodup) {e : String × β} (h : e ∈ m) :
    lookup e.1 m = some e.2 := by
  induction m with
  | nil => cases h
  | cons e' m ih =>
    rw [List.map_cons, List.nodup_cons] at hnodup
    rw [lookup_cons]
    rcases List.mem_cons.1 h with rfl | h
    · rw [if_pos rfl]
    · have hne : e'.1 ≠ e.1 := by
        intro heq
        rw [heq] at hnodup
        exact hnodup.1 (List.mem_map_of_mem h)
      rw [if_neg hne, ih hnodup.2 h]

end Maps

/-! ## The new table -/

section Columns

variable {T : Type} [DecidableEq T] [ColumnTypes T] {rowsLimit : Option ℕ} {newBlockSize : ℕ}

/-- the column that the thread starts with -/
def freshColumn (newBlockSize : ℕ) (c : String × StoredColumn T) : String × StoredColumn T :=
  (c.1, (c.2.again c.1).create newBlockSize)

/-- the column that it leaves -/
def copied (rowsLimit : Option ℕ) (newBlockSize : ℕ) (name : String) (s : StoredColumn T) : StoredColumn T :=
  ⟨s.type, (((s.again name).create newBlockSize).column.resizeColumn rowsLimit s.column).1⟩

omit [DecidableEq T] in
/-- CreateColumn for each column of the old table -/
theorem createColumns_eq (columns done : List (String × StoredColumn T))
    (hnodup : ((done ++ columns).map Prod.fst).Nodup) :
    columns.foldl (fun t c => t.createColumn (c.2.again c.1)) (⟨newBlockSize, done⟩ : BlockBuffers.Table T) =
      ⟨newBlockSize, done ++ columns.map (freshColumn newBlockSize)⟩ := by
  induction columns generalizing done with
  | nil => simp
  | cons c columns ih =>
    have hnew : lookup c.1 done = none := by
      cases hc : lookup c.1 done with
      | none => rfl
      | some b =>
        rw [List.map_append, List.map_cons] at hnodup
        have hmem := List.mem_map_of_mem (f := Prod.fst) (mem_of_lookup hc)
        exact absurd rfl ((List.nodup_append.1 hnodup).2.2 _ hmem _ List.mem_cons_self)
    have hcreate : (⟨newBlockSize, done⟩ : BlockBuffers.Table T).createColumn (c.2.again c.1) =
        ⟨newBlockSize, done ++ [freshColumn newBlockSize c]⟩ := by
      rw [Table.createColumn, if_neg]
      · rfl
      · simp [StoredColumn.again, hnew]
    have hrest : (((done ++ [freshColumn newBlockSize c]) ++ columns).map Prod.fst).Nodup := by
      simpa [freshColumn] using hnodup
    rw [List.foldl_cons, hcreate, ih _ hrest, List.append_assoc]
    rfl

omit [DecidableEq T] in
/-- one thread -/
theorem goes_copy {s : StoredColumn T} (name : String)
    (hvalid : ∀ b ∈ s.column.getBlocksList, b.Valid s.column.blockSize s.column.isNullable) :
    Column.Goes (s.column.Fillable rowsLimit newBlockSize)
      (fun c => c.cells = s.column.cells ∧ c.isNullable = s.column.isNullable ∧ c.isUnique = s.column.isUnique)
      (((s.again name).create newBlockSize).column.resizeColumn rowsLimit s.column) := by
  have hgoes := @Column.goes_resizeColumn _ _ ((s.again name).create newBlockSize).column s.column rowsLimit rfl rfl rfl
    hvalid
  refine ⟨hgoes.returns, fun h => ⟨?_, ?_, ?_⟩⟩
  · obtain ⟨d, hcopied, hd⟩ := hgoes.leaves h
    have hlen : (Column.cellsOf s.column.getBlocksList).length = (s.column.getBlocksList.map Block.size).sum := by
      rw [Column.cellsOf, List.length_flatMap]
      exact congrArg List.sum (List.map_congr_left fun b hb => Block.length_cells (hvalid b hb))
    rw [← hd]
    exact hcopied.cells_eq (hlen ▸ h.room)
  all_goals
    have hunique : BlockInvariant.Regroups (fun c : Column (Elem s.type) => c.isUnique = s.column.isUnique) (-1) :=
      ⟨fun h _ _ => h, fun h _ => h⟩
    have hfilled := BlockInvariant.filled_resizeColumn fits_kept hunique
      (BlockInvariant.all_fresh name newBlockSize s.column.isNullable s.column.isUnique) rfl rowsLimit s.column
  · exact hfilled.isNullable
  · exact hfilled.groups

theorem copyBlocksOfColumn_of_fillable {c : String × StoredColumn T}
    (hvalid : ∀ b ∈ c.2.column.getBlocksList, b.Valid c.2.column.blockSize c.2.column.isNullable)
    (h : c.2.column.Fillable rowsLimit newBlockSize) :
    copyBlocksOfColumn rowsLimit c.2 (freshColumn newBlockSize c).2 = some (copied rowsLimit newBlockSize c.1 c.2) := by
  have hnone := (goes_copy c.1 hvalid).returns.2 h
  unfold copyBlocksOfColumn
  rw [dif_pos (show c.2.type = (freshColumn newBlockSize c).2.type from rfl)]
  split
  · rename_i column hcolumn
    refine congrArg some ?_
    have hcolumn' : (((c.2.again c.1).create newBlockSize).column.resizeColumn rowsLimit c.2.column) = (column, none) :=
      hcolumn
    rw [copied, hcolumn']
    rfl
  · rename_i column e hcolumn
    have hsome : (((c.2.again c.1).create newBlockSize).column.resizeColumn rowsLimit c.2.column).2 = some e :=
      congrArg Prod.snd hcolumn
    rw [hnone] at hsome
    cases hsome

theorem copyBlocksOfColumn_of_not_fillable {c : String × StoredColumn T}
    (hvalid : ∀ b ∈ c.2.column.getBlocksList, b.Valid c.2.column.blockSize c.2.column.isNullable)
    (h : ¬ c.2.column.Fillable rowsLimit newBlockSize) :
    copyBlocksOfColumn rowsLimit c.2 (freshColumn newBlockSize c).2 = none := by
  unfold copyBlocksOfColumn
  rw [dif_pos (show c.2.type = (freshColumn newBlockSize c).2.type from rfl)]
  split
  · rename_i column hcolumn
    have hnone : (((c.2.again c.1).create newBlockSize).column.resizeColumn rowsLimit c.2.column).2 = none :=
      congrArg Prod.snd hcolumn
    exact absurd ((goes_copy c.1 hvalid).returns.1 hnone) h
  · rfl

omit [DecidableEq T] in
/-- the column that a thread puts in the place of the fresh one -/
theorem setColumn_eq {name : String} {old new : StoredColumn T} {done rest : List (String × StoredColumn T)}
    (hnodup : ((done ++ (name, old) :: rest).map Prod.fst).Nodup) :
    (done ++ (name, old) :: rest).map (fun e => if e.1 = name then (name, new) else e) = done ++ (name, new) :: rest := by
  rw [List.map_append, List.map_cons, List.nodup_append, List.nodup_cons] at hnodup
  obtain ⟨-, ⟨hrest, -⟩, hdone⟩ := hnodup
  have hkeep : ∀ l : List (String × StoredColumn T), name ∉ l.map Prod.fst →
      l.map (fun e => if e.1 = name then (name, new) else e) = l := by
    intro l hl
    refine (List.map_congr_left fun e he => if_neg fun heq => ?_).trans (List.map_id l)
    rw [← heq] at hl
    exact hl (List.mem_map_of_mem he)
  rw [List.map_append, List.map_cons, if_pos rfl, hkeep rest hrest,
    hkeep done fun hmem => hdone _ hmem _ List.mem_cons_self rfl]

/-- the threads, for the columns that are still to be copied -/
theorem copyColumns_eq (columns done : List (String × StoredColumn T)) (hnodup : ((done ++ columns).map Prod.fst).Nodup)
    (hvalid : ∀ c ∈ columns, ∀ b ∈ c.2.column.getBlocksList, b.Valid c.2.column.blockSize c.2.column.isNullable) :
    ((∀ c ∈ columns, c.2.column.Fillable rowsLimit newBlockSize) →
      copyColumns rowsLimit columns ⟨newBlockSize, done ++ columns.map (freshColumn newBlockSize)⟩ =
        some ⟨newBlockSize, done ++ columns.map fun c => (c.1, copied rowsLimit newBlockSize c.1 c.2)⟩) ∧
    ((∃ c ∈ columns, ¬ c.2.column.Fillable rowsLimit newBlockSize) →
      copyColumns rowsLimit columns ⟨newBlockSize, done ++ columns.map (freshColumn newBlockSize)⟩ = none) := by
  induction columns generalizing done with
  | nil => simp [copyColumns]
  | cons c columns ih =>
    obtain ⟨hc, hcolumns⟩ := List.forall_mem_cons.1 hvalid
    have hnames : ((done ++ (c :: columns).map (freshColumn newBlockSize)).map Prod.fst).Nodup := by
      simpa [freshColumn, Function.comp_def] using hnodup
    have hlookup : lookup c.1 (done ++ (c :: columns).map (freshColumn newBlockSize)) =
        some (freshColumn newBlockSize c).2 :=
      lookup_of_mem hnames (e := freshColumn newBlockSize c) (List.mem_append_right _ List.mem_cons_self)
    have hset := @setColumn_eq _ _ _ _ (copied rowsLimit newBlockSize c.1 c.2) _ _ hnames
    have hrest : (((done ++ [(c.1, copied rowsLimit newBlockSize c.1 c.2)]) ++ columns).map Prod.fst).Nodup := by
      simpa using hnodup
    obtain ⟨hall, hsome⟩ := ih (done ++ [(c.1, copied rowsLimit newBlockSize c.1 c.2)]) hrest hcolumns
    simp only [List.append_assoc, List.singleton_append] at hall hsome
    by_cases h : c.2.column.Fillable rowsLimit newBlockSize
    · have hstep : copyColumns rowsLimit (c :: columns)
          ⟨newBlockSize, done ++ (c :: columns).map (freshColumn newBlockSize)⟩ =
          copyColumns rowsLimit columns ⟨newBlockSize,
            done ++ (c.1, copied rowsLimit newBlockSize c.1 c.2) :: columns.map (freshColumn newBlockSize)⟩ := by
        rw [copyColumns]
        simp only [hlookup, copyBlocksOfColumn_of_fillable hc h]
        exact congrArg _ (congrArg _ hset)
      rw [hstep]
      refine ⟨fun hfill => hall fun c' hc' => hfill c' (List.mem_cons_of_mem c hc'), ?_⟩
      rintro ⟨c', hc', hnot⟩
      rcases List.mem_cons.1 hc' with rfl | hc'
      · exact absurd h hnot
      · exact hsome ⟨c', hc', hnot⟩
    · refine ⟨fun hfill => absurd (hfill c List.mem_cons_self) h, fun _ => ?_⟩
      rw [copyColumns]
      simp only [hlookup, copyBlocksOfColumn_of_not_fillable hc h]

end Columns

/-! ## The database -/

section Change

variable {T : Type} [DecidableEq T] [ColumnTypes T] {rowsLimit : Option ℕ} {newBlockSize : ℕ} {tableName : String}
  {d : Database T} {t : Table T}

theorem temp_ne (tableName : String) : "temp_" ++ tableName ≠ tableName := by
  intro h
  have := congrArg String.length h
  simp at this

theorem forget_changeTableBlockSize :
    (changeTableBlockSize rowsLimit newBlockSize tableName d).forget =
      BlockBuffers.changeTableBlockSize rowsLimit newBlockSize tableName d.forget := by
  have hlookup : ∀ name, lookup name d.forget.tables = (lookup name d.tables).map Table.toTable := fun name =>
    lookup_map (fun _ t => t.toTable) d.tables
  rw [changeTableBlockSize, BlockBuffers.changeTableBlockSize, hlookup, hlookup]
  cases lookup tableName d.tables with
  | none => rfl
  | some old =>
    have htemp : (d.temporary newBlockSize tableName).toTable =
        ((lookup ("temp_" ++ tableName) d.tables).map Table.toTable).getD ⟨newBlockSize, []⟩ := by
      rw [Database.temporary]
      cases lookup ("temp_" ++ tableName) d.tables <;> rfl
    simp only [Option.map_some, ← htemp]
    split_ifs
    · rfl
    · cases copyColumns rowsLimit old.columns (old.columns.foldl (fun t c => t.createColumn (c.2.again c.1))
        (d.temporary newBlockSize tableName).toTable) with
      | none => rfl
      | some new =>
        simp only [Changed.forget, Database.forget, List.map_append, List.map_cons, List.map_nil, List.filter_map]
        rfl

omit [DecidableEq T] in
theorem Same.refl (t : Table T) : Same t t := ⟨fun _ => rfl, fun _ _ _ _ => Iff.rfl⟩

omit [DecidableEq T] in
/-- the tables after the change -/
theorem lookup_changed (others : List (String × Table T)) (new : Table T) (name : String) :
    lookup name ((others.filter fun e => e.1 ≠ tableName ∧ e.1 ≠ "temp_" ++ tableName) ++ [(tableName, new)]) =
      if name = tableName then some new else if name = "temp_" ++ tableName then none else lookup name others := by
  have hfilter := @lookup_filter _ name (fun x => decide (x ≠ tableName ∧ x ≠ "temp_" ++ tableName)) others
  rw [lookup_append, hfilter, lookup_cons]
  by_cases hname : name = tableName
  · simp [hname]
  · have hnil : lookup name ([] : List (String × Table T)) = none := rfl
    rw [if_neg (Ne.symm hname), hnil, Option.or_none, if_neg hname]
    by_cases htemp : name = "temp_" ++ tableName <;> simp [hname, htemp]

/-- the change of a table without another one under the temporary name -/
theorem changed_eq (hd : WellFormed d) (ht : lookup tableName d.tables = some t) (hne : newBlockSize ≠ t.blockSize)
    (hfree : lookup ("temp_" ++ tableName) d.tables = none) :
    ((∀ c ∈ t.columns, c.2.column.Fillable rowsLimit newBlockSize) →
      changeTableBlockSize rowsLimit newBlockSize tableName d = .done { d with tables :=
        (d.tables.filter fun e => e.1 ≠ tableName ∧ e.1 ≠ "temp_" ++ tableName) ++ [(tableName,
          ⟨⟨newBlockSize, t.columns.map fun c => (c.1, copied rowsLimit newBlockSize c.1 c.2)⟩, [], []⟩)] }) ∧
    ((∃ c ∈ t.columns, ¬ c.2.column.Fillable rowsLimit newBlockSize) →
      changeTableBlockSize rowsLimit newBlockSize tableName d = .terminated) := by
  have hmem := mem_of_lookup ht
  have hnodup := hd.columnNames _ hmem
  have htemp : d.temporary newBlockSize tableName = ⟨⟨newBlockSize, []⟩, [], []⟩ := by rw [Database.temporary, hfree]; rfl
  have hcreate := @createColumns_eq T _ newBlockSize t.columns [] hnodup
  obtain ⟨hall, hsome⟩ := @copyColumns_eq T _ _ rowsLimit newBlockSize t.columns [] hnodup
    (hd.valid _ hmem)
  simp only [List.nil_append] at hcreate hall hsome
  constructor
  · intro h
    rw [changeTableBlockSize, ht]
    simp only [if_neg hne, htemp, hcreate, hall h]
  · intro h
    rw [changeTableBlockSize, ht]
    simp only [if_neg hne, htemp, hcreate, hsome h]

omit [DecidableEq T] in
/-- the copies of the columns -/
theorem content_copied {c : String × StoredColumn T} (hd : WellFormed d) (hmem : (tableName, t) ∈ d.tables)
    (hc : c ∈ t.columns) (h : c.2.column.Fillable rowsLimit newBlockSize) :
    content (copied rowsLimit newBlockSize c.1 c.2) = content c.2 := by
  obtain ⟨hcells, hnullable, hunique⟩ := (goes_copy c.1 (hd.valid _ hmem c hc)).leaves h
  rw [content, copied, content]
  simp only [hnullable, hunique]
  exact congrArg (Content.mk c.2.type c.2.column.isNullable c.2.column.isUnique) hcells

theorem changes_iff_of_ne (hd : WellFormed d) (ht : lookup tableName d.tables = some t)
    (hne : newBlockSize ≠ t.blockSize) :
    (∃ d', changeTableBlockSize rowsLimit newBlockSize tableName d = .done d' ∧ OnlyItsTable tableName d d') ↔
      Changeable rowsLimit newBlockSize tableName d t := by
  have hmem := mem_of_lookup ht
  constructor
  · rintro ⟨d', hdone, honly⟩
    have hfree : lookup ("temp_" ++ tableName) d.tables = none := by
      rw [← honly.others _ (temp_ne tableName)]
      rw [changeTableBlockSize, ht] at hdone
      simp only [if_neg hne] at hdone
      split at hdone
      · cases hdone
      · obtain rfl := Changed.done.inj hdone
        rw [lookup_changed, if_neg (temp_ne tableName), if_pos rfl]
    obtain ⟨hall, hsome⟩ := @changed_eq _ _ _ rowsLimit newBlockSize _ _ _ hd ht hne hfree
    have hfill : ∀ c ∈ t.columns, c.2.column.Fillable rowsLimit newBlockSize := by
      intro c hc
      by_contra hnot
      rw [hsome ⟨c, hc, hnot⟩] at hdone
      cases hdone
    refine ⟨hfree, fun name type columns hconstraint => ?_, hfill⟩
    rw [hall hfill] at hdone
    obtain rfl := Changed.done.inj hdone
    obtain ⟨t', ht', hsame⟩ := honly.table t ht
    rw [lookup_changed, if_pos rfl] at ht'
    obtain rfl := Option.some.inj ht'
    by_contra htype
    exact nomatch (hsame.constraints name type columns htype).2 hconstraint
  · intro h
    obtain ⟨hall, -⟩ := @changed_eq _ _ _ rowsLimit newBlockSize _ _ _ hd ht hne h.free
    refine ⟨_, hall h.fillable, ⟨fun name hname => ?_, fun t' ht' => ?_⟩⟩
    · rw [lookup_changed, if_neg hname]
      split_ifs with htemp
      · rw [htemp, h.free]
      · rfl
    · obtain rfl := Option.some.inj (ht.symm.trans ht')
      refine ⟨_, by rw [lookup_changed, if_pos rfl], ⟨fun name => ?_, fun name type columns htype => ?_⟩⟩
      · rw [lookup_map (fun x s => copied rowsLimit newBlockSize x s), Option.map_map]
        cases hs : lookup name t.columns with
        | none => rfl
        | some s =>
          exact congrArg some (content_copied (c := (name, s)) hd hmem (mem_of_lookup hs) (h.fillable _ (mem_of_lookup hs)))
      · exact iff_of_false nofun fun hconstraint => htype (h.indices name type columns hconstraint)

/-- **ChangeTableBlockSize touches only its table** when the block size is the old one, or when the temporary name is free,
only indices are registered and every column can be copied; and in no other case. -/
theorem only_its_table_iff (hd : WellFormed d) (ht : lookup tableName d.tables = some t) :
    (∃ d', changeTableBlockSize rowsLimit newBlockSize tableName d = .done d' ∧ OnlyItsTable tableName d d') ↔
      newBlockSize = t.blockSize ∨ Changeable rowsLimit newBlockSize tableName d t := by
  by_cases hsame : newBlockSize = t.blockSize
  · refine iff_of_true ⟨d, ?_, ⟨fun _ _ => rfl, fun t' ht' => ⟨t', ht', Same.refl t'⟩⟩⟩ (.inl hsame)
    rw [changeTableBlockSize, ht]
    simp only [if_pos hsame]
  · rw [changes_iff_of_ne hd ht hsame, or_iff_right hsame]

end Change

/-! ## Databases -/

/-- the rows 5, 6 and 7 in blocks of two -/
def threeRows : Column Int32T :=
  (((Column.fresh "k" 2 : Column Int32T).addBlockData [5, 6] (-1) true true 0).1.addBlockData [7] (-1) true true 0).1

def threeRowsTable (constraints : List (String × ConstraintType × List String)) : Table DataType :=
  ⟨⟨2, [("k", ⟨.int, threeRows⟩)]⟩, constraints, []⟩

def otherTable : Table DataType := ⟨⟨2, [("k", keyColumn.create 2)]⟩, [], []⟩

theorem wellFormed_two (name : String) (hname : name ≠ "t") (constraints : List (String × ConstraintType × List String)) :
    WellFormed (⟨2, [("t", threeRowsTable constraints), (name, otherTable)]⟩ : Database DataType) where
  names := by simpa using hname.symm
  columnNames e he := by
    rcases List.mem_cons.1 he with rfl | he
    · exact List.nodup_singleton _
    · obtain rfl := List.mem_singleton.1 he
      exact List.nodup_singleton _
  valid e he s hs b hb := by
    rcases List.mem_cons.1 he with rfl | he
    · obtain rfl := List.mem_singleton.1 hs
      rcases List.mem_cons.1 hb with rfl | hb
      · exact ⟨rfl, by decide, by decide, rfl, nofun⟩
      · obtain rfl := List.mem_singleton.1 hb
        exact ⟨rfl, by decide, by decide, rfl, nofun⟩
    · obtain rfl := List.mem_singleton.1 he
      obtain rfl := List.mem_singleton.1 hs
      exact absurd hb List.not_mem_nil

theorem fillable_threeRows : threeRows.Fillable none 3 where
  positive := by decide
  count := by decide
  room := by decide
  noEmpty htrue := absurd htrue (by decide)
  admitted htrue := absurd htrue (by decide)
  notFull _ pre b post hsplit hempty := by
    have hmem : b.size ∈ threeRows.getBlocksList.map Block.size := by
      rw [hsplit]
      exact List.mem_map_of_mem (List.mem_append_right _ List.mem_cons_self)
    rw [hempty] at hmem
    exact absurd hmem (by decide)

/-- three rows in blocks of three, with an index -/
theorem only_its_table_three :
    ∃ d', changeTableBlockSize none 3 "t" ⟨2, [("t", threeRowsTable [("i", .index, ["k"])]), ("u", otherTable)]⟩ =
        .done d' ∧
      OnlyItsTable "t" ⟨2, [("t", threeRowsTable [("i", .index, ["k"])]), ("u", otherTable)]⟩ d' := by
  refine (only_its_table_iff (wellFormed_two "u" (by decide) _) rfl).2 (.inr ⟨rfl, ?_, ?_⟩)
  · intro name type columns h
    obtain ⟨-, h⟩ := List.mem_singleton.1 (mem_of_lookup h) |> Prod.mk.inj
    exact (Prod.mk.inj h).1
  · intro s hs
    obtain rfl := List.mem_singleton.1 hs
    exact fillable_threeRows

/-- a NOT NULL constraint, and a table with the temporary name -/
theorem constraint_and_table_are_lost :
    (¬ ∃ d', changeTableBlockSize none 3 "t" ⟨2, [("t", threeRowsTable [("c", .notNull, ["k"])]), ("u", otherTable)]⟩ =
        .done d' ∧
      OnlyItsTable "t" ⟨2, [("t", threeRowsTable [("c", .notNull, ["k"])]), ("u", otherTable)]⟩ d') ∧
    ¬ ∃ d', changeTableBlockSize none 3 "t" ⟨2, [("t", threeRowsTable []), ("temp_t", otherTable)]⟩ = .done d' ∧
      OnlyItsTable "t" ⟨2, [("t", threeRowsTable []), ("temp_t", otherTable)]⟩ d' := by
  constructor
  · rw [changes_iff_of_ne (wellFormed_two "u" (by decide) _) rfl (by decide)]
    exact fun h => nomatch h.indices "c" .notNull ["k"] rfl
  · rw [changes_iff_of_ne (wellFormed_two "temp_t" (by decide) _) rfl (by decide)]
    exact fun h => nomatch h.free

end QikkDB.TableBlockSize

/-
Block sizes of a database and the buffers its queries allocate by them (Database.cpp, `ChangeDatabaseBlockSize`,
`ChangeTableBlockSize`; GpuSqlListener.cpp, `exitSqlCreateTable`; GpuSqlDispatcherVMFunctions, `RetCol`, `LoadCol`;
GPUJoin.cuh, `JoinTableRonS`; GPUMergeJoin.cuh, `JoinUnique`).

A table keeps its own block size and its columns and blocks follow it. RetCol takes the null mask of a block, and the
texts of points and polygons, into buffers for one block of the database, JoinTableRonS the blocks of both columns.
CREATE TABLE and ALTER TABLE take any block size; ALTER DATABASE changes the tables one after the other under the name
`temp_` in front of theirs, and stops where a table of that name was in the way.

The kernels are represented by what they hand on: `matched` for the hash join, the cells of the merge path for the
other one. Block sizes are natural numbers, rows and masks are those of `Column`.

- `sized_reached`: the blocks of every table stay within the block size of the table.
- `bounded_reached`: under the conditions of `Reached True` no table has a larger block size than the database.
- `buffers_hold_blocks`: then every copy of a query fits into its buffer.
-/
import Mathlib.Tactic
import QikkDB.Core.Column
import QikkDB.Core.Append
import QikkDB.Core.Resize
import QikkDB.Core.BlockInvariant
import QikkDB.Storage.RowCount
import QikkDB.Storage.MaskCoverage

namespace QikkDB.BlockBuffers

open NullValues RowCount Column BlockInvariant

/-! ## Databases -/

/-- which RetCol returns a column -/
inductive Kind where
  | number
  | text
  | point
  | polygon
deriving DecidableEq, Repr

/-- what columns of the data types hold -/
class ColumnTypes (T : Type) where
  Elem : T → Type
  element : (t : T) → Element (Elem t)
  decEq : (t : T) → DecidableEq (Elem t)
  kind : T → Kind

open ColumnTypes

variable {T : Type} [DecidableEq T] [ColumnTypes T]

instance (t : T) : Element (Elem t) := element t

instance (t : T) : DecidableEq (Elem t) := decEq t

structure StoredColumn (T : Type) [ColumnTypes T] where
  type : T
  column : Column (Elem type)

structure Table (T : Type) [ColumnTypes T] where
  blockSize : ℕ
  columns : List (String × StoredColumn T)

structure Database (T : Type) [ColumnTypes T] where
  blockSize : ℕ
  tables : List (String × Table T)

/-- find in a map -/
def lookup {β : Type} (key : String) (m : List (String × β)) : Option β :=
  match m.find? fun e => e.1 = key with
  | none => none
  | some e => some e.2

theorem mem_of_lookup {β : Type} {key : String} {m : List (String × β)} {b : β} (h : lookup key m = some b) :
    (key, b) ∈ m := by
  unfold lookup at h
  split at h
  · cases h
  · rename_i e he
    obtain rfl := Option.some.inj h
    have hkey : e.1 = key := by simpa using List.find?_some he
    exact hkey ▸ List.mem_of_find?_eq_some he

/-- what CREATE TABLE says of a column -/
structure NewColumn (T : Type) where
  name : String
  type : T
  isNullable : Bool
  isUnique : Bool

/-- a column without rows -/
def NewColumn.create (n : NewColumn T) (blockSize : ℕ) : StoredColumn T :=
  ⟨n.type, { Column.fresh n.name blockSize with isNullable := n.isNullable, isUnique := n.isUnique }⟩

/-- CreateColumn: a column of that name stays -/
def Table.createColumn (t : Table T) (n : NewColumn T) : Table T :=
  if (lookup n.name t.columns).isSome then t else { t with columns := t.columns ++ [(n.name, n.create t.blockSize)] }

/-- the column as ChangeTableBlockSize makes it again -/
def StoredColumn.again (s : StoredColumn T) (name : String) : NewColumn T :=
  ⟨name, s.type, s.column.isNullable, s.column.isUnique⟩

/-! ### ChangeTableBlockSize -/

/-- how a change of block sizes ends -/
inductive Changed (T : Type) [ColumnTypes T] where
  | done (d : Database T)
  /-- left by an exception -/
  | thrown (d : Database T)
  /-- an exception in a thread ends the process -/
  | terminated

/-- CopyBlocksOfColumn, in a thread of its own: the column of the other table afterwards -/
def copyBlocksOfColumn (rowsLimit : Option ℕ) (src dst : StoredColumn T) : Option (StoredColumn T) :=
  if h : src.type = dst.type then
    match dst.column.resizeColumn rowsLimit (h ▸ src.column) with
    | (column, none) => some ⟨dst.type, column⟩
    | (_, some _) => none
  else none

/-- the threads, one after the other -/
def copyColumns (rowsLimit : Option ℕ) : List (String × StoredColumn T) → Table T → Option (Table T)
  | [], t => some t
  | (name, src) :: rest, t =>
    match lookup name t.columns with
    | none => none
    | some dst =>
      match copyBlocksOfColumn rowsLimit src dst with
      | none => none
      | some new =>
        copyColumns rowsLimit rest { t with columns := t.columns.map fun e => if e.1 = name then (name, new) else e }

/-- ChangeTableBlockSize; a table that already has the temporary name takes the place of the new one -/
def changeTableBlockSize (rowsLimit : Option ℕ) (newBlockSize : ℕ) (tableName : String) (d : Database T) : Changed T :=
  match lookup tableName d.tables with
  | none => .thrown d
  | some old =>
    if newBlockSize = old.blockSize then .done d
    else
      let temp := (lookup ("temp_" ++ tableName) d.tables).getD ⟨newBlockSize, []⟩
      let new := old.columns.foldl (fun t c => t.createColumn (c.2.again c.1)) temp
      match copyColumns rowsLimit old.columns new with
      | none => .terminated
      | some new =>
        let others := d.tables.filter fun e => e.1 ≠ tableName ∧ e.1 ≠ "temp_" ++ tableName
        .done { d with tables := others ++ [(tableName, new)] }

/-- the loop of ChangeDatabaseBlockSize -/
def changeTables (rowsLimit : Option ℕ) (newBlockSize : ℕ) : List String → Database T → Changed T
  | [], d => .done d
  | tableName :: rest, d =>
    match changeTableBlockSize rowsLimit newBlockSize tableName d with
    | .done d => changeTables rowsLimit newBlockSize rest d
    | r => r

/-- ChangeDatabaseBlockSize, with the tables in the order of the hash map -/
def changeDatabaseBlockSize (rowsLimit : Option ℕ) (newBlockSize : ℕ) (tableNames : List String) (d : Database T) :
    Changed T :=
  if newBlockSize = d.blockSize then .done d
  else changeTables rowsLimit newBlockSize tableNames { d with blockSize := newBlockSize }

/-! ### Steps -/

/-- the functions that change the rows of a column -/
inductive ColumnStep (rowsLimit : Option ℕ) {α : Type} [Element α] [DecidableEq α] : Column α → Column α → Prop
  | addBlock (c : Column α) (groupId : ℤ) (saveNecessary : Bool) (index : ℕ) :
    ColumnStep rowsLimit c (c.addBlock groupId saveNecessary index)
  | addBlockData (c : Column α) (data : List α) (groupId : ℤ) (countBlockStatistics saveNecessary : Bool) (index : ℕ) :
    ColumnStep rowsLimit c (c.addBlockData data groupId countBlockStatistics saveNecessary index).1
  | insertData {c c' : Column α} (columnData : List α) (groupId : ℤ) (saveNecessary : Bool) (index : ℕ)
    (hok : c.insertData rowsLimit columnData groupId saveNecessary index = .ok c') : ColumnStep rowsLimit c c'
  | insertDataMasked {c c' : Column α} (columnData : List α) (nullMask : Mask) (groupId : ℤ) (saveNecessary : Bool)
    (index : ℕ) (hok : c.insertDataMasked rowsLimit columnData nullMask groupId saveNecessary index = .ok c') :
    ColumnStep rowsLimit c c'
  | insertDataOnSpecificPosition (c : Column α) (indexBlock indexInBlock : ℕ) (columnData : α) (groupId : ℤ)
    (isNullValue : Bool) :
    ColumnStep rowsLimit c
      (c.insertDataOnSpecificPosition rowsLimit indexBlock indexInBlock columnData groupId isNullValue).1
  | setIsNullable {c c' : Column α} (isNullable : Bool) (hok : c.setIsNullable isNullable = .ok c') :
    ColumnStep rowsLimit c c'
  | setIsUnique (c : Column α) (isUnique : Bool) (toString : α → String) :
    ColumnStep rowsLimit c (c.setIsUnique isUnique toString).1

/-- no table is called like the temporary table of another one -/
def NoClash (d : Database T) : Prop :=
  ∀ e ∈ d.tables, ∀ e' ∈ d.tables, e'.1 ≠ "temp_" ++ e.1

/-- a table put in the place of the one of its name -/
def Database.setTable (d : Database T) (name : String) (t : Table T) : Database T :=
  { d with tables := d.tables.map fun e => if e.1 = name then (name, t) else e }

/-- a column put in the place of the one of its name -/
def Table.setColumn (t : Table T) (name : String) (s : StoredColumn T) : Table T :=
  { t with columns := t.columns.map fun e => if e.1 = name then (name, s) else e }

/-- the databases of a process; `checked` asks of every statement that sets a block size that no table gets a larger one
than its database -/
inductive Reached (rowsLimit : Option ℕ) (checked : Prop) : Database T → Prop
  | createDatabase (blockSize : ℕ) : Reached rowsLimit checked ⟨blockSize, []⟩
  | createTable {d : Database T} (h : Reached rowsLimit checked d) (name : String) (blockSize : Option ℕ)
    (columns : List (NewColumn T)) (hname : lookup name d.tables = none)
    (hsize : checked → ∀ n ∈ blockSize, n ≤ d.blockSize) :
    Reached rowsLimit checked { d with tables := d.tables ++
      [(name, columns.foldl Table.createColumn ⟨blockSize.getD d.blockSize, []⟩)] }
  | dropTable {d : Database T} (h : Reached rowsLimit checked d) (name : String) :
    Reached rowsLimit checked { d with tables := d.tables.filter fun e => e.1 ≠ name }
  | renameTable {d : Database T} (h : Reached rowsLimit checked d) {name : String} (newName : String) {t : Table T}
    (ht : lookup name d.tables = some t) (hname : lookup newName d.tables = none) :
    Reached rowsLimit checked { d with tables := (d.tables.filter fun e => e.1 ≠ name) ++ [(newName, t)] }
  | addColumn {d : Database T} (h : Reached rowsLimit checked d) {name : String} {t : Table T}
    (ht : lookup name d.tables = some t) (n : NewColumn T) :
    Reached rowsLimit checked (d.setTable name (t.createColumn n))
  | dropColumn {d : Database T} (h : Reached rowsLimit checked d) {name : String} {t : Table T}
    (ht : lookup name d.tables = some t) (columnName : String) :
    Reached rowsLimit checked (d.setTable name { t with columns := t.columns.filter fun e => e.1 ≠ columnName })
  | columnStep {d : Database T} (h : Reached rowsLimit checked d) {name : String} {t : Table T}
    (ht : lookup name d.tables = some t) {columnName : String} {s : StoredColumn T}
    (hs : lookup columnName t.columns = some s) {c : Column (Elem s.type)} (hstep : ColumnStep rowsLimit s.column c) :
    Reached rowsLimit checked (d.setTable name (t.setColumn columnName ⟨s.type, c⟩))
  | alterColumn {d : Database T} (h : Reached rowsLimit checked d) {name : String} {t : Table T}
    (ht : lookup name d.tables = some t) {columnName : String} {s : StoredColumn T}
    (hs : lookup columnName t.columns = some s) (n : NewColumn T)
    (conv : Option (Column.Conversion (Elem s.type) (Elem n.type))) :
    Reached rowsLimit checked (d.setTable name (t.setColumn columnName
      ⟨n.type, (s.column.copyDataToColumn conv (n.create t.blockSize).column).2.1⟩))
  | alterColumnFailed {d : Database T} (h : Reached rowsLimit checked d) {name : String} {t : Table T}
    (ht : lookup name d.tables = some t) {columnName : String} {s : StoredColumn T}
    (hs : lookup columnName t.columns = some s) (n : NewColumn T)
    (conv : Option (Column.Conversion (Elem s.type) (Elem n.type))) :
    Reached rowsLimit checked (d.setTable name (t.setColumn columnName
      ⟨s.type, (s.column.copyDataToColumn conv (n.create t.blockSize).column).1⟩))
  | alterTable {d d' : Database T} (h : Reached rowsLimit checked d) (tableName : String) (newBlockSize : ℕ)
    (hsize : checked → newBlockSize ≤ d.blockSize)
    (hchanged : changeTableBlockSize rowsLimit newBlockSize tableName d = .done d') : Reached rowsLimit checked d'
  | alterDatabase {d d' : Database T} (h : Reached rowsLimit checked d) (newBlockSize : ℕ) (tableNames : List String)
    (hnames : tableNames.Perm (d.tables.map Prod.fst))
    (hclash : checked → NoClash d ∨ ∀ e ∈ d.tables, e.2.blockSize ≤ newBlockSize)
    (hchanged : changeDatabaseBlockSize rowsLimit newBlockSize tableNames d = .done d' ∨
      changeDatabaseBlockSize rowsLimit newBlockSize tableNames d = .thrown d') : Reached rowsLimit checked d'

/-! ## Blocks stay within the block size of their column -/

section Columns

variable {α β : Type}

def FitsColumn (c : Column α) : Prop := ∀ b ∈ c.getBlocksList, Fits c.blockSize b

variable {c c' : Column α} [Element α]

theorem fits_kept : Kept fun n _ (b : Block α) => Fits n b where
  empty _ isNullable saveNecessary index := fits_empty isNullable saveNecessary index
  ofData hok := (fits_ofData hok).1
  setNullBits h hok := (fits_setNullBits h hok).1
  insertData h hok := (fits_insertData h hok).1
  insertDataInterval h hok := (fits_insertDataInterval h hok).1
  insertDataOnSpecificPosition h hok := (fits_insertDataOnSpecificPosition h hok).1
  blockSplit h hok := ⟨(fits_blockSplit h hok).1, (fits_blockSplit h hok).2.1⟩
  setIsNullable isNullable' h := by
    unfold Block.setIsNullable
    split_ifs
    · exact h
    · exact ⟨h.capacity, h.stored, h.room⟩
    · exact ⟨h.capacity, h.stored, h.room⟩
  setNullBitmask h hok := (fits_setNullBitmask h hok).1
  moveNullBitmask m h := (fits_moveNullBitmask h m).1

omit [Element α] in
theorem setIsUnique_blocks [DecidableEq α] (isUnique : Bool) (toString : α → String) :
    (c.setIsUnique isUnique toString).1.blocks = c.blocks ∧
      (c.setIsUnique isUnique toString).1.blockSize = c.blockSize := by
  unfold Column.setIsUnique
  split_ifs
  · exact ⟨rfl, rfl⟩
  · exact ⟨rfl, rfl⟩
  · simp only
    split <;> exact ⟨rfl, rfl⟩
  · exact ⟨rfl, rfl⟩

theorem fits_columnStep [DecidableEq α] {rowsLimit : Option ℕ} (h : FitsColumn c) (hstep : ColumnStep rowsLimit c c') :
    FitsColumn c' ∧ c'.blockSize = c.blockSize := by
  have hall : All (fun n _ (b : Block α) => Fits n b) c := h
  cases hstep with
  | addBlock groupId saveNecessary index => exact ⟨hall.append groupId _ (fits_empty _ _ _), rfl⟩
  | addBlockData data groupId count saveNecessary index =>
    unfold Column.addBlockData
    split
    · exact ⟨hall.setGroup groupId _ (hall.group groupId), rfl⟩
    · rename_i b hb
      exact ⟨hall.append groupId _ (fits_ofData hb).1, rfl⟩
  | insertData columnData groupId saveNecessary index hok =>
    exact ⟨all_insertBatch fits_kept hall hok, (insertBatch_shape hok).1⟩
  | insertDataMasked columnData nullMask groupId saveNecessary index hok =>
    unfold Column.insertDataMasked at hok
    split_ifs at hok
    exact ⟨all_insertBatch fits_kept hall hok, (insertBatch_shape hok).1⟩
  | insertDataOnSpecificPosition indexBlock indexInBlock columnData groupId isNullValue =>
    exact ⟨all_insertDataOnSpecificPosition fits_kept hall _ _ _ _ _ _,
      (insertDataOnSpecificPosition_shape c rowsLimit _ _ _ _ _).1⟩
  | setIsNullable isNullable hok => exact ⟨all_setIsNullable fits_kept hall hok, setIsNullable_blockSize hok⟩
  | setIsUnique isUnique toString =>
    obtain ⟨hblocks, hsize⟩ := setIsUnique_blocks (c := c) isUnique toString
    refine ⟨?_, hsize⟩
    intro b hb
    rw [Column.getBlocksList, hblocks] at hb
    rw [hsize]
    exact h b hb

theorem fits_resizeColumn (h : FitsColumn c) (rowsLimit : Option ℕ) (src : Column α) :
    FitsColumn (c.resizeColumn rowsLimit src).1 ∧ (c.resizeColumn rowsLimit src).1.blockSize = c.blockSize := by
  have hfilled := filled_resizeColumn fits_kept (regroups_any (-1)) h trivial rowsLimit src
  exact ⟨hfilled.all, hfilled.blockSize⟩

omit [Element α] in
/-- the column that ALTER COLUMN makes -/
theorem fits_copyTo [Element β] (conv : Option (Column.Conversion α β)) (src : Column α) (name : String) (blockSize : ℕ)
    (isNullable isUnique : Bool) :
    let dst : Column β := { Column.fresh name blockSize with isNullable := isNullable, isUnique := isUnique }
    FitsColumn (src.copyDataToColumn conv dst).2.1 ∧ (src.copyDataToColumn conv dst).2.1.blockSize = blockSize := by
  intro dst
  have hfilled := filled_copyTo fits_kept conv src (fun g _ => regroups_any g.1)
    (all_fresh (P := fun n _ (b : Block β) => Fits n b) name blockSize isNullable isUnique) trivial
  exact ⟨hfilled.all, hfilled.blockSize⟩

omit [Element α] in
theorem fits_copyFrom [Element β] (h : FitsColumn c) (conv : Option (Column.Conversion α β)) (dst : Column β) :
    FitsColumn (c.copyDataToColumn conv dst).1 ∧ (c.copyDataToColumn conv dst).1.blockSize = c.blockSize := by
  cases conv with
  | none => exact ⟨h, rfl⟩
  | some conv => exact ⟨fun b hb => h b ((copyGroups_source conv c.blocks dst).2 hb), rfl⟩

end Columns

/-! ## Tables -/

/-- the columns of a table have its block size, and their blocks stay within it -/
def Sized (t : Table T) : Prop := ∀ e ∈ t.columns, FitsColumn e.2.column ∧ e.2.column.blockSize = t.blockSize

omit [DecidableEq T] in
theorem sized_createColumn {t : Table T} (h : Sized t) (n : NewColumn T) :
    Sized (t.createColumn n) ∧ (t.createColumn n).blockSize = t.blockSize := by
  unfold Table.createColumn
  split_ifs
  · exact ⟨h, rfl⟩
  · refine ⟨?_, rfl⟩
    intro e he
    rcases List.mem_append.1 he with he | he
    · exact h e he
    · obtain rfl := List.mem_singleton.1 he
      refine ⟨?_, rfl⟩
      intro b hb
      exact absurd (show b ∈ [] from hb) List.not_mem_nil

omit [DecidableEq T] in
theorem sized_createColumns {γ : Type} (f : γ → NewColumn T) (l : List γ) {t : Table T} (h : Sized t) :
    Sized (l.foldl (fun t c => t.createColumn (f c)) t) ∧
      (l.foldl (fun t c => t.createColumn (f c)) t).blockSize = t.blockSize := by
  induction l generalizing t with
  | nil => exact ⟨h, rfl⟩
  | cons c l ih =>
    obtain ⟨hc, hsize⟩ := sized_createColumn h (f c)
    obtain ⟨hl, hsize'⟩ := ih hc
    exact ⟨hl, hsize'.trans hsize⟩

omit [DecidableEq T] in
theorem sized_setColumn {t : Table T} (h : Sized t) (name : String) {s : StoredColumn T}
    (hs : FitsColumn s.column ∧ s.column.blockSize = t.blockSize) : Sized (t.setColumn name s) := by
  intro e he
  obtain ⟨e₀, he₀, rfl⟩ := List.mem_map.1 he
  obtain heq | heq : (if e₀.1 = name then (name, s) else e₀) = (name, s) ∨
      (if e₀.1 = name then (name, s) else e₀) = e₀ := by
    split_ifs <;> simp
  · rw [heq]
    exact hs
  · rw [heq]
    exact h e₀ he₀

theorem fits_copyBlocksOfColumn {rowsLimit : Option ℕ} {src dst new : StoredColumn T} (h : FitsColumn dst.column)
    (hcopy : copyBlocksOfColumn rowsLimit src dst = some new) :
    FitsColumn new.column ∧ new.column.blockSize = dst.column.blockSize := by
  unfold copyBlocksOfColumn at hcopy
  split_ifs at hcopy with htype
  have hresize := fits_resizeColumn h rowsLimit (htype ▸ src.column)
  split at hcopy
  · rename_i column hcolumn
    obtain rfl := Option.some.inj hcopy
    rw [hcolumn] at hresize
    exact hresize
  · cases hcopy

theorem sized_copyColumns {rowsLimit : Option ℕ} {columns : List (String × StoredColumn T)} {t t' : Table T}
    (h : Sized t) (hcopy : copyColumns rowsLimit columns t = some t') : Sized t' ∧ t'.blockSize = t.blockSize := by
  induction columns generalizing t with
  | nil =>
    obtain rfl := Option.some.inj hcopy
    exact ⟨h, rfl⟩
  | cons c columns ih =>
    unfold copyColumns at hcopy
    split at hcopy
    · cases hcopy
    · rename_i dst hdst
      split at hcopy
      · cases hcopy
      · rename_i new hnew
        obtain ⟨hdstFits, hdstSize⟩ := h _ (mem_of_lookup hdst)
        obtain ⟨hfits, hsize⟩ := fits_copyBlocksOfColumn hdstFits hnew
        exact ih (t := t.setColumn c.1 new) (sized_setColumn h c.1 ⟨hfits, hsize.trans hdstSize⟩) hcopy

/-! ## Databases -/

/-- the tables of a database, by distinct names -/
structure SizedAll (d : Database T) : Prop where
  tables : ∀ e ∈ d.tables, Sized e.2
  names : (d.tables.map Prod.fst).Nodup

def tableNames (d : Database T) : List String := d.tables.map Prod.fst

omit [DecidableEq T] in
theorem SizedAll.eq_of_name {d : Database T} (h : SizedAll d) {e e' : String × Table T} (he : e ∈ d.tables)
    (he' : e' ∈ d.tables) (hname : e.1 = e'.1) : e = e' := List.inj_on_of_nodup_map h.names he he' hname

omit [DecidableEq T] [ColumnTypes T] in
theorem lookup_eq_none {β : Type} {key : String} {m : List (String × β)} (h : lookup key m = none) :
    key ∉ m.map Prod.fst := by
  intro hmem
  obtain ⟨e, he, rfl⟩ := List.mem_map.1 hmem
  unfold lookup at h
  split at h
  · rename_i hnone
    have := List.find?_eq_none.1 hnone e he
    simp at this
  · cases h

omit [DecidableEq T] in
theorem sizedAll_setTable {d : Database T} (h : SizedAll d) (name : String) {t : Table T} (ht : Sized t) :
    SizedAll (d.setTable name t) := by
  refine ⟨?_, ?_⟩
  · intro e he
    obtain ⟨e₀, he₀, rfl⟩ := List.mem_map.1 he
    split_ifs
    · exact ht
    · exact h.tables e₀ he₀
  · have hnames : (d.setTable name t).tables.map Prod.fst = d.tables.map Prod.fst := by
      simp only [Database.setTable, List.map_map]
      refine List.map_congr_left fun e _ => ?_
      simp only [Function.comp_apply]
      split_ifs with hname
      · exact hname.symm
      · rfl
    rw [hnames]
    exact h.names

omit [DecidableEq T] in
theorem sizedAll_filter {d : Database T} (h : SizedAll d) (p : String × Table T → Bool) :
    SizedAll { d with tables := d.tables.filter p } :=
  ⟨fun e he => h.tables e (List.mem_filter.1 he).1, h.names.sublist (List.filter_sublist.map Prod.fst)⟩

omit [DecidableEq T] in
theorem sizedAll_append {d : Database T} (h : SizedAll d) {name : String} {t : Table T} (ht : Sized t)
    (hname : name ∉ d.tables.map Prod.fst) : SizedAll { d with tables := d.tables ++ [(name, t)] } := by
  refine ⟨?_, ?_⟩
  · intro e he
    rcases List.mem_append.1 he with he | he
    · exact h.tables e he
    · obtain rfl := List.mem_singleton.1 he
      exact ht
  · rw [List.map_append, List.nodup_append]
    refine ⟨h.names, by simp, ?_⟩
    intro x hx y hy heq
    obtain rfl := List.mem_singleton.1 hy
    exact hname (heq ▸ hx)

/-- what ChangeTableBlockSize does: nothing if the size is the same, else one table takes the name -/
theorem changeTable_inv {rowsLimit : Option ℕ} {n : ℕ} {name : String} {d d' : Database T} (h : SizedAll d)
    (hdone : changeTableBlockSize rowsLimit n name d = .done d') :
    name ∈ tableNames d ∧ d'.blockSize = d.blockSize ∧
      ((d' = d ∧ ∀ e ∈ d.tables, e.1 = name → e.2.blockSize = n) ∨
        ∃ new : Table T, Sized new ∧
          (new.blockSize = n ∨ ∃ e ∈ d.tables, e.1 = "temp_" ++ name ∧ new.blockSize = e.2.blockSize) ∧
          d'.tables = (d.tables.filter fun e => e.1 ≠ name ∧ e.1 ≠ "temp_" ++ name) ++ [(name, new)]) := by
  unfold changeTableBlockSize at hdone
  split at hdone
  · cases hdone
  · rename_i old hold
    have hmem := mem_of_lookup hold
    refine ⟨List.mem_map.2 ⟨_, hmem, rfl⟩, ?_⟩
    split_ifs at hdone with hsame
    · obtain rfl := Changed.done.inj hdone
      refine ⟨rfl, Or.inl ⟨rfl, ?_⟩⟩
      intro e he hname
      rw [h.eq_of_name he hmem hname, hsame]
    · simp only at hdone
      split at hdone
      · cases hdone
      · rename_i new hnew
        obtain rfl := Changed.done.inj hdone
        refine ⟨rfl, Or.inr ⟨new, ?_⟩⟩
        have htemp : Sized ((lookup ("temp_" ++ name) d.tables).getD ⟨n, []⟩) ∧
            (((lookup ("temp_" ++ name) d.tables).getD ⟨n, []⟩).blockSize = n ∨ ∃ e ∈ d.tables,
              e.1 = "temp_" ++ name ∧
                ((lookup ("temp_" ++ name) d.tables).getD ⟨n, []⟩).blockSize = e.2.blockSize) := by
          cases htemp : lookup ("temp_" ++ name) d.tables with
          | none => exact ⟨fun e he => absurd he List.not_mem_nil, Or.inl rfl⟩
          | some t =>
            have hmem' := mem_of_lookup htemp
            exact ⟨h.tables _ hmem', Or.inr ⟨_, hmem', rfl, rfl⟩⟩
        obtain ⟨hcreated, hcreatedSize⟩ := sized_createColumns (fun c : String × StoredColumn T => c.2.again c.1)
          old.columns htemp.1
        obtain ⟨hsized, hsize⟩ := sized_copyColumns hcreated hnew
        refine ⟨hsized, ?_, rfl⟩
        rw [hsize, hcreatedSize]
        exact htemp.2

theorem sizedAll_changeTable {rowsLimit : Option ℕ} {n : ℕ} {name : String} {d d' : Database T} (h : SizedAll d)
    (hdone : changeTableBlockSize rowsLimit n name d = .done d') : SizedAll d' := by
  obtain ⟨-, -, ⟨rfl, -⟩ | ⟨new, hnew, -, htables⟩⟩ := changeTable_inv h hdone
  · exact h
  · have hfree : name ∉ (d.tables.filter fun e => decide (e.1 ≠ name ∧ e.1 ≠ "temp_" ++ name)).map Prod.fst := by simp
    have hother := sizedAll_append (sizedAll_filter h fun e => decide (e.1 ≠ name ∧ e.1 ≠ "temp_" ++ name)) hnew hfree
    exact ⟨htables ▸ hother.tables, htables ▸ hother.names⟩

theorem changeTable_thrown {rowsLimit : Option ℕ} {n : ℕ} {name : String} {d d' : Database T}
    (hthrown : changeTableBlockSize rowsLimit n name d = .thrown d') : d' = d ∧ name ∉ tableNames d := by
  unfold changeTableBlockSize at hthrown
  split at hthrown
  · rename_i hnone
    exact ⟨(Changed.thrown.inj hthrown).symm, lookup_eq_none hnone⟩
  · split_ifs at hthrown
    simp only at hthrown
    split at hthrown <;> cases hthrown

/-! ### Block sizes under a bound -/

section Bounds

variable {rowsLimit : Option ℕ} {n m : ℕ} {d d' : Database T}

/-- no table has blocks of more than m rows -/
def Within (m : ℕ) (d : Database T) : Prop := ∀ e ∈ d.tables, e.2.blockSize ≤ m

omit [DecidableEq T] in
theorem within_setTable {name : String} {t : Table T} (h : Within m d) (ht : t.blockSize ≤ m) :
    Within m (d.setTable name t) := by
  intro e he
  obtain ⟨e₀, he₀, rfl⟩ := List.mem_map.1 he
  split_ifs
  · exact ht
  · exact h e₀ he₀

theorem within_changeTable {name : String} (h : SizedAll d) (hwithin : Within m d) (hle : n ≤ m)
    (hdone : changeTableBlockSize rowsLimit n name d = .done d') : Within m d' := by
  obtain ⟨-, -, ⟨rfl, -⟩ | ⟨new, -, hnew, htables⟩⟩ := changeTable_inv h hdone
  · exact hwithin
  · intro e he
    rw [htables] at he
    rcases List.mem_append.1 he with he | he
    · exact hwithin e (List.mem_filter.1 he).1
    · obtain rfl := List.mem_singleton.1 he
      rcases hnew with hnew | ⟨e₀, he₀, -, hnew⟩
      · exact hnew.trans_le hle
      · exact hnew.trans_le (hwithin e₀ he₀)

/-- the tables of a loop that may be left by an exception -/
theorem changeTables_within {names : List String} (h : SizedAll d) (hwithin : Within m d) (hle : n ≤ m)
    (hchanged : changeTables rowsLimit n names d = .done d' ∨ changeTables rowsLimit n names d = .thrown d') :
    SizedAll d' ∧ d'.blockSize = d.blockSize ∧ Within m d' := by
  induction names generalizing d with
  | nil =>
    rcases hchanged with hchanged | hchanged
    · obtain rfl := Changed.done.inj hchanged
      exact ⟨h, rfl, hwithin⟩
    · cases hchanged
  | cons name names ih =>
    unfold changeTables at hchanged
    split at hchanged
    · rename_i d₁ hdone
      obtain ⟨h₁, hsize, hwithin'⟩ := ih (sizedAll_changeTable h hdone) (within_changeTable h hwithin hle hdone) hchanged
      exact ⟨h₁, hsize.trans (changeTable_inv h hdone).2.1, hwithin'⟩
    · rcases hchanged with hchanged | hchanged
      · rename_i hne
        exact absurd hchanged (hne d')
      · obtain ⟨rfl, -⟩ := changeTable_thrown hchanged
        exact ⟨h, rfl, hwithin⟩

omit [DecidableEq T] in
theorem noClash_of_names (h : NoClash d) (hnames : ∀ x ∈ tableNames d', x ∈ tableNames d) : NoClash d' := by
  intro e he e' he'
  obtain ⟨e₀, he₀, hname⟩ := List.mem_map.1 (hnames e.1 (List.mem_map_of_mem he))
  obtain ⟨e₀', he₀', hname'⟩ := List.mem_map.1 (hnames e'.1 (List.mem_map_of_mem he'))
  rw [← hname, ← hname']
  exact h e₀ he₀ e₀' he₀'

/-- without a clash of names the tables keep their names and the one that is changed gets the new block size -/
theorem changeTable_noClash {name : String} (h : SizedAll d) (hclash : NoClash d)
    (hdone : changeTableBlockSize rowsLimit n name d = .done d') :
    (∀ x, x ∈ tableNames d' ↔ x ∈ tableNames d) ∧
      ∀ e ∈ d'.tables, e.2.blockSize = n ∨ (e ∈ d.tables ∧ e.1 ≠ name) := by
  obtain ⟨hname, -, ⟨rfl, hsame⟩ | ⟨new, -, hnew, htables⟩⟩ := changeTable_inv h hdone
  · refine ⟨fun x => Iff.rfl, ?_⟩
    intro e he
    by_cases he' : e.1 = name
    · exact Or.inl (hsame e he he')
    · exact Or.inr ⟨he, he'⟩
  · obtain ⟨e₀, he₀, hname₀⟩ := List.mem_map.1 hname
    have hfree : ∀ e ∈ d.tables, e.1 ≠ "temp_" ++ name := by
      intro e he
      rw [← hname₀]
      exact hclash e₀ he₀ e he
    refine ⟨?_, ?_⟩
    · intro x
      simp only [tableNames, htables, List.map_append, List.mem_append, List.mem_map, List.mem_filter, List.map_cons,
        List.map_nil, List.mem_singleton, decide_eq_true_eq]
      constructor
      · rintro (⟨e, ⟨he, -⟩, rfl⟩ | rfl)
        · exact ⟨e, he, rfl⟩
        · exact ⟨e₀, he₀, hname₀⟩
      · rintro ⟨e, he, rfl⟩
        by_cases he' : e.1 = name
        · exact Or.inr he'
        · exact Or.inl ⟨e, ⟨he, he', hfree e he⟩, rfl⟩
    · intro e he
      rw [htables] at he
      rcases List.mem_append.1 he with he | he
      · obtain ⟨hmem, hne⟩ := List.mem_filter.1 he
        exact Or.inr ⟨hmem, (of_decide_eq_true hne).1⟩
      · obtain rfl := List.mem_singleton.1 he
        rcases hnew with hnew | ⟨e₁, he₁, htemp, -⟩
        · exact Or.inl hnew
        · exact absurd htemp (hfree e₁ he₁)

/-- without a clash of names the loop reaches every table -/
theorem changeTables_noClash {names : List String} (h : SizedAll d) (hclash : NoClash d)
    (hnames : ∀ x ∈ names, x ∈ tableNames d) (hrest : ∀ e ∈ d.tables, e.1 ∈ names ∨ e.2.blockSize ≤ n)
    (hchanged : changeTables rowsLimit n names d = .done d' ∨ changeTables rowsLimit n names d = .thrown d') :
    SizedAll d' ∧ d'.blockSize = d.blockSize ∧ Within n d' := by
  induction names generalizing d with
  | nil =>
    rcases hchanged with hchanged | hchanged
    · obtain rfl := Changed.done.inj hchanged
      exact ⟨h, rfl, fun e he => (hrest e he).resolve_left List.not_mem_nil⟩
    · cases hchanged
  | cons name names ih =>
    unfold changeTables at hchanged
    split at hchanged
    · rename_i d₁ hdone
      obtain ⟨hsame, hsizes⟩ := changeTable_noClash h hclash hdone
      have hchain := ih (sizedAll_changeTable h hdone) (noClash_of_names hclash fun x hx => (hsame x).1 hx)
        (fun x hx => (hsame x).2 (hnames x (List.mem_cons_of_mem name hx))) ?_ hchanged
      · exact ⟨hchain.1, hchain.2.1.trans (changeTable_inv h hdone).2.1, hchain.2.2⟩
      · intro e he
        rcases hsizes e he with hsize | ⟨hmem, hne⟩
        · exact Or.inr hsize.le
        · rcases hrest e hmem with hin | hle
          · exact Or.inl ((List.mem_cons.1 hin).resolve_left hne)
          · exact Or.inr hle
    · rcases hchanged with hchanged | hchanged
      · rename_i hne
        exact absurd hchanged (hne d')
      · obtain ⟨-, hmissing⟩ := changeTable_thrown hchanged
        exact absurd (hnames name List.mem_cons_self) hmissing

end Bounds

/-! ### Runs -/

section Runs

variable {rowsLimit : Option ℕ} {checked : Prop} {d : Database T}

theorem sized_reached (h : Reached rowsLimit checked d) : SizedAll d := by
  induction h with
  | createDatabase blockSize => exact ⟨fun e he => absurd he List.not_mem_nil, List.nodup_nil⟩
  | @createTable d _ name blockSize columns hname _ ih =>
    have hempty : Sized (⟨blockSize.getD d.blockSize, []⟩ : Table T) := fun e he => absurd he List.not_mem_nil
    exact sizedAll_append ih (sized_createColumns id columns hempty).1 (lookup_eq_none hname)
  | dropTable _ name ih => exact sizedAll_filter ih _
  | @renameTable d _ name newName t ht hname ih =>
    refine sizedAll_append (sizedAll_filter ih _) (ih.tables _ (mem_of_lookup ht)) ?_
    intro hmem
    obtain ⟨e, he, heq⟩ := List.mem_map.1 hmem
    exact lookup_eq_none hname (List.mem_map.2 ⟨e, (List.mem_filter.1 he).1, heq⟩)
  | addColumn _ ht n ih => exact sizedAll_setTable ih _ (sized_createColumn (ih.tables _ (mem_of_lookup ht)) n).1
  | dropColumn _ ht columnName ih =>
    refine sizedAll_setTable ih _ fun e he => ?_
    exact ih.tables _ (mem_of_lookup ht) e (List.mem_filter.1 he).1
  | columnStep _ ht hs hstep ih =>
    have ht' := ih.tables _ (mem_of_lookup ht)
    obtain ⟨hfits, hsize⟩ := ht' _ (mem_of_lookup hs)
    obtain ⟨hfits', hsize'⟩ := fits_columnStep hfits hstep
    exact sizedAll_setTable ih _ (sized_setColumn ht' _ ⟨hfits', hsize'.trans hsize⟩)
  | alterColumn _ ht hs n conv ih =>
    have ht' := ih.tables _ (mem_of_lookup ht)
    exact sizedAll_setTable ih _ (sized_setColumn ht' _ (fits_copyTo conv _ n.name _ n.isNullable n.isUnique))
  | alterColumnFailed _ ht hs n conv ih =>
    have ht' := ih.tables _ (mem_of_lookup ht)
    obtain ⟨hfits, hsize⟩ := ht' _ (mem_of_lookup hs)
    obtain ⟨hfits', hsize'⟩ := fits_copyFrom hfits conv (n.create _).column
    exact sizedAll_setTable ih _ (sized_setColumn ht' _ ⟨hfits', hsize'.trans hsize⟩)
  | alterTable _ tableName newBlockSize _ hchanged ih => exact sizedAll_changeTable ih hchanged
  | @alterDatabase d d' _ newBlockSize names _ _ hchanged ih =>
    have hsame : SizedAll { d with blockSize := newBlockSize } := ⟨ih.tables, ih.names⟩
    unfold changeDatabaseBlockSize at hchanged
    split_ifs at hchanged
    · rcases hchanged with hchanged | hchanged
      · obtain rfl := Changed.done.inj hchanged
        exact ih
      · cases hchanged
    · -- any bound on the block sizes serves
      obtain ⟨m, hm, hle⟩ : ∃ m, Within m { d with blockSize := newBlockSize } ∧ newBlockSize ≤ m := by
        refine ⟨newBlockSize + (d.tables.map fun e => e.2.blockSize).sum, ?_, Nat.le_add_right _ _⟩
        intro e he
        have hmem : e.2.blockSize ∈ d.tables.map fun e => e.2.blockSize :=
          List.mem_map_of_mem (f := fun e : String × Table T => e.2.blockSize) he
        have := List.single_le_sum (fun _ _ => Nat.zero_le _) _ hmem
        omega
      exact (changeTables_within hsame hm hle hchanged).1

/-- no table has a larger block size than its database -/
theorem bounded_reached (h : Reached rowsLimit True d) : Within d.blockSize d := by
  induction h with
  | createDatabase blockSize => exact fun e he => absurd he List.not_mem_nil
  | @createTable d _ name blockSize columns hname hsize ih =>
    have hempty : Sized (⟨blockSize.getD d.blockSize, []⟩ : Table T) := fun e he => absurd he List.not_mem_nil
    intro e he
    rcases List.mem_append.1 he with he | he
    · exact ih e he
    · obtain rfl := List.mem_singleton.1 he
      refine ((sized_createColumns id columns hempty).2).trans_le ?_
      cases blockSize with
      | none => exact le_rfl
      | some n => exact hsize trivial n rfl
  | dropTable _ name ih => exact fun e he => ih e (List.mem_filter.1 he).1
  | renameTable _ newName ht hname ih =>
    intro e he
    rcases List.mem_append.1 he with he | he
    · exact ih e (List.mem_filter.1 he).1
    · obtain rfl := List.mem_singleton.1 he
      have hle := ih _ (mem_of_lookup ht)
      exact hle
  | addColumn h' ht n ih =>
    refine within_setTable ih ?_
    exact (sized_createColumn ((sized_reached h').tables _ (mem_of_lookup ht)) n).2.trans_le (ih _ (mem_of_lookup ht))
  | dropColumn _ ht columnName ih => exact within_setTable ih (ih _ (mem_of_lookup ht))
  | columnStep _ ht hs hstep ih => exact within_setTable ih (ih _ (mem_of_lookup ht))
  | alterColumn _ ht hs n conv ih => exact within_setTable ih (ih _ (mem_of_lookup ht))
  | alterColumnFailed _ ht hs n conv ih => exact within_setTable ih (ih _ (mem_of_lookup ht))
  | alterTable h' tableName newBlockSize hsize hchanged ih =>
    rw [(changeTable_inv (sized_reached h') hchanged).2.1]
    exact within_changeTable (sized_reached h') ih (hsize trivial) hchanged
  | @alterDatabase d d' h' newBlockSize names hnames hclash hchanged ih =>
    have hsized : SizedAll { d with blockSize := newBlockSize } := ⟨(sized_reached h').tables, (sized_reached h').names⟩
    unfold changeDatabaseBlockSize at hchanged
    split_ifs at hchanged
    · rcases hchanged with hchanged | hchanged
      · obtain rfl := Changed.done.inj hchanged
        exact ih
      · cases hchanged
    · rcases hclash trivial with hclash | hclash
      · obtain ⟨-, hsize, hwithin⟩ := changeTables_noClash hsized hclash (fun x hx => (hnames.mem_iff).1 hx)
          (fun e he => Or.inl ((hnames.mem_iff).2 (List.mem_map_of_mem he))) hchanged
        rw [hsize]
        exact hwithin
      · obtain ⟨-, hsize, hwithin⟩ := changeTables_within hsized hclash le_rfl hchanged
        rw [hsize]
        exact hwithin

end Runs

/-! ## Queries -/

/-- one copy into a buffer, in elements -/
structure Write where
  allocated : ℕ
  written : ℕ
deriving DecidableEq, Repr

/-- rows that a filter keeps; without a filter all of them -/
def kept (filter : Option (List Bool)) (elementCount : ℕ) : ℕ :=
  match filter with
  | none => elementCount
  | some filter => (filter.take elementCount).count true

/-- how results are returned: block by block, from the columns that ORDER BY merged, or the groups of GROUP BY -/
inductive Mode where
  | plain
  | orderBy
  | groupBy (groups : ℕ)

/-- RetCol of one register, with the block size of the database -/
def retCol (blockSize : ℕ) (kind : Kind) (hasMask : Bool) (mode : Mode) (filter : Option (List Bool))
    (elementCount : ℕ) : List Write :=
  match mode with
  -- the merged columns are moved, not copied
  | .orderBy => []
  | .groupBy groups =>
    if kind = .point ∨ kind = .polygon then []
    else ⟨groups, groups⟩ :: if hasMask then [⟨getNullBitMaskSize groups, getNullBitMaskSize groups⟩] else []
  | .plain =>
    let outSize := kept filter elementCount
    ⟨if kind = .point ∨ kind = .polygon then blockSize else elementCount, outSize⟩ ::
      if hasMask then [⟨getNullBitMaskSize blockSize, getNullBitMaskSize outSize⟩] else []

/-- the block that a row offset falls into: one less than the blocks that the loop subtracts -/
def seekBlock : List ℕ → ℤ → ℤ
  | [], _ => -1
  | size :: sizes, remaining => if 0 ≤ remaining then seekBlock sizes (remaining - size) + 1 else -1

/-- loadOffset_ and loadSize_ of GetLoadSize; `whole` is set by WHERE, GROUP BY, ORDER BY, aggregations and joins -/
def getLoadSize (whole : Bool) (sizes : List ℕ) (offset limit : ℕ) (blockIndex : ℕ) : ℤ × ℤ :=
  let current : ℤ := sizes.getD blockIndex 0
  if whole then (0, current)
  else
    let offsetLimit : ℤ := (IntN.wrap 64 (offset + limit)).val
    let offsetBlockIdx := seekBlock sizes offset
    let offsetLimitBlockIdx := seekBlock sizes offsetLimit
    let first : ℤ × ℤ :=
      if blockIndex = offsetBlockIdx then
        let dataSize : ℤ := (sizes.take (blockIndex + 1)).sum
        let loadSize := min (dataSize - offset) current
        (min (dataSize - loadSize) current, loadSize)
      else (0, 0)
    let last : ℤ × ℤ :=
      if blockIndex = offsetLimitBlockIdx then
        (first.1, min (offsetLimit - (sizes.take blockIndex).sum) current - first.1)
      else first
    if offsetBlockIdx < blockIndex ∧ blockIndex < offsetLimitBlockIdx then (last.1, current) else last

/-- the copies of a block to the device in JoinTableRonS -/
def copyToDevice {α : Type} (blockSize : ℕ) (b : Block α) : List Write :=
  ⟨blockSize, b.size⟩ ::
    if b.isNullable then [⟨getNullBitMaskSize blockSize, getNullBitMaskSize b.size⟩] else []

/-- the copies of JoinTableRonS: every block of S again for each block of R -/
def joinTableRonSWrites {α : Type} (blockSize : ℕ) (R S : List (Block α)) : List Write :=
  R.flatMap fun r => copyToDevice blockSize r ++ S.flatMap (copyToDevice blockSize)

/-- a row number at the end of the result lists; a list of blockSize numbers is not continued -/
def pushIndex (blockSize : ℕ) (lists : List (List ℕ)) (index : ℕ) : List (List ℕ) :=
  let lists := if lists.isEmpty then [[]] else lists
  let lists := if (lists.getLast?.getD []).length = blockSize then lists ++ [[]] else lists
  lists.dropLast ++ [lists.getLast?.getD [] ++ [index]]

/-- the lists of row numbers of R that JoinTableRonS returns; `matched` are the pairs of rows that the kernels find in
two blocks, none without rows in S -/
def joinTableRonS {α : Type} (blockSize : ℕ) (matched : ℕ → ℕ → List (ℕ × ℕ)) (R S : List (Block α)) : List (List ℕ) :=
  let indices := R.zipIdx.flatMap fun r => S.zipIdx.flatMap fun s =>
    if s.1.size = 0 then [] else (matched r.2 s.2).map fun q => r.2 * blockSize + q.1
  indices.foldl (pushIndex blockSize) []

/-- what the kernels of JoinUnique compute for the blocks a of A and b of B: the sorted keys, and by diagonal the cell
of the merge path and the null flag read for it -/
structure MergePath (α : Type) where
  sortedA : ℕ → List α
  sortedB : ℕ → List α
  cell : ℕ → ℕ → ℕ → ℕ × ℕ
  nullFlag : ℕ → ℕ → ℕ → Bool

/-- the cells that JoinUnique returns for two blocks of nA and nB rows -/
def matchedCells {α : Type} [DecidableEq α] (p : MergePath α) (a b nA nB : ℕ) : List (ℕ × ℕ) :=
  ((List.range (nA + nB - 1)).filter fun d =>
    !p.nullFlag a b d && decide ((p.sortedA a)[(p.cell a b d).1]? = (p.sortedB b)[(p.cell a b d).2]?)).map (p.cell a b)

/-- every diagonal has its cell, and the unique column has no value twice in a block -/
structure OnPath {α : Type} (p : MergePath α) (a b : ℕ) (blockA blockB : Block α) : Prop where
  sortedA : (p.sortedA a).Perm blockA.rows
  sortedB : (p.sortedB b).Perm blockB.rows
  distinct : blockB.rows.Nodup
  diagonal : ∀ d < blockA.size + blockB.size - 1, (p.cell a b d).1 + (p.cell a b d).2 = d ∧
    (p.cell a b d).1 < blockA.size ∧ (p.cell a b d).2 < blockB.size

/-- lengths of the lists of row numbers that a JOIN clause leaves for its tables; `checked` asks of JoinUnique what it
takes for granted -/
inductive JoinBlock (checked : Prop) (d : Database T) : ℕ → Prop
  | ronS {tR tS : String × Table T} (htR : tR ∈ d.tables) (htS : tS ∈ d.tables) {type : T} {nR nS : String}
    {R S : Column (Elem type)} (hR : (nR, ⟨type, R⟩) ∈ tR.2.columns) (hS : (nS, ⟨type, S⟩) ∈ tS.2.columns)
    (matched : ℕ → ℕ → List (ℕ × ℕ)) {indices : List ℕ}
    (hindices : indices ∈ joinTableRonS d.blockSize matched R.getBlocksList S.getBlocksList) :
    JoinBlock checked d indices.length
  | unique {tA tB : String × Table T} (htA : tA ∈ d.tables) (htB : tB ∈ d.tables) {type : T} {nA nB : String}
    {A B : Column (Elem type)} (hA : (nA, ⟨type, A⟩) ∈ tA.2.columns) (hB : (nB, ⟨type, B⟩) ∈ tB.2.columns)
    (p : MergePath (Elem type)) {a b : ℕ} {blockA blockB : Block (Elem type)} (ha : A.getBlocksList[a]? = some blockA)
    (hb : B.getBlocksList[b]? = some blockB) (hpath : checked → OnPath p a b blockA blockB) :
    JoinBlock checked d (matchedCells p a b blockA.size blockB.size).length

/-- the copies that queries over a database make into buffers: of blocks of a table, of joined blocks, of the blocks of
a join, and of the join loader -/
inductive Copies (checked : Prop) (d : Database T) : Write → Prop
  | scan {t : String × Table T} (ht : t ∈ d.tables) {c : String × StoredColumn T} (hc : c ∈ t.2.columns) (whole : Bool)
    (offset limit blockIndex : ℕ) (kind : Kind) (hasMask : Bool) (mode : Mode) (filter : Option (List Bool)) {w : Write}
    (hw : w ∈ retCol d.blockSize kind hasMask mode filter
      (getLoadSize whole (c.2.column.getBlocksList.map Block.size) offset limit blockIndex).2.toNat) : Copies checked d w
  | joined {n : ℕ} (hn : JoinBlock checked d n) (kind : Kind) (hasMask : Bool) (mode : Mode)
    (filter : Option (List Bool)) {w : Write} (hw : w ∈ retCol d.blockSize kind hasMask mode filter n) :
    Copies checked d w
  | joinTableRonS {tR tS : String × Table T} (htR : tR ∈ d.tables) (htS : tS ∈ d.tables) {type : T} {nR nS : String}
    {R S : Column (Elem type)} (hR : (nR, ⟨type, R⟩) ∈ tR.2.columns) (hS : (nS, ⟨type, S⟩) ∈ tS.2.columns) {w : Write}
    (hw : w ∈ joinTableRonSWrites d.blockSize R.getBlocksList S.getBlocksList) : Copies checked d w
  | joinLoader {n : ℕ} (hn : JoinBlock checked d n) {w : Write}
    (hw : w ∈ [⟨n, n⟩, ⟨getNullBitMaskSize n, getNullBitMaskSize n⟩]) : Copies checked d w

/-! ### Lengths -/

theorem getNullBitMaskSize_mono {m n : ℕ} (h : m ≤ n) : getNullBitMaskSize m ≤ getNullBitMaskSize n := by
  unfold getNullBitMaskSize
  omega

theorem kept_le (filter : Option (List Bool)) (n : ℕ) : kept filter n ≤ n := by
  cases filter with
  | none => exact le_rfl
  | some filter => exact List.count_le_length.trans (List.length_take_le n filter)

theorem retCol_fits {blockSize elementCount : ℕ} (h : elementCount ≤ blockSize) (kind : Kind) (hasMask : Bool)
    (mode : Mode) (filter : Option (List Bool)) :
    ∀ w ∈ retCol blockSize kind hasMask mode filter elementCount, w.written ≤ w.allocated := by
  have hkept := kept_le filter elementCount
  intro w hw
  cases mode with
  | orderBy => exact absurd hw List.not_mem_nil
  | groupBy groups =>
    simp only [retCol] at hw
    split_ifs at hw
    · exact absurd hw List.not_mem_nil
    · rcases List.mem_cons.1 hw with rfl | hw
      · exact le_rfl
      · obtain rfl := List.mem_singleton.1 hw
        exact le_rfl
    · obtain rfl := List.mem_singleton.1 hw
      exact le_rfl
  | plain =>
    have hdata : kept filter elementCount ≤ if kind = .point ∨ kind = .polygon then blockSize else elementCount := by
      split_ifs
      · exact hkept.trans h
      · exact hkept
    rcases List.mem_cons.1 hw with rfl | hw
    · exact hdata
    · cases hasMask with
      | false => exact absurd hw List.not_mem_nil
      | true =>
        obtain rfl := List.mem_singleton.1 hw
        exact getNullBitMaskSize_mono (hkept.trans h)

/-- GetLoadSize never asks for more than the block has -/
theorem loadSize_le (whole : Bool) (sizes : List ℕ) (offset limit blockIndex : ℕ) :
    (getLoadSize whole sizes offset limit blockIndex).2 ≤ sizes.getD blockIndex 0 := by
  simp only [getLoadSize]
  split_ifs <;> omega

theorem pushIndex_length {blockSize : ℕ} (hpos : 0 < blockSize) {lists : List (List ℕ)}
    (h : ∀ l ∈ lists, l.length ≤ blockSize) (index : ℕ) : ∀ l ∈ pushIndex blockSize lists index, l.length ≤ blockSize := by
  set opened := if lists.isEmpty then [[]] else lists with hopened
  have hopen : ∀ l ∈ opened, l.length ≤ blockSize := by
    rw [hopened]
    split_ifs
    · intro l hl
      obtain rfl := List.mem_singleton.1 hl
      exact Nat.zero_le _
    · exact h
  intro l hl
  simp only [pushIndex, ← hopened] at hl
  split_ifs at hl with hfull
  · rw [List.dropLast_concat, List.getLast?_concat] at hl
    rcases List.mem_append.1 hl with hl | hl
    · exact hopen l hl
    · obtain rfl := List.mem_singleton.1 hl
      simpa using Nat.succ_le_of_lt hpos
  · rcases List.mem_append.1 hl with hl | hl
    · exact hopen l (List.dropLast_subset _ hl)
    · obtain rfl := List.mem_singleton.1 hl
      have hlast : (opened.getLast?.getD []).length ≤ blockSize := by
        cases hlast : opened.getLast? with
        | none => exact Nat.zero_le _
        | some last => exact hopen last (List.mem_of_getLast? hlast)
      rw [List.length_append, List.length_singleton]
      omega

theorem joinTableRonS_length {α : Type} {blockSize : ℕ} (matched : ℕ → ℕ → List (ℕ × ℕ)) (R : List (Block α))
    {S : List (Block α)} (hS : ∀ b ∈ S, b.size ≤ blockSize) :
    ∀ l ∈ joinTableRonS blockSize matched R S, l.length ≤ blockSize := by
  rcases Nat.eq_zero_or_pos blockSize with rfl | hpos
  · -- blocks without rows find no row
    have hnone : ∀ r : Block α × ℕ, (S.zipIdx.flatMap fun s =>
        if s.1.size = 0 then [] else (matched r.2 s.2).map fun q => r.2 * 0 + q.1) = [] := by
      intro r
      rw [List.flatMap_eq_nil_iff]
      intro s hs
      have := hS s.1 (List.fst_mem_of_mem_zipIdx hs)
      rw [if_pos (by omega)]
    simp only [joinTableRonS]
    rw [List.flatMap_eq_nil_iff.2 fun r _ => hnone r]
    exact fun l hl => absurd hl List.not_mem_nil
  · simp only [joinTableRonS]
    generalize (R.zipIdx.flatMap fun r => S.zipIdx.flatMap fun s =>
      if s.1.size = 0 then [] else (matched r.2 s.2).map fun q => r.2 * blockSize + q.1) = indices
    have hfold : ∀ (indices : List ℕ) (lists : List (List ℕ)), (∀ l ∈ lists, l.length ≤ blockSize) →
        ∀ l ∈ indices.foldl (pushIndex blockSize) lists, l.length ≤ blockSize := by
      intro indices
      induction indices with
      | nil => exact fun lists h => h
      | cons index indices ih => exact fun lists h => ih _ (pushIndex_length hpos h index)
    exact hfold indices [] fun l hl => absurd hl List.not_mem_nil

/-- a row of A matches at most one row of the unique column -/
theorem matchedCells_length {α : Type} [DecidableEq α] {p : MergePath α} {a b : ℕ} {blockA blockB : Block α}
    (h : OnPath p a b blockA blockB) (hrows : blockB.rows.length = blockB.size) :
    (matchedCells p a b blockA.size blockB.size).length ≤ blockA.size := by
  set matches' := (List.range (blockA.size + blockB.size - 1)).filter fun d =>
    !p.nullFlag a b d && decide ((p.sortedA a)[(p.cell a b d).1]? = (p.sortedB b)[(p.cell a b d).2]?) with hmatches
  have hcell : ∀ d ∈ matches', (p.cell a b d).1 + (p.cell a b d).2 = d ∧ (p.cell a b d).1 < blockA.size ∧
      (p.cell a b d).2 < blockB.size ∧ (p.sortedA a)[(p.cell a b d).1]? = (p.sortedB b)[(p.cell a b d).2]? := by
    intro d hd
    obtain ⟨hrange, hpred⟩ := List.mem_filter.1 hd
    obtain ⟨hsum, hA, hB⟩ := h.diagonal d (List.mem_range.1 hrange)
    simp only [Bool.and_eq_true, decide_eq_true_eq] at hpred
    exact ⟨hsum, hA, hB, hpred.2⟩
  -- the row of A tells the diagonal
  have hinj : ∀ d ∈ matches', ∀ d' ∈ matches', (p.cell a b d).1 = (p.cell a b d').1 → d = d' := by
    intro d hd d' hd' heq
    obtain ⟨hsum, -, hB, hkey⟩ := hcell d hd
    obtain ⟨hsum', -, -, hkey'⟩ := hcell d' hd'
    have hlength : (p.cell a b d).2 < (p.sortedB b).length := by rw [h.sortedB.length_eq, hrows]; exact hB
    have hsame : (p.sortedB b)[(p.cell a b d).2]? = (p.sortedB b)[(p.cell a b d').2]? := by
      rw [← hkey, ← hkey', heq]
    have hrow := (List.getElem?_inj hlength (h.sortedB.nodup_iff.2 h.distinct)).1 hsame
    omega
  have hnodup : (matches'.map fun d => (p.cell a b d).1).Nodup :=
    List.Nodup.map_on hinj (List.nodup_range.filter _)
  have hsub : (matches'.map fun d => (p.cell a b d).1) ⊆ List.range blockA.size := by
    intro x hx
    obtain ⟨d, hd, rfl⟩ := List.mem_map.1 hx
    exact List.mem_range.2 (hcell d hd).2.1
  have hle := (List.subperm_of_subset hnodup hsub).length_le
  rw [List.length_map, List.length_range] at hle
  rw [matchedCells, List.length_map]
  exact hle

/-! ### Buffers -/

section Buffers

variable {rowsLimit : Option ℕ} {d : Database T}

omit [DecidableEq T] in
/-- a block of a database whose tables stay under its block size -/
theorem block_size_le (h : SizedAll d) (hwithin : Within d.blockSize d) {t : String × Table T} (ht : t ∈ d.tables)
    {c : String × StoredColumn T} (hc : c ∈ t.2.columns) {b : Block (Elem c.2.type)}
    (hb : b ∈ c.2.column.getBlocksList) : b.size ≤ d.blockSize ∧ b.rows.length = b.size := by
  obtain ⟨hfits, hsize⟩ := h.tables t ht c hc
  have hblock := hfits b hb
  have hstored := hblock.stored
  have hroom := hblock.room
  have hle := hwithin t ht
  refine ⟨by omega, ?_⟩
  rw [Block.rows, List.length_take]
  omega

omit [DecidableEq T] in
theorem joinBlock_le (h : SizedAll d) (hwithin : Within d.blockSize d) {n : ℕ} (hn : JoinBlock True d n) :
    n ≤ d.blockSize := by
  cases hn with
  | ronS htR htS hR hS matched hindices =>
    exact joinTableRonS_length matched _ (fun b hb => (block_size_le h hwithin htS hS hb).1) _ hindices
  | unique htA htB hA hB p ha hb hpath =>
    have hrows := (block_size_le h hwithin htB hB (List.mem_of_getElem? hb)).2
    have hle := (block_size_le h hwithin htA hA (List.mem_of_getElem? ha)).1
    exact (matchedCells_length (hpath trivial) hrows).trans hle

theorem copyToDevice_fits {α : Type} {blockSize : ℕ} {b : Block α} (h : b.size ≤ blockSize) :
    ∀ w ∈ copyToDevice blockSize b, w.written ≤ w.allocated := by
  intro w hw
  rcases List.mem_cons.1 hw with rfl | hw
  · exact h
  · split_ifs at hw
    · obtain rfl := List.mem_singleton.1 hw
      exact getNullBitMaskSize_mono h
    · exact absurd hw List.not_mem_nil

/-- In every database reached by statements that give no table a larger block size than the database has, every copy
that a query makes fits into its buffer. -/
theorem buffers_hold_blocks (h : Reached rowsLimit True d) {w : Write} (hw : Copies True d w) :
    w.written ≤ w.allocated := by
  have hsized := sized_reached h
  have hwithin := bounded_reached h
  cases hw with
  | @scan t ht c hc whole offset limit blockIndex kind hasMask mode filter _ hw =>
    refine retCol_fits ?_ kind hasMask mode filter w hw
    have hload := loadSize_le whole (c.2.column.getBlocksList.map Block.size) offset limit blockIndex
    have hcurrent : (c.2.column.getBlocksList.map Block.size).getD blockIndex 0 ≤ d.blockSize := by
      rw [List.getD_eq_getElem?_getD, List.getElem?_map]
      cases hb : c.2.column.getBlocksList[blockIndex]? with
      | none => exact Nat.zero_le _
      | some b => exact (block_size_le hsized hwithin ht hc (List.mem_of_getElem? hb)).1
    omega
  | joined hn kind hasMask mode filter hw =>
    exact retCol_fits (joinBlock_le hsized hwithin hn) kind hasMask mode filter w hw
  | joinTableRonS htR htS hR hS hw =>
    obtain ⟨r, hr, hw⟩ := List.mem_flatMap.1 hw
    rcases List.mem_append.1 hw with hw | hw
    · exact copyToDevice_fits (block_size_le hsized hwithin htR hR hr).1 w hw
    · obtain ⟨s, hs, hw⟩ := List.mem_flatMap.1 hw
      exact copyToDevice_fits (block_size_le hsized hwithin htS hS hs).1 w hw
  | joinLoader hn hw =>
    rcases List.mem_cons.1 hw with rfl | hw
    · exact le_rfl
    · obtain rfl := List.mem_singleton.1 hw
      exact le_rfl

end Buffers

/-! ## Examples of databases -/

/-- COLUMN_INT and COLUMN_STRING -/
inductive DataType where
  | int
  | string
deriving DecidableEq, Repr

instance : ColumnTypes DataType where
  Elem
    | .int => Int32T
    | .string => Str
  element
    | .int => inferInstanceAs (Element Int32T)
    | .string => inferInstanceAs (Element Str)
  decEq
    | .int => inferInstanceAs (DecidableEq Int32T)
    | .string => inferInstanceAs (DecidableEq Str)
  kind
    | .int => .number
    | .string => .text

/-- a nullable int column -/
def keyColumn : NewColumn DataType := ⟨"k", .int, true, false⟩

/-- the int column with n rows 7 in blocks of `blockSize` rows, as InsertData leaves it -/
def sevens (blockSize n : ℕ) : Except Fault (Column Int32T) :=
  ({ Column.fresh "k" blockSize with isNullable := true } : Column Int32T).insertData none (List.replicate n 7) (-1) true
    UINT32_MAX

/-- a database of one table with the column -/
def sevensDatabase (databaseBlockSize blockSize : ℕ) (c : Column Int32T) : Database DataType :=
  ⟨databaseBlockSize, [("t", ⟨blockSize, [("k", ⟨.int, c⟩)]⟩)]⟩

theorem reached_sevens {databaseBlockSize blockSize n : ℕ} {checked : Prop} {c : Column Int32T}
    (hsize : checked → blockSize ≤ databaseBlockSize) (hc : sevens blockSize n = .ok c) :
    Reached none checked (sevensDatabase databaseBlockSize blockSize c) := by
  have h₀ : Reached none checked (⟨databaseBlockSize, []⟩ : Database DataType) := .createDatabase databaseBlockSize
  have h₁ := Reached.createTable h₀ "t" (some blockSize) [keyColumn] rfl fun hchecked n hn =>
    Option.some.inj hn ▸ hsize hchecked
  have ht : lookup "t" [("t", [keyColumn].foldl Table.createColumn ⟨blockSize, []⟩)] =
    some (⟨blockSize, [("k", keyColumn.create blockSize)]⟩ : Table DataType) := rfl
  have hk : lookup "k" [("k", keyColumn.create blockSize)] = some (keyColumn.create blockSize) := rfl
  exact Reached.columnStep h₁ ht hk (.insertData _ _ _ _ hc)

/-- the table joined with itself -/
theorem copies_sevens {databaseBlockSize blockSize : ℕ} {checked : Prop} {c : Column Int32T} {w : Write}
    (hw : w ∈ joinTableRonSWrites databaseBlockSize c.getBlocksList c.getBlocksList) :
    Copies checked (sevensDatabase databaseBlockSize blockSize c) w := by
  have ht : ("t", (⟨blockSize, [("k", ⟨.int, c⟩)]⟩ : Table DataType)) ∈
    (sevensDatabase databaseBlockSize blockSize c).tables := List.mem_singleton_self _
  have hk : ("k", (⟨.int, c⟩ : StoredColumn DataType)) ∈ [("k", (⟨.int, c⟩ : StoredColumn DataType))] :=
    List.mem_singleton_self _
  exact .joinTableRonS ht ht hk hk hw

/-- Two rows in one block, in a database of the same block size. -/
theorem buffers_hold_two_rows :
    ∃ c, sevens 2 2 = .ok c ∧ Copies True (sevensDatabase 2 2 c) ⟨2, 2⟩ ∧ (⟨2, 2⟩ : Write).written ≤ 2 := by
  obtain ⟨c, hc, hw⟩ : ∃ c, sevens 2 2 = .ok c ∧
      (⟨2, 2⟩ : Write) ∈ joinTableRonSWrites 2 c.getBlocksList c.getBlocksList := ⟨_, rfl, by decide⟩
  have hcopies : Copies True (sevensDatabase 2 2 c) ⟨2, 2⟩ := copies_sevens hw
  exact ⟨c, hc, hcopies, buffers_hold_blocks (reached_sevens (fun _ => le_rfl) hc) hcopies⟩

/-- A table with BLOCK SIZE 2 in a database of block size 1, joined with itself; and one with BLOCK SIZE 65 in a database
of block size 64, whose 65 rows RetCol returns with a mask of two words. -/
theorem buffers_overrun :
    (∃ d : Database DataType, Reached none False d ∧ Copies False d ⟨1, 2⟩) ∧
      ∃ d : Database DataType, Reached none False d ∧ Copies False d ⟨getNullBitMaskSize 64, getNullBitMaskSize 65⟩ := by
  refine ⟨?_, ?_⟩
  · obtain ⟨c, hc, hw⟩ : ∃ c, sevens 2 2 = .ok c ∧
        (⟨1, 2⟩ : Write) ∈ joinTableRonSWrites 1 c.getBlocksList c.getBlocksList := ⟨_, rfl, by decide⟩
    exact ⟨sevensDatabase 1 2 c, reached_sevens False.elim hc, copies_sevens hw⟩
  · obtain ⟨c, hc, hsizes⟩ : ∃ c, sevens 65 65 = .ok c ∧ c.getBlocksList.map Block.size = [65] := ⟨_, rfl, by decide⟩
    refine ⟨sevensDatabase 64 65 c, reached_sevens False.elim hc, .scan (List.mem_singleton_self _)
      (List.mem_singleton_self _) true 0 0 0 .number true .plain none ?_⟩
    change _ ∈ retCol 64 .number true .plain none (getLoadSize true (c.getBlocksList.map Block.size) 0 0 0).2.toNat
    rw [hsizes]
    decide

end QikkDB.BlockBuffers

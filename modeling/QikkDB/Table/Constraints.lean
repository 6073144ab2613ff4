/-
Constraints under ALTER TABLE (GpuSqlParser/GpuSqlListener.cpp, `exitSqlCreateTable`, `exitSqlAlterTable`;
GpuSqlDispatcher.cpp, `CreateTable`, `AlterTable`; Table.cpp, `AddConstraint`, `DropConstraint`, `RenameColumn`,
`EraseColumn`, `CreateColumn`; ColumnBase.h, `SetIsNullable`, `SetIsUnique`, `CopyDataToColumn`; Database.cpp,
`ChangeTableBlockSize`).

A statement is a list of entries. The listener checks them against the table as it is before the statement; the
dispatcher then adds, drops, converts and renames columns, adds and drops constraints and changes the block size, and
stops where something throws. What the conversion of a value gives is a parameter.

Results:
- `constraints_name_columns`: in a run whose statements drop, rename and convert no column that a constraint needs, the
  names of constraints and sorting columns are columns, with the flags that the constraints ask for.
- `dropped_index_dangles`: DROP COLUMN leaves the name of the column in the sorting columns.
-/
import Mathlib.Tactic
import QikkDB.Lib.Run
import QikkDB.Lib.Chunks

set_option linter.unusedSectionVars false

namespace QikkDB.Constraints

/-! ## Model -/

/-- the types of columns -/
inductive DataType where
  | int
  | long
  | float
  | double
  | point
  | polygon
  | string
  | int8
deriving DecidableEq, Repr

inductive ConstraintType where
  | none
  | index
  | notNull
  | unique
deriving DecidableEq, Repr

/-- the number of the enumeration, by which constraints are sorted -/
def ConstraintType.number : ConstraintType → ℕ
  | .none => 0
  | .index => 1
  | .notNull => 2
  | .unique => 3

/-- a row of a column: the stored value and its null bit -/
structure Cell (V : Type) where
  value : V
  isNull : Bool
deriving DecidableEq, Repr

structure Column (V : Type) where
  type : DataType
  isNullable : Bool
  isUnique : Bool
  blocks : List (List (Cell V))
deriving DecidableEq, Repr

structure Table (V : Type) where
  columns : String → Option (Column V)
  sortingColumns : List String
  constraints : String → Option (ConstraintType × List String)
  blockSize : ℕ

/-- what is thrown -/
inductive Error where
  | outOfRange
  | constraintViolation
  | runtimeError
  | invalidValue
deriving DecidableEq, Repr

variable {V : Type} [DecidableEq V]

def Column.rows (c : Column V) : List (Cell V) := c.blocks.flatten

/-- `SetIsNullable` -/
def Column.setIsNullable (isNullable : Bool) (c : Column V) : Except Error (Column V) :=
  if c.isNullable = isNullable then .ok c
  else if isNullable then
    if c.isUnique then .error .constraintViolation else .ok { c with isNullable := true }
  else if c.rows.any fun r => r.isNull then .error .constraintViolation
  else .ok { c with isNullable := false }

/-- `SetIsUnique` -/
def Column.setIsUnique (isUnique : Bool) (c : Column V) : Except Error (Column V) :=
  if c.isUnique = isUnique then .ok c
  else if isUnique then
    if c.isNullable then .error .constraintViolation
    else if (c.rows.map Cell.value).Nodup then .ok { c with isUnique := true }
    else .error .constraintViolation
  else .ok { c with isUnique := false }

namespace Table

/-- a column through `GetColumns().at` -/
def atColumn (t : Table V) (name : String) (f : Column V → Except Error (Column V)) : Except Error (Table V) :=
  match t.columns name with
  | none => .error .outOfRange
  | some c => do
    let c ← f c
    .ok { t with columns := Function.update t.columns name (some c) }

/-- `CreateColumn` with the default flags; an existing column of the name stays -/
def createColumn (t : Table V) (name : String) (type : DataType) : Table V :=
  match t.columns name with
  | some _ => t
  | none => { t with columns := Function.update t.columns name (some ⟨type, true, false, []⟩) }

/-- `EraseColumn` -/
def eraseColumn (t : Table V) (name : String) : Table V :=
  { t with columns := Function.update t.columns name none }

/-- `RenameColumn`; when the new name is taken, the extracted column is not inserted -/
def renameColumn (t : Table V) (oldName newName : String) : Except Error (Table V) :=
  match t.columns oldName with
  | none => .error .outOfRange
  | some c =>
    let t := t.eraseColumn oldName
    match t.columns newName with
    | some _ => .ok t
    | none => .ok { t with columns := Function.update t.columns newName (some c) }

/-- `AddSortingColumn` -/
def addSortingColumn (t : Table V) (c : String) : Table V :=
  if c ∈ t.sortingColumns then t else { t with sortingColumns := t.sortingColumns ++ [c] }

/-- `RemoveSortingColumn` -/
def removeSortingColumn (t : Table V) (c : String) : Table V := { t with sortingColumns := t.sortingColumns.erase c }

/-- one column of a new constraint -/
def addConstraintColumn (type : ConstraintType) (t : Table V) (c : String) : Except Error (Table V) :=
  match type with
  | .index => .ok (t.addSortingColumn c)
  | .notNull => t.atColumn c (Column.setIsNullable false)
  | .unique => t.atColumn c (Column.setIsUnique true)
  | .none => .ok t

/-- one column of a dropped constraint -/
def dropConstraintColumn (type : ConstraintType) (t : Table V) (c : String) : Except Error (Table V) :=
  match type with
  | .index => .ok (t.removeSortingColumn c)
  | .notNull => t.atColumn c (Column.setIsNullable true)
  | .unique => t.atColumn c (Column.setIsUnique false)
  | .none => .ok t

/-- one column of a constraint that could not be dropped -/
def restoreConstraintColumn (type : ConstraintType) (t : Table V) (c : String) : Except Error (Table V) :=
  match type with
  | .index => .ok (t.removeSortingColumn c)
  | .notNull => t.atColumn c (Column.setIsNullable false)
  | .unique => t.atColumn c (Column.setIsUnique true)
  | .none => .ok t

/-- the loop over the columns of a constraint: the table, the processed columns and what was thrown -/
def process (f : Table V → String → Except Error (Table V)) :
    Table V → List String → Table V × List String × Option Error
  | t, [] => (t, [], none)
  | t, c :: cs =>
    match f t c with
    | .error e => (t, [], some e)
    | .ok t' =>
      let (t'', done, e) := process f t' cs
      (t'', c :: done, e)

/-- `AddConstraint`; a name that is taken is not inserted -/
def addConstraint (t : Table V) (name : String) (type : ConstraintType) (cols : List String) :
    Table V × Option Error :=
  match process (addConstraintColumn type) t cols with
  | (t', _, none) =>
    match t'.constraints name with
    | some _ => (t', none)
    | none => ({ t' with constraints := Function.update t'.constraints name (some (type, cols)) }, none)
  | (t', done, some e) =>
    match process (dropConstraintColumn type) t' done with
    | (t'', _, none) => (t'', some e)
    | (t'', _, some e') => (t'', some e')

/-- `DropConstraint` -/
def dropConstraint (t : Table V) (name : String) : Table V × Option Error :=
  match t.constraints name with
  | none => (t, some .outOfRange)
  | some (type, cols) =>
    match process (dropConstraintColumn type) t cols with
    | (t', _, none) => ({ t' with constraints := Function.update t'.constraints name none }, none)
    | (t', done, some e) =>
      match process (restoreConstraintColumn type) t' done with
      | (t'', _, none) => (t'', some e)
      | (t'', _, some e') => (t'', some e')

/-- `GetConstraintsForColumn`, for a column of the table -/
def getConstraintsForColumn (t : Table V) (name : String) (c : Column V) : List ConstraintType :=
  (if name ∈ t.sortingColumns then [.index] else []) ++ (if c.isNullable then [] else [.notNull]) ++
    (if c.isUnique then [.unique] else [])

end Table

/-- what is outside of this model: the conversion of values, the null value of a type, and the block sizes of the column
that the map of columns gives first -/
structure Environment (V : Type) where
  convert : DataType → DataType → Option (Cell V → Except Error (Cell V))
  nullValue : DataType → V
  blocksSizes : Table V → String → List ℕ

/-- `isValidCast` -/
def isValidCast (fromType toType : DataType) : Bool :=
  match toType with
  | .string => true
  | .point => fromType == .string || toType == .point
  | .polygon => fromType == .string || toType == .polygon
  | _ => fromType != .point && fromType != .polygon

/-- the loop of `CopyDataToColumn`: blocks that stay, blocks that were added to the destination, and what was thrown -/
def copyBlocks (f : Cell V → Except Error (Cell V)) :
    List (List (Cell V)) → List (List (Cell V)) × List (List (Cell V)) × Option Error
  | [] => ([], [], none)
  | b :: bs =>
    match b.mapM f with
    | .error e => (b :: bs, [], some e)
    | .ok b' =>
      let (old, new, e) := copyBlocks f bs
      (old, b' :: new, e)

namespace Table

variable (env : Environment V)

/-- ADD: `CreateColumn`, `InsertNullDataIntoNewColumn` -/
def addColumn (t : Table V) (column : String × DataType) : Table V × Option Error :=
  let t := t.createColumn column.1 column.2
  let nulls := (env.blocksSizes t column.1).map fun n => List.replicate n ⟨env.nullValue column.2, true⟩
  match t.atColumn column.1 fun c => .ok { c with blocks := c.blocks ++ nulls } with
  | .ok t => (t, none)
  | .error e => (t, some e)

/-- DROP -/
def dropColumn (t : Table V) (name : String) : Table V × Option Error := (t.eraseColumn name, none)

/-- the name of the column that takes the converted values -/
def tempName (name : String) : String := name ++ "_temp"

/-- the copy into the new column, and its renaming -/
def convertColumn (t : Table V) (name : String) (c d : Column V) (f : Cell V → Except Error (Cell V)) :
    Table V × Option Error :=
  let (old, new, e) := copyBlocks f c.blocks
  let columns := Function.update t.columns name (some { c with blocks := old })
  let t := { t with columns := Function.update columns (tempName name) (some { d with blocks := d.blocks ++ new }) }
  match e with
  | some .runtimeError => (t.eraseColumn (tempName name), some .runtimeError)
  | some e => (t, some e)
  | none =>
    match (t.eraseColumn name).renameColumn (tempName name) name with
    | .ok t => (t, none)
    | .error e => (t.eraseColumn name, some e)

/-- ALTER of a type -/
def alterColumn (t : Table V) (column : String × DataType) : Table V × Option Error :=
  match t.columns column.1 with
  | none => (t, some .outOfRange)
  | some c =>
    if isValidCast c.type column.2 = true ∧ c.type ≠ column.2 then
      let t := t.createColumn (tempName column.1) column.2
      match t.columns (tempName column.1) with
      | none => (t, some .outOfRange)
      | some d =>
        match env.convert c.type d.type with
        | none => (t.eraseColumn (tempName column.1), some .runtimeError)
        | some f => t.convertColumn column.1 c d f
    else (t, none)

/-- RENAME of a column -/
def renameEntry (t : Table V) (names : String × String) : Table V × Option Error :=
  match t.renameColumn names.1 names.2 with
  | .ok t => (t, none)
  | .error e => (t, some e)

/-- `ChangeTableBlockSize`: the columns are created anew with their flags, constraints and sorting columns are not -/
def changeBlockSize (t : Table V) (newBlockSize : ℕ) : Table V :=
  if newBlockSize = t.blockSize then t
  else
    { columns := fun name => (t.columns name).map fun c => { c with blocks := Chunks.chunks newBlockSize c.rows }
      sortingColumns := []
      constraints := fun _ => none
      blockSize := newBlockSize }

end Table

structure NewConstraint where
  name : String
  type : ConstraintType
  columns : List String
deriving DecidableEq, Repr

/-- the arguments that the listener passes to the dispatcher -/
structure Plan where
  addColumns : List (String × DataType)
  dropColumns : List String
  alterColumns : List (String × DataType)
  renameColumns : List (String × String)
  newConstraints : List NewConstraint
  dropConstraints : List (String × ConstraintType)
  newBlockSize : ℕ
deriving DecidableEq, Repr

/-- a loop of the dispatcher; it ends where something is thrown -/
def each {α : Type} (f : Table V → α → Table V × Option Error) : Table V → List α → Table V × Option Error
  | t, [] => (t, none)
  | t, a :: as =>
    match f t a with
    | (t', some e) => (t', some e)
    | (t', none) => each f t' as

/-- two loops one after the other -/
def andThen (r : Table V × Option Error) (next : Table V → Table V × Option Error) : Table V × Option Error :=
  match r with
  | (t, some e) => (t, some e)
  | (t, none) => next t

/-- `AlterTable`, without the table's own name -/
def alterTable (env : Environment V) (p : Plan) (t : Table V) : Table V × Option Error :=
  andThen (each (Table.addColumn env) t p.addColumns) fun t =>
  andThen (each Table.dropColumn t p.dropColumns) fun t =>
  andThen (each (Table.alterColumn env) t p.alterColumns) fun t =>
  andThen (each Table.renameEntry t p.renameColumns) fun t =>
  andThen (each (fun t c => t.addConstraint c.name c.type c.columns) t p.newConstraints) fun t =>
  andThen (each (fun t c => t.dropConstraint c.1) t p.dropConstraints) fun t =>
  (t.changeBlockSize p.newBlockSize, none)

/-! ## The listener -/

/-- `alterTableEntry` -/
inductive Entry where
  | addColumn (name : String) (type : DataType)
  | dropColumn (name : String)
  | alterColumn (name : String) (type : DataType)
  | renameColumn (oldName newName : String)
  | addConstraint (c : NewConstraint)
  | dropConstraint (name : String) (type : ConstraintType)
  | alterBlockSize (blockSize : ℕ)
deriving DecidableEq, Repr

inductive ListenerError where
  | columnAlreadyExists (name : String)
  | columnNotFound (name : String)
  | alreadyModifiedColumn (name : String)
  | constraintAlreadyExists (name : String)
  | indexColumnDataType (name : String) (type : DataType)
  | columnAlreadyConstrained (name : String)
  | constraintNotFound (name : String)
  | constraintAlreadyReferenced (name : String)
deriving DecidableEq, Repr

/-- an earlier constraint of the statement has the type and the column -/
def constrained (newConstraints : List NewConstraint) (type : ConstraintType) (column : String) : Bool :=
  newConstraints.any fun c => decide (c.type = type) && decide (column ∈ c.columns)

/-- the columns of a new constraint; `earlier` are those before -/
def checkColumns (t : Table V) (newConstraints : List NewConstraint) (type : ConstraintType) :
    List String → List String → Except ListenerError Unit
  | _, [] => .ok ()
  | earlier, name :: names =>
    match t.columns name with
    | none => .error (.columnNotFound name)
    | some c =>
      if type = .index ∧ (c.type = .point ∨ c.type = .polygon) then .error (.indexColumnDataType name c.type)
      else if name ∈ earlier then .error (.columnAlreadyConstrained name)
      else if type ∈ t.getConstraintsForColumn name c then .error (.columnAlreadyConstrained name)
      else if constrained newConstraints type name then .error (.columnAlreadyConstrained name)
      else checkColumns t newConstraints type (earlier ++ [name]) names

/-- one entry of the statement -/
def exitEntry (t : Table V) (p : Plan) : Entry → Except ListenerError Plan
  | .addColumn name type =>
    if (t.columns name).isSome ∨ name ∈ p.addColumns.map Prod.fst then .error (.columnAlreadyExists name)
    else .ok { p with addColumns := p.addColumns ++ [(name, type)] }
  | .dropColumn name =>
    if (t.columns name).isNone ∨ name ∈ p.dropColumns then .error (.columnNotFound name)
    else .ok { p with dropColumns := p.dropColumns ++ [name] }
  | .alterColumn name type =>
    if (t.columns name).isNone then .error (.columnNotFound name)
    else if name ∈ p.alterColumns.map Prod.fst then .error (.alreadyModifiedColumn name)
    else .ok { p with alterColumns := p.alterColumns ++ [(name, type)] }
  | .renameColumn oldName newName =>
    if (t.columns oldName).isNone then .error (.columnNotFound oldName)
    else if oldName ∈ p.renameColumns.map Prod.fst then .error (.alreadyModifiedColumn oldName)
    else if oldName ≠ newName ∧ newName ∈ p.renameColumns.map Prod.snd then .error (.columnAlreadyExists newName)
    else .ok { p with renameColumns := p.renameColumns ++ [(oldName, newName)] }
  | .addConstraint c =>
    if (t.constraints c.name).isSome ∨ c.name ∈ p.newConstraints.map NewConstraint.name then
      .error (.constraintAlreadyExists c.name)
    else do
      checkColumns t p.newConstraints c.type [] c.columns
      .ok { p with newConstraints := p.newConstraints ++ [c] }
  | .dropConstraint name type =>
    if (t.constraints name).map Prod.fst ≠ some type then .error (.constraintNotFound name)
    else if name ∈ p.dropConstraints.map Prod.fst then .error (.constraintAlreadyReferenced name)
    else .ok { p with dropConstraints := p.dropConstraints ++ [(name, type)] }
  | .alterBlockSize blockSize => .ok { p with newBlockSize := blockSize }

/-- `exitSqlAlterTable` -/
def exitSqlAlterTable (t : Table V) (entries : List Entry) : Except ListenerError Plan :=
  entries.foldlM (exitEntry t) ⟨[], [], [], [], [], [], t.blockSize⟩

/-- the order in which the arguments are passed: that of the maps, and constraints sorted by type -/
structure Reorders (p q : Plan) : Prop where
  addColumns : q.addColumns.Perm p.addColumns
  dropColumns : q.dropColumns.Perm p.dropColumns
  alterColumns : q.alterColumns.Perm p.alterColumns
  renameColumns : q.renameColumns.Perm p.renameColumns
  newConstraints : q.newConstraints.Perm p.newConstraints
  newSorted : q.newConstraints.Pairwise fun c d => c.type.number ≤ d.type.number
  dropConstraints : q.dropConstraints.Perm p.dropConstraints
  dropSorted : q.dropConstraints.Pairwise fun c d => d.2.number ≤ c.2.number
  newBlockSize : q.newBlockSize = p.newBlockSize

instance (p q : Plan) : Decidable (Reorders p q) :=
  decidable_of_iff (q.addColumns.Perm p.addColumns ∧ q.dropColumns.Perm p.dropColumns ∧
      q.alterColumns.Perm p.alterColumns ∧ q.renameColumns.Perm p.renameColumns ∧
      q.newConstraints.Perm p.newConstraints ∧ (q.newConstraints.Pairwise fun c d => c.type.number ≤ d.type.number) ∧
      q.dropConstraints.Perm p.dropConstraints ∧ (q.dropConstraints.Pairwise fun c d => d.2.number ≤ c.2.number) ∧
      q.newBlockSize = p.newBlockSize)
    ⟨fun ⟨h1, h2, h3, h4, h5, h6, h7, h8, h9⟩ => ⟨h1, h2, h3, h4, h5, h6, h7, h8, h9⟩,
      fun h => ⟨h.1, h.2, h.3, h.4, h.5, h.6, h.7, h.8, h.9⟩⟩

/-- `newTableEntry` -/
inductive NewEntry where
  | column (name : String) (type : DataType) (constraint : Option ConstraintType)
  | constraint (c : NewConstraint)
deriving DecidableEq, Repr

/-- `GetConstraintTypeSuffix` -/
def ConstraintType.suffix : ConstraintType → String
  | .none => ""
  | .index => "_IC"
  | .notNull => "_NC"
  | .unique => "_UC"

structure NewTable where
  columns : List (String × DataType)
  constraints : List NewConstraint
deriving DecidableEq, Repr

/-- the columns of a constraint of a new table; `earlier` are those before -/
def checkNewColumns (p : NewTable) (type : ConstraintType) : List String → List String → Except ListenerError Unit
  | _, [] => .ok ()
  | earlier, name :: names =>
    match p.columns.lookup name with
    | none => .error (.columnNotFound name)
    | some columnType =>
      if type = .index ∧ (columnType = .point ∨ columnType = .polygon) then
        .error (.indexColumnDataType name columnType)
      else if name ∈ earlier then .error (.columnAlreadyConstrained name)
      else if constrained p.constraints type name then .error (.columnAlreadyConstrained name)
      else checkNewColumns p type (earlier ++ [name]) names

/-- one entry of a new table -/
def exitNewEntry (p : NewTable) : NewEntry → Except ListenerError NewTable
  | .column name type constraint =>
    if name ∈ p.columns.map Prod.fst then .error (.columnAlreadyExists name)
    else
      match constraint with
      | none => .ok { p with columns := p.columns ++ [(name, type)] }
      | some ct =>
        if ct = .index ∧ (type = .point ∨ type = .polygon) then .error (.indexColumnDataType name type)
        else .ok ⟨p.columns ++ [(name, type)], p.constraints ++ [⟨name ++ ct.suffix, ct, [name]⟩]⟩
  | .constraint c =>
    if c.name ∈ p.constraints.map NewConstraint.name then .error (.constraintAlreadyExists c.name)
    else do
      checkNewColumns p c.type [] c.columns
      .ok { p with constraints := p.constraints ++ [c] }

/-- `exitSqlCreateTable` -/
def exitSqlCreateTable (entries : List NewEntry) : Except ListenerError NewTable :=
  entries.foldlM exitNewEntry ⟨[], []⟩

/-- the columns of a new table, without constraints -/
def newColumns (blockSize : ℕ) (columns : List (String × DataType)) : Table V where
  columns name := (columns.lookup name).map fun type => ⟨type, true, false, []⟩
  sortingColumns := []
  constraints _ := none
  blockSize := blockSize

/-- `CreateTable` -/
def createTable (blockSize : ℕ) (columns : List (String × DataType)) (constraints : List NewConstraint) :
    Table V × Option Error :=
  each (fun t c => t.addConstraint c.name c.type c.columns) (newColumns blockSize columns) constraints

/-- the tables that CREATE TABLE leaves -/
def Created (t : Table V) : Prop :=
  ∃ entries p constraints blockSize, exitSqlCreateTable entries = .ok p ∧ constraints.Perm p.constraints ∧
    constraints.Pairwise (fun c d => c.type.number ≤ d.type.number) ∧
    createTable blockSize p.columns constraints = (t, none)

/-! ## Consistency -/

/-- the column has what a constraint of the type asks for -/
def Flagged (t : Table V) (type : ConstraintType) (name : String) : Prop :=
  ∃ c, t.columns name = some c ∧
    match type with
    | .none => True
    | .index => name ∈ t.sortingColumns
    | .notNull => c.isNullable = false
    | .unique => c.isUnique = true

/-- constraints and sorting columns name columns, with the flags that the constraints ask for -/
def Consistent (t : Table V) : Prop :=
  (∀ c ∈ t.sortingColumns, (t.columns c).isSome) ∧
    ∀ name type cols, t.constraints name = some (type, cols) → ∀ c ∈ cols, Flagged t type c

/-- a column of the table that a constraint of one of these types lists -/
def Lists (t : Table V) (types : List ConstraintType) (c : String) : Prop :=
  ∃ name type cols, t.constraints name = some (type, cols) ∧ type ∈ types ∧ c ∈ cols

/-- a column whose name is kept by the table, or is added by the statement without a look at the column -/
def Needed (t : Table V) (entries : List Entry) (c : String) : Prop :=
  c ∈ t.sortingColumns ∨ Lists t [.none, .index, .notNull, .unique] c ∨
    ∃ new : NewConstraint, .addConstraint new ∈ entries ∧ new.type ∈ [.none, .index] ∧ c ∈ new.columns

/-- The statement drops no column that is needed, renames none to another name, and converts none that has a NOT NULL or
UNIQUE constraint; no column has the name of the temporary column of a conversion. -/
structure Safe (t : Table V) (entries : List Entry) : Prop where
  drop : ∀ c, .dropColumn c ∈ entries → ¬ Needed t entries c
  rename : ∀ a b, .renameColumn a b ∈ entries → a ≠ b → ¬ Needed t entries a
  alter : ∀ c type col, .alterColumn c type ∈ entries → t.columns c = some col → isValidCast col.type type = true →
    col.type ≠ type → ¬ Lists t [.notNull, .unique] c ∧ t.columns (Table.tempName c) = none ∧
      ∀ ty, .addColumn (Table.tempName c) ty ∉ entries

/-- a statement and the order in which its arguments are passed -/
structure Statement where
  entries : List Entry
  plan : Plan

/-- a statement; none when the listener rejects it or the arguments are not its own -/
def step (env : Environment V) (t : Table V) (s : Statement) : Option (Table V) :=
  match exitSqlAlterTable t s.entries with
  | .error _ => none
  | .ok p => if Reorders p s.plan then some (alterTable env s.plan t).1 else none

/-! ## Loops -/

theorem andThen_rule {Q : Table V → Prop} {r : Table V × Option Error} {next : Table V → Table V × Option Error}
    (hr : Q r.1) (hnext : r.2 = none → Q (next r.1).1) : Q (andThen r next).1 := by
  obtain ⟨t, e⟩ := r
  cases e with
  | none => exact hnext rfl
  | some e => exact hr

/-- a loop: Q holds wherever it ends, P of what is left as long as nothing is thrown -/
theorem each_rule {α : Type} {f : Table V → α → Table V × Option Error} {P : List α → Table V → Prop}
    {Q : Table V → Prop} (hstep : ∀ a as t, P (a :: as) t → Q (f t a).1 ∧ ((f t a).2 = none → P as (f t a).1))
    (hnil : ∀ t, P [] t → Q t) {l : List α} {t : Table V} (h : P l t) :
    Q (each f t l).1 ∧ ((each f t l).2 = none → P [] (each f t l).1) := by
  induction l generalizing t with
  | nil => exact ⟨hnil t h, fun _ => h⟩
  | cons a l ih =>
    obtain ⟨hq, hp⟩ := hstep a l t h
    cases hf : f t a with
    | mk t' e =>
      rw [hf] at hq hp
      cases e with
      | some e =>
        simp only [each, hf]
        exact ⟨hq, fun hnone => by cases hnone⟩
      | none =>
        simp only [each, hf]
        exact ih (hp rfl)

/-! ## Columns of a constraint -/

/-- no value of a column that is not nullable is NULL -/
def NoNulls (t : Table V) : Prop :=
  ∀ name c, t.columns name = some c → c.isNullable = false → ∀ r ∈ c.rows, r.isNull = false

/-- What adding or dropping a constraint of the type may do to the columns of a list: the flag of the type changes, or
the column enters or leaves the sorting columns. -/
structure Touches (type : ConstraintType) (cols : List String) (t t' : Table V) : Prop where
  constraints : t'.constraints = t.constraints
  blockSize : t'.blockSize = t.blockSize
  outside : ∀ x, x ∉ cols → t'.columns x = t.columns x ∧ (x ∈ t'.sortingColumns ↔ x ∈ t.sortingColumns)
  column : ∀ x c, t.columns x = some c → ∃ c', t'.columns x = some c' ∧ c'.blocks = c.blocks ∧ c'.type = c.type ∧
    (type ≠ .notNull → c'.isNullable = c.isNullable) ∧ (type ≠ .unique → c'.isUnique = c.isUnique)
  missing : ∀ x, t.columns x = none → t'.columns x = none
  sorting : type ≠ .index → t'.sortingColumns = t.sortingColumns

theorem Touches.refl (type : ConstraintType) (cols : List String) (t : Table V) : Touches type cols t t :=
  ⟨rfl, rfl, fun _ _ => ⟨rfl, Iff.rfl⟩, fun _ c hc => ⟨c, hc, rfl, rfl, fun _ => rfl, fun _ => rfl⟩, fun _ h => h,
    fun _ => rfl⟩

theorem Touches.trans {type : ConstraintType} {cols : List String} {t t' t'' : Table V} (h : Touches type cols t t')
    (h' : Touches type cols t' t'') : Touches type cols t t'' := by
  refine ⟨h'.constraints.trans h.constraints, h'.blockSize.trans h.blockSize, ?_, ?_,
    fun x hx => h'.missing x (h.missing x hx), fun hne => (h'.sorting hne).trans (h.sorting hne)⟩
  · intro x hx
    exact ⟨(h'.outside x hx).1.trans (h.outside x hx).1, (h'.outside x hx).2.trans (h.outside x hx).2⟩
  · intro x c hc
    obtain ⟨c', hc', hblocks, htype, hnull, huniq⟩ := h.column x c hc
    obtain ⟨c'', hc'', hblocks', htype', hnull', huniq'⟩ := h'.column x c' hc'
    exact ⟨c'', hc'', hblocks'.trans hblocks, htype'.trans htype, fun hne => (hnull' hne).trans (hnull hne),
      fun hne => (huniq' hne).trans (huniq hne)⟩

theorem Touches.mono {type : ConstraintType} {cols cols' : List String} {t t' : Table V} (h : Touches type cols t t')
    (hsub : ∀ x ∈ cols, x ∈ cols') : Touches type cols' t t' :=
  ⟨h.constraints, h.blockSize, fun x hx => h.outside x fun hmem => hx (hsub x hmem), h.column, h.missing, h.sorting⟩

/-- a change of one flag of one column -/
theorem touches_atColumn {type : ConstraintType} {t t' : Table V} {x : String}
    {f : Column V → Except Error (Column V)}
    (hf : ∀ c c', f c = .ok c' → c'.blocks = c.blocks ∧ c'.type = c.type ∧
      (type ≠ .notNull → c'.isNullable = c.isNullable) ∧ (type ≠ .unique → c'.isUnique = c.isUnique))
    (h : t.atColumn x f = .ok t') : Touches type [x] t t' := by
  unfold Table.atColumn at h
  cases hx : t.columns x with
  | none =>
    rw [hx] at h
    cases h
  | some c =>
    rw [hx] at h
    cases hfc : f c with
    | error e =>
      simp only [hfc, bind, Except.bind] at h
      cases h
    | ok c' =>
      simp only [hfc, bind, Except.bind, Except.ok.injEq] at h
      subst h
      refine ⟨rfl, rfl, ?_, ?_, ?_, fun _ => rfl⟩
      · intro y hy
        refine ⟨?_, Iff.rfl⟩
        exact Function.update_of_ne (by simpa using hy) _ _
      · intro y d hd
        by_cases hyx : y = x
        · subst hyx
          obtain rfl := Option.some.inj (hx.symm.trans hd)
          exact ⟨c', Function.update_self _ _ _, hf c c' hfc⟩
        · refine ⟨d, ?_, rfl, rfl, fun _ => rfl, fun _ => rfl⟩
          rw [← hd]
          exact Function.update_of_ne hyx _ _
      · intro y hy
        have hyx : y ≠ x := by
          rintro rfl
          rw [hx] at hy
          cases hy
        rw [← hy]
        exact Function.update_of_ne hyx _ _

theorem setIsNullable_ok {b : Bool} {c c' : Column V} (h : c.setIsNullable b = .ok c') :
    c' = { c with isNullable := b } ∧ (c.isNullable = b ∨ (b = true ∧ c.isUnique = false) ∨
      (b = false ∧ ∀ r ∈ c.rows, r.isNull = false)) := by
  unfold Column.setIsNullable at h
  split_ifs at h with heq hb hu hany
  · obtain rfl := Except.ok.inj h
    exact ⟨by rw [← heq], Or.inl heq⟩
  · obtain rfl := Except.ok.inj h
    exact ⟨by rw [hb], Or.inr (Or.inl ⟨hb, by simpa using hu⟩)⟩
  · obtain rfl := Except.ok.inj h
    have hb : b = false := by simpa using hb
    refine ⟨by rw [hb], Or.inr (Or.inr ⟨hb, ?_⟩)⟩
    simpa using hany

theorem setIsUnique_ok {b : Bool} {c c' : Column V} (h : c.setIsUnique b = .ok c') :
    c' = { c with isUnique := b } := by
  unfold Column.setIsUnique at h
  split_ifs at h with heq hb hn hd
  · obtain rfl := Except.ok.inj h
    rw [← heq]
  · obtain rfl := Except.ok.inj h
    rw [hb]
  · obtain rfl := Except.ok.inj h
    have hb : b = false := by simpa using hb
    rw [hb]

theorem touches_nullable {t t' : Table V} {x : String} {b : Bool}
    (h : t.atColumn x (Column.setIsNullable b) = .ok t') : Touches .notNull [x] t t' := by
  refine touches_atColumn ?_ h
  intro c c' hc
  obtain ⟨rfl, -⟩ := setIsNullable_ok hc
  exact ⟨rfl, rfl, fun hne => absurd rfl hne, fun _ => rfl⟩

theorem touches_unique {t t' : Table V} {x : String} {b : Bool}
    (h : t.atColumn x (Column.setIsUnique b) = .ok t') : Touches .unique [x] t t' := by
  refine touches_atColumn ?_ h
  intro c c' hc
  obtain rfl := setIsUnique_ok hc
  exact ⟨rfl, rfl, fun _ => rfl, fun hne => absurd rfl hne⟩

theorem touches_addSorting (t : Table V) (x : String) : Touches .index [x] t (t.addSortingColumn x) := by
  unfold Table.addSortingColumn
  split
  · exact Touches.refl _ _ t
  · refine ⟨rfl, rfl, fun y hy => ⟨rfl, ?_⟩, fun _ c hc => ⟨c, hc, rfl, rfl, fun _ => rfl, fun _ => rfl⟩, fun _ h => h,
      fun hne => absurd rfl hne⟩
    simp only [List.mem_append]
    exact ⟨fun h => h.resolve_right hy, Or.inl⟩

theorem touches_removeSorting (t : Table V) (x : String) : Touches .index [x] t (t.removeSortingColumn x) := by
  refine ⟨rfl, rfl, fun y hy => ⟨rfl, ?_⟩, fun _ c hc => ⟨c, hc, rfl, rfl, fun _ => rfl, fun _ => rfl⟩, fun _ h => h,
    fun hne => absurd rfl hne⟩
  exact List.mem_erase_of_ne (by simpa using hy)

theorem touches_addColumn {type : ConstraintType} {t t' : Table V} {x : String}
    (h : t.addConstraintColumn type x = .ok t') : Touches type [x] t t' := by
  cases type with
  | none =>
    obtain rfl := Except.ok.inj h
    exact Touches.refl _ _ t
  | index =>
    obtain rfl := Except.ok.inj h
    exact touches_addSorting t x
  | notNull => exact touches_nullable h
  | unique => exact touches_unique h

theorem touches_dropColumn {type : ConstraintType} {t t' : Table V} {x : String}
    (h : t.dropConstraintColumn type x = .ok t') : Touches type [x] t t' := by
  cases type with
  | none =>
    obtain rfl := Except.ok.inj h
    exact Touches.refl _ _ t
  | index =>
    obtain rfl := Except.ok.inj h
    exact touches_removeSorting t x
  | notNull => exact touches_nullable h
  | unique => exact touches_unique h

theorem touches_restoreColumn {type : ConstraintType} {t t' : Table V} {x : String}
    (h : t.restoreConstraintColumn type x = .ok t') : Touches type [x] t t' := by
  cases type with
  | none =>
    obtain rfl := Except.ok.inj h
    exact Touches.refl _ _ t
  | index =>
    obtain rfl := Except.ok.inj h
    exact touches_removeSorting t x
  | notNull => exact touches_nullable h
  | unique => exact touches_unique h

/-- the loop over the columns touches those that it processed -/
theorem touches_process {type : ConstraintType} (f : Table V → String → Except Error (Table V))
    (hf : ∀ t x t', f t x = .ok t' → Touches type [x] t t') (t : Table V) (cols : List String) :
    Touches type (Table.process f t cols).2.1 t (Table.process f t cols).1 := by
  induction cols generalizing t with
  | nil => exact Touches.refl _ _ t
  | cons x cols ih =>
    unfold Table.process
    cases hx : f t x with
    | error e => exact Touches.refl _ _ t
    | ok t' =>
      have hrest := ih t'
      refine ((hf t x t' hx).mono ?_).trans (hrest.mono ?_)
      · intro y hy
        exact List.mem_cons.2 (Or.inl (List.mem_singleton.1 hy))
      · exact fun y hy => List.mem_cons_of_mem _ hy

theorem process_done (f : Table V → String → Except Error (Table V)) (t : Table V) (cols : List String) :
    ∀ x ∈ (Table.process f t cols).2.1, x ∈ cols := by
  induction cols generalizing t with
  | nil => exact fun x hx => hx
  | cons y cols ih =>
    unfold Table.process
    cases hy : f t y with
    | error e => exact fun x hx => absurd hx List.not_mem_nil
    | ok t' =>
      intro x hx
      rcases List.mem_cons.1 hx with rfl | hx
      · exact List.mem_cons_self
      · exact List.mem_cons_of_mem _ (ih t' x hx)

theorem process_all {f : Table V → String → Except Error (Table V)} {t : Table V} {cols : List String}
    (h : (Table.process f t cols).2.2 = none) : (Table.process f t cols).2.1 = cols := by
  induction cols generalizing t with
  | nil => rfl
  | cons y cols ih =>
    unfold Table.process at h ⊢
    cases hy : f t y with
    | error e =>
      rw [hy] at h
      cases h
    | ok t' =>
      rw [hy] at h
      simp only [ih h]

/-! ## Adding and dropping constraints -/

/-- what every statement keeps -/
structure Good (t : Table V) : Prop where
  consistent : Consistent t
  once : ∀ n m type cs ds, t.constraints n = some (type, cs) → t.constraints m = some (type, ds) → n ≠ m →
    type ≠ .none → ∀ x ∈ cs, x ∉ ds
  noNulls : NoNulls t

theorem flagged_touches {type ty : ConstraintType} {cols : List String} {t t' : Table V} (h : Touches type cols t t')
    {x : String} (hx : Flagged t ty x) (hsafe : ty ≠ type ∨ x ∉ cols ∨ ty = .none) : Flagged t' ty x := by
  obtain ⟨c, hc, hflag⟩ := hx
  obtain ⟨c', hc', -, -, hnull, huniq⟩ := h.column x c hc
  refine ⟨c', hc', ?_⟩
  by_cases hmem : x ∈ cols
  · cases ty with
    | none => trivial
    | index =>
      rcases hsafe with hne | hout | heq
      · rw [h.sorting hne.symm]
        exact hflag
      · exact absurd hmem hout
      · cases heq
    | notNull =>
      rcases hsafe with hne | hout | heq
      · exact (hnull hne.symm).trans hflag
      · exact absurd hmem hout
      · cases heq
    | unique =>
      rcases hsafe with hne | hout | heq
      · exact (huniq hne.symm).trans hflag
      · exact absurd hmem hout
      · cases heq
  · -- a column that is not touched
    obtain ⟨hcol, hsort⟩ := h.outside x hmem
    obtain rfl := Option.some.inj (hc'.symm.trans (hcol.trans hc))
    cases ty with
    | none => trivial
    | index => exact hsort.2 hflag
    | notNull => exact hflag
    | unique => exact hflag

/-- after a change of flags the table is good for those constraints whose columns still have what they ask for -/
theorem good_touches {type : ConstraintType} {cols : List String} {t t' : Table V} (hgood : Good t)
    (h : Touches type cols t t') (hnulls : NoNulls t') (hsort : ∀ x ∈ t'.sortingColumns, (t.columns x).isSome)
    (k : String → Option (ConstraintType × List String)) (hk : ∀ n e, k n = some e → t.constraints n = some e)
    (hflag : ∀ n cs, k n = some (type, cs) → type ≠ .none → ∀ x ∈ cs, x ∈ cols → Flagged t' type x) :
    Good { t' with constraints := k } := by
  refine ⟨⟨?_, ?_⟩, ?_, hnulls⟩
  · intro x hx
    obtain ⟨c, hc⟩ := Option.isSome_iff_exists.1 (hsort x hx)
    obtain ⟨c', hc', -⟩ := h.column x c hc
    exact Option.isSome_iff_exists.2 ⟨c', hc'⟩
  · intro n ty cs hn x hx
    have hold := hgood.consistent.2 n ty cs (hk n _ hn) x hx
    by_cases hty : ty = type
    · subst hty
      by_cases hmem : x ∈ cols
      · by_cases hnone : ty = .none
        · exact flagged_touches h hold (Or.inr (Or.inr hnone))
        · exact hflag n cs hn hnone x hx hmem
      · exact flagged_touches h hold (Or.inr (Or.inl hmem))
    · exact flagged_touches h hold (Or.inl hty)
  · intro n m ty cs ds hn hm
    exact hgood.once n m ty cs ds (hk n _ hn) (hk m _ hm)

theorem atColumn_ok {t t' : Table V} {x : String} {f : Column V → Except Error (Column V)}
    (h : t.atColumn x f = .ok t') :
    ∃ c c', t.columns x = some c ∧ f c = .ok c' ∧ t' = { t with columns := Function.update t.columns x (some c') } := by
  unfold Table.atColumn at h
  cases hx : t.columns x with
  | none =>
    rw [hx] at h
    cases h
  | some c =>
    rw [hx] at h
    cases hfc : f c with
    | error e =>
      simp only [hfc, bind, Except.bind] at h
      cases h
    | ok c' =>
      simp only [hfc, bind, Except.bind, Except.ok.injEq] at h
      exact ⟨c, c', rfl, hfc, h.symm⟩

/-- an update of one column keeps `NoNulls` when the new column has no NULL where it may not -/
theorem noNulls_update {t : Table V} (h : NoNulls t) {x : String} {c : Column V}
    (hc : c.isNullable = false → ∀ r ∈ c.rows, r.isNull = false) :
    NoNulls { t with columns := Function.update t.columns x (some c) } := by
  intro y d hd hnull
  replace hd : Function.update t.columns x (some c) y = some d := hd
  by_cases hyx : y = x
  · subst hyx
    rw [Function.update_self] at hd
    obtain rfl := Option.some.inj hd
    exact hc hnull
  · rw [Function.update_of_ne hyx] at hd
    exact h y d hd hnull

theorem noNulls_nullable {t t' : Table V} {x : String} {b : Bool} (hn : NoNulls t)
    (h : t.atColumn x (Column.setIsNullable b) = .ok t') : NoNulls t' := by
  obtain ⟨c, c', hc, hset, rfl⟩ := atColumn_ok h
  obtain ⟨rfl, hcase⟩ := setIsNullable_ok hset
  refine noNulls_update hn ?_
  intro hb
  rcases hcase with heq | ⟨htrue, -⟩ | ⟨-, hrows⟩
  · exact hn x c hc (heq.trans hb)
  · rw [htrue] at hb
    cases hb
  · exact hrows

theorem noNulls_unique {t t' : Table V} {x : String} {b : Bool} (hn : NoNulls t)
    (h : t.atColumn x (Column.setIsUnique b) = .ok t') : NoNulls t' := by
  obtain ⟨c, c', hc, hset, rfl⟩ := atColumn_ok h
  obtain rfl := setIsUnique_ok hset
  exact noNulls_update hn (hn x c hc)

theorem noNulls_addSorting {t : Table V} (hn : NoNulls t) (x : String) : NoNulls (t.addSortingColumn x) := by
  unfold Table.addSortingColumn
  split
  · exact hn
  · exact hn

theorem noNulls_addColumn {type : ConstraintType} {t t' : Table V} {x : String} (hn : NoNulls t)
    (h : t.addConstraintColumn type x = .ok t') : NoNulls t' := by
  cases type with
  | none =>
    obtain rfl := Except.ok.inj h
    exact hn
  | index =>
    obtain rfl := Except.ok.inj h
    exact noNulls_addSorting hn x
  | notNull => exact noNulls_nullable hn h
  | unique => exact noNulls_unique hn h

theorem noNulls_dropColumn {type : ConstraintType} {t t' : Table V} {x : String} (hn : NoNulls t)
    (h : t.dropConstraintColumn type x = .ok t') : NoNulls t' := by
  cases type with
  | none =>
    obtain rfl := Except.ok.inj h
    exact hn
  | index =>
    obtain rfl := Except.ok.inj h
    exact hn
  | notNull => exact noNulls_nullable hn h
  | unique => exact noNulls_unique hn h

theorem noNulls_restoreColumn {type : ConstraintType} {t t' : Table V} {x : String} (hn : NoNulls t)
    (h : t.restoreConstraintColumn type x = .ok t') : NoNulls t' := by
  cases type with
  | none =>
    obtain rfl := Except.ok.inj h
    exact hn
  | index =>
    obtain rfl := Except.ok.inj h
    exact hn
  | notNull => exact noNulls_nullable hn h
  | unique => exact noNulls_unique hn h

/-- an invariant of the loop over the columns -/
theorem process_inv (f : Table V → String → Except Error (Table V)) (P : Table V → Prop)
    (hf : ∀ t x t', P t → f t x = .ok t' → P t') {t : Table V} (h : P t) (cols : List String) :
    P (Table.process f t cols).1 := by
  induction cols generalizing t with
  | nil => exact h
  | cons x cols ih =>
    unfold Table.process
    cases hx : f t x with
    | error e => exact h
    | ok t' => exact ih (hf t x t' h hx)

/-- a column that was added has what the constraint asks for -/
theorem flagged_addColumn {type : ConstraintType} {t t' : Table V} {x : String}
    (h : t.addConstraintColumn type x = .ok t') (hx : (t.columns x).isSome) : Flagged t' type x := by
  cases type with
  | none =>
    obtain rfl := Except.ok.inj h
    obtain ⟨c, hc⟩ := Option.isSome_iff_exists.1 hx
    exact ⟨c, hc, trivial⟩
  | index =>
    obtain rfl := Except.ok.inj h
    obtain ⟨c, hc⟩ := Option.isSome_iff_exists.1 hx
    unfold Table.addSortingColumn
    split
    next hmem => exact ⟨c, hc, hmem⟩
    next => exact ⟨c, hc, by simp⟩
  | notNull =>
    obtain ⟨c, c', hc, hset, rfl⟩ := atColumn_ok h
    obtain ⟨rfl, -⟩ := setIsNullable_ok hset
    exact ⟨_, Function.update_self _ _ _, rfl⟩
  | unique =>
    obtain ⟨c, c', hc, hset, rfl⟩ := atColumn_ok h
    obtain rfl := setIsUnique_ok hset
    exact ⟨_, Function.update_self _ _ _, rfl⟩

/-- a column keeps what a constraint asks for while more columns are added to constraints of the type -/
theorem flagged_addColumn_keeps {type : ConstraintType} {t t' : Table V} {x y : String}
    (h : t.addConstraintColumn type x = .ok t') (hy : Flagged t type y) : Flagged t' type y := by
  by_cases hyx : y = x
  · subst hyx
    obtain ⟨c, hc, -⟩ := hy
    exact flagged_addColumn h (Option.isSome_iff_exists.2 ⟨c, hc⟩)
  · exact flagged_touches (touches_addColumn h) hy (Or.inr (Or.inl (by simpa using hyx)))

theorem flagged_process {type : ConstraintType} {t : Table V} {cols : List String}
    (hcols : type = .index ∨ type = .none → ∀ x ∈ cols, (t.columns x).isSome)
    (h : (Table.process (Table.addConstraintColumn type) t cols).2.2 = none) :
    ∀ x ∈ cols, Flagged (Table.process (Table.addConstraintColumn type) t cols).1 type x := by
  induction cols generalizing t with
  | nil => exact fun x hx => absurd hx List.not_mem_nil
  | cons y cols ih =>
    unfold Table.process at h ⊢
    cases hy : t.addConstraintColumn type y with
    | error e =>
      rw [hy] at h
      cases h
    | ok t' =>
      rw [hy] at h
      have hexists : (t.columns y).isSome := by
        cases type with
        | none => exact hcols (Or.inr rfl) y List.mem_cons_self
        | index => exact hcols (Or.inl rfl) y List.mem_cons_self
        | notNull =>
          obtain ⟨c, -, hc, -⟩ := atColumn_ok hy
          exact Option.isSome_iff_exists.2 ⟨c, hc⟩
        | unique =>
          obtain ⟨c, -, hc, -⟩ := atColumn_ok hy
          exact Option.isSome_iff_exists.2 ⟨c, hc⟩
      have htouch := touches_addColumn hy
      have hcols' : type = .index ∨ type = .none → ∀ x ∈ cols, (t'.columns x).isSome := by
        intro htype x hx
        obtain ⟨c, hc⟩ := Option.isSome_iff_exists.1 (hcols htype x (List.mem_cons_of_mem _ hx))
        obtain ⟨c', hc', -⟩ := htouch.column x c hc
        exact Option.isSome_iff_exists.2 ⟨c', hc'⟩
      intro x hx
      rcases List.mem_cons.1 hx with rfl | hx
      · exact process_inv (Table.addConstraintColumn type) (fun t => Flagged t type x)
          (fun t z t' ht hz => flagged_addColumn_keeps hz ht) (flagged_addColumn hy hexists) cols
      · exact ih hcols' h x hx

theorem sorting_touches {type : ConstraintType} {cols : List String} {t t' : Table V} (hgood : Good t)
    (h : Touches type cols t t') (hcols : type = .index → ∀ x ∈ cols, (t.columns x).isSome) :
    ∀ x ∈ t'.sortingColumns, (t.columns x).isSome := by
  intro x hx
  by_cases hindex : type = .index
  · by_cases hmem : x ∈ cols
    · exact hcols hindex x hmem
    · exact hgood.consistent.1 x ((h.outside x hmem).2.1 hx)
  · rw [h.sorting hindex] at hx
    exact hgood.consistent.1 x hx

/-- the constraints of a table: those of another one and perhaps one more -/
def Extends (t t' : Table V) (name : String) (type : ConstraintType) (cols : List String) : Prop :=
  ∀ n e, t'.constraints n = some e → t.constraints n = some e ∨ (n = name ∧ e = (type, cols))

/-- `AddConstraint` for columns without a constraint of the type, whether it throws or not -/
theorem addConstraint_good {t : Table V} (hgood : Good t) (name : String) (type : ConstraintType) (cols : List String)
    (hcols : type = .index ∨ type = .none → ∀ x ∈ cols, (t.columns x).isSome)
    (hfresh : type ≠ .none → ∀ n cs, t.constraints n = some (type, cs) → ∀ x ∈ cols, x ∉ cs) :
    Good (t.addConstraint name type cols).1 ∧ Extends t (t.addConstraint name type cols).1 name type cols ∧
      ∀ x, (t.columns x).isSome → ((t.addConstraint name type cols).1.columns x).isSome := by
  have htouch := touches_process (Table.addConstraintColumn type) (fun t x t' h => touches_addColumn h) t cols
  have hnulls := process_inv (Table.addConstraintColumn type) NoNulls (fun t x t' ht h => noNulls_addColumn ht h)
    hgood.noNulls cols
  have hflagged := flagged_process hcols
  have hdone := process_done (Table.addConstraintColumn type) t cols
  have hkeep : ∀ {t' : Table V}, Touches type cols t t' → ∀ x, (t.columns x).isSome → (t'.columns x).isSome := by
    intro t' h x hx
    obtain ⟨c, hc⟩ := Option.isSome_iff_exists.1 hx
    obtain ⟨c', hc', -⟩ := h.column x c hc
    exact Option.isSome_iff_exists.2 ⟨c', hc'⟩
  -- without a new constraint nothing asks for the flags that changed
  have hsame : ∀ {t' : Table V}, Touches type cols t t' → NoNulls t' → Good t' ∧ Extends t t' name type cols := by
    intro t' h hn
    refine ⟨?_, fun n e hn => Or.inl (by rwa [h.constraints] at hn)⟩
    refine good_touches hgood h hn (sorting_touches hgood h fun hi => hcols (Or.inl hi)) t'.constraints ?_ ?_
    · intro n e hn
      rwa [h.constraints] at hn
    · intro n cs hn hnone x hx hmem
      rw [h.constraints] at hn
      exact absurd hx (hfresh hnone n cs hn x hmem)
  unfold Table.addConstraint
  rcases hproc : Table.process (Table.addConstraintColumn type) t cols with ⟨t', done, err⟩
  rw [hproc] at htouch hnulls hflagged hdone
  have htouch' := htouch.mono hdone
  cases err with
  | none =>
    simp only
    cases hname : t'.constraints name with
    | some e =>
      obtain ⟨hg, hext⟩ := hsame htouch' hnulls
      exact ⟨hg, hext, hkeep htouch'⟩
    | none =>
      refine ⟨⟨⟨?_, ?_⟩, ?_, hnulls⟩, ?_, fun x hx => hkeep htouch' x hx⟩
      · exact (hsame htouch' hnulls).1.consistent.1
      · intro n ty cs hn x hx
        replace hn : Function.update t'.constraints name (some (type, cols)) n = some (ty, cs) := hn
        by_cases hnn : n = name
        · subst hnn
          rw [Function.update_self] at hn
          obtain ⟨rfl, rfl⟩ := Prod.mk.inj (Option.some.inj hn)
          exact hflagged rfl x hx
        · rw [Function.update_of_ne hnn] at hn
          exact (hsame htouch' hnulls).1.consistent.2 n ty cs hn x hx
      · intro n m ty cs ds hn hm hne hnone x hx
        replace hn : Function.update t'.constraints name (some (type, cols)) n = some (ty, cs) := hn
        replace hm : Function.update t'.constraints name (some (type, cols)) m = some (ty, ds) := hm
        by_cases hnn : n = name
        · subst hnn
          rw [Function.update_self] at hn
          rw [Function.update_of_ne hne.symm, htouch.constraints] at hm
          obtain ⟨rfl, rfl⟩ := Prod.mk.inj (Option.some.inj hn)
          exact hfresh hnone m ds hm x hx
        · rw [Function.update_of_ne hnn] at hn
          by_cases hmn : m = name
          · subst hmn
            rw [Function.update_self] at hm
            rw [htouch.constraints] at hn
            obtain ⟨rfl, rfl⟩ := Prod.mk.inj (Option.some.inj hm)
            exact fun hds => hfresh hnone n cs hn x hds hx
          · rw [Function.update_of_ne hmn] at hm
            exact (hsame htouch' hnulls).1.once n m ty cs ds hn hm hne hnone x hx
      · intro n e hn
        replace hn : Function.update t'.constraints name (some (type, cols)) n = some e := hn
        by_cases hnn : n = name
        · subst hnn
          rw [Function.update_self] at hn
          exact Or.inr ⟨rfl, (Option.some.inj hn).symm⟩
        · rw [Function.update_of_ne hnn, htouch.constraints] at hn
          exact Or.inl hn
  | some err =>
    have hback := touches_process (Table.dropConstraintColumn type) (fun t x t' h => touches_dropColumn h) t' done
    have hnulls' := process_inv (Table.dropConstraintColumn type) NoNulls
      (fun t x t' ht h => noNulls_dropColumn ht h) hnulls done
    have hdone' := process_done (Table.dropConstraintColumn type) t' done
    simp only
    rcases hproc' : Table.process (Table.dropConstraintColumn type) t' done with ⟨t'', done', err'⟩
    rw [hproc'] at hback hnulls' hdone'
    have hall := htouch'.trans (hback.mono fun x hx => hdone x (hdone' x hx))
    obtain ⟨hg, hext⟩ := hsame hall hnulls'
    cases err' with
    | none => exact ⟨hg, hext, hkeep hall⟩
    | some err' => exact ⟨hg, hext, hkeep hall⟩

/-- only NOT NULL constraints can fail to be dropped -/
theorem dropColumn_ok {type : ConstraintType} {t : Table V} {x : String} (hx : (t.columns x).isSome)
    (htype : type ≠ .notNull) : ∃ t', t.dropConstraintColumn type x = .ok t' := by
  cases type with
  | none => exact ⟨t, rfl⟩
  | index => exact ⟨_, rfl⟩
  | notNull => exact absurd rfl htype
  | unique =>
    obtain ⟨c, hc⟩ := Option.isSome_iff_exists.1 hx
    have hset : ∃ c', c.setIsUnique false = .ok c' := by
      unfold Column.setIsUnique
      split_ifs with hsame htrue
      · exact ⟨c, rfl⟩
      · cases htrue
      · cases htrue
      · cases htrue
      · exact ⟨_, rfl⟩
    obtain ⟨c', hc'⟩ := hset
    exact ⟨_, by simp only [Table.dropConstraintColumn, Table.atColumn, hc, hc', bind, Except.bind]; rfl⟩

theorem processDrop_ok {type : ConstraintType} {t : Table V} {cols : List String}
    (hcols : ∀ x ∈ cols, (t.columns x).isSome) (htype : type ≠ .notNull) :
    (Table.process (Table.dropConstraintColumn type) t cols).2.2 = none := by
  induction cols generalizing t with
  | nil => rfl
  | cons y cols ih =>
    obtain ⟨t', ht'⟩ := dropColumn_ok (hcols y List.mem_cons_self) htype
    unfold Table.process
    simp only [ht']
    refine ih ?_
    intro x hx
    obtain ⟨c, hc⟩ := Option.isSome_iff_exists.1 (hcols x (List.mem_cons_of_mem _ hx))
    obtain ⟨c', hc', -⟩ := (touches_dropColumn ht').column x c hc
    exact Option.isSome_iff_exists.2 ⟨c', hc'⟩

/-- columns without NULL become not nullable again -/
theorem processRestore_notNull {t : Table V} {cols : List String}
    (hcols : ∀ x ∈ cols, ∃ c, t.columns x = some c ∧ ∀ r ∈ c.rows, r.isNull = false) :
    (Table.process (Table.restoreConstraintColumn .notNull) t cols).2.2 = none ∧
      ∀ x ∈ cols, Flagged (Table.process (Table.restoreConstraintColumn .notNull) t cols).1 .notNull x := by
  induction cols generalizing t with
  | nil => exact ⟨rfl, fun x hx => absurd hx List.not_mem_nil⟩
  | cons y cols ih =>
    obtain ⟨c, hc, hrows⟩ := hcols y List.mem_cons_self
    have hset : c.setIsNullable false = .ok { c with isNullable := false } := by
      unfold Column.setIsNullable
      split_ifs with hsame htrue hu hany
      · rw [← hsame]
      · cases htrue
      · cases htrue
      · obtain ⟨r, hr, hnull⟩ := List.any_eq_true.1 hany
        rw [hrows r hr] at hnull
        cases hnull
      · rfl
    have hstep : t.restoreConstraintColumn .notNull y =
        .ok { t with columns := Function.update t.columns y (some { c with isNullable := false }) } := by
      simp only [Table.restoreConstraintColumn, Table.atColumn, hc, hset, bind, Except.bind]
    have htouch := touches_restoreColumn hstep
    have hrest := ih (t := { t with columns := Function.update t.columns y (some { c with isNullable := false }) }) (by
      intro x hx
      obtain ⟨d, hd, hdrows⟩ := hcols x (List.mem_cons_of_mem _ hx)
      obtain ⟨d', hd', hblocks, -⟩ := htouch.column x d hd
      refine ⟨d', hd', ?_⟩
      unfold Column.rows
      rw [hblocks]
      exact hdrows)
    unfold Table.process
    simp only [hstep]
    refine ⟨hrest.1, fun x hx => ?_⟩
    rcases List.mem_cons.1 hx with rfl | hx
    · -- a column that is set stays set
      refine process_inv (Table.restoreConstraintColumn .notNull) (fun t => Flagged t .notNull x) ?_
        ⟨_, Function.update_self _ _ _, rfl⟩ cols
      intro t z t' ht hz
      have hadd : t.addConstraintColumn .notNull z = .ok t' := hz
      exact flagged_addColumn_keeps hadd ht
    · exact hrest.2 x hx

/-- `DropConstraint`, whether it throws or not -/
theorem dropConstraint_good {t : Table V} (hgood : Good t) (name : String) : Good (t.dropConstraint name).1 := by
  unfold Table.dropConstraint
  cases hname : t.constraints name with
  | none => exact hgood
  | some e =>
    obtain ⟨type, cols⟩ := e
    have hcols : ∀ x ∈ cols, (t.columns x).isSome := by
      intro x hx
      obtain ⟨c, hc, -⟩ := hgood.consistent.2 name type cols hname x hx
      exact Option.isSome_iff_exists.2 ⟨c, hc⟩
    have htouch := touches_process (Table.dropConstraintColumn type) (fun t x t' h => touches_dropColumn h) t cols
    have hnulls := process_inv (Table.dropConstraintColumn type) NoNulls (fun t x t' ht h => noNulls_dropColumn ht h)
      hgood.noNulls cols
    have hdone := process_done (Table.dropConstraintColumn type) t cols
    have hok : type ≠ .notNull → (Table.process (Table.dropConstraintColumn type) t cols).2.2 = none :=
      fun htype => processDrop_ok hcols htype
    simp only
    rcases hproc : Table.process (Table.dropConstraintColumn type) t cols with ⟨t', done, err⟩
    rw [hproc] at htouch hnulls hdone hok
    cases err with
    | none =>
      simp only
      refine good_touches hgood (htouch.mono hdone) hnulls (sorting_touches hgood (htouch.mono hdone) fun _ => hcols) _
        ?_ ?_
      · intro n e hn
        by_cases hnn : n = name
        · subst hnn
          rw [Function.update_self] at hn
          cases hn
        · rw [Function.update_of_ne hnn, htouch.constraints] at hn
          exact hn
      · intro n cs hn hnone x hx hmem
        by_cases hnn : n = name
        · subst hnn
          rw [Function.update_self] at hn
          cases hn
        · rw [Function.update_of_ne hnn, htouch.constraints] at hn
          exact absurd hmem (hgood.once n name type cs cols hn hname hnn hnone x hx)
    | some err =>
      have htype : type = .notNull := by
        by_contra hne
        cases hok hne
      subst htype
      -- the rows of what was processed are those of columns that were not nullable
      have hrows : ∀ x ∈ done, ∃ c, t'.columns x = some c ∧ ∀ r ∈ c.rows, r.isNull = false := by
        intro x hx
        obtain ⟨c, hc, hnull⟩ := hgood.consistent.2 name _ cols hname x (hdone x hx)
        obtain ⟨c', hc', hblocks, -⟩ := htouch.column x c hc
        refine ⟨c', hc', ?_⟩
        unfold Column.rows
        rw [hblocks]
        exact hgood.noNulls x c hc hnull
      have hback := touches_process (Table.restoreConstraintColumn .notNull) (fun t x t' h => touches_restoreColumn h)
        t' done
      have hnulls' := process_inv (Table.restoreConstraintColumn .notNull) NoNulls
        (fun t x t' ht h => noNulls_restoreColumn ht h) hnulls done
      have hdone' := process_done (Table.restoreConstraintColumn .notNull) t' done
      have hrestore := processRestore_notNull hrows
      simp only
      rcases hproc' : Table.process (Table.restoreConstraintColumn .notNull) t' done with ⟨t'', done', err'⟩
      rw [hproc'] at hback hnulls' hdone' hrestore
      obtain ⟨rfl, hflag⟩ := hrestore
      have hall := htouch.trans (hback.mono hdone')
      have hconstraints : t''.constraints = t.constraints := hall.constraints
      refine good_touches hgood hall hnulls' (sorting_touches hgood hall fun h => by cases h) t''.constraints ?_ ?_
      · intro n e hn
        rwa [hconstraints] at hn
      · exact fun n cs hn _ x hx hmem => hflag x hmem

theorem changeBlockSize_good {t : Table V} (hgood : Good t) (n : ℕ) : Good (t.changeBlockSize n) := by
  unfold Table.changeBlockSize
  split
  · exact hgood
  · refine ⟨⟨fun x hx => absurd hx List.not_mem_nil, ?_⟩, ?_, ?_⟩
    · intro name type cols h
      cases h
    · intro name m type cs ds h
      cases h
    intro x c' hc' hnull r hr
    obtain ⟨c, hc, rfl⟩ := Option.map_eq_some_iff.1 hc'
    exact hgood.noNulls x c hc hnull r (Chunks.mem_of_mem_chunksAux hr)

/-! ## Changes of columns -/

/-- What the changes of columns keep of the table before them: the columns of A, and the flags of those of B. -/
structure Kept (A B : String → Prop) (t₀ t : Table V) : Prop where
  constraints : t.constraints = t₀.constraints
  sorting : t.sortingColumns = t₀.sortingColumns
  exist : ∀ x, A x → (t.columns x).isSome
  flags : ∀ x, B x → ∀ c, t.columns x = some c → ∃ c₀, t₀.columns x = some c₀ ∧ c.isNullable = c₀.isNullable ∧
    c.isUnique = c₀.isUnique
  noNulls : NoNulls t

theorem good_kept {A B : String → Prop} {t₀ t : Table V} (hgood : Good t₀)
    (hA : ∀ x, x ∈ t₀.sortingColumns ∨ Lists t₀ [.none, .index, .notNull, .unique] x → A x)
    (hB : ∀ x, Lists t₀ [.notNull, .unique] x → B x) (h : Kept A B t₀ t) : Good t := by
  refine ⟨⟨?_, ?_⟩, ?_, h.noNulls⟩
  · intro x hx
    rw [h.sorting] at hx
    exact h.exist x (hA x (Or.inl hx))
  · intro n ty cs hn x hx
    rw [h.constraints] at hn
    have hold := hgood.consistent.2 n ty cs hn x hx
    have hall : A x := hA x (Or.inr ⟨n, ty, cs, hn, by cases ty <;> simp, hx⟩)
    obtain ⟨c, hc⟩ := Option.isSome_iff_exists.1 (h.exist x hall)
    refine ⟨c, hc, ?_⟩
    obtain ⟨c₁, hc₁, hflag⟩ := hold
    cases ty with
    | none => trivial
    | index =>
      rw [h.sorting]
      exact hflag
    | notNull =>
      obtain ⟨c₀, hc₀, hnull, -⟩ := h.flags x (hB x ⟨n, _, cs, hn, by simp, hx⟩) c hc
      obtain rfl := Option.some.inj (hc₀.symm.trans hc₁)
      exact hnull.trans hflag
    | unique =>
      obtain ⟨c₀, hc₀, -, huniq⟩ := h.flags x (hB x ⟨n, _, cs, hn, by simp, hx⟩) c hc
      obtain rfl := Option.some.inj (hc₀.symm.trans hc₁)
      exact huniq.trans hflag
  · intro n m ty cs ds hn hm
    rw [h.constraints] at hn hm
    exact hgood.once n m ty cs ds hn hm

variable {A B : String → Prop} {t₀ t : Table V}

theorem kept_refl (hA : ∀ x, A x → (t₀.columns x).isSome) (hn : NoNulls t₀) : Kept A B t₀ t₀ :=
  ⟨rfl, rfl, hA, fun _ _ c hc => ⟨c, hc, rfl, rfl⟩, hn⟩

theorem kept_erase (h : Kept A B t₀ t) {x : String} (hx : ¬ A x) : Kept A B t₀ (t.eraseColumn x) := by
  refine ⟨h.constraints, h.sorting, ?_, ?_, ?_⟩
  · intro y hy
    have hyx : y ≠ x := fun heq => hx (heq ▸ hy)
    have hcol : (t.eraseColumn x).columns y = t.columns y := Function.update_of_ne hyx _ _
    rw [hcol]
    exact h.exist y hy
  · intro y hy c hc
    replace hc : Function.update t.columns x none y = some c := hc
    by_cases hyx : y = x
    · subst hyx
      rw [Function.update_self] at hc
      cases hc
    · rw [Function.update_of_ne hyx] at hc
      exact h.flags y hy c hc
  · intro y c hc
    replace hc : Function.update t.columns x none y = some c := hc
    by_cases hyx : y = x
    · subst hyx
      rw [Function.update_self] at hc
      cases hc
    · rw [Function.update_of_ne hyx] at hc
      exact h.noNulls y c hc

theorem kept_update (h : Kept A B t₀ t) {x : String} {c : Column V}
    (hB : B x → ∃ d, t.columns x = some d ∧ c.isNullable = d.isNullable ∧ c.isUnique = d.isUnique)
    (hc : c.isNullable = false → ∀ r ∈ c.rows, r.isNull = false) :
    Kept A B t₀ { t with columns := Function.update t.columns x (some c) } := by
  refine ⟨h.constraints, h.sorting, ?_, ?_, noNulls_update h.noNulls hc⟩
  · intro y hy
    by_cases hyx : y = x
    · subst hyx
      simp
    · simpa [Function.update_of_ne hyx] using h.exist y hy
  · intro y hy d hd
    replace hd : Function.update t.columns x (some c) y = some d := hd
    by_cases hyx : y = x
    · subst hyx
      rw [Function.update_self] at hd
      obtain rfl := Option.some.inj hd
      obtain ⟨d, hd, hnull, huniq⟩ := hB hy
      obtain ⟨c₀, hc₀, hnull', huniq'⟩ := h.flags y hy d hd
      exact ⟨c₀, hc₀, hnull.trans hnull', huniq.trans huniq'⟩
    · rw [Function.update_of_ne hyx] at hd
      exact h.flags y hy d hd

theorem createColumn_eq {name : String} (hname : t.columns name = none) (type : DataType) :
    t.createColumn name type = { t with columns := Function.update t.columns name (some ⟨type, true, false, []⟩) } := by
  unfold Table.createColumn
  rw [hname]

/-- ADD of a name that is free -/
theorem addColumn_eq (env : Environment V) {column : String × DataType} (hname : t.columns column.1 = none) :
    ∃ c : Column V, c.isNullable = true ∧ Table.addColumn env t column =
      ({ t with columns := Function.update t.columns column.1 (some c) }, none) := by
  refine ⟨⟨column.2, true, false, [] ++ (env.blocksSizes (t.createColumn column.1 column.2) column.1).map fun n =>
    List.replicate n ⟨env.nullValue column.2, true⟩⟩, rfl, ?_⟩
  unfold Table.addColumn
  rw [createColumn_eq hname]
  simp [Table.atColumn, bind, Except.bind]

/-- RENAME to another name of a column that is not needed, or to its own name -/
theorem kept_rename (hBA : ∀ x, B x → A x) (h : Kept A B t₀ t) {names : String × String}
    (hnames : names.1 ≠ names.2 → ¬ A names.1) : Kept A B t₀ (Table.renameEntry t names).1 := by
  obtain ⟨a, b⟩ := names
  unfold Table.renameEntry Table.renameColumn
  cases ha : t.columns a with
  | none => exact h
  | some c =>
    by_cases hab : a = b
    · subst hab
      have hnone : (t.eraseColumn a).columns a = none := Function.update_self _ _ _
      have hsame : Function.update (t.eraseColumn a).columns a (some c) = t.columns := by
        funext x
        by_cases hx : x = a
        · rw [hx, Function.update_self, ha]
        · rw [Function.update_of_ne hx]
          exact Function.update_of_ne hx _ _
      simp only [hnone, hsame]
      exact h
    · have herase := kept_erase h (hnames hab)
      cases hb : (t.eraseColumn a).columns b with
      | some d =>
        simp only [hb]
        exact herase
      | none =>
        simp only [hb]
        refine kept_update herase ?_ ?_
        · intro hbB
          obtain ⟨d, hd⟩ := Option.isSome_iff_exists.1 (herase.exist b (hBA b hbB))
          rw [hb] at hd
          cases hd
        · exact h.noNulls a c ha

theorem copyBlocks_subset (f : Cell V → Except Error (Cell V)) (blocks : List (List (Cell V))) :
    ∀ r ∈ (copyBlocks f blocks).1.flatten, r ∈ blocks.flatten := by
  induction blocks with
  | nil => exact fun r hr => hr
  | cons b bs ih =>
    unfold copyBlocks
    cases hb : b.mapM f with
    | error e => exact fun r hr => hr
    | ok b' => exact fun r hr => List.mem_append_right _ (ih r hr)

theorem tempName_ne (name : String) : Table.tempName name ≠ name := by
  intro h
  have hlen := congrArg String.length h
  have htemp : "_temp".length = 5 := by decide
  rw [Table.tempName, String.length_append, htemp] at hlen
  omega

/-- the table with a column put under a name -/
def Table.put (t : Table V) (x : String) (c : Column V) : Table V :=
  { t with columns := Function.update t.columns x (some c) }

/-- a column that was copied in full takes the place of the old one -/
theorem rename_temp {t : Table V} {name : String} {d : Column V} (hd : t.columns (Table.tempName name) = some d) :
    (t.eraseColumn name).renameColumn (Table.tempName name) name =
      .ok ((t.put name d).eraseColumn (Table.tempName name)) := by
  have hne := tempName_ne name
  have htemp : (t.eraseColumn name).columns (Table.tempName name) = some d := by
    rw [← hd]
    exact Function.update_of_ne hne _ _
  have hname : ((t.eraseColumn name).eraseColumn (Table.tempName name)).columns name = none := by
    have hstep : ((t.eraseColumn name).eraseColumn (Table.tempName name)).columns name = (t.eraseColumn name).columns name :=
      Function.update_of_ne hne.symm _ _
    rw [hstep]
    exact Function.update_self _ _ _
  have hcols : Function.update ((t.eraseColumn name).eraseColumn (Table.tempName name)).columns name (some d) =
      Function.update (Function.update t.columns name (some d)) (Table.tempName name) none := by
    funext x
    by_cases hx : x = name
    · rw [hx, Function.update_self, Function.update_of_ne hne.symm, Function.update_self]
    · rw [Function.update_of_ne hx]
      by_cases hxt : x = Table.tempName name
      · rw [hxt, Function.update_self]
        exact Function.update_self _ _ _
      · rw [Function.update_of_ne hxt, Function.update_of_ne hx]
        exact (Function.update_of_ne hxt _ _).trans (Function.update_of_ne hx _ _)
  simp only [Table.renameColumn, htemp, hname, hcols]
  rfl

/-- the conversion of a column that no NOT NULL or UNIQUE constraint lists, with the temporary column just created -/
theorem convertColumn_kept (hBA : ∀ x, B x → A x) {name : String} {c : Column V} (h : Kept A B t₀ t)
    (hname : t.columns name = some c) (hB : ¬ B name) (htemp : t.columns (Table.tempName name) = none)
    (type : DataType) (f : Cell V → Except Error (Cell V)) {r : Table V × Option Error}
    (hr : (t.createColumn (Table.tempName name) type).convertColumn name c ⟨type, true, false, []⟩ f = r) :
    Kept A B t₀ r.1 ∧ (r.2 = none → ∀ x, x ≠ name → r.1.columns x = t.columns x) := by
  have hne := tempName_ne name
  have hA : ¬ A (Table.tempName name) := by
    intro hA
    obtain ⟨d, hd⟩ := Option.isSome_iff_exists.1 (h.exist _ hA)
    rw [htemp] at hd
    cases hd
  have hBt : ¬ B (Table.tempName name) := fun hb => hA (hBA _ hb)
  have hold := copyBlocks_subset f c.blocks
  rw [createColumn_eq htemp] at hr
  unfold Table.convertColumn at hr
  rcases hcopy : copyBlocks f c.blocks with ⟨old, new, err⟩
  rw [hcopy] at hold hr
  -- the two columns while the copy runs
  have hcreate : Kept A B t₀ (t.put (Table.tempName name) ⟨type, true, false, []⟩) :=
    kept_update h (fun hb => absurd hb hBt) (fun hnull => by cases hnull)
  have hcopied : Kept A B t₀ ((t.put (Table.tempName name) ⟨type, true, false, []⟩).put name { c with blocks := old }) :=
    kept_update hcreate (fun hb => absurd hb hB) (fun hnull r hr => h.noNulls name c hname hnull r (hold r hr))
  have hmid : Kept A B t₀ (((t.put (Table.tempName name) ⟨type, true, false, []⟩).put name
      { c with blocks := old }).put (Table.tempName name) ⟨type, true, false, [] ++ new⟩) :=
    kept_update hcopied (fun hb => absurd hb hBt) (fun hnull => by cases hnull)
  cases err with
  | some err =>
    cases err with
    | runtimeError =>
      obtain rfl := hr
      exact ⟨kept_erase hmid hA, fun hnone => by cases hnone⟩
    | outOfRange =>
      obtain rfl := hr
      exact ⟨hmid, fun hnone => by cases hnone⟩
    | constraintViolation =>
      obtain rfl := hr
      exact ⟨hmid, fun hnone => by cases hnone⟩
    | invalidValue =>
      obtain rfl := hr
      exact ⟨hmid, fun hnone => by cases hnone⟩
  | none =>
    have hd : (((t.put (Table.tempName name) ⟨type, true, false, []⟩).put name { c with blocks := old }).put
        (Table.tempName name) ⟨type, true, false, [] ++ new⟩).columns (Table.tempName name) =
        some ⟨type, true, false, [] ++ new⟩ := Function.update_self _ _ _
    have hrename := rename_temp hd
    simp only [Table.put] at hrename
    simp only [hrename] at hr
    obtain rfl := hr
    -- the table is that with the new column under the old name
    have hcols : Function.update (Function.update (Function.update (Function.update (Function.update t.columns
        (Table.tempName name) (some ⟨type, true, false, []⟩)) name (some { c with blocks := old })) (Table.tempName name)
        (some ⟨type, true, false, [] ++ new⟩)) name (some ⟨type, true, false, [] ++ new⟩)) (Table.tempName name) none =
        Function.update (Function.update t.columns name (some ⟨type, true, false, [] ++ new⟩)) (Table.tempName name)
          none := by
      funext x
      by_cases hxt : x = Table.tempName name
      · rw [hxt, Function.update_self, Function.update_self]
      · rw [Function.update_of_ne hxt, Function.update_of_ne hxt]
        by_cases hx : x = name
        · rw [hx, Function.update_self, Function.update_self]
        · rw [Function.update_of_ne hx, Function.update_of_ne hxt, Function.update_of_ne hx, Function.update_of_ne hxt,
            Function.update_of_ne hx]
    simp only [Table.eraseColumn, hcols]
    have hput : Kept A B t₀ (t.put name ⟨type, true, false, [] ++ new⟩) :=
      kept_update h (fun hb => absurd hb hB) (fun hnull => by cases hnull)
    refine ⟨kept_erase hput hA, ?_⟩
    intro _ x hx
    by_cases hxt : x = Table.tempName name
    · rw [hxt, htemp]
      exact Function.update_self _ _ _
    · exact (Function.update_of_ne hxt _ _).trans (Function.update_of_ne hx _ _)

/-- ALTER of a type: a column that is converted has no NOT NULL or UNIQUE constraint, and its temporary name is free -/
theorem alterColumn_kept (env : Environment V) (hBA : ∀ x, B x → A x) (h : Kept A B t₀ t) {column : String × DataType}
    (hsafe : ∀ c, t.columns column.1 = some c → isValidCast c.type column.2 = true → c.type ≠ column.2 →
      ¬ B column.1 ∧ t.columns (Table.tempName column.1) = none) {r : Table V × Option Error}
    (hr : Table.alterColumn env t column = r) :
    Kept A B t₀ r.1 ∧ (r.2 = none → ∀ x, x ≠ column.1 → r.1.columns x = t.columns x) := by
  unfold Table.alterColumn at hr
  cases hc : t.columns column.1 with
  | none =>
    rw [hc] at hr
    obtain rfl := hr
    exact ⟨h, fun hnone => by cases hnone⟩
  | some c =>
    rw [hc] at hr
    simp only at hr
    split at hr
    next hconv =>
      obtain ⟨hB, htemp⟩ := hsafe c hc hconv.1 hconv.2
      have hnew : (t.createColumn (Table.tempName column.1) column.2).columns (Table.tempName column.1) =
          some ⟨column.2, true, false, []⟩ := by
        rw [createColumn_eq htemp]
        exact Function.update_self _ _ _
      rw [hnew] at hr
      simp only at hr
      cases hf : env.convert c.type column.2 with
      | none =>
        rw [hf] at hr
        obtain rfl := hr
        refine ⟨?_, fun hnone => by cases hnone⟩
        have hA : ¬ A (Table.tempName column.1) := by
          intro hA
          obtain ⟨d, hd⟩ := Option.isSome_iff_exists.1 (h.exist _ hA)
          rw [htemp] at hd
          cases hd
        rw [createColumn_eq htemp]
        exact kept_erase (kept_update h (fun hb => absurd (hBA _ hb) hA) (fun hnull => by cases hnull)) hA
      | some f =>
        rw [hf] at hr
        exact convertColumn_kept hBA h hc hB htemp column.2 f hr
    next =>
      obtain rfl := hr
      exact ⟨h, fun _ x _ => rfl⟩

/-! ## What the listener checks -/

theorem foldlM_ok {σ ε ο : Type} {f : σ → ο → Except ε σ} {P : σ → Prop} {l : List ο} {s s' : σ}
    (hstep : ∀ s o s', o ∈ l → P s → f s o = .ok s' → P s') (h : P s) (hrun : l.foldlM f s = .ok s') : P s' := by
  induction l generalizing s with
  | nil =>
    obtain rfl := Except.ok.inj hrun
    exact h
  | cons o l ih =>
    rw [List.foldlM_cons] at hrun
    cases hf : f s o with
    | error e =>
      rw [hf] at hrun
      cases hrun
    | ok s₁ =>
      rw [hf] at hrun
      exact ih (fun s o s' ho => hstep s o s' (List.mem_cons_of_mem _ ho)) (hstep s o s₁ List.mem_cons_self h hf) hrun

/-- constraints of one type have no column in common -/
def Apart (c d : NewConstraint) : Prop := c.type = d.type → ∀ x ∈ c.columns, x ∉ d.columns

theorem apart_symm {c d : NewConstraint} (h : Apart c d) : Apart d c := fun heq x hx hxc => h heq.symm x hxc hx

/-- what the listener has checked of a plan -/
structure Checked (t : Table V) (entries : List Entry) (p : Plan) : Prop where
  add : ∀ a ∈ p.addColumns, t.columns a.1 = none ∧ .addColumn a.1 a.2 ∈ entries
  addNodup : (p.addColumns.map Prod.fst).Nodup
  drop : ∀ c ∈ p.dropColumns, .dropColumn c ∈ entries
  alter : ∀ a ∈ p.alterColumns, (t.columns a.1).isSome ∧ .alterColumn a.1 a.2 ∈ entries
  alterNodup : (p.alterColumns.map Prod.fst).Nodup
  rename : ∀ r ∈ p.renameColumns, .renameColumn r.1 r.2 ∈ entries
  new : ∀ c ∈ p.newConstraints, .addConstraint c ∈ entries ∧
    ∀ x ∈ c.columns, ∃ col, t.columns x = some col ∧ c.type ∉ t.getConstraintsForColumn x col
  apart : p.newConstraints.Pairwise Apart

theorem constrained_false {l : List NewConstraint} {type : ConstraintType} {x : String}
    (h : ¬ constrained l type x = true) : ∀ c ∈ l, c.type = type → x ∉ c.columns := by
  intro c hc htype hx
  refine h (List.any_eq_true.2 ⟨c, hc, ?_⟩)
  simp [htype, hx]

theorem checkColumns_ok {l : List NewConstraint} {type : ConstraintType} {earlier names : List String}
    (h : checkColumns t l type earlier names = .ok ()) : ∀ x ∈ names,
      (∃ col, t.columns x = some col ∧ type ∉ t.getConstraintsForColumn x col) ∧
        ∀ c ∈ l, c.type = type → x ∉ c.columns := by
  induction names generalizing earlier with
  | nil => exact fun x hx => absurd hx List.not_mem_nil
  | cons y names ih =>
    unfold checkColumns at h
    cases hy : t.columns y with
    | none =>
      rw [hy] at h
      cases h
    | some c =>
      rw [hy] at h
      simp only at h
      split_ifs at h with hindex hearlier hflag hnew
      intro x hx
      rcases List.mem_cons.1 hx with rfl | hx
      · exact ⟨⟨c, hy, hflag⟩, constrained_false hnew⟩
      · exact ih h x hx

theorem exitEntry_checked {entries : List Entry} {p p' : Plan} {e : Entry} (he : e ∈ entries)
    (h : Checked t entries p) (hstep : exitEntry t p e = .ok p') : Checked t entries p' := by
  cases e with
  | addColumn name type =>
    simp only [exitEntry] at hstep
    split_ifs at hstep with hcheck
    obtain rfl := Except.ok.inj hstep
    rw [not_or] at hcheck
    refine { h with add := ?_, addNodup := ?_ }
    · intro a ha
      rcases List.mem_append.1 ha with ha | ha
      · exact h.add a ha
      · obtain rfl := List.mem_singleton.1 ha
        exact ⟨by simpa using hcheck.1, he⟩
    · rw [List.map_append, List.nodup_append]
      refine ⟨h.addNodup, by simp, ?_⟩
      intro a ha b hb
      obtain rfl : b = name := by simpa using hb
      exact fun heq => hcheck.2 (heq ▸ ha)
  | dropColumn name =>
    simp only [exitEntry] at hstep
    split_ifs at hstep with hcheck
    obtain rfl := Except.ok.inj hstep
    refine { h with drop := ?_ }
    intro c hc
    rcases List.mem_append.1 hc with hc | hc
    · exact h.drop c hc
    · obtain rfl := List.mem_singleton.1 hc
      exact he
  | alterColumn name type =>
    simp only [exitEntry] at hstep
    split_ifs at hstep with hcheck htwice
    obtain rfl := Except.ok.inj hstep
    refine { h with alter := ?_, alterNodup := ?_ }
    · intro a ha
      rcases List.mem_append.1 ha with ha | ha
      · exact h.alter a ha
      · obtain rfl := List.mem_singleton.1 ha
        exact ⟨by simpa [Option.isSome_iff_ne_none] using hcheck, he⟩
    · rw [List.map_append, List.nodup_append]
      refine ⟨h.alterNodup, by simp, ?_⟩
      intro a ha b hb
      obtain rfl : b = name := by simpa using hb
      exact fun heq => htwice (heq ▸ ha)
  | renameColumn a b =>
    simp only [exitEntry] at hstep
    split_ifs at hstep with hcheck htwice htaken
    obtain rfl := Except.ok.inj hstep
    refine { h with rename := ?_ }
    intro r hr
    rcases List.mem_append.1 hr with hr | hr
    · exact h.rename r hr
    · obtain rfl := List.mem_singleton.1 hr
      exact he
  | addConstraint c =>
    simp only [exitEntry] at hstep
    split_ifs at hstep with hcheck
    cases hcols : checkColumns t p.newConstraints c.type [] c.columns with
    | error err =>
      rw [hcols] at hstep
      cases hstep
    | ok u =>
      rw [hcols] at hstep
      obtain rfl := Except.ok.inj hstep
      have hok := checkColumns_ok hcols
      refine { h with new := ?_, apart := ?_ }
      · intro d hd
        rcases List.mem_append.1 hd with hd | hd
        · exact h.new d hd
        · obtain rfl := List.mem_singleton.1 hd
          exact ⟨he, fun x hx => (hok x hx).1⟩
      · rw [List.pairwise_append]
        refine ⟨h.apart, List.pairwise_singleton _ _, ?_⟩
        intro d hd c' hc' heq x hx hxc
        obtain rfl := List.mem_singleton.1 hc'
        exact (hok x hxc).2 d hd heq hx
  | dropConstraint name type =>
    simp only [exitEntry] at hstep
    split_ifs at hstep with hcheck htwice
    obtain rfl := Except.ok.inj hstep
    exact { h with }
  | alterBlockSize n =>
    obtain rfl := Except.ok.inj hstep
    exact { h with }

theorem exitSqlAlterTable_checked {entries : List Entry} {p : Plan} (h : exitSqlAlterTable t entries = .ok p) :
    Checked t entries p := by
  refine foldlM_ok (fun s o s' ho hs hstep => exitEntry_checked ho hs hstep) ?_ h
  exact ⟨by simp, by simp, by simp, by simp, by simp, by simp, by simp, List.Pairwise.nil⟩

/-- the checks do not depend on the order of the arguments -/
theorem checked_reorders {entries : List Entry} {p q : Plan} (h : Checked t entries p) (hpq : Reorders p q) :
    Checked t entries q :=
  { add := fun a ha => h.add a (hpq.addColumns.mem_iff.1 ha)
    addNodup := (hpq.addColumns.map Prod.fst).nodup_iff.2 h.addNodup
    drop := fun c hc => h.drop c (hpq.dropColumns.mem_iff.1 hc)
    alter := fun a ha => h.alter a (hpq.alterColumns.mem_iff.1 ha)
    alterNodup := (hpq.alterColumns.map Prod.fst).nodup_iff.2 h.alterNodup
    rename := fun r hr => h.rename r (hpq.renameColumns.mem_iff.1 hr)
    new := fun c hc => h.new c (hpq.newConstraints.mem_iff.1 hc)
    apart := (hpq.newConstraints.pairwise_iff (fun h => apart_symm h)).2 h.apart }

/-! ## Statements -/

/-- constraints of types that their columns do not have yet -/
structure Addable (l : List NewConstraint) (t : Table V) : Prop where
  good : Good t
  exist : ∀ c ∈ l, c.type = .index ∨ c.type = .none → ∀ x ∈ c.columns, (t.columns x).isSome
  fresh : ∀ c ∈ l, c.type ≠ .none → ∀ n cs, t.constraints n = some (c.type, cs) → ∀ x ∈ c.columns, x ∉ cs
  apart : l.Pairwise Apart

theorem addConstraints_good {l : List NewConstraint} {t : Table V} (h : Addable l t) :
    Good (each (fun t c => t.addConstraint c.name c.type c.columns) t l).1 := by
  refine (each_rule (P := Addable) (Q := Good) ?_ (fun t h => h.good) h).1
  intro c l t h
  obtain ⟨hgood, hext, hkeep⟩ := addConstraint_good h.good c.name c.type c.columns (h.exist c List.mem_cons_self)
    (h.fresh c List.mem_cons_self)
  have hapart := List.pairwise_cons.1 h.apart
  refine ⟨hgood, fun _ => ⟨hgood, ?_, ?_, hapart.2⟩⟩
  · exact fun d hd htype x hx => hkeep x (h.exist d (List.mem_cons_of_mem _ hd) htype x hx)
  · intro d hd hnone n cs hn x hx
    rcases hext n _ hn with hold | ⟨-, hnew⟩
    · exact h.fresh d (List.mem_cons_of_mem _ hd) hnone n cs hold x hx
    · -- the constraint that was just added
      obtain ⟨htype, rfl⟩ := Prod.mk.inj hnew
      exact apart_symm (hapart.1 d hd) htype x hx

theorem dropConstraints_good {l : List (String × ConstraintType)} {t : Table V} (h : Good t) :
    Good (each (fun t c => t.dropConstraint c.1) t l).1 :=
  (each_rule (P := fun _ t => Good t) (Q := Good)
    (fun c _ _ h => ⟨dropConstraint_good h c.1, fun _ => dropConstraint_good h c.1⟩) (fun _ h => h) h).1

variable {entries : List Entry} {p : Plan}

theorem not_needed_of_free (h : Kept A B t₀ t) {x : String} (hx : t.columns x = none) : ¬ A x := by
  intro hA
  obtain ⟨d, hd⟩ := Option.isSome_iff_exists.1 (h.exist _ hA)
  rw [hx] at hd
  cases hd

/-- ADD: columns under names that are free -/
theorem adds_kept (env : Environment V) (hBA : ∀ x, B x → A x) (hchecked : Checked t₀ entries p)
    (h : Kept A B t₀ t₀) : Kept A B t₀ (each (Table.addColumn env) t₀ p.addColumns).1 ∧
      ((each (Table.addColumn env) t₀ p.addColumns).2 = none → ∀ x, x ∉ p.addColumns.map Prod.fst →
        (each (Table.addColumn env) t₀ p.addColumns).1.columns x = t₀.columns x) := by
  have hrule := each_rule (f := Table.addColumn env) (Q := Kept A B t₀)
    (P := fun l t => Kept A B t₀ t ∧ (∀ a ∈ l, t.columns a.1 = none ∧ a.1 ∈ p.addColumns.map Prod.fst) ∧
      (l.map Prod.fst).Nodup ∧ ∀ x, x ∉ p.addColumns.map Prod.fst → t.columns x = t₀.columns x)
    (l := p.addColumns) (t := t₀) ?_ (fun t h => h.1)
    ⟨h, fun a ha => ⟨(hchecked.add a ha).1, List.mem_map_of_mem ha⟩, hchecked.addNodup, fun _ _ => rfl⟩
  · exact ⟨hrule.1, fun hnone => (hrule.2 hnone).2.2.2⟩
  · rintro a l t ⟨hkept, hfree, hnodup, hsame⟩
    obtain ⟨hnone, hadded⟩ := hfree a List.mem_cons_self
    obtain ⟨c, hnull, heq⟩ := addColumn_eq env hnone
    have hA := not_needed_of_free hkept hnone
    have hkept' : Kept A B t₀ { t with columns := Function.update t.columns a.1 (some c) } :=
      kept_update hkept (fun hb => absurd (hBA _ hb) hA) (fun hfalse => by rw [hnull] at hfalse; cases hfalse)
    rw [heq]
    obtain ⟨hnotmem, hnodup⟩ := List.nodup_cons.1 hnodup
    refine ⟨hkept', fun _ => ⟨hkept', ?_, hnodup, ?_⟩⟩
    · intro b hb
      obtain ⟨hbnone, hbadded⟩ := hfree b (List.mem_cons_of_mem _ hb)
      refine ⟨?_, hbadded⟩
      have hba : b.1 ≠ a.1 := fun hba => hnotmem (hba ▸ List.mem_map_of_mem hb)
      rw [← hbnone]
      exact Function.update_of_ne hba _ _
    · intro x hx
      have hxa : x ≠ a.1 := fun hxa => hx (hxa ▸ hadded)
      rw [← hsame x hx]
      exact Function.update_of_ne hxa _ _

/-- DROP: of columns that are not needed -/
theorem drops_kept {l : List String} (hl : ∀ c ∈ l, ¬ A c) (h : Kept A B t₀ t) :
    Kept A B t₀ (each Table.dropColumn t l).1 ∧
      ∀ x, (each Table.dropColumn t l).1.columns x = none ∨ (each Table.dropColumn t l).1.columns x = t.columns x := by
  induction l generalizing t with
  | nil => exact ⟨h, fun x => Or.inr rfl⟩
  | cons c l ih =>
    have hstep := kept_erase h (hl c List.mem_cons_self)
    obtain ⟨hkept, hcols⟩ := ih (fun d hd => hl d (List.mem_cons_of_mem _ hd)) hstep
    refine ⟨hkept, fun x => ?_⟩
    rcases hcols x with hx | hx
    · exact Or.inl hx
    · by_cases hxc : x = c
      · refine Or.inl (hx.trans ?_)
        rw [hxc]
        exact Function.update_self _ _ _
      · exact Or.inr (hx.trans (Function.update_of_ne hxc _ _))

/-- ALTER: columns as they were before the statement, unless they were dropped -/
theorem alters_kept (env : Environment V) (hBA : ∀ x, B x → A x) (hchecked : Checked t₀ entries p)
    (hsafe : ∀ a ∈ p.alterColumns, ∀ c, t₀.columns a.1 = some c → isValidCast c.type a.2 = true → c.type ≠ a.2 →
      ¬ B a.1 ∧ t₀.columns (Table.tempName a.1) = none ∧ Table.tempName a.1 ∉ p.addColumns.map Prod.fst)
    (hcols : ∀ x, x ∉ p.addColumns.map Prod.fst → t.columns x = none ∨ t.columns x = t₀.columns x)
    (h : Kept A B t₀ t) :
    Kept A B t₀ (each (Table.alterColumn env) t p.alterColumns).1 := by
  -- columns to be altered are there before the statement, so they are neither new nor a temporary column
  have hold : ∀ a ∈ p.alterColumns, a.1 ∉ p.addColumns.map Prod.fst := by
    intro a ha hadd
    obtain ⟨b, hb, hba⟩ := List.mem_map.1 hadd
    have hsome := (hchecked.alter a ha).1
    rw [← hba, (hchecked.add b hb).1] at hsome
    cases hsome
  refine (each_rule (f := Table.alterColumn env) (Q := Kept A B t₀)
    (P := fun l t => Kept A B t₀ t ∧ (l.map Prod.fst).Nodup ∧ (∀ a ∈ l, a ∈ p.alterColumns) ∧
      ∀ a ∈ l, (t.columns a.1 = none ∨ t.columns a.1 = t₀.columns a.1) ∧
        (t₀.columns (Table.tempName a.1) = none → Table.tempName a.1 ∉ p.addColumns.map Prod.fst →
          t.columns (Table.tempName a.1) = none))
    ?_ (fun t h => h.1) ⟨h, hchecked.alterNodup, fun a ha => ha, fun a ha => ⟨hcols a.1 (hold a ha), ?_⟩⟩).1
  · rintro a l t ⟨hkept, hnodup, hsub, hpending⟩
    obtain ⟨hcol, htemp⟩ := hpending a List.mem_cons_self
    have hnow : ∀ c, t.columns a.1 = some c → isValidCast c.type a.2 = true → c.type ≠ a.2 →
        ¬ B a.1 ∧ t.columns (Table.tempName a.1) = none := by
      intro c hc hvalid hne
      have hc₀ : t₀.columns a.1 = some c := by
        rcases hcol with hnone | heq
        · rw [hnone] at hc
          cases hc
        · exact heq.symm.trans hc
      obtain ⟨hB, hfree, hnew⟩ := hsafe a (hsub a List.mem_cons_self) c hc₀ hvalid hne
      exact ⟨hB, htemp hfree hnew⟩
    have hspec := alterColumn_kept env hBA hkept hnow rfl
    refine ⟨hspec.1, fun hok => ⟨hspec.1, (List.nodup_cons.1 hnodup).2, fun b hb => hsub b (List.mem_cons_of_mem _ hb), ?_⟩⟩
    intro b hb
    obtain ⟨hbcol, hbtemp⟩ := hpending b (List.mem_cons_of_mem _ hb)
    have hba : b.1 ≠ a.1 := fun hba => (List.nodup_cons.1 hnodup).1 (hba ▸ List.mem_map_of_mem hb)
    rw [hspec.2 hok b.1 hba]
    refine ⟨hbcol, fun hfree hnew => ?_⟩
    have hne : Table.tempName b.1 ≠ a.1 := by
      intro heq
      have hsome := (hchecked.alter a (hsub a List.mem_cons_self)).1
      rw [← heq, hfree] at hsome
      cases hsome
    rw [hspec.2 hok _ hne]
    exact hbtemp hfree hnew
  · intro hfree hnew
    rcases hcols _ hnew with hnone | heq
    · exact hnone
    · exact heq.trans hfree

/-- RENAME -/
theorem renames_kept (hBA : ∀ x, B x → A x) {l : List (String × String)} (hl : ∀ r ∈ l, r.1 ≠ r.2 → ¬ A r.1)
    (h : Kept A B t₀ t) : Kept A B t₀ (each Table.renameEntry t l).1 := by
  refine (each_rule (Q := Kept A B t₀) (P := fun l t => Kept A B t₀ t ∧ ∀ r ∈ l, r.1 ≠ r.2 → ¬ A r.1) ?_
    (fun t h => h.1) ⟨h, hl⟩).1
  rintro r l t ⟨hkept, hl⟩
  have hstep := kept_rename hBA hkept (hl r List.mem_cons_self)
  exact ⟨hstep, fun _ => ⟨hstep, fun s hs => hl s (List.mem_cons_of_mem _ hs)⟩⟩

theorem flagged_mem {type : ConstraintType} {x : String} {c : Column V} (h : Flagged t type x)
    (hc : t.columns x = some c) (hnone : type ≠ .none) : type ∈ t.getConstraintsForColumn x c := by
  obtain ⟨d, hd, hflag⟩ := h
  obtain rfl := Option.some.inj (hc.symm.trans hd)
  unfold Table.getConstraintsForColumn
  cases type with
  | none => exact absurd rfl hnone
  | index => simp [show x ∈ t.sortingColumns from hflag]
  | notNull => simp [show c.isNullable = false from hflag]
  | unique => simp [show c.isUnique = true from hflag]

/-- one statement, whether it throws or not -/
theorem alterTable_good (env : Environment V) (hgood : Good t) (hsafe : Safe t entries)
    (hchecked : Checked t entries p) : Good (alterTable env p t).1 := by
  -- what has to stay: the needed columns, and the flags of those with NOT NULL and UNIQUE constraints
  have hBA : ∀ x, Lists t [.notNull, .unique] x → Needed t entries x ∧ (t.columns x).isSome := by
    rintro x ⟨n, type, cs, hn, htype, hx⟩
    obtain ⟨c, hc, -⟩ := hgood.consistent.2 n type cs hn x hx
    refine ⟨Or.inr (Or.inl ⟨n, type, cs, hn, ?_, hx⟩), Option.isSome_iff_exists.2 ⟨c, hc⟩⟩
    cases type <;> simp
  have hA : ∀ x, x ∈ t.sortingColumns ∨ Lists t [.none, .index, .notNull, .unique] x →
      Needed t entries x ∧ (t.columns x).isSome := by
    rintro x (hx | hx)
    · exact ⟨Or.inl hx, hgood.consistent.1 x hx⟩
    · obtain ⟨n, type, cs, hn, -, hmem⟩ := id hx
      obtain ⟨c, hc, -⟩ := hgood.consistent.2 n type cs hn x hmem
      exact ⟨Or.inr (Or.inl hx), Option.isSome_iff_exists.2 ⟨c, hc⟩⟩
  have hfinal := fun {t' : Table V} h => good_kept (t := t') hgood hA (fun x hx => hx) h
  have hstart : Kept (fun x => Needed t entries x ∧ (t.columns x).isSome) (Lists t [.notNull, .unique]) t t :=
    kept_refl (fun x hx => hx.2) hgood.noNulls
  obtain ⟨hadd, haddcols⟩ := adds_kept env hBA hchecked hstart
  refine andThen_rule (hfinal hadd) fun hok₁ => ?_
  obtain ⟨hdrop, hdropcols⟩ := drops_kept (l := p.dropColumns)
    (fun c hc hneed => hsafe.drop c (hchecked.drop c hc) hneed.1) hadd
  refine andThen_rule (hfinal hdrop) fun _ => ?_
  have halter := alters_kept env hBA hchecked (fun a ha c hc hvalid hne => by
    obtain ⟨hB, hfree, hnew⟩ := hsafe.alter a.1 a.2 c (hchecked.alter a ha).2 hc hvalid hne
    refine ⟨hB, hfree, fun hmem => ?_⟩
    obtain ⟨b, hb, hba⟩ := List.mem_map.1 hmem
    exact hnew b.2 (hba ▸ (hchecked.add b hb).2)) (fun x hx => by
    rcases hdropcols x with hnone | heq
    · exact Or.inl hnone
    · exact Or.inr (heq.trans (haddcols hok₁ x hx))) hdrop
  refine andThen_rule (hfinal halter) fun _ => ?_
  have hrename := renames_kept hBA (l := p.renameColumns)
    (fun r hr hne hneed => hsafe.rename r.1 r.2 (hchecked.rename r hr) hne hneed.1) halter
  refine andThen_rule (hfinal hrename) fun _ => ?_
  have haddable : Addable p.newConstraints
      (each Table.renameEntry (each (Table.alterColumn env) (each Table.dropColumn
        (each (Table.addColumn env) t p.addColumns).1 p.dropColumns).1 p.alterColumns).1 p.renameColumns).1 := by
    refine ⟨hfinal hrename, ?_, ?_, hchecked.apart⟩
    · intro c hc htype x hx
      obtain ⟨hentry, hcols⟩ := hchecked.new c hc
      obtain ⟨col, hcol, -⟩ := hcols x hx
      refine hrename.exist x ⟨Or.inr (Or.inr ⟨c, hentry, ?_, hx⟩), Option.isSome_iff_exists.2 ⟨col, hcol⟩⟩
      rcases htype with htype | htype <;> simp [htype]
    · intro c hc hnone n cs hn x hx hmem
      rw [hrename.constraints] at hn
      obtain ⟨col, hcol, hflag⟩ := (hchecked.new c hc).2 x hx
      exact hflag (flagged_mem (hgood.consistent.2 n c.type cs hn x hmem) hcol hnone)
  refine andThen_rule (addConstraints_good haddable) fun _ => ?_
  refine andThen_rule (dropConstraints_good (addConstraints_good haddable)) fun _ => ?_
  exact changeBlockSize_good (dropConstraints_good (addConstraints_good haddable)) _

/-! ## Runs -/

theorem lookup_isSome {x : String} {l : List (String × DataType)} (h : x ∈ l.map Prod.fst) : (l.lookup x).isSome := by
  induction l with
  | nil => exact absurd h List.not_mem_nil
  | cons a l ih =>
    obtain ⟨y, type⟩ := a
    rw [List.lookup_cons]
    cases hxy : x == y with
    | true => rfl
    | false =>
      rcases List.mem_cons.1 h with rfl | h
      · simp at hxy
      · exact ih h

theorem mem_of_lookup {x : String} {l : List (String × DataType)} {type : DataType} (h : l.lookup x = some type) :
    x ∈ l.map Prod.fst := by
  induction l with
  | nil => cases h
  | cons a l ih =>
    obtain ⟨y, ty⟩ := a
    rw [List.lookup_cons] at h
    cases hxy : x == y with
    | true =>
      obtain rfl : x = y := by simpa using hxy
      exact List.mem_cons_self
    | false =>
      rw [hxy] at h
      exact List.mem_cons_of_mem _ (ih h)

theorem checkNewColumns_ok {p : NewTable} {type : ConstraintType} {earlier names : List String}
    (h : checkNewColumns p type earlier names = .ok ()) : ∀ x ∈ names,
      x ∈ p.columns.map Prod.fst ∧ ∀ c ∈ p.constraints, c.type = type → x ∉ c.columns := by
  induction names generalizing earlier with
  | nil => exact fun x hx => absurd hx List.not_mem_nil
  | cons y names ih =>
    unfold checkNewColumns at h
    cases hy : p.columns.lookup y with
    | none =>
      rw [hy] at h
      cases h
    | some ty =>
      rw [hy] at h
      simp only at h
      split_ifs at h with hindex hearlier hnew
      intro x hx
      rcases List.mem_cons.1 hx with rfl | hx
      · exact ⟨mem_of_lookup hy, constrained_false hnew⟩
      · exact ih h x hx

/-- what the listener has checked of a new table -/
def CheckedNew (p : NewTable) : Prop :=
  (∀ c ∈ p.constraints, ∀ x ∈ c.columns, x ∈ p.columns.map Prod.fst) ∧ p.constraints.Pairwise Apart

theorem exitNewEntry_checked {p p' : NewTable} {e : NewEntry} (h : CheckedNew p) (hstep : exitNewEntry p e = .ok p') :
    CheckedNew p' := by
  cases e with
  | column name type constraint =>
    simp only [exitNewEntry] at hstep
    split_ifs at hstep with hname
    have hsub : ∀ x ∈ p.columns.map Prod.fst, x ∈ (p.columns ++ [(name, type)]).map Prod.fst := by
      intro x hx
      rw [List.map_append]
      exact List.mem_append_left _ hx
    cases constraint with
    | none =>
      obtain rfl := Except.ok.inj hstep
      exact ⟨fun c hc x hx => hsub x (h.1 c hc x hx), h.2⟩
    | some ct =>
      simp only at hstep
      split_ifs at hstep
      obtain rfl := Except.ok.inj hstep
      refine ⟨?_, List.pairwise_append.2 ⟨h.2, List.pairwise_singleton _ _, ?_⟩⟩
      · intro c hc x hx
        rcases List.mem_append.1 hc with hc | hc
        · exact hsub x (h.1 c hc x hx)
        · obtain rfl := List.mem_singleton.1 hc
          obtain rfl := List.mem_singleton.1 hx
          simp
      · -- no earlier constraint lists a column that was not there
        intro c hc d hd _ x hx hxd
        obtain rfl := List.mem_singleton.1 hd
        obtain rfl := List.mem_singleton.1 hxd
        exact hname (h.1 c hc x hx)
  | constraint c =>
    simp only [exitNewEntry] at hstep
    split_ifs at hstep
    cases hcols : checkNewColumns p c.type [] c.columns with
    | error err =>
      rw [hcols] at hstep
      cases hstep
    | ok u =>
      rw [hcols] at hstep
      obtain rfl := Except.ok.inj hstep
      have hok := checkNewColumns_ok hcols
      refine ⟨?_, List.pairwise_append.2 ⟨h.2, List.pairwise_singleton _ _, ?_⟩⟩
      · intro d hd x hx
        rcases List.mem_append.1 hd with hd | hd
        · exact h.1 d hd x hx
        · obtain rfl := List.mem_singleton.1 hd
          exact (hok x hx).1
      · intro d hd c' hc' heq x hx hxc
        obtain rfl := List.mem_singleton.1 hc'
        exact (hok x hxc).2 d hd heq hx

theorem created_good (h : Created t) : Good t := by
  obtain ⟨entries, p, constraints, blockSize, hexit, hperm, -, hcreate⟩ := h
  have hchecked : CheckedNew p :=
    foldlM_ok (fun s o s' _ hs hstep => exitNewEntry_checked hs hstep) ⟨by simp, List.Pairwise.nil⟩ hexit
  have haddable : Addable constraints (newColumns blockSize p.columns : Table V) := by
    refine ⟨⟨⟨fun x hx => absurd hx List.not_mem_nil, ?_⟩, ?_, ?_⟩, ?_, ?_, ?_⟩
    · intro n type cs hn
      cases hn
    · intro n m type cs ds hn
      cases hn
    · intro name c hc hnull
      obtain ⟨type, -, rfl⟩ := Option.map_eq_some_iff.1 hc
      cases hnull
    · intro c hc _ x hx
      have hcol := lookup_isSome (hchecked.1 c (hperm.mem_iff.1 hc) x hx)
      simpa [newColumns] using hcol
    · intro c _ _ n cs hn
      cases hn
    · exact (hperm.pairwise_iff (fun h => apart_symm h)).2 hchecked.2
  have hgood := addConstraints_good haddable
  unfold createTable at hcreate
  rw [hcreate] at hgood
  exact hgood

theorem step_good (env : Environment V) {s : Statement} {t' : Table V} (hgood : Good t) (hsafe : Safe t s.entries)
    (hstep : step env t s = some t') : Good t' := by
  unfold step at hstep
  cases hexit : exitSqlAlterTable t s.entries with
  | error e =>
    rw [hexit] at hstep
    cases hstep
  | ok p =>
    rw [hexit] at hstep
    simp only at hstep
    split_ifs at hstep with horder
    obtain rfl := Option.some.inj hstep
    exact alterTable_good env hgood hsafe (checked_reorders (exitSqlAlterTable_checked hexit) horder)

/-- After CREATE TABLE and any ALTER TABLE statements that drop, rename and convert no column that a constraint needs, all
names of constraints and sorting columns are columns, with the flags that the constraints ask for. -/
theorem constraints_name_columns (env : Environment V) (hcreated : Created t₀)
    (h : Run.Reach (step env) (fun t s => Safe t s.entries) t₀ t) : Consistent t :=
  (Run.reach_inv Good (created_good hcreated) (fun _ _ _ hg hsafe hstep => step_good env hg hsafe hstep) h).consistent

/-- conversions leave values as they are -/
def sampleEnv : Environment ℕ where
  convert _ _ := some .ok
  nullValue _ := 0
  blocksSizes _ _ := []

/-- CREATE TABLE t (a INT INDEX, b INT) -/
def sampleTable : Table ℕ :=
  (createTable 4 [("a", .int), ("b", .int)] [⟨"a_IC", .index, ["a"]⟩]).1

theorem created_sampleTable : Created sampleTable :=
  ⟨[.column "a" .int (some .index), .column "b" .int none], ⟨[("a", .int), ("b", .int)], [⟨"a_IC", .index, ["a"]⟩]⟩,
    [⟨"a_IC", .index, ["a"]⟩], 4, rfl, List.Perm.refl _, List.pairwise_singleton _ _, rfl⟩

/-- DROP COLUMN b -/
def dropB : Statement := ⟨[.dropColumn "b"], ⟨[], ["b"], [], [], [], [], 4⟩⟩

/-- DROP COLUMN a -/
def dropA : Statement := ⟨[.dropColumn "a"], ⟨[], ["a"], [], [], [], [], 4⟩⟩

theorem sampleTable_constraints {name : String} {c : ConstraintType × List String}
    (h : sampleTable.constraints name = some c) : c = (.index, ["a"]) := by
  replace h : Function.update (fun _ => none) "a_IC" (some (.index, ["a"])) name = some c := h
  by_cases hname : name = "a_IC"
  · rw [hname, Function.update_self] at h
    exact (Option.some.inj h).symm
  · rw [Function.update_of_ne hname] at h
    cases h

theorem safe_dropB : Safe sampleTable dropB.entries := by
  refine ⟨?_, by simp [dropB], by simp [dropB]⟩
  intro c hc
  obtain rfl : c = "b" := by simpa [dropB] using hc
  rintro (hsort | ⟨name, type, cols, hname, -, hmem⟩ | ⟨new, hnew, -⟩)
  · revert hsort
    decide
  · obtain ⟨-, rfl⟩ := Prod.mk.inj (sampleTable_constraints hname)
    revert hmem
    decide
  · simp [dropB] at hnew

theorem constraints_name_columns_dropB :
    ∃ t, step sampleEnv sampleTable dropB = some t ∧ Consistent t := by
  obtain ⟨t, ht⟩ : ∃ t, step sampleEnv sampleTable dropB = some t := ⟨_, rfl⟩
  exact ⟨t, ht, constraints_name_columns sampleEnv created_sampleTable (.tail dropB .refl safe_dropB ht)⟩

/-- DROP COLUMN leaves the name of an indexed column in the sorting columns. -/
theorem dropped_index_dangles : ¬ ∀ (env : Environment ℕ) (t₀ t : Table ℕ), Created t₀ →
    Run.Reach (step env) (fun _ _ => True) t₀ t → Consistent t := by
  intro h
  obtain ⟨t, ht⟩ : ∃ t, step sampleEnv sampleTable dropA = some t := ⟨_, rfl⟩
  have hconsistent := h sampleEnv sampleTable t created_sampleTable (.tail dropA .refl trivial ht)
  obtain rfl := Option.some.inj ht
  have hsome := hconsistent.1 "a" (by decide)
  revert hsome
  decide

end QikkDB.Constraints

/-
Whether the GPU memory cache can be stale (GpuSqlDispatcherVMFunctions, `LoadCol`; GpuSqlDispatcher.cpp,
`LoadColNullMask`, `ClearCachedBlocks`, `AlterTable`, `DropTable`; GpuSqlDispatcherInsertFunctions.cpp,
`InsertIntoDone`).

LoadCol asks the cache of its device for a block under a key made of names and numbers, and copies the block from the
column when there is none. INSERT INTO and ALTER COLUMN clear the blocks they are about to change, by the name of the
column. The other statements clear nothing, and a block of a JOIN stands under a name that is never cleared.

- a database is a map of tables, a table a map of columns, both without an order of their own; the columns are those of
  `Column`, uncompressed;
- `memory`: what the device holds behind a pointer, as the values or the words that were copied there;
- a query is the list of the requests its instructions make, on any device and in any order; where the rows of a clustered
  insert go is a parameter of the statement.

Results:
- `Held`, `step_inv`: every cached block is the one of the last request for its key, as long as no statement disturbed it.
- `cache_never_stale`: every hit of a run is right if the requests repeat undisturbed ones.
-/
import Mathlib.Data.List.AList
import Mathlib.Tactic
import QikkDB.Core.BlockInvariant
import QikkDB.Engine.CacheContents
import QikkDB.Engine.CacheRequests
import QikkDB.Lib.Run
import QikkDB.Table.BlockBuffers

namespace QikkDB.CacheFreshness

open NullValues CacheKey Decimal Column BlockInvariant
open BlockBuffers (Kind ColumnTypes StoredColumn NewColumn copyBlocksOfColumn DataType)
open BlockBuffers.ColumnTypes

/-! ## Databases -/

variable {T : Type} [DecidableEq T] [ColumnTypes T]

structure Tbl (T : Type) [ColumnTypes T] where
  blockSize : ℕ
  sortingColumns : List String
  columns : AList fun _ : String => StoredColumn T

structure Db (T : Type) [ColumnTypes T] where
  name : String
  blockSize : ℕ
  tables : AList fun _ : String => Tbl T

/-- GetTables().at(table).GetColumns().at(column) -/
def Db.column (d : Db T) (table column : String) : Option (StoredColumn T) :=
  (d.tables.lookup table).bind fun t => t.columns.lookup column

def Db.setTable (d : Db T) (table : String) (t : Tbl T) : Db T := { d with tables := d.tables.insert table t }

def Tbl.setColumn (t : Tbl T) (column : String) (s : StoredColumn T) : Tbl T :=
  { t with columns := t.columns.insert column s }

/-! ## Requests -/

/-- what LoadCol and LoadColNullMask ask for -/
inductive What where
  /-- the values of the load window -/
  | window
  /-- the null mask of the load window -/
  | mask
  /-- LoadColNullMask: the null mask from the first row on -/
  | wholeMask
  /-- the values at the join indices; the names of the joined tables are part of the key -/
  | joined (tables : List String) (indices : List ℕ)
  | joinedMask (tables : List String) (indices : List ℕ)
  /-- a buffer of the texts or polygons at the join indices, which are cached without the names -/
  | joinedPart (part : String) (indices : List ℕ)
deriving DecidableEq

/-- joinCacheId without the name of the column -/
def joinCacheId (tables : List String) : Text := "_join".toList ++ tables.flatMap fun t => '_' :: t.toList

def What.suffix : What → Text
  | .window => []
  | .mask => NULL_SUFFIX
  | .wholeMask => NULL_SUFFIX
  | .joined tables _ => joinCacheId tables
  | .joinedMask tables _ => joinCacheId tables ++ NULL_SUFFIX
  | .joinedPart part _ => part.toList

/-- one request to the cache -/
structure Fetch where
  table : String
  column : String
  what : What
  blockIndex : ℕ
  loadSize : ℕ
  loadOffset : ℕ
deriving DecidableEq

/-- the name that GetColumn gets -/
def Fetch.tableAndColumnName (f : Fetch) : Text := f.table.toList ++ '.' :: f.column.toList ++ f.what.suffix

def Fetch.key (databaseName : String) (f : Fetch) : Text :=
  columnBlock databaseName.toList f.tableAndColumnName f.blockIndex f.loadSize f.loadOffset

/-- ShiftNullMaskLeft by one bit -/
def shiftNullMask : Mask → Mask
  | [] => []
  | w :: ws => ((w >>> 1) ||| ((ws.headD 0 &&& 1) <<< 63)) :: shiftNullMask ws

/-- the words LoadCol copies: those of the window, moved to its first row -/
def windowMask (mask : Mask) (size loadSize loadOffset : ℕ) : Mask :=
  if loadOffset > 0 then
    let offsetBitMaskCapacity := min (getNullBitMaskSize (loadSize + loadOffset)) (getNullBitMaskSize size)
    (shiftNullMask^[loadOffset] (mask.take offsetBitMaskCapacity)).take (getNullBitMaskSize loadSize)
  else mask.take (getNullBitMaskSize loadSize)

/-- reorderNullMaskByJI: the bit of a row is moved by eight bits for each row before it in its group of eight -/
def reorderNullMask (bits : List Bool) : Mask :=
  bits.zipIdx.foldl
    (fun m p => m.modify (p.2 / 64) fun w => w ||| ((if p.1 then 1 else 0) <<< (p.2 % 8 * 8)))
    (zeroMask bits.length)

/-- what is copied to the device -/
inductive Payload (T : Type) [ColumnTypes T] where
  /-- values, or the buffer called `part` that is made of texts or polygons -/
  | data (part : String) (type : T) (values : List (Elem type))
  | words (mask : Mask)

/-- the row at a join index -/
def joinedValue (s : StoredColumn T) (blockSize index : ℕ) : Option (Elem s.type) := do
  let b ← s.column.getBlocksList[index / blockSize]?
  b.data[index % blockSize]?

def joinedBit (s : StoredColumn T) (blockSize index : ℕ) : Option Bool := do
  let b ← s.column.getBlocksList[index / blockSize]?
  let mask ← b.bitMask
  some (getBit mask (index % blockSize))

/-- what is to be copied of a column for a request; `none` where the host memory is not there -/
def copiedFrom (blockSize : ℕ) (s : StoredColumn T) (f : Fetch) : Option (Payload T) :=
  match f.what with
  | .window => do
    let b ← s.column.getBlocksList[f.blockIndex]?
    if f.loadOffset + f.loadSize ≤ b.data.length then
      some (.data "" s.type ((b.data.drop f.loadOffset).take f.loadSize))
    else none
  | .mask => do
    let b ← s.column.getBlocksList[f.blockIndex]?
    let mask ← b.bitMask
    some (.words (windowMask mask b.size f.loadSize f.loadOffset))
  | .wholeMask => do
    let b ← s.column.getBlocksList[f.blockIndex]?
    let mask ← b.bitMask
    some (.words (mask.take (getNullBitMaskSize f.loadSize)))
  | .joined _ indices => do
    let values ← indices.mapM (joinedValue s blockSize)
    some (.data "" s.type values)
  | .joinedMask _ indices => do
    let bits ← indices.mapM (joinedBit s blockSize)
    some (.words (reorderNullMask bits))
  | .joinedPart part indices => do
    let values ← indices.mapM (joinedValue s blockSize)
    some (.data part s.type values)

def copied (d : Db T) (f : Fetch) : Option (Payload T) := do
  let s ← d.column f.table f.column
  copiedFrom d.blockSize s f

/-- how LoadCol or LoadColNullMask is called -/
inductive Source where
  | column
  | nullMask
  /-- usingJoin_: the joined tables in the order of joinIndices_ and the indices of the block -/
  | join (tables : List String) (indices : List ℕ)

structure Load where
  table : String
  column : String
  source : Source
  blockIndex : ℕ
  loadSize : ℕ
  loadOffset : ℕ
  /-- the mask is in a register already -/
  maskLoaded : Bool

/-- the buffers that a text or polygon takes on the device -/
def parts : Kind → List String
  | .text => ["_stringIndices", "_allChars"]
  | .polygon => ["_polyPoints", "_pointIdx", "_polyIdx"]
  | _ => []

/-- the requests of one call. Texts and polygons are cached in a JOIN only, and only when the column is nullable: the
pointer of the null mask is passed where the flag useCache is expected. -/
def Load.asks (d : Db T) (l : Load) : Option (List What) := do
  let s ← d.column l.table l.column
  match l.source with
  | .nullMask => some [.wholeMask]
  | .column =>
    let b ← s.column.getBlocksList[l.blockIndex]?
    match kind s.type with
    | .number | .point => some (.window :: if b.isNullable && !l.maskLoaded then [.mask] else [])
    | .text | .polygon => some []
  | .join tables indices =>
    let masks := if s.column.isNullable && !l.maskLoaded then [What.joinedMask tables indices] else []
    match kind s.type with
    | .number | .point => some (.joined tables indices :: masks)
    | .text | .polygon =>
      some (masks ++ if s.column.isNullable then (parts (kind s.type)).map fun p => .joinedPart p indices else [])

def Load.fetch (l : Load) (what : What) : Fetch :=
  ⟨l.table, l.column, what, l.blockIndex, l.loadSize, l.loadOffset⟩

/-! ## Statements -/

/-- the values of an INSERT INTO for one column -/
structure Inserted (T : Type) [ColumnTypes T] where
  name : String
  type : T
  data : List (Elem type)
  nullMask : Mask

/-- the statements that change tables; a rule of the table may refuse the rows of an INSERT INTO -/
inductive Change (T : Type) [ColumnTypes T] where
  | createTable (table : String) (blockSize : ℕ) (columns : List (NewColumn T))
  | dropTable (table : String)
  | insertInto (table : String) (columns : List (Inserted T)) (accepted : Bool) (positions : List (ℕ × ℕ))
  | addColumn (table : String) (column : NewColumn T) (nullConstant : Elem column.type)
  | dropColumn (table column : String)
  | alterColumn (table column : String) (new : NewColumn T)
      (conv : (src dst : T) → Option (Conversion (Elem src) (Elem dst)))
  | renameColumn (table column newColumn : String)
  | renameTable (table newTable : String)
  /-- a NOT NULL constraint is added or dropped -/
  | setIsNullable (table column : String) (isNullable : Bool)
  /-- an INDEX constraint is added or dropped -/
  | setSortingColumns (table : String) (columns : List String)
  | changeTableBlockSize (table : String) (newBlockSize : ℕ)

/-- the requests and statements of a run, latest first -/
inductive Event (T : Type) [ColumnTypes T] where
  | requested (f : Fetch)
  | changed (c : Change T)

structure Device (T : Type) [ColumnTypes T] where
  cache : GPUMemoryCache.St
  /-- what was written behind a pointer -/
  memory : ℕ → Option (Payload T)

structure St (T : Type) [ColumnTypes T] where
  db : Db T
  devices : ℕ → Device T
  history : List (Event T)
  /-- for every hit what was cached and what would have been copied -/
  hits : List (Option (Payload T) × Payload T)

/-! ### InsertData -/

/-- InsertData of one column, with the data cast to its type -/
def StoredColumn.insertData (rowsLimit : Option ℕ) (s : StoredColumn T) (i : Inserted T) : Outcome (StoredColumn T) :=
  if h : i.type = s.type then
    match s.column.insertDataMasked rowsLimit (h ▸ i.data) i.nullMask (-1) true UINT32_MAX with
    | .ok c => (⟨s.type, c⟩, none)
    | .error e => (s, some e)
  else (s, some .undefined)

/-- InsertDataOnSpecificPosition of row `k` of one column -/
def StoredColumn.insertAt (rowsLimit : Option ℕ) (k : ℕ) (position : ℕ × ℕ) (s : StoredColumn T) (i : Inserted T) :
    Outcome (StoredColumn T) :=
  if h : i.type = s.type then
    match (h ▸ i.data : List (Elem s.type))[k]? with
    | none => (s, some .undefined)
    | some x =>
      let r := s.column.insertDataOnSpecificPosition rowsLimit position.1 position.2 x (-1) (getBit i.nullMask k)
      (⟨s.type, r.1⟩, r.2)
  else (s, some .undefined)

/-- a loop over the columns that have data, left by the first exception -/
def Tbl.eachColumn (insert : StoredColumn T → Inserted T → Outcome (StoredColumn T)) :
    List (Inserted T) → Tbl T → Outcome (Tbl T)
  | [], t => (t, none)
  | i :: is, t =>
    match t.columns.lookup i.name with
    | none => eachColumn insert is t
    | some s =>
      let r := insert s i
      match r.2 with
      | none => eachColumn insert is (t.setColumn i.name r.1)
      | some e => (t.setColumn i.name r.1, some e)

/-- the rows of a clustered insert, one after the other -/
def Tbl.eachRow (rowsLimit : Option ℕ) (is : List (Inserted T)) : ℕ → List (ℕ × ℕ) → Tbl T → Outcome (Tbl T)
  | _, [], t => (t, none)
  | k, position :: positions, t =>
    let r := t.eachColumn (StoredColumn.insertAt rowsLimit k position) is
    match r.2 with
    | none => eachRow rowsLimit is (k + 1) positions r.1
    | some e => (r.1, some e)

/-- Table::InsertData behind its checks -/
def Tbl.insertData (rowsLimit : Option ℕ) (is : List (Inserted T)) (positions : List (ℕ × ℕ)) (t : Tbl T) :
    Outcome (Tbl T) :=
  if t.sortingColumns.isEmpty then t.eachColumn (StoredColumn.insertData rowsLimit) is
  else t.eachRow rowsLimit is 0 positions

/-! ### ClearCachedBlocks -/

section Clear

variable (deviceCount : ℕ) (databaseName : String)

/-- ClearCachedBlock on the device of the block -/
def clearBlock (name : Text) (devices : ℕ → Device T) (i : ℕ) : Option (ℕ → Device T) :=
  let device := devices (i % deviceCount)
  match GPUMemoryCache.clearCachedBlock device.cache databaseName.toList name i with
  | some (.ok (), cache) => some (Function.update devices (i % deviceCount) { device with cache := cache })
  | _ => none

/-- one turn of the loop of ClearCachedBlocks -/
def clearBlocks (name : Text) (isNullable : Bool) (devices : ℕ → Device T) (i : ℕ) : Option (ℕ → Device T) := do
  let devices ← clearBlock deviceCount databaseName name devices i
  if isNullable then clearBlock deviceCount databaseName (name ++ NULL_SUFFIX) devices i else some devices

/-- ClearCachedBlocks -/
def clearCachedBlocks (table column : String) (s : StoredColumn T) (fromBlockIdx : ℕ) (devices : ℕ → Device T) :
    Option (ℕ → Device T) :=
  let blockCount := s.column.getBlocksList.length
  (List.range' fromBlockIdx (blockCount - fromBlockIdx)).foldlM
    (clearBlocks deviceCount databaseName (table.toList ++ '.' :: column.toList) s.column.isNullable) devices

/-- the loop of InsertIntoDone over the columns, before the rows are inserted -/
def clearInserted (table : String) (t : Tbl T) (devices : ℕ → Device T) (i : Inserted T) : Option (ℕ → Device T) := do
  let s ← t.columns.lookup i.name
  let fromBlockIdx := if t.sortingColumns.isEmpty then s.column.getBlocksList.length - 1 else 0
  clearCachedBlocks deviceCount databaseName table i.name s fromBlockIdx devices

end Clear

/-! ### What the statements do -/

/-- CreateColumn -/
def Tbl.createColumn (t : Tbl T) (n : NewColumn T) : Tbl T :=
  if n.name ∈ t.columns then t else t.setColumn n.name (n.create t.blockSize)

/-- one block of NULLs, with AddBlock and the bits of its rows -/
def addNulls {α : Type} [Element α] (nullConstant : α) (c : Column α) (size : ℕ) : Column α :=
  match Block.ofData c.blockSize (List.replicate size nullConstant) c.isNullable true true UINT32_MAX with
  | .error _ => c
  | .ok b =>
    match setNullBits b 0 (List.replicate size true) with
    | .error _ => c
    | .ok b => { c.setGroup (-1) (c.group (-1) ++ [b]) with size := c.size + size }

/-- CreateColumn and InsertNullDataIntoNewColumn, by the blocks of the first column -/
def Tbl.addColumn (t : Tbl T) (n : NewColumn T) (nullConstant : Elem n.type) : Tbl T :=
  let sizes :=
    match t.columns.entries with
    | [] => []
    | e :: _ => e.2.column.getBlocksList.map Block.size
  t.setColumn n.name ⟨n.type, sizes.foldl (addNulls nullConstant) (n.create t.blockSize).column⟩

/-- the columns after ALTER COLUMN, whether the copy succeeds or throws. A column that has the temporary name takes the
place of the new one. -/
def Tbl.alterColumn (t : Tbl T) (column : String) (s : StoredColumn T) (new : NewColumn T)
    (conv : (src dst : T) → Option (Conversion (Elem src) (Elem dst))) : Tbl T :=
  let dst := (t.columns.lookup (column ++ "_temp")).getD (new.create t.blockSize)
  let r := s.column.copyDataToColumn (conv s.type dst.type) dst.column
  let others := { t with columns := t.columns.erase (column ++ "_temp") }
  match r.2.2 with
  | none => others.setColumn column ⟨dst.type, r.2.1⟩
  | some _ => others.setColumn column ⟨s.type, r.1⟩

/-- an extracted node is lost if the new name is taken -/
def rename {β : Type} (m : AList fun _ : String => β) (name newName : String) (b : β) : AList fun _ : String => β :=
  if newName ∈ m.erase name then m.erase name else (m.erase name).insert newName b

/-- the columns of ChangeTableBlockSize, `none` where an exception in a thread ends the process -/
def resizeColumns (rowsLimit : Option ℕ) : List (Sigma fun _ : String => StoredColumn T) → Tbl T → Option (Tbl T)
  | [], t => some t
  | e :: es, t => do
    let dst := (t.columns.lookup e.1).getD ((e.2.again e.1).create t.blockSize)
    let new ← copyBlocksOfColumn rowsLimit e.2 dst
    resizeColumns rowsLimit es (t.setColumn e.1 new)

/-- the tables after a statement, `none` where it is refused, has nothing to change or ends the process -/
def Change.apply (rowsLimit : Option ℕ) (d : Db T) : Change T → Option (Db T)
  | .createTable table blockSize columns =>
    if table ∈ d.tables then none
    else some (d.setTable table (columns.foldl Tbl.createColumn ⟨blockSize, [], ∅⟩))
  | .dropTable table => some { d with tables := d.tables.erase table }
  | .insertInto table columns accepted positions => do
    let t ← d.tables.lookup table
    if accepted then
      match t.insertData rowsLimit columns positions with
      | (_, some .undefined) => none
      | (t, _) => some (d.setTable table t)
    else some d
  | .addColumn table column nullConstant => do
    let t ← d.tables.lookup table
    if column.name ∈ t.columns then none else some (d.setTable table (t.addColumn column nullConstant))
  | .dropColumn table column => do
    let t ← d.tables.lookup table
    some (d.setTable table { t with columns := t.columns.erase column })
  | .alterColumn table column new conv => do
    let t ← d.tables.lookup table
    let s ← t.columns.lookup column
    some (d.setTable table (t.alterColumn column s new conv))
  | .renameColumn table column newColumn => do
    let t ← d.tables.lookup table
    let s ← t.columns.lookup column
    some (d.setTable table { t with columns := rename t.columns column newColumn s })
  | .renameTable table newTable => do
    let t ← d.tables.lookup table
    some { d with tables := rename d.tables table newTable t }
  | .setIsNullable table column isNullable => do
    let t ← d.tables.lookup table
    let s ← t.columns.lookup column
    match s.column.setIsNullable isNullable with
    | .error _ => some d
    | .ok c => some (d.setTable table (t.setColumn column ⟨s.type, c⟩))
  | .setSortingColumns table columns => do
    let t ← d.tables.lookup table
    some (d.setTable table { t with sortingColumns := columns })
  | .changeTableBlockSize table newBlockSize => do
    let t ← d.tables.lookup table
    if newBlockSize = t.blockSize then none
    else
      let temp := (d.tables.lookup ("temp_" ++ table)).getD ⟨newBlockSize, [], ∅⟩
      let new ← resizeColumns rowsLimit t.columns.entries temp
      let others := (d.tables.erase table).erase ("temp_" ++ table)
      some ({ d with tables := others }.setTable table { new with sortingColumns := [] })

/-- what a statement clears before it changes the tables -/
def Change.clears (deviceCount : ℕ) (d : Db T) (devices : ℕ → Device T) : Change T → Option (ℕ → Device T)
  | .insertInto table columns _ _ => do
    let t ← d.tables.lookup table
    columns.foldlM (clearInserted deviceCount d.name table t) devices
  | .alterColumn table column _ _ => do
    let s ← d.column table column
    clearCachedBlocks deviceCount d.name table column s 0 devices
  | _ => some devices

/-! ### Runs -/

/-- what other users of a device's memory do; they write to blocks of their own -/
inductive MemoryOp (T : Type) [ColumnTypes T] where
  | setLockList (lockList : List Text)
  | setCurrentBlockIndex (blockIndex : ℕ)
  | allocate (numBytes : Int64)
  | deallocate (ptr : ℕ)
  | write (ptr : ℕ) (payload : Payload T)

inductive Op (T : Type) [ColumnTypes T] where
  /-- request number `i` of a call of LoadCol or LoadColNullMask; a buffer of texts or polygons is overwritten unless all
  buffers of the column were found -/
  | load (l : Load) (i : ℕ) (overwrite : Bool)
  | statement (c : Change T)
  | memory (device : ℕ) (op : MemoryOp T)

/-- bytes of an element and number of elements of a buffer -/
class DeviceTypes (T : Type) [ColumnTypes T] where
  layout : String → (t : T) → List (Elem t) → ℕ × ℕ

def Payload.layout [DeviceTypes T] : Payload T → ℕ × ℕ
  | .data part type values => DeviceTypes.layout part type values
  | .words mask => (8, mask.length)

/-- GetColumn and the copy that follows it unless it was a hit -/
def request [DeviceTypes T] (deviceCount : ℕ) (s : St T) (f : Fetch) (overwrite : Bool) : Option (St T) := do
  let p ← copied s.db f
  let device := s.devices (f.blockIndex % deviceCount)
  let history := .requested f :: s.history
  match GPUMemoryCache.getColumn device.cache p.layout.1 s.db.name.toList f.tableAndColumnName f.blockIndex p.layout.2
      f.loadSize f.loadOffset with
  | none => none
  | some (.error _, cache) =>
    some { s with
      devices := Function.update s.devices (f.blockIndex % deviceCount) { device with cache := cache }
      history := history }
  | some (.ok (ptr, _, hit), cache) =>
    if hit && !overwrite then
      some { s with
        devices := Function.update s.devices (f.blockIndex % deviceCount) { device with cache := cache }
        history := history
        hits := (device.memory ptr, p) :: s.hits }
    else
      some { s with
        devices := Function.update s.devices (f.blockIndex % deviceCount)
          { device with cache := cache, memory := Function.update device.memory ptr (some p) }
        history := history }

def memoryStep (device : Device T) : MemoryOp T → Option (Device T)
  | .setLockList l => some { device with cache := { device.cache with lockList := l } }
  | .setCurrentBlockIndex b => some { device with cache := { device.cache with currentBlockIndex := b } }
  | .allocate n => do
    let cache ← GPUMemoryCache.step device.cache (.allocate n)
    some { device with cache := cache }
  | .deallocate p => do
    let cache ← GPUMemoryCache.step device.cache (.deallocate p)
    some { device with cache := cache }
  | .write p payload =>
    if p ∈ device.cache.cacheMap.map GPUMemoryCache.CacheEntry.ptr then none
    else some { device with memory := Function.update device.memory p (some payload) }

def step [DeviceTypes T] (rowsLimit : Option ℕ) (deviceCount : ℕ) (s : St T) : Op T → Option (St T)
  | .load l i overwrite => do
    let asks ← l.asks s.db
    let what ← asks[i]?
    request deviceCount s (l.fetch what) overwrite
  | .statement c => do
    let devices ← c.clears deviceCount s.db s.devices
    let db ← c.apply rowsLimit s.db
    some { s with db := db, devices := devices, history := .changed c :: s.history }
  | .memory device op => do
    let d ← memoryStep (s.devices device) op
    some { s with devices := Function.update s.devices device d }

/-- a server with no tables and empty caches -/
structure Started (s : St T) : Prop where
  tables : s.db.tables = ∅
  caches : ∀ i, ∃ free percent start a maximumSize, CudaMemAllocator.construct free percent (some start) = .ok a ∧
    (s.devices i).cache = GPUMemoryCache.construct maximumSize a
  history : s.history = []
  hits : s.hits = []

/-! ## Columns -/

section Columns

variable {α β : Type} [Element α] [Element β]

/-- one group of blocks, as the statements make it -/
def Grouped (c : Column α) : Prop := c.Sorted ∧ ∀ g ∈ c.blocks, g.1 = -1

omit [Element α] in
theorem regroups_grouped : Regroups (Grouped (α := α)) (-1) where
  setGroup h size bs := by
    refine ⟨sorted_setGroup h.1 (-1) bs, ?_⟩
    intro g hg
    rcases mem_putGroup hg with rfl | hg
    · rfl
    · exact h.2 g hg
  counted h _ := h

/-- a column of one group whose blocks have a mask just when it is nullable -/
def Good (c : Column α) : Prop := All Masked c ∧ Grouped c

variable {c c' : Column α}

omit [Element α] in
theorem Grouped.getBlocksList (h : Grouped c) : c.getBlocksList = c.group (-1) := by
  obtain ⟨hsorted, hkeys⟩ := h
  unfold Column.getBlocksList Column.group
  rcases hc : c.blocks with _ | ⟨g, _ | ⟨g', gs⟩⟩
  · rfl
  · have hg : g.1 = -1 := hkeys g (by simp [hc])
    simp [hg]
  · rw [Column.Sorted, hc] at hsorted
    have hg : g.1 = -1 := hkeys g (by simp [hc])
    have hg' : g'.1 = -1 := hkeys g' (by simp [hc])
    have hlt := (List.pairwise_cons.1 hsorted).1 g'.1 (by simp)
    omega

omit [Element α] in
theorem good_fresh (name : String) (blockSize : ℕ) (isNullable isUnique : Bool) :
    Good { (fresh name blockSize : Column α) with isNullable := isNullable, isUnique := isUnique } := by
  refine ⟨all_fresh name blockSize isNullable isUnique, List.pairwise_singleton _ _, ?_⟩
  intro g hg
  obtain rfl := List.mem_singleton.1 hg
  rfl

theorem good_addNulls (h : Good c) (nullConstant : α) (size : ℕ) : Good (addNulls nullConstant c size) := by
  unfold addNulls
  split
  · exact h
  · rename_i b hb
    split
    · exact h
    · rename_i b' hb'
      have hmask := masked_kept.setNullBits (masked_kept.ofData hb) hb'
      exact ⟨h.1.append (-1) (c.size + size) hmask, regroups_grouped.setGroup h.2 _ _⟩

theorem good_insertDataMasked (h : Good c) {rowsLimit : Option ℕ} {columnData : List α} {nullMask : Mask}
    {saveNecessary : Bool} {index : ℕ}
    (hok : c.insertDataMasked rowsLimit columnData nullMask (-1) saveNecessary index = .ok c') : Good c' := by
  refine ⟨all_insertDataMasked masked_kept h.1 hok, ?_⟩
  unfold insertDataMasked at hok
  split_ifs at hok
  obtain ⟨-, -, hok⟩ := bind_eq_ok.1 hok
  split_ifs at hok
  obtain ⟨bs, -, hok⟩ := bind_eq_ok.1 hok
  obtain rfl := Except.ok.inj hok
  exact regroups_grouped.setGroup h.2 _ _

theorem good_insertAt (h : Good c) (rowsLimit : Option ℕ) (indexBlock indexInBlock : ℕ) (columnData : α)
    (isNullValue : Bool) :
    Good (c.insertDataOnSpecificPosition rowsLimit indexBlock indexInBlock columnData (-1) isNullValue).1 := by
  refine ⟨all_insertDataOnSpecificPosition masked_kept h.1 _ _ _ _ _ _, ?_⟩
  unfold Column.insertDataOnSpecificPosition
  split
  · exact h.2
  · simp only
    have hcounted : Grouped ({ c with size := c.size + 1 }.setGroup (-1) ({ c with size := c.size + 1 }.group (-1))) :=
      regroups_grouped.setGroup h.2 (c.size + 1) _
    split_ifs
    · have hadded : Grouped (({ c with size := c.size + 1 }.setGroup (-1)
          ({ c with size := c.size + 1 }.group (-1))).addBlock (-1) true UINT32_MAX) :=
        regroups_grouped.setGroup hcounted (c.size + 1) _
      split
      · exact hadded
      · exact regroups_grouped.setGroup hadded (c.size + 1) _
    · split
      · exact hcounted
      · exact regroups_grouped.setGroup hcounted (c.size + 1) _

theorem good_setIsNullable (h : Good c) {isNullable : Bool} (hok : c.setIsNullable isNullable = .ok c') : Good c' := by
  refine ⟨all_setIsNullable masked_kept h.1 hok, ?_⟩
  have hmap : ∀ f : List (Block α) → List (Block α), (c.blocks.map fun g => (g.1, f g.2)).map Prod.fst =
      c.blocks.map Prod.fst := fun f => by simp [Function.comp_def]
  have hgrouped : ∀ d : Column α, (∃ f : List (Block α) → List (Block α), d.blocks = c.blocks.map fun g => (g.1, f g.2)) →
      Grouped d := by
    rintro d ⟨f, hd⟩
    refine ⟨?_, ?_⟩
    · rw [Column.Sorted, hd, hmap]
      exact h.2.1
    · intro g hg
      rw [hd] at hg
      obtain ⟨g₀, hg₀, rfl⟩ := List.mem_map.1 hg
      exact h.2.2 g₀ hg₀
  unfold Column.setIsNullable at hok
  simp only at hok
  split_ifs at hok
  all_goals obtain rfl := Except.ok.inj hok
  · exact h.2
  · exact hgrouped _ ⟨_, rfl⟩
  · exact hgrouped _ ⟨_, rfl⟩

theorem good_resizeColumn (h : Good c) (rowsLimit : Option ℕ) (src : Column α) :
    Good (c.resizeColumn rowsLimit src).1 := by
  have hfilled := filled_resizeColumn masked_kept regroups_grouped h.1 h.2 rowsLimit src
  exact ⟨hfilled.all, hfilled.groups⟩

omit [Element β] in
theorem good_copyTo (conv : Option (Conversion β α)) {src : Column β} (hsrc : Good src) (h : Good c) :
    Good (src.copyDataToColumn conv c).2.1 := by
  have hfilled := filled_copyTo masked_kept conv src (fun g hg => hsrc.2.2 g hg ▸ regroups_grouped) h.1 h.2
  exact ⟨hfilled.all, hfilled.groups⟩

omit [Element β] in
theorem good_copyFrom (conv : Option (Conversion β α)) {src : Column β} (hsrc : Good src) (dst : Column α) :
    Good (src.copyDataToColumn conv dst).1 := by
  cases conv with
  | none => exact hsrc
  | some conv =>
    obtain ⟨hkeys, hsub⟩ := RowCount.copyGroups_source conv src.blocks dst
    refine ⟨fun b hb => hsrc.1 b (hsub hb), ?_, ?_⟩
    · rw [Column.Sorted]
      exact hkeys ▸ hsrc.2.1
    · intro g hg
      have hkey := List.mem_map_of_mem (f := Prod.fst) hg
      rw [show ((src.copyDataToColumn (some conv) dst).1).blocks.map Prod.fst = src.blocks.map Prod.fst from hkeys] at hkey
      obtain ⟨g₀, hg₀, heq⟩ := List.mem_map.1 hkey
      exact heq ▸ hsrc.2.2 g₀ hg₀

/-- the blocks before the last one are the same, and none is lost -/
def Extends (c c' : Column α) : Prop :=
  c.getBlocksList.length ≤ c'.getBlocksList.length ∧
    ∀ i < c.getBlocksList.length - 1, c'.getBlocksList[i]? = c.getBlocksList[i]?

omit [Element α] in
theorem Extends.refl (c : Column α) : Extends c c := ⟨le_refl _, fun _ _ => rfl⟩

omit [Element α] in
theorem Extends.trans {c'' : Column α} (h : Extends c c') (h' : Extends c' c'') : Extends c c'' := by
  refine ⟨h.1.trans h'.1, ?_⟩
  intro i hi
  have := h.1
  rw [h'.2 i (by omega), h.2 i hi]

/-- rows that are appended change the last block only -/
theorem extends_insertDataMasked (h : Good c) {rowsLimit : Option ℕ} {columnData : List α} {nullMask : Mask}
    {saveNecessary : Bool} {index : ℕ}
    (hok : c.insertDataMasked rowsLimit columnData nullMask (-1) saveNecessary index = .ok c') : Extends c c' := by
  rw [Extends, (good_insertDataMasked h hok).2.getBlocksList, h.2.getBlocksList]
  unfold insertDataMasked at hok
  split_ifs at hok
  obtain ⟨-, -, hok⟩ := bind_eq_ok.1 hok
  split_ifs at hok
  obtain ⟨bs, hbs, hok⟩ := bind_eq_ok.1 hok
  obtain rfl := Except.ok.inj hok
  rw [show ({ c.setGroup (-1) bs with size := c.size + (maskedBatch columnData nullMask).length } : Column α).group (-1) =
    (c.setGroup (-1) bs).group (-1) from rfl, group_setGroup]
  generalize c.group (-1) = old at *
  have hdrop : ∀ b rest, old.length ≤ (old.dropLast ++ b :: rest).length ∧
      ∀ i < old.length - 1, (old.dropLast ++ b :: rest)[i]? = old[i]? := by
    intro b rest
    refine ⟨by simp only [List.length_append, List.length_dropLast, List.length_cons]; omega, ?_⟩
    intro i hi
    rw [List.getElem?_append_left (by rw [List.length_dropLast]; exact hi), List.getElem?_dropLast, if_pos hi]
  unfold appendRows at hbs
  split at hbs
  · rename_i hlast
    rw [List.getLast?_eq_none_iff] at hlast
    subst hlast
    exact ⟨Nat.zero_le _, by simp⟩
  · split_ifs at hbs
    · obtain ⟨new, -, hbs⟩ := bind_eq_ok.1 hbs
      obtain rfl := Except.ok.inj hbs
      exact ⟨by simp, fun i hi => List.getElem?_append_left (by omega)⟩
    · obtain ⟨b, -, hbs⟩ := bind_eq_ok.1 hbs
      obtain rfl := Except.ok.inj hbs
      exact hdrop b []
    · obtain ⟨b, -, hbs⟩ := bind_eq_ok.1 hbs
      obtain ⟨new, -, hbs⟩ := bind_eq_ok.1 hbs
      obtain rfl := Except.ok.inj hbs
      exact hdrop b new

end Columns

/-! ## Tables -/

section Tables

omit [DecidableEq T] in
theorem lookup_setColumn (t : Tbl T) (column column' : String) (s : StoredColumn T) :
    (t.setColumn column s).columns.lookup column' = if column' = column then some s else t.columns.lookup column' := by
  split_ifs with h
  · subst h
    exact AList.lookup_insert _
  · exact AList.lookup_insert_ne h

omit [DecidableEq T] in
theorem column_setTable (d : Db T) (table table' column : String) (t : Tbl T) :
    (d.setTable table t).column table' column =
      if table' = table then t.columns.lookup column else d.column table' column := by
  unfold Db.column Db.setTable
  split_ifs with h
  · subst h
    rw [AList.lookup_insert]
    rfl
  · rw [AList.lookup_insert_ne h]

omit [DecidableEq T] in
theorem column_of_lookup {d : Db T} {table : String} {t : Tbl T} (h : d.tables.lookup table = some t) (column : String) :
    d.column table column = t.columns.lookup column := by
  rw [Db.column, h]
  rfl

def GoodTbl (t : Tbl T) : Prop := ∀ column s, t.columns.lookup column = some s → Good s.column

def GoodDb (d : Db T) : Prop := ∀ table column s, d.column table column = some s → Good s.column

variable {d d' : Db T} {t t' : Tbl T}

omit [DecidableEq T] in
theorem GoodDb.table (h : GoodDb d) {table : String} (ht : d.tables.lookup table = some t) : GoodTbl t := by
  intro column s hs
  exact h table column s (by rw [column_of_lookup ht, hs])

omit [DecidableEq T] in
theorem goodTbl_setColumn (h : GoodTbl t) (column : String) {s : StoredColumn T} (hs : Good s.column) :
    GoodTbl (t.setColumn column s) := by
  intro column' s' hs'
  rw [lookup_setColumn] at hs'
  split_ifs at hs'
  · obtain rfl := Option.some.inj hs'
    exact hs
  · exact h column' s' hs'

omit [DecidableEq T] in
theorem lookup_of_erase {β : Type} {m : AList fun _ : String => β} {name name' : String} {b : β}
    (h : (m.erase name).lookup name' = some b) : m.lookup name' = some b := by
  by_cases hne : name' = name
  · subst hne
    rw [AList.lookup_erase] at h
    cases h
  · rwa [AList.lookup_erase_ne hne] at h

omit [DecidableEq T] in
theorem goodTbl_erase (h : GoodTbl t) (column : String) : GoodTbl { t with columns := t.columns.erase column } :=
  fun column' s hs => h column' s (lookup_of_erase hs)

omit [DecidableEq T] in
theorem goodDb_setTable (h : GoodDb d) (table : String) (ht : GoodTbl t) : GoodDb (d.setTable table t) := by
  intro table' column s hs
  rw [column_setTable] at hs
  split_ifs at hs
  · exact ht column s hs
  · exact h table' column s hs

omit [DecidableEq T] in
theorem goodDb_erase (h : GoodDb d) (table : String) : GoodDb { d with tables := d.tables.erase table } := by
  intro table' column s hs
  obtain ⟨t, ht, hs⟩ := Option.bind_eq_some_iff.1 hs
  exact h table' column s (by rw [column_of_lookup (lookup_of_erase ht), hs])

theorem insertData_cases (rowsLimit : Option ℕ) (s : StoredColumn T) (i : Inserted T) :
    (StoredColumn.insertData rowsLimit s i).1 = s ∨ ∃ c data,
      (StoredColumn.insertData rowsLimit s i).1 = ⟨s.type, c⟩ ∧
        s.column.insertDataMasked rowsLimit data i.nullMask (-1) true UINT32_MAX = .ok c := by
  unfold StoredColumn.insertData
  split_ifs with htype
  · cases hc : s.column.insertDataMasked rowsLimit (htype ▸ i.data) i.nullMask (-1) true UINT32_MAX with
    | ok c => exact Or.inr ⟨c, _, rfl, hc⟩
    | error e => exact Or.inl rfl
  · exact Or.inl rfl

/-- one column after InsertData -/
theorem insertData_good (rowsLimit : Option ℕ) (s : StoredColumn T) (i : Inserted T) (h : Good s.column) :
    Good (StoredColumn.insertData rowsLimit s i).1.column ∧
      ∃ c, (StoredColumn.insertData rowsLimit s i).1 = ⟨s.type, c⟩ ∧ Extends s.column c := by
  rcases insertData_cases rowsLimit s i with heq | ⟨c, data, heq, hc⟩
  · rw [heq]
    exact ⟨h, _, rfl, Extends.refl _⟩
  · rw [heq]
    exact ⟨good_insertDataMasked h hc, c, rfl, extends_insertDataMasked h hc⟩

theorem insertAt_cases (rowsLimit : Option ℕ) (k : ℕ) (position : ℕ × ℕ) (s : StoredColumn T) (i : Inserted T) :
    (StoredColumn.insertAt rowsLimit k position s i).1 = s ∨ ∃ x,
      (StoredColumn.insertAt rowsLimit k position s i).1 = ⟨s.type,
        (s.column.insertDataOnSpecificPosition rowsLimit position.1 position.2 x (-1) (getBit i.nullMask k)).1⟩ := by
  unfold StoredColumn.insertAt
  split_ifs with htype
  · cases hx : (htype ▸ i.data : List (Elem s.type))[k]? with
    | none => exact Or.inl rfl
    | some x => exact Or.inr ⟨x, rfl⟩
  · exact Or.inl rfl

theorem insertAt_good (rowsLimit : Option ℕ) (k : ℕ) (position : ℕ × ℕ) (s : StoredColumn T) (i : Inserted T)
    (h : Good s.column) : Good (StoredColumn.insertAt rowsLimit k position s i).1.column := by
  rcases insertAt_cases rowsLimit k position s i with heq | ⟨x, heq⟩
  · rw [heq]
    exact h
  · rw [heq]
    exact good_insertAt h _ _ _ _ _

omit [DecidableEq T] in
theorem goodTbl_eachColumn {insert : StoredColumn T → Inserted T → Outcome (StoredColumn T)}
    (hinsert : ∀ s i, Good s.column → Good (insert s i).1.column) (is : List (Inserted T)) (h : GoodTbl t) :
    GoodTbl (t.eachColumn insert is).1 := by
  induction is generalizing t with
  | nil => exact h
  | cons i is ih =>
    unfold Tbl.eachColumn
    split
    · exact ih h
    · rename_i s hs
      have hnew := goodTbl_setColumn h i.name (hinsert s i (h i.name s hs))
      simp only
      split
      · exact ih hnew
      · exact hnew

theorem goodTbl_eachRow (rowsLimit : Option ℕ) (is : List (Inserted T)) (k : ℕ) (positions : List (ℕ × ℕ))
    (h : GoodTbl t) : GoodTbl (t.eachRow rowsLimit is k positions).1 := by
  induction positions generalizing k t with
  | nil => exact h
  | cons position positions ih =>
    have hrow := goodTbl_eachColumn (insertAt_good rowsLimit k position) is h
    unfold Tbl.eachRow
    simp only
    split
    · exact ih (k + 1) hrow
    · exact hrow

theorem goodTbl_insertData (rowsLimit : Option ℕ) (is : List (Inserted T)) (positions : List (ℕ × ℕ)) (h : GoodTbl t) :
    GoodTbl (t.insertData rowsLimit is positions).1 := by
  unfold Tbl.insertData
  split_ifs
  · exact goodTbl_eachColumn (fun s i hs => (insertData_good rowsLimit s i hs).1) is h
  · exact goodTbl_eachRow rowsLimit is 0 positions h

omit [DecidableEq T] in
/-- a column without data is left alone -/
theorem lookup_eachColumn {insert : StoredColumn T → Inserted T → Outcome (StoredColumn T)} (is : List (Inserted T))
    {column : String} (hcolumn : ∀ i ∈ is, i.name ≠ column) :
    (t.eachColumn insert is).1.columns.lookup column = t.columns.lookup column := by
  induction is generalizing t with
  | nil => rfl
  | cons i is ih =>
    have hrest : ∀ j ∈ is, j.name ≠ column := fun j hj => hcolumn j (List.mem_cons_of_mem i hj)
    have hset : ∀ s, (t.setColumn i.name s).columns.lookup column = t.columns.lookup column := by
      intro s
      rw [lookup_setColumn, if_neg (hcolumn i List.mem_cons_self).symm]
    unfold Tbl.eachColumn
    split
    · exact ih hrest
    · simp only
      split
      · rw [ih hrest, hset]
      · exact hset _

theorem lookup_eachRow (rowsLimit : Option ℕ) (is : List (Inserted T)) (k : ℕ) (positions : List (ℕ × ℕ))
    {column : String} (hcolumn : ∀ i ∈ is, i.name ≠ column) :
    (t.eachRow rowsLimit is k positions).1.columns.lookup column = t.columns.lookup column := by
  induction positions generalizing k t with
  | nil => rfl
  | cons position positions ih =>
    have hrow : (t.eachColumn (StoredColumn.insertAt rowsLimit k position) is).1.columns.lookup column =
        t.columns.lookup column := lookup_eachColumn is hcolumn
    unfold Tbl.eachRow
    simp only
    split
    · rw [ih, hrow]
    · exact hrow

/-- appended rows extend every column -/
theorem extends_eachColumn (rowsLimit : Option ℕ) (is : List (Inserted T)) (h : GoodTbl t) {column : String}
    {s : StoredColumn T} (hs : t.columns.lookup column = some s) :
    ∃ c, (t.eachColumn (StoredColumn.insertData rowsLimit) is).1.columns.lookup column = some ⟨s.type, c⟩ ∧
      Extends s.column c := by
  induction is generalizing t s with
  | nil => exact ⟨s.column, hs, Extends.refl _⟩
  | cons i is ih =>
    unfold Tbl.eachColumn
    split
    · exact ih h hs
    · rename_i s₀ hs₀
      obtain ⟨hgood, c₀, hc₀, hext⟩ := insertData_good rowsLimit s₀ i (h i.name s₀ hs₀)
      have hnew := goodTbl_setColumn h i.name hgood
      -- the column itself, before the rest of the loop
      obtain ⟨c₁, hc₁, hext₁⟩ : ∃ c, (t.setColumn i.name (StoredColumn.insertData rowsLimit s₀ i).1).columns.lookup column =
          some ⟨s.type, c⟩ ∧ Extends s.column c := by
        rw [lookup_setColumn]
        split_ifs with hname
        · obtain rfl : s₀ = s := Option.some.inj (hs₀.symm.trans (hname ▸ hs))
          exact ⟨c₀, by rw [hc₀], hext⟩
        · exact ⟨s.column, hs, Extends.refl _⟩
      simp only
      split
      · obtain ⟨c₂, hc₂, hext₂⟩ := ih hnew hc₁
        exact ⟨c₂, hc₂, hext₁.trans hext₂⟩
      · exact ⟨c₁, hc₁, hext₁⟩

omit [DecidableEq T] in
theorem good_create (n : NewColumn T) (blockSize : ℕ) : Good (n.create blockSize).column :=
  good_fresh n.name blockSize n.isNullable n.isUnique

omit [DecidableEq T] in
theorem goodTbl_createColumns (columns : List (NewColumn T)) (h : GoodTbl t) :
    GoodTbl (columns.foldl Tbl.createColumn t) := by
  induction columns generalizing t with
  | nil => exact h
  | cons n columns ih =>
    apply ih
    unfold Tbl.createColumn
    split_ifs
    · exact h
    · exact goodTbl_setColumn h n.name (good_create n t.blockSize)

omit [DecidableEq T] in
theorem goodTbl_addColumn (h : GoodTbl t) (n : NewColumn T) (nullConstant : Elem n.type) :
    GoodTbl (t.addColumn n nullConstant) := by
  have hfold : ∀ (sizes : List ℕ) (c : Column (Elem n.type)), Good c → Good (sizes.foldl (addNulls nullConstant) c) := by
    intro sizes
    induction sizes with
    | nil => exact fun c hc => hc
    | cons size sizes ih => exact fun c hc => ih _ (good_addNulls hc nullConstant size)
  exact goodTbl_setColumn h n.name (s := ⟨n.type, _⟩) (hfold _ _ (good_create n t.blockSize))

omit [DecidableEq T] in
theorem goodTbl_alterColumn (h : GoodTbl t) (column : String) {s : StoredColumn T} (hs : Good s.column)
    (new : NewColumn T) (conv : (src dst : T) → Option (Conversion (Elem src) (Elem dst))) :
    GoodTbl (t.alterColumn column s new conv) := by
  have hdst : Good ((t.columns.lookup (column ++ "_temp")).getD (new.create t.blockSize)).column := by
    cases htemp : t.columns.lookup (column ++ "_temp") with
    | none => exact good_create new t.blockSize
    | some dst => exact h _ dst htemp
  have hothers := goodTbl_erase h (column ++ "_temp")
  unfold Tbl.alterColumn
  simp only
  split
  · exact goodTbl_setColumn hothers column (s := ⟨_, _⟩) (good_copyTo _ hs hdst)
  · exact goodTbl_setColumn hothers column (s := ⟨_, _⟩) (good_copyFrom _ hs _)

omit [DecidableEq T] [ColumnTypes T] in
theorem lookup_rename {β : Type} {m : AList fun _ : String => β} {name newName other : String} {b b' : β}
    (h : (rename m name newName b).lookup other = some b') : m.lookup other = some b' ∨ b' = b := by
  unfold rename at h
  split_ifs at h
  · exact Or.inl (lookup_of_erase h)
  · by_cases hother : other = newName
    · subst hother
      rw [AList.lookup_insert] at h
      exact Or.inr (Option.some.inj h).symm
    · rw [AList.lookup_insert_ne hother] at h
      exact Or.inl (lookup_of_erase h)

theorem good_copyBlocksOfColumn {rowsLimit : Option ℕ} {src dst new : StoredColumn T} (h : Good dst.column)
    (hcopy : copyBlocksOfColumn rowsLimit src dst = some new) : Good new.column := by
  unfold copyBlocksOfColumn at hcopy
  split_ifs at hcopy with htype
  have hresize := good_resizeColumn h rowsLimit (htype ▸ src.column)
  split at hcopy
  · rename_i column hcolumn
    obtain rfl := Option.some.inj hcopy
    rw [hcolumn] at hresize
    exact hresize
  · cases hcopy

theorem goodTbl_resizeColumns {rowsLimit : Option ℕ} {es : List (Sigma fun _ : String => StoredColumn T)}
    (h : GoodTbl t) (hresize : resizeColumns rowsLimit es t = some t') : GoodTbl t' := by
  induction es generalizing t with
  | nil =>
    obtain rfl := Option.some.inj hresize
    exact h
  | cons e es ih =>
    obtain ⟨new, hnew, hresize⟩ := Option.bind_eq_some_iff.1 hresize
    have hdst : Good ((t.columns.lookup e.1).getD ((e.2.again e.1).create t.blockSize)).column := by
      cases hlookup : t.columns.lookup e.1 with
      | none => exact good_create _ _
      | some dst => exact h e.1 dst hlookup
    exact ih (goodTbl_setColumn h e.1 (good_copyBlocksOfColumn hdst hnew)) hresize

/-- every statement leaves columns of one group, with masks just when they are nullable -/
theorem goodDb_apply {rowsLimit : Option ℕ} (h : GoodDb d) {c : Change T} (happly : c.apply rowsLimit d = some d') :
    GoodDb d' := by
  cases c with
  | createTable table blockSize columns =>
    simp only [Change.apply] at happly
    split_ifs at happly
    obtain rfl := Option.some.inj happly
    exact goodDb_setTable h table (goodTbl_createColumns columns fun column s hs => by simp at hs)
  | dropTable table =>
    obtain rfl := Option.some.inj happly
    exact goodDb_erase h table
  | insertInto table columns accepted positions =>
    obtain ⟨t, ht, happly⟩ := Option.bind_eq_some_iff.1 happly
    have hnew := goodTbl_insertData rowsLimit columns positions (h.table ht)
    split_ifs at happly
    · split at happly
      · cases happly
      · rename_i heq
        obtain rfl := Option.some.inj happly
        rw [heq] at hnew
        exact goodDb_setTable h table hnew
    · obtain rfl := Option.some.inj happly
      exact h
  | addColumn table column nullConstant =>
    obtain ⟨t, ht, happly⟩ := Option.bind_eq_some_iff.1 happly
    split_ifs at happly
    obtain rfl := Option.some.inj happly
    exact goodDb_setTable h table (goodTbl_addColumn (h.table ht) column nullConstant)
  | dropColumn table column =>
    obtain ⟨t, ht, happly⟩ := Option.bind_eq_some_iff.1 happly
    obtain rfl := Option.some.inj happly
    exact goodDb_setTable h table (goodTbl_erase (h.table ht) column)
  | alterColumn table column new conv =>
    obtain ⟨t, ht, happly⟩ := Option.bind_eq_some_iff.1 happly
    obtain ⟨s, hs, happly⟩ := Option.bind_eq_some_iff.1 happly
    obtain rfl := Option.some.inj happly
    exact goodDb_setTable h table (goodTbl_alterColumn (h.table ht) column (h.table ht column s hs) new conv)
  | renameColumn table column newColumn =>
    obtain ⟨t, ht, happly⟩ := Option.bind_eq_some_iff.1 happly
    obtain ⟨s, hs, happly⟩ := Option.bind_eq_some_iff.1 happly
    obtain rfl := Option.some.inj happly
    refine goodDb_setTable h table ?_
    intro column' s' hs'
    rcases lookup_rename hs' with hs' | rfl
    · exact h.table ht column' s' hs'
    · exact h.table ht column s' hs
  | renameTable table newTable =>
    obtain ⟨t, ht, happly⟩ := Option.bind_eq_some_iff.1 happly
    obtain rfl := Option.some.inj happly
    intro table' column s hs
    obtain ⟨t', ht', hs'⟩ := Option.bind_eq_some_iff.1 hs
    rcases lookup_rename ht' with ht' | heq
    · exact h.table ht' column s hs'
    · exact h.table ht column s (heq ▸ hs')
  | setIsNullable table column isNullable =>
    obtain ⟨t, ht, happly⟩ := Option.bind_eq_some_iff.1 happly
    obtain ⟨s, hs, happly⟩ := Option.bind_eq_some_iff.1 happly
    split at happly
    · obtain rfl := Option.some.inj happly
      exact h
    · rename_i c hc
      obtain rfl := Option.some.inj happly
      exact goodDb_setTable h table
        (goodTbl_setColumn (h.table ht) column (good_setIsNullable (h.table ht column s hs) hc))
  | setSortingColumns table columns =>
    obtain ⟨t, ht, happly⟩ := Option.bind_eq_some_iff.1 happly
    obtain rfl := Option.some.inj happly
    exact goodDb_setTable h table fun column s hs => h.table ht column s hs
  | changeTableBlockSize table newBlockSize =>
    obtain ⟨t, ht, happly⟩ := Option.bind_eq_some_iff.1 happly
    split_ifs at happly
    obtain ⟨new, hnew, happly⟩ := Option.bind_eq_some_iff.1 happly
    obtain rfl := Option.some.inj happly
    have htemp : GoodTbl ((d.tables.lookup ("temp_" ++ table)).getD ⟨newBlockSize, [], ∅⟩) := by
      cases htemp : d.tables.lookup ("temp_" ++ table) with
      | none => exact fun column s hs => by simp at hs
      | some t' => exact h.table htemp
    exact goodDb_setTable (goodDb_erase (goodDb_erase h table) ("temp_" ++ table)) table
      fun column s hs => goodTbl_resizeColumns htemp hnew column s hs

end Tables

/-! ## What a statement leaves as it was -/

/-- a block of a JOIN -/
def What.isJoined : What → Bool
  | .window => false
  | .mask => false
  | .wholeMask => false
  | .joined _ _ => true
  | .joinedMask _ _ => true
  | .joinedPart _ _ => true

def What.isMask : What → Bool
  | .window => false
  | .mask => true
  | .wholeMask => true
  | .joined _ _ => false
  | .joinedMask _ _ => true
  | .joinedPart _ _ => false

/-- statements that may change what a request gets and leave the cache as it is -/
def Disturbs (f : Fetch) : Change T → Prop
  | .createTable _ _ _ => False
  | .dropTable table => f.table = table
  | .insertInto table _ _ _ => f.table = table ∧ f.what.isJoined = true
  | .addColumn _ _ _ => False
  | .dropColumn table column => f.table = table ∧ f.column = column
  | .alterColumn table column _ _ =>
    f.table = table ∧ (f.column = column ∧ f.what.isJoined = true ∨ f.column = column ++ "_temp")
  | .renameColumn table column _ => f.table = table ∧ f.column = column
  | .renameTable table _ => f.table = table
  | .setIsNullable table column _ => f.table = table ∧ f.column = column ∧ f.what.isMask = true
  | .setSortingColumns _ _ => False
  | .changeTableBlockSize table _ => f.table = table ∨ f.table = "temp_" ++ table

/-- an entry of the request is still there when the statement has cleared its blocks -/
def Survives (d : Db T) (f : Fetch) : Change T → Prop
  | .insertInto table columns _ _ => f.table = table → (∃ i ∈ columns, i.name = f.column) →
      ∀ t s, d.tables.lookup table = some t → t.columns.lookup f.column = some s →
        t.sortingColumns.isEmpty = true ∧ f.blockIndex < s.column.getBlocksList.length - 1
  | .alterColumn table column _ _ => ¬ (f.table = table ∧ f.column = column)
  | _ => True

section Frame

variable {d d' : Db T} {f : Fetch} {p : Payload T}

omit [DecidableEq T] in
/-- a request outside of a JOIN reads one block -/
theorem copiedFrom_block {blockSize : ℕ} {s : StoredColumn T} {c : Column (Elem s.type)} (hjoin : f.what.isJoined = false)
    (hblock : c.getBlocksList[f.blockIndex]? = s.column.getBlocksList[f.blockIndex]?) :
    copiedFrom blockSize ⟨s.type, c⟩ f = copiedFrom blockSize s f := by
  unfold copiedFrom
  cases hwhat : f.what with
  | window => simp only [hblock]
  | mask => simp only [hblock]
  | wholeMask => simp only [hblock]
  | joined tables indices => simp [hwhat, What.isJoined] at hjoin
  | joinedMask tables indices => simp [hwhat, What.isJoined] at hjoin
  | joinedPart part indices => simp [hwhat, What.isJoined] at hjoin

omit [DecidableEq T] in
/-- a request for values does not see the masks -/
theorem copiedFrom_values {blockSize : ℕ} {s : StoredColumn T} {c : Column (Elem s.type)} (hmask : f.what.isMask = false)
    (hdata : ∀ i : ℕ, (c.getBlocksList[i]?).map Block.data = (s.column.getBlocksList[i]?).map Block.data) :
    copiedFrom blockSize ⟨s.type, c⟩ f = copiedFrom blockSize s f := by
  have hvalue : joinedValue ⟨s.type, c⟩ blockSize = joinedValue s blockSize := by
    funext i
    have := hdata (i / blockSize)
    unfold joinedValue
    cases hc : c.getBlocksList[i / blockSize]? <;> cases hs : s.column.getBlocksList[i / blockSize]? <;> simp_all
  unfold copiedFrom
  cases hwhat : f.what with
  | window =>
    have := hdata f.blockIndex
    cases hc : c.getBlocksList[f.blockIndex]? <;> cases hs : s.column.getBlocksList[f.blockIndex]? <;> simp_all
  | mask => simp [hwhat, What.isMask] at hmask
  | wholeMask => simp [hwhat, What.isMask] at hmask
  | joined tables indices => simp only [hvalue]
  | joinedMask tables indices => simp [hwhat, What.isMask] at hmask
  | joinedPart part indices => simp only [hvalue]

theorem data_setIsNullable {α : Type} {c c' : Column α} {isNullable : Bool} (hok : c.setIsNullable isNullable = .ok c')
    (i : ℕ) : (c'.getBlocksList[i]?).map Block.data = (c.getBlocksList[i]?).map Block.data := by
  have hblock : ∀ b : Block α, (b.setIsNullable isNullable).data = b.data := by
    intro b
    unfold Block.setIsNullable
    split_ifs <;> rfl
  have hmap : ∀ gs : List (ℤ × List (Block α)),
      ((gs.map fun g => (g.1, g.2.map fun b => b.setIsNullable isNullable)).flatMap Prod.snd).map Block.data =
        (gs.flatMap Prod.snd).map Block.data := by
    intro gs
    induction gs with
    | nil => rfl
    | cons g gs ih => simp [ih, hblock, Function.comp_def]
  have hlist : c'.getBlocksList.map Block.data = c.getBlocksList.map Block.data := by
    unfold Column.setIsNullable at hok
    simp only at hok
    split_ifs at hok
    all_goals obtain rfl := Except.ok.inj hok
    · rfl
    · exact hmap c.blocks
    · exact hmap c.blocks
  rw [← List.getElem?_map, ← List.getElem?_map, hlist]

omit [DecidableEq T] in
theorem copied_eq_some : copied d f = some p ↔ ∃ t s, d.tables.lookup f.table = some t ∧
    t.columns.lookup f.column = some s ∧ copiedFrom d.blockSize s f = some p := by
  constructor
  · intro h
    obtain ⟨s, hs, hp⟩ := Option.bind_eq_some_iff.1 h
    obtain ⟨t, ht, hs⟩ := Option.bind_eq_some_iff.1 hs
    exact ⟨t, s, ht, hs, hp⟩
  · rintro ⟨t, s, ht, hs, hp⟩
    simp [copied, Db.column, ht, hs, hp]

omit [DecidableEq T] in
/-- a table that is put into its place -/
theorem copied_setTable (hcop : copied d f = some p) (table : String) (t' : Tbl T)
    (hsame : f.table = table → ∀ t s, d.tables.lookup f.table = some t → t.columns.lookup f.column = some s →
      ∃ s', t'.columns.lookup f.column = some s' ∧ copiedFrom d.blockSize s' f = copiedFrom d.blockSize s f) :
    copied (d.setTable table t') f = some p := by
  obtain ⟨t, s, ht, hs, hp⟩ := copied_eq_some.1 hcop
  by_cases htable : f.table = table
  · obtain ⟨s', hs', heq⟩ := hsame htable t s ht hs
    refine copied_eq_some.2 ⟨t', s', ?_, hs', heq.trans hp⟩
    rw [Db.setTable, htable, AList.lookup_insert]
  · refine copied_eq_some.2 ⟨t, s, ?_, hs, hp⟩
    rw [Db.setTable, AList.lookup_insert_ne htable]
    exact ht

omit [DecidableEq T] in
theorem copied_erase (hcop : copied d f = some p) {table : String} (hne : f.table ≠ table) :
    copied { d with tables := d.tables.erase table } f = some p := by
  obtain ⟨t, s, ht, hs, hp⟩ := copied_eq_some.1 hcop
  exact copied_eq_some.2 ⟨t, s, by rw [AList.lookup_erase_ne hne]; exact ht, hs, hp⟩

omit [DecidableEq T] [ColumnTypes T] in
theorem lookup_rename_ne {β : Type} {m : AList fun _ : String => β} {name newName other : String} {b b' : β}
    (hne : other ≠ name) (h : m.lookup other = some b') : (rename m name newName b).lookup other = some b' := by
  have herase : (m.erase name).lookup other = some b' := by rwa [AList.lookup_erase_ne hne]
  unfold rename
  split_ifs with hmem
  · exact herase
  · have hother : other ≠ newName := by
      rintro rfl
      exact hmem (AList.lookup_isSome.1 (by rw [herase]; rfl))
    rwa [AList.lookup_insert_ne hother]

theorem insertInto_same {rowsLimit : Option ℕ} {t : Tbl T} (ht : GoodTbl t) (columns : List (Inserted T))
    (positions : List (ℕ × ℕ)) {s : StoredColumn T} (hs : t.columns.lookup f.column = some s)
    (hjoin : f.what.isJoined = false)
    (hsurvives : (∃ i ∈ columns, i.name = f.column) →
      t.sortingColumns.isEmpty = true ∧ f.blockIndex < s.column.getBlocksList.length - 1) (blockSize : ℕ) :
    ∃ s', (t.insertData rowsLimit columns positions).1.columns.lookup f.column = some s' ∧
      copiedFrom blockSize s' f = copiedFrom blockSize s f := by
  by_cases hnamed : ∃ i ∈ columns, i.name = f.column
  · obtain ⟨hsorting, hblock⟩ := hsurvives hnamed
    obtain ⟨c, hc, -, hext⟩ := extends_eachColumn rowsLimit columns ht hs
    refine ⟨⟨s.type, c⟩, ?_, copiedFrom_block hjoin (hext f.blockIndex hblock)⟩
    rw [Tbl.insertData, if_pos hsorting]
    exact hc
  · have hother : ∀ i ∈ columns, i.name ≠ f.column := fun i hi hname => hnamed ⟨i, hi, hname⟩
    refine ⟨s, ?_, rfl⟩
    unfold Tbl.insertData
    split_ifs
    · rw [lookup_eachColumn columns hother, hs]
    · rw [lookup_eachRow rowsLimit columns 0 positions hother, hs]

/-- A statement that does not disturb a request and has not cleared its block leaves what the request gets. -/
theorem copied_apply {rowsLimit : Option ℕ} (hgood : GoodDb d) {c : Change T} (happly : c.apply rowsLimit d = some d')
    (hdist : ¬ Disturbs f c) (hsurvives : Survives d f c) (hcop : copied d f = some p) : copied d' f = some p := by
  cases c with
  | createTable table blockSize columns =>
    simp only [Change.apply] at happly
    split_ifs at happly with hmem
    obtain rfl := Option.some.inj happly
    refine copied_setTable hcop table _ ?_
    intro htable t s ht
    exact absurd (AList.lookup_isSome.1 (by rw [← htable, ht]; rfl)) hmem
  | dropTable table =>
    obtain rfl := Option.some.inj happly
    exact copied_erase hcop hdist
  | insertInto table columns accepted positions =>
    obtain ⟨t, ht, happly⟩ := Option.bind_eq_some_iff.1 happly
    have hsame : f.table = table → ∀ t₀ s, d.tables.lookup f.table = some t₀ → t₀.columns.lookup f.column = some s →
        ∃ s', (t.insertData rowsLimit columns positions).1.columns.lookup f.column = some s' ∧
          copiedFrom d.blockSize s' f = copiedFrom d.blockSize s f := by
      intro htable t₀ s ht₀ hs
      rw [htable] at ht₀
      obtain rfl : t = t₀ := Option.some.inj (ht.symm.trans ht₀)
      have hjoin : f.what.isJoined = false := by
        cases hj : f.what.isJoined with
        | false => rfl
        | true => exact absurd ⟨htable, hj⟩ hdist
      exact insertInto_same (hgood.table ht) columns positions hs hjoin
        (fun hnamed => hsurvives htable hnamed t s ht hs) d.blockSize
    split_ifs at happly
    · split at happly
      · cases happly
      · rename_i heq
        obtain rfl := Option.some.inj happly
        rw [heq] at hsame
        exact copied_setTable hcop table _ hsame
    · obtain rfl := Option.some.inj happly
      exact hcop
  | addColumn table column nullConstant =>
    obtain ⟨t, ht, happly⟩ := Option.bind_eq_some_iff.1 happly
    split_ifs at happly with hmem
    obtain rfl := Option.some.inj happly
    refine copied_setTable hcop table _ ?_
    intro htable t₀ s ht₀ hs
    rw [htable] at ht₀
    obtain rfl : t = t₀ := Option.some.inj (ht.symm.trans ht₀)
    have hne : f.column ≠ column.name := by
      intro hname
      exact hmem (AList.lookup_isSome.1 (by rw [← hname, hs]; rfl))
    exact ⟨s, by rw [Tbl.addColumn, lookup_setColumn, if_neg hne, hs], rfl⟩
  | dropColumn table column =>
    obtain ⟨t, ht, happly⟩ := Option.bind_eq_some_iff.1 happly
    obtain rfl := Option.some.inj happly
    refine copied_setTable hcop table _ ?_
    intro htable t₀ s ht₀ hs
    rw [htable] at ht₀
    obtain rfl : t = t₀ := Option.some.inj (ht.symm.trans ht₀)
    have hne : f.column ≠ column := fun hname => hdist ⟨htable, hname⟩
    exact ⟨s, by rw [AList.lookup_erase_ne hne, hs], rfl⟩
  | alterColumn table column new conv =>
    obtain ⟨t, ht, happly⟩ := Option.bind_eq_some_iff.1 happly
    obtain ⟨old, hold, happly⟩ := Option.bind_eq_some_iff.1 happly
    obtain rfl := Option.some.inj happly
    refine copied_setTable hcop table _ ?_
    intro htable t₀ s ht₀ hs
    rw [htable] at ht₀
    obtain rfl : t = t₀ := Option.some.inj (ht.symm.trans ht₀)
    have hne : f.column ≠ column := fun hname => hsurvives ⟨htable, hname⟩
    have htemp : f.column ≠ column ++ "_temp" := fun hname => hdist ⟨htable, Or.inr hname⟩
    refine ⟨s, ?_, rfl⟩
    unfold Tbl.alterColumn
    simp only
    split <;> rw [lookup_setColumn, if_neg hne, AList.lookup_erase_ne htemp, hs]
  | renameColumn table column newColumn =>
    obtain ⟨t, ht, happly⟩ := Option.bind_eq_some_iff.1 happly
    obtain ⟨old, hold, happly⟩ := Option.bind_eq_some_iff.1 happly
    obtain rfl := Option.some.inj happly
    refine copied_setTable hcop table _ ?_
    intro htable t₀ s ht₀ hs
    rw [htable] at ht₀
    obtain rfl : t = t₀ := Option.some.inj (ht.symm.trans ht₀)
    exact ⟨s, lookup_rename_ne (fun hname => hdist ⟨htable, hname⟩) hs, rfl⟩
  | renameTable table newTable =>
    obtain ⟨t, ht, happly⟩ := Option.bind_eq_some_iff.1 happly
    obtain rfl := Option.some.inj happly
    obtain ⟨t₀, s, ht₀, hs, hp⟩ := copied_eq_some.1 hcop
    exact copied_eq_some.2 ⟨t₀, s, lookup_rename_ne hdist ht₀, hs, hp⟩
  | setIsNullable table column isNullable =>
    obtain ⟨t, ht, happly⟩ := Option.bind_eq_some_iff.1 happly
    obtain ⟨old, hold, happly⟩ := Option.bind_eq_some_iff.1 happly
    split at happly
    · obtain rfl := Option.some.inj happly
      exact hcop
    · rename_i c hc
      obtain rfl := Option.some.inj happly
      refine copied_setTable hcop table _ ?_
      intro htable t₀ s ht₀ hs
      rw [htable] at ht₀
      obtain rfl : t = t₀ := Option.some.inj (ht.symm.trans ht₀)
      rw [lookup_setColumn]
      split_ifs with hname
      · obtain rfl : old = s := Option.some.inj (hold.symm.trans (hname ▸ hs))
        have hmask : f.what.isMask = false := by
          cases hm : f.what.isMask with
          | false => rfl
          | true => exact absurd ⟨htable, hname, hm⟩ hdist
        exact ⟨_, rfl, copiedFrom_values hmask (data_setIsNullable hc)⟩
      · exact ⟨s, hs, rfl⟩
  | setSortingColumns table columns =>
    obtain ⟨t, ht, happly⟩ := Option.bind_eq_some_iff.1 happly
    obtain rfl := Option.some.inj happly
    refine copied_setTable hcop table _ ?_
    intro htable t₀ s ht₀ hs
    rw [htable] at ht₀
    obtain rfl : t = t₀ := Option.some.inj (ht.symm.trans ht₀)
    exact ⟨s, hs, rfl⟩
  | changeTableBlockSize table newBlockSize =>
    obtain ⟨t, ht, happly⟩ := Option.bind_eq_some_iff.1 happly
    split_ifs at happly
    obtain ⟨new, hnew, happly⟩ := Option.bind_eq_some_iff.1 happly
    obtain rfl := Option.some.inj happly
    obtain ⟨hne, htemp⟩ := not_or.1 hdist
    exact copied_setTable (copied_erase (copied_erase hcop hne) htemp) table _ fun htable => absurd htable hne

end Frame

/-! ## What a statement clears -/

section Cleared

variable {deviceCount : ℕ} {databaseName : String} {devices devices' : ℕ → Device T}

/-- the caches of all devices are in order -/
def Sound (devices : ℕ → Device T) : Prop := ∀ i, ∃ n, GPUMemoryCache.Inv n (devices i).cache

/-- nothing is written, and no entry is added -/
def Less (devices devices' : ℕ → Device T) : Prop :=
  ∀ i, (devices' i).memory = (devices i).memory ∧ (devices' i).cache.cacheMap ⊆ (devices i).cache.cacheMap

def NoKey (devices : ℕ → Device T) (i : ℕ) (key : Text) : Prop := ∀ e ∈ (devices i).cache.cacheMap, e.key ≠ key

omit [DecidableEq T] in
theorem Less.refl (devices : ℕ → Device T) : Less devices devices := fun _ => ⟨rfl, List.Subset.refl _⟩

omit [DecidableEq T] in
theorem Less.trans {devices'' : ℕ → Device T} (h : Less devices devices') (h' : Less devices' devices'') :
    Less devices devices'' :=
  fun i => ⟨(h' i).1.trans (h i).1, List.Subset.trans (h' i).2 (h i).2⟩

omit [DecidableEq T] in
theorem NoKey.less {i : ℕ} {key : Text} (h : NoKey devices i key) (hless : Less devices devices') :
    NoKey devices' i key := fun e he => h e ((hless i).2 he)

/-- a loop of steps that clear -/
structure Clearing {β : Type} (f : (ℕ → Device T) → β → Option (ℕ → Device T)) : Prop where
  keeps : ∀ {devices b devices'}, Sound devices → f devices b = some devices' → Sound devices' ∧ Less devices devices'

omit [DecidableEq T] in
theorem Clearing.foldlM {β : Type} {f : (ℕ → Device T) → β → Option (ℕ → Device T)} (hf : Clearing f) (l : List β)
    (h : Sound devices) (hfold : l.foldlM f devices = some devices') : Sound devices' ∧ Less devices devices' := by
  induction l generalizing devices with
  | nil =>
    obtain rfl := Option.some.inj hfold
    exact ⟨h, Less.refl _⟩
  | cons b l ih =>
    obtain ⟨devices₁, h₁, hfold⟩ := Option.bind_eq_some_iff.1 hfold
    obtain ⟨hsound, hless⟩ := hf.keeps h h₁
    obtain ⟨hsound', hless'⟩ := ih hsound hfold
    exact ⟨hsound', hless.trans hless'⟩

omit [DecidableEq T] in
/-- what one turn of the loop clears stays cleared -/
theorem Clearing.foldlM_noKey {β : Type} {f : (ℕ → Device T) → β → Option (ℕ → Device T)} (hf : Clearing f) {l : List β}
    (h : Sound devices) (hfold : l.foldlM f devices = some devices') {b : β} (hb : b ∈ l) {i : ℕ} {key : Text}
    (hclears : ∀ {devices devices'}, Sound devices → f devices b = some devices' → NoKey devices' i key) :
    NoKey devices' i key := by
  induction l generalizing devices with
  | nil => exact absurd hb List.not_mem_nil
  | cons b' l ih =>
    obtain ⟨devices₁, h₁, hrest⟩ := Option.bind_eq_some_iff.1 hfold
    have hsound := (hf.keeps h h₁).1
    rcases List.mem_cons.1 hb with rfl | hb
    · exact (hclears h h₁).less (hf.foldlM l hsound hrest).2
    · exact ih hsound hrest hb

omit [DecidableEq T] in
theorem clearBlock_spec {name : Text} {i : ℕ} (h : Sound devices)
    (hclear : clearBlock deviceCount databaseName name devices i = some devices') :
    (Sound devices' ∧ Less devices devices') ∧
      ∀ loadSize loadOffset : ℤ,
        NoKey devices' (i % deviceCount) (columnBlock databaseName.toList name i loadSize loadOffset) := by
  obtain ⟨n, hn⟩ := h (i % deviceCount)
  obtain ⟨cache, heq, hinv, hsub, hnone⟩ := GPUMemoryCache.clearCachedBlock_cleared hn databaseName.toList name i
  simp only [clearBlock, heq] at hclear
  obtain rfl := Option.some.inj hclear
  refine ⟨⟨?_, ?_⟩, ?_⟩
  · intro j
    by_cases hj : j = i % deviceCount
    · subst hj
      exact ⟨n, by simpa using hinv⟩
    · simpa [Function.update_of_ne hj] using h j
  · intro j
    by_cases hj : j = i % deviceCount
    · subst hj
      simpa using hsub
    · simp [Function.update_of_ne hj]
  · intro loadSize loadOffset e he
    simp only [Function.update_self] at he
    exact hnone e he loadSize loadOffset

omit [DecidableEq T] in
theorem clearBlocks_clearing (name : Text) (isNullable : Bool) :
    Clearing (clearBlocks (T := T) deviceCount databaseName name isNullable) where
  keeps := by
    intro devices i devices' h hclear
    obtain ⟨devices₁, h₁, hclear⟩ := Option.bind_eq_some_iff.1 hclear
    obtain ⟨⟨hsound, hless⟩, -⟩ := clearBlock_spec h h₁
    split_ifs at hclear
    · obtain ⟨⟨hsound', hless'⟩, -⟩ := clearBlock_spec hsound hclear
      exact ⟨hsound', hless.trans hless'⟩
    · obtain rfl := Option.some.inj hclear
      exact ⟨hsound, hless⟩

omit [DecidableEq T] in
/-- the blocks of a column, and of its mask if it is nullable, are gone from block `fromBlockIdx` on -/
theorem clearCachedBlocks_spec {table column : String} {s : StoredColumn T} {fromBlockIdx : ℕ} (h : Sound devices)
    (hclear : clearCachedBlocks deviceCount databaseName table column s fromBlockIdx devices = some devices') :
    (Sound devices' ∧ Less devices devices') ∧
      ∀ i, fromBlockIdx ≤ i → i < s.column.getBlocksList.length → ∀ loadSize loadOffset : ℤ,
        NoKey devices' (i % deviceCount)
            (columnBlock databaseName.toList (table.toList ++ '.' :: column.toList) i loadSize loadOffset) ∧
          (s.column.isNullable = true → NoKey devices' (i % deviceCount)
            (columnBlock databaseName.toList (table.toList ++ '.' :: column.toList ++ NULL_SUFFIX) i loadSize
              loadOffset)) := by
  have hclearing : Clearing (clearBlocks (T := T) deviceCount databaseName (table.toList ++ '.' :: column.toList)
      s.column.isNullable) := clearBlocks_clearing _ _
  refine ⟨hclearing.foldlM _ h hclear, ?_⟩
  intro i hfrom hlt loadSize loadOffset
  have hmem : i ∈ List.range' fromBlockIdx (s.column.getBlocksList.length - fromBlockIdx) := by
    rw [List.mem_range'_1]
    omega
  refine ⟨hclearing.foldlM_noKey h hclear hmem ?_, ?_⟩
  · intro devices devices' h hstep
    obtain ⟨devices₁, h₁, hstep⟩ := Option.bind_eq_some_iff.1 hstep
    obtain ⟨⟨hsound, -⟩, hnone⟩ := clearBlock_spec h h₁
    split_ifs at hstep
    · exact (hnone loadSize loadOffset).less (clearBlock_spec hsound hstep).1.2
    · obtain rfl := Option.some.inj hstep
      exact hnone loadSize loadOffset
  · intro hnullable
    refine hclearing.foldlM_noKey h hclear hmem ?_
    intro devices devices' h hstep
    obtain ⟨devices₁, h₁, hstep⟩ := Option.bind_eq_some_iff.1 hstep
    rw [if_pos hnullable] at hstep
    exact (clearBlock_spec (clearBlock_spec h h₁).1.1 hstep).2 loadSize loadOffset

omit [DecidableEq T] in
theorem clearInserted_clearing (table : String) (t : Tbl T) :
    Clearing (clearInserted deviceCount databaseName table t) where
  keeps := by
    intro devices i devices' h hclear
    obtain ⟨s, -, hclear⟩ := Option.bind_eq_some_iff.1 hclear
    exact (clearCachedBlocks_spec h hclear).1

omit [DecidableEq T] in
theorem clears_less {d : Db T} {c : Change T} (h : Sound devices)
    (hclears : c.clears deviceCount d devices = some devices') : Sound devices' ∧ Less devices devices' := by
  cases c with
  | insertInto table columns accepted positions =>
    obtain ⟨t, -, hclears⟩ := Option.bind_eq_some_iff.1 hclears
    exact (clearInserted_clearing table t).foldlM columns h hclears
  | alterColumn table column new conv =>
    obtain ⟨s, -, hclears⟩ := Option.bind_eq_some_iff.1 hclears
    exact (clearCachedBlocks_spec h hclears).1
  | _ =>
    obtain rfl := Option.some.inj hclears
    exact ⟨h, Less.refl _⟩

omit [DecidableEq T] in
/-- a request outside of a JOIN gets a block of the column, under the name of the column or of its mask -/
theorem block_of_copied {blockSize : ℕ} {s : StoredColumn T} {f : Fetch} {p : Payload T} (hgood : Good s.column)
    (hjoin : f.what.isJoined = false) (hp : copiedFrom blockSize s f = some p) :
    f.blockIndex < s.column.getBlocksList.length ∧
      (f.what.suffix = [] ∨ f.what.suffix = NULL_SUFFIX ∧ s.column.isNullable = true) := by
  have hblock : ∀ {b : Block (Elem s.type)}, s.column.getBlocksList[f.blockIndex]? = some b →
      f.blockIndex < s.column.getBlocksList.length := fun hb => (List.getElem?_eq_some_iff.1 hb).1
  have hnullable : ∀ {b : Block (Elem s.type)} {m : Mask}, s.column.getBlocksList[f.blockIndex]? = some b →
      b.bitMask = some m → s.column.isNullable = true := by
    intro b m hb hm
    have hmasked : b.isNullable = s.column.isNullable := hgood.1 b (List.mem_of_getElem? hb)
    rw [← hmasked, Block.isNullable, hm]
    rfl
  unfold copiedFrom at hp
  cases hwhat : f.what with
  | window =>
    simp only [hwhat] at hp
    obtain ⟨b, hb, -⟩ := Option.bind_eq_some_iff.1 hp
    exact ⟨hblock hb, Or.inl rfl⟩
  | mask =>
    simp only [hwhat] at hp
    obtain ⟨b, hb, hp⟩ := Option.bind_eq_some_iff.1 hp
    obtain ⟨m, hm, -⟩ := Option.bind_eq_some_iff.1 hp
    exact ⟨hblock hb, Or.inr ⟨rfl, hnullable hb hm⟩⟩
  | wholeMask =>
    simp only [hwhat] at hp
    obtain ⟨b, hb, hp⟩ := Option.bind_eq_some_iff.1 hp
    obtain ⟨m, hm, -⟩ := Option.bind_eq_some_iff.1 hp
    exact ⟨hblock hb, Or.inr ⟨rfl, hnullable hb hm⟩⟩
  | joined tables indices => simp [hwhat, What.isJoined] at hjoin
  | joinedMask tables indices => simp [hwhat, What.isJoined] at hjoin
  | joinedPart part indices => simp [hwhat, What.isJoined] at hjoin

omit [DecidableEq T] in
/-- the entry of a request is gone once the blocks of its column are cleared -/
theorem noKey_of_cleared {d : Db T} {f : Fetch} {p : Payload T} {s : StoredColumn T} {fromBlockIdx blockSize : ℕ}
    (hgood : Good s.column) (hjoin : f.what.isJoined = false) (hp : copiedFrom blockSize s f = some p)
    (hfrom : fromBlockIdx ≤ f.blockIndex) (h : Sound devices)
    (hclear : clearCachedBlocks deviceCount d.name f.table f.column s fromBlockIdx devices = some devices') :
    NoKey devices' (f.blockIndex % deviceCount) (f.key d.name) := by
  obtain ⟨hlt, hsuffix⟩ := block_of_copied hgood hjoin hp
  obtain ⟨hdata, hmask⟩ := (clearCachedBlocks_spec h hclear).2 f.blockIndex hfrom hlt f.loadSize f.loadOffset
  unfold Fetch.key Fetch.tableAndColumnName
  rcases hsuffix with hsuffix | ⟨hsuffix, hnullable⟩
  · rw [hsuffix, List.append_nil]
    exact hdata
  · rw [hsuffix]
    exact hmask hnullable

omit [DecidableEq T] in
/-- An entry that a statement has not cleared is one of a request that survives. -/
theorem survives_of_entry {d : Db T} {f : Fetch} {p : Payload T} {c : Change T} (hgood : GoodDb d)
    (hdist : ¬ Disturbs f c) (hcop : copied d f = some p) (h : Sound devices)
    (hclears : c.clears deviceCount d devices = some devices')
    (hentry : ¬ NoKey devices' (f.blockIndex % deviceCount) (f.key d.name)) : Survives d f c := by
  obtain ⟨t, s, ht, hs, hp⟩ := copied_eq_some.1 hcop
  have hcolumn := hgood.table ht f.column s hs
  cases c with
  | insertInto table columns accepted positions =>
    rintro htable ⟨i, hi, hname⟩ t₀ s₀ ht₀ hs₀
    obtain rfl : t = t₀ := Option.some.inj (ht.symm.trans (htable ▸ ht₀))
    obtain rfl : s = s₀ := Option.some.inj (hs.symm.trans hs₀)
    have hjoin : f.what.isJoined = false := by
      cases hj : f.what.isJoined with
      | false => rfl
      | true => exact absurd ⟨htable, hj⟩ hdist
    obtain ⟨t₁, ht₁, hclears⟩ := Option.bind_eq_some_iff.1 hclears
    obtain rfl : t = t₁ := Option.some.inj (ht₀.symm.trans ht₁)
    by_contra hcon
    apply hentry
    refine (clearInserted_clearing table t).foldlM_noKey h hclears hi ?_
    intro devices devices' h hstep
    obtain ⟨s₁, hs₁, hstep⟩ := Option.bind_eq_some_iff.1 hstep
    rw [hname] at hs₁ hstep
    obtain rfl : s = s₁ := Option.some.inj (hs.symm.trans hs₁)
    rw [← htable] at hstep
    refine noKey_of_cleared hcolumn hjoin hp ?_ h hstep
    split_ifs with hsorting
    · by_contra hlt
      exact hcon ⟨hsorting, by omega⟩
    · exact Nat.zero_le _
  | alterColumn table column new conv =>
    rintro ⟨htable, hname⟩
    have hjoin : f.what.isJoined = false := by
      cases hj : f.what.isJoined with
      | false => rfl
      | true => exact absurd ⟨htable, Or.inl ⟨hname, hj⟩⟩ hdist
    obtain ⟨s₁, hs₁, hclears⟩ := Option.bind_eq_some_iff.1 hclears
    rw [← htable, ← hname] at hs₁ hclears
    rw [column_of_lookup ht, hs] at hs₁
    obtain rfl := Option.some.inj hs₁
    exact hentry (noKey_of_cleared hcolumn hjoin hp (Nat.zero_le _) h hclears)
  | _ => trivial

end Cleared

/-! ## Runs -/

/-- the last request for a key on a device, and the statements since then -/
def lastRequest (deviceCount : ℕ) (databaseName : String) (device : ℕ) (key : Text) :
    List (Event T) → Option (Fetch × List (Change T))
  | [] => none
  | .requested f :: history =>
    if f.blockIndex % deviceCount = device ∧ f.key databaseName = key then some (f, [])
    else lastRequest deviceCount databaseName device key history
  | .changed c :: history =>
    (lastRequest deviceCount databaseName device key history).map fun r => (r.1, c :: r.2)

/-- A request for a key that is in the cache of its device is the one that was made last for this key, and no statement
has disturbed it since. -/
def Repeats (deviceCount : ℕ) (s : St T) (f : Fetch) : Prop :=
  ¬ NoKey s.devices (f.blockIndex % deviceCount) (f.key s.db.name) →
    ∀ r ∈ lastRequest deviceCount s.db.name (f.blockIndex % deviceCount) (f.key s.db.name) s.history,
      r.1 = f ∧ ∀ c ∈ r.2, ¬ Disturbs f c

def Admitted (deviceCount : ℕ) (s : St T) : Op T → Prop
  | .load l i _ => ∀ what ∈ (l.asks s.db).bind fun asks => asks[i]?, Repeats deviceCount s (l.fetch what)
  | .statement _ => True
  | .memory _ _ => True

instance (f : Fetch) (c : Change T) : Decidable (Disturbs f c) :=
  match c with
  | .createTable _ _ _ | .addColumn _ _ _ | .setSortingColumns _ _ => .isFalse id
  | .dropTable _ | .renameTable _ _ => inferInstanceAs (Decidable (_ = _))
  | .insertInto _ _ _ _ | .dropColumn _ _ | .alterColumn _ _ _ _ | .renameColumn _ _ _ | .setIsNullable _ _ _ =>
    inferInstanceAs (Decidable (_ ∧ _))
  | .changeTableBlockSize _ _ => inferInstanceAs (Decidable (_ ∨ _))

instance (devices : ℕ → Device T) (i : ℕ) (key : Text) : Decidable (NoKey devices i key) :=
  inferInstanceAs (Decidable (∀ e ∈ (devices i).cache.cacheMap, e.key ≠ key))

instance (deviceCount : ℕ) (s : St T) (f : Fetch) : Decidable (Repeats deviceCount s f) :=
  inferInstanceAs (Decidable (_ → _))

instance (deviceCount : ℕ) (s : St T) (op : Op T) : Decidable (Admitted deviceCount s op) :=
  match op with
  | .load _ _ _ => inferInstanceAs (Decidable (∀ _ ∈ _, _))
  | .statement _ => .isTrue trivial
  | .memory _ _ => .isTrue trivial

section Inv

variable {deviceCount : ℕ} {s s' : St T}

/-- the block of an entry is the one of the last request for its key, unless that was disturbed -/
def Held (deviceCount : ℕ) (s : St T) (i : ℕ) (key : Text) (ptr : ℕ) : Prop :=
  ∃ r, lastRequest deviceCount s.db.name i key s.history = some r ∧
    ((∀ c ∈ r.2, ¬ Disturbs r.1 c) → ∃ p, copied s.db r.1 = some p ∧ (s.devices i).memory ptr = some p)

structure Inv (deviceCount : ℕ) (s : St T) : Prop where
  sound : Sound s.devices
  good : GoodDb s.db
  held : ∀ i, ∀ e ∈ (s.devices i).cache.cacheMap, Held deviceCount s i e.key e.ptr
  fresh : ∀ h ∈ s.hits, h.1 = some h.2

omit [DecidableEq T] in
theorem lastRequest_key {databaseName : String} {device : ℕ} {key : Text} {history : List (Event T)}
    {r : Fetch × List (Change T)} (h : lastRequest deviceCount databaseName device key history = some r) :
    r.1.blockIndex % deviceCount = device ∧ r.1.key databaseName = key := by
  induction history generalizing r with
  | nil => cases h
  | cons event history ih =>
    cases event with
    | requested f =>
      unfold lastRequest at h
      split_ifs at h with hkey
      · obtain rfl := Option.some.inj h
        exact hkey
      · exact ih h
    | changed c =>
      obtain ⟨r₀, hr₀, rfl⟩ := Option.map_eq_some_iff.1 h
      have hkey := ih hr₀
      exact hkey

/-! ### Requests -/

omit [DecidableEq T] in
/-- a repeated request finds what it would copy -/
theorem Inv.repeated (h : Inv deviceCount s) {f : Fetch} (hrep : Repeats deviceCount s f) {p : Payload T}
    (hp : copied s.db f = some p) {e : GPUMemoryCache.CacheEntry}
    (he : e ∈ (s.devices (f.blockIndex % deviceCount)).cache.cacheMap) (hkey : e.key = f.key s.db.name) :
    (s.devices (f.blockIndex % deviceCount)).memory e.ptr = some p := by
  obtain ⟨r, hr, hheld⟩ := h.held _ e he
  rw [hkey] at hr
  obtain ⟨rfl, hdist⟩ := hrep (fun hno => hno e he hkey) r hr
  obtain ⟨p', hp', hmem⟩ := hheld hdist
  rw [hmem, ← hp', hp]

/-- the state after a request: a new cache and memory of one device -/
def afterRequest (deviceCount : ℕ) (s : St T) (f : Fetch) (cache : GPUMemoryCache.St) (memory : ℕ → Option (Payload T))
    (hits : List (Option (Payload T) × Payload T)) : St T :=
  { s with
    devices := Function.update s.devices (f.blockIndex % deviceCount) ⟨cache, memory⟩
    history := .requested f :: s.history
    hits := hits }

omit [DecidableEq T] in
theorem held_other (h : Inv deviceCount s) {f : Fetch} {cache : GPUMemoryCache.St} {memory : ℕ → Option (Payload T)}
    {hits : List (Option (Payload T) × Payload T)} {i : ℕ} (hi : i ≠ f.blockIndex % deviceCount) :
    ∀ e ∈ ((afterRequest deviceCount s f cache memory hits).devices i).cache.cacheMap,
      Held deviceCount (afterRequest deviceCount s f cache memory hits) i e.key e.ptr := by
  intro e he
  simp only [afterRequest, Function.update_of_ne hi] at he
  obtain ⟨r, hr, hheld⟩ := h.held i e he
  refine ⟨r, ?_, ?_⟩
  · simp only [afterRequest, lastRequest]
    rw [if_neg fun hc => hi hc.1.symm]
    exact hr
  · simpa only [afterRequest, Function.update_of_ne hi] using hheld

omit [DecidableEq T] in
theorem sound_afterRequest (h : Inv deviceCount s) {f : Fetch} {n : ℕ} {cache : GPUMemoryCache.St}
    (hcache : GPUMemoryCache.Inv n cache) (memory : ℕ → Option (Payload T))
    (hits : List (Option (Payload T) × Payload T)) : Sound (afterRequest deviceCount s f cache memory hits).devices := by
  intro i
  by_cases hi : i = f.blockIndex % deviceCount
  · subst hi
    exact ⟨n, by simpa [afterRequest] using hcache⟩
  · simpa [afterRequest, Function.update_of_ne hi] using h.sound i

omit [DecidableEq T] in
/-- an entry of another key is not concerned by a request that leaves its block -/
theorem held_otherKey {f : Fetch} {key : Text} {ptr : ℕ} (hkey : key ≠ f.key s.db.name)
    {cache : GPUMemoryCache.St} {memory : ℕ → Option (Payload T)} {hits : List (Option (Payload T) × Payload T)}
    (hmemory : memory ptr = (s.devices (f.blockIndex % deviceCount)).memory ptr)
    (hheld : Held deviceCount s (f.blockIndex % deviceCount) key ptr) :
    Held deviceCount (afterRequest deviceCount s f cache memory hits) (f.blockIndex % deviceCount) key ptr := by
  obtain ⟨r, hr, hheld⟩ := hheld
  refine ⟨r, ?_, ?_⟩
  · simp only [afterRequest, lastRequest]
    rw [if_neg fun hc => hkey hc.2.symm]
    exact hr
  · simpa [afterRequest, hmemory] using hheld

omit [DecidableEq T] in
/-- the entry of the request itself, with the block that it asked for -/
theorem held_own {f : Fetch} {ptr : ℕ} {p : Payload T} (hp : copied s.db f = some p) {cache : GPUMemoryCache.St}
    {memory : ℕ → Option (Payload T)} {hits : List (Option (Payload T) × Payload T)} (hmemory : memory ptr = some p) :
    Held deviceCount (afterRequest deviceCount s f cache memory hits) (f.blockIndex % deviceCount) (f.key s.db.name)
      ptr := by
  refine ⟨(f, []), ?_, fun _ => ⟨p, hp, ?_⟩⟩
  · simp [afterRequest, lastRequest]
  · simpa [afterRequest] using hmemory

omit [DecidableEq T] in
/-- a request that copies nothing: the entries are old ones -/
theorem inv_kept (h : Inv deviceCount s) {f : Fetch} (hrep : Repeats deviceCount s f) {p : Payload T}
    (hp : copied s.db f = some p) {n : ℕ} {cache : GPUMemoryCache.St} (hcache : GPUMemoryCache.Inv n cache)
    (hold : ∀ e' ∈ cache.cacheMap, ∃ e ∈ (s.devices (f.blockIndex % deviceCount)).cache.cacheMap,
      e'.key = e.key ∧ e'.ptr = e.ptr)
    {hits : List (Option (Payload T) × Payload T)} (hhits : ∀ h ∈ hits, h.1 = some h.2) :
    Inv deviceCount (afterRequest deviceCount s f cache (s.devices (f.blockIndex % deviceCount)).memory hits) := by
  refine ⟨sound_afterRequest h hcache _ _, h.good, ?_, hhits⟩
  intro i e' he'
  by_cases hi : i = f.blockIndex % deviceCount
  · subst hi
    simp only [afterRequest, Function.update_self] at he'
    obtain ⟨e, he, hkey, hptr⟩ := hold e' he'
    rw [hkey, hptr]
    by_cases hown : e.key = f.key s.db.name
    · rw [hown]
      exact held_own hp (h.repeated hrep hp he hown)
    · exact held_otherKey hown rfl (h.held _ e he)
  · exact held_other h hi e' he'

omit [DecidableEq T] in
/-- a request that copies its block behind the pointer of its key -/
theorem inv_written (h : Inv deviceCount s) {f : Fetch} {p : Payload T} (hp : copied s.db f = some p) {n : ℕ}
    {cache : GPUMemoryCache.St} (hcache : GPUMemoryCache.Inv n cache) {ptr : ℕ}
    (hentry : ∃ e ∈ cache.cacheMap, e.key = f.key s.db.name ∧ e.ptr = ptr)
    (hold : ∀ e' ∈ cache.cacheMap, e'.key ≠ f.key s.db.name →
      ∃ e ∈ (s.devices (f.blockIndex % deviceCount)).cache.cacheMap, e'.key = e.key ∧ e'.ptr = e.ptr) :
    Inv deviceCount (afterRequest deviceCount s f cache
      (Function.update (s.devices (f.blockIndex % deviceCount)).memory ptr (some p)) s.hits) := by
  obtain ⟨own, hown, hownKey, rfl⟩ := hentry
  refine ⟨sound_afterRequest h hcache _ _, h.good, ?_, h.fresh⟩
  intro i e' he'
  by_cases hi : i = f.blockIndex % deviceCount
  · subst hi
    simp only [afterRequest, Function.update_self] at he'
    by_cases hkey : e'.key = f.key s.db.name
    · have hnodup : (cache.cacheMap.map GPUMemoryCache.CacheEntry.key).Nodup := by
        rw [List.Nodup, List.pairwise_map]
        exact hcache.sorted.imp fun hlt => ne_of_lt hlt
      obtain rfl : e' = own := List.inj_on_of_nodup_map hnodup he' hown (hkey.trans hownKey.symm)
      rw [hkey]
      exact held_own hp (Function.update_self ..)
    · have hptr : e'.ptr ≠ own.ptr := by
        intro heq
        obtain rfl : e' = own := List.inj_on_of_nodup_map hcache.ptrs he' hown heq
        exact hkey hownKey
      obtain ⟨e, he, hkey', hptr'⟩ := hold e' he' hkey
      refine held_otherKey hkey (Function.update_of_ne hptr _ _) ?_
      rw [hkey', hptr']
      exact h.held _ e he
  · exact held_other h hi e' he'

omit [DecidableEq T] in
theorem request_inv [DeviceTypes T] (h : Inv deviceCount s) {f : Fetch} (hrep : Repeats deviceCount s f)
    {overwrite : Bool} (hreq : request deviceCount s f overwrite = some s') : Inv deviceCount s' := by
  obtain ⟨p, hp, hreq⟩ := Option.bind_eq_some_iff.1 hreq
  obtain ⟨n, hn⟩ := h.sound (f.blockIndex % deviceCount)
  obtain ⟨r, cache, hget, hcache, hgot⟩ := GPUMemoryCache.getColumn_spec hn p.layout.1 s.db.name.toList
    f.tableAndColumnName f.blockIndex p.layout.2 f.loadSize f.loadOffset
  obtain ⟨horigin, -⟩ := GPUMemoryCache.getColumn_origin hn hget
  simp only [hget] at hreq
  -- an entry that is not new was there with the same key and pointer
  have hold : ∀ e' ∈ cache.cacheMap, ¬ (e'.key = f.key s.db.name ∧ r = .ok (e'.ptr, p.layout.2, false)) →
      ∃ e ∈ (s.devices (f.blockIndex % deviceCount)).cache.cacheMap, e'.key = e.key ∧ e'.ptr = e.ptr :=
    fun e' he' hnew => (horigin e' he').resolve_right hnew
  match r with
  | .error m =>
    obtain rfl := Option.some.inj hreq
    exact inv_kept h hrep hp hcache (fun e' he' => hold e' he' fun hnew => by cases hnew.2) h.fresh
  | .ok (ptr, m, hit) =>
    simp only at hreq
    split_ifs at hreq with hserved
    · obtain rfl := Option.some.inj hreq
      obtain rfl : hit = true := by
        cases hit with
        | false => cases hserved
        | true => rfl
      refine inv_kept h hrep hp hcache (fun e' he' => hold e' he' fun hnew => by cases hnew.2) ?_
      intro hit hmem
      rcases List.mem_cons.1 hmem with rfl | hmem
      · obtain ⟨e, he, hkey, rfl⟩ := hgot.cached ptr m rfl
        exact h.repeated hrep hp he hkey
      · exact h.fresh hit hmem
    · obtain rfl := Option.some.inj hreq
      exact inv_written h hp hcache (hgot.entry ptr m hit rfl) fun e' he' hkey => hold e' he' fun hnew => hkey hnew.1

/-! ### Statements -/

theorem apply_name {rowsLimit : Option ℕ} {d d' : Db T} {c : Change T} (happly : c.apply rowsLimit d = some d') :
    d'.name = d.name := by
  cases c with
  | changeTableBlockSize table newBlockSize =>
    obtain ⟨t, -, happly⟩ := Option.bind_eq_some_iff.1 happly
    split_ifs at happly
    obtain ⟨new, -, happly⟩ := Option.bind_eq_some_iff.1 happly
    obtain rfl := Option.some.inj happly
    rfl
  | _ =>
    simp only [Change.apply, Option.bind_eq_bind, Option.bind_eq_some_iff] at happly
    grind [Db.setTable]

theorem statement_inv {rowsLimit : Option ℕ} (h : Inv deviceCount s) {c : Change T} {devices : ℕ → Device T} {d : Db T}
    (hclears : c.clears deviceCount s.db s.devices = some devices) (happly : c.apply rowsLimit s.db = some d) :
    Inv deviceCount { s with db := d, devices := devices, history := .changed c :: s.history } := by
  obtain ⟨hsound, hless⟩ := clears_less h.sound hclears
  refine ⟨hsound, goodDb_apply h.good happly, ?_, h.fresh⟩
  intro i e he
  obtain ⟨r, hr, hheld⟩ := h.held i e ((hless i).2 he)
  have hname := apply_name happly
  obtain ⟨hdevice, hkey⟩ := lastRequest_key hr
  refine ⟨(r.1, c :: r.2), ?_, ?_⟩
  · simp only [lastRequest, hname, hr, Option.map_some]
  · intro hdist
    obtain ⟨p, hp, hmem⟩ := hheld fun c' hc' => hdist c' (List.mem_cons_of_mem c hc')
    have hundisturbed : ¬ Disturbs r.1 c := hdist c List.mem_cons_self
    have hentry : ¬ NoKey devices (r.1.blockIndex % deviceCount) (r.1.key s.db.name) := by
      rw [hdevice, hkey]
      exact fun hno => hno e he rfl
    have hsurvives := survives_of_entry h.good hundisturbed hp h.sound hclears hentry
    refine ⟨p, copied_apply h.good happly hundisturbed hsurvives hp, ?_⟩
    rw [← hmem, (hless i).1]

/-! ### Other users of the memory -/

omit [DecidableEq T] in
theorem memoryStep_spec {device device' : Device T} {n : ℕ} (h : GPUMemoryCache.Inv n device.cache) {op : MemoryOp T}
    (hstep : memoryStep device op = some device') :
    GPUMemoryCache.Inv n device'.cache ∧ device'.cache.cacheMap = device.cache.cacheMap ∧
      ∀ e ∈ device.cache.cacheMap, device'.memory e.ptr = device.memory e.ptr := by
  cases op with
  | setLockList l =>
    obtain rfl := Option.some.inj hstep
    exact ⟨{ h with }, rfl, fun _ _ => rfl⟩
  | setCurrentBlockIndex b =>
    obtain rfl := Option.some.inj hstep
    exact ⟨{ h with }, rfl, fun _ _ => rfl⟩
  | allocate m =>
    obtain ⟨cache, hcache, hstep⟩ := Option.bind_eq_some_iff.1 hstep
    obtain rfl := Option.some.inj hstep
    obtain ⟨cache', hcache', hinv⟩ := GPUMemoryCache.step_inv device.cache (.allocate m) h
    obtain rfl : cache' = cache := Option.some.inj (hcache'.symm.trans hcache)
    obtain ⟨r, -, rfl⟩ := Option.map_eq_some_iff.1 hcache
    exact ⟨hinv, rfl, fun _ _ => rfl⟩
  | deallocate p =>
    obtain ⟨cache, hcache, hstep⟩ := Option.bind_eq_some_iff.1 hstep
    obtain rfl := Option.some.inj hstep
    obtain ⟨cache', hcache', hinv⟩ := GPUMemoryCache.step_inv device.cache (.deallocate p) h
    obtain rfl : cache' = cache := Option.some.inj (hcache'.symm.trans hcache)
    refine ⟨hinv, ?_, fun _ _ => rfl⟩
    simp only [GPUMemoryCache.step] at hcache
    split_ifs at hcache
    · obtain rfl := Option.some.inj hcache
      rfl
    · obtain ⟨r, -, rfl⟩ := Option.map_eq_some_iff.1 hcache
      rfl
  | write p payload =>
    simp only [memoryStep] at hstep
    split_ifs at hstep with hp
    obtain rfl := Option.some.inj hstep
    refine ⟨h, rfl, ?_⟩
    intro e he
    refine Function.update_of_ne ?_ _ _
    rintro rfl
    exact hp (List.mem_map_of_mem he)

omit [DecidableEq T] in
theorem memory_inv (h : Inv deviceCount s) {i : ℕ} {op : MemoryOp T} {device : Device T}
    (hstep : memoryStep (s.devices i) op = some device) :
    Inv deviceCount { s with devices := Function.update s.devices i device } := by
  obtain ⟨n, hn⟩ := h.sound i
  obtain ⟨hinv, hmap, hmemory⟩ := memoryStep_spec hn hstep
  refine ⟨?_, h.good, ?_, h.fresh⟩
  · intro j
    by_cases hj : j = i
    · subst hj
      exact ⟨n, by simpa using hinv⟩
    · simpa [Function.update_of_ne hj] using h.sound j
  · intro j e he
    by_cases hj : j = i
    · subst hj
      simp only [Function.update_self, hmap] at he
      obtain ⟨r, hr, hheld⟩ := h.held j e he
      refine ⟨r, hr, fun hdist => ?_⟩
      simpa [hmemory e he] using hheld hdist
    · simp only [Function.update_of_ne hj] at he
      obtain ⟨r, hr, hheld⟩ := h.held j e he
      exact ⟨r, hr, fun hdist => by simpa [Function.update_of_ne hj] using hheld hdist⟩

/-! ### The result -/

omit [DecidableEq T] in
theorem inv_started (h : Started s) : Inv deviceCount s := by
  refine ⟨?_, ?_, ?_, ?_⟩
  · intro i
    obtain ⟨free, percent, start, a, maximumSize, ha, hcache⟩ := h.caches i
    have hsmall : free * percent.toNat % 2 ^ 64 / 100 - CudaMemAllocator.RESERVED_MEMORY < 2 ^ 63 := by omega
    rw [hcache]
    exact ⟨_, GPUMemoryCache.inv_construct (CudaMemAllocator.inv_construct ha) hsmall maximumSize⟩
  · intro table column c hc
    simp [Db.column, h.tables] at hc
  · intro i e he
    obtain ⟨free, percent, start, a, maximumSize, -, hcache⟩ := h.caches i
    rw [hcache] at he
    exact absurd he List.not_mem_nil
  · intro hit hmem
    rw [h.hits] at hmem
    exact absurd hmem List.not_mem_nil

theorem step_inv [DeviceTypes T] {rowsLimit : Option ℕ} (h : Inv deviceCount s) {op : Op T}
    (hadm : Admitted deviceCount s op) (hstep : step rowsLimit deviceCount s op = some s') : Inv deviceCount s' := by
  cases op with
  | load l i overwrite =>
    obtain ⟨asks, hasks, hstep⟩ := Option.bind_eq_some_iff.1 hstep
    obtain ⟨what, hwhat, hstep⟩ := Option.bind_eq_some_iff.1 hstep
    exact request_inv h (hadm what (Option.bind_eq_some_iff.2 ⟨asks, hasks, hwhat⟩)) hstep
  | statement c =>
    obtain ⟨devices, hclears, hstep⟩ := Option.bind_eq_some_iff.1 hstep
    obtain ⟨d, happly, hstep⟩ := Option.bind_eq_some_iff.1 hstep
    obtain rfl := Option.some.inj hstep
    exact statement_inv h hclears happly
  | memory i op =>
    obtain ⟨device, hdevice, hstep⟩ := Option.bind_eq_some_iff.1 hstep
    obtain rfl := Option.some.inj hstep
    exact memory_inv h hdevice

end Inv

/-- **When the cache is not stale.** In every run of queries, statements and other users of the memory, on any number of
devices, whose requests for a cached key each repeat the last request for this key with no disturbing statement in
between, every hit finds just the block that would be copied. -/
theorem cache_never_stale [DeviceTypes T] (rowsLimit : Option ℕ) (deviceCount : ℕ) {s₀ s : St T} (h₀ : Started s₀)
    (h : Run.Reach (step rowsLimit deviceCount) (Admitted deviceCount) s₀ s) : ∀ hit ∈ s.hits, hit.1 = some hit.2 :=
  (Run.reach_inv (Inv deviceCount) (inv_started h₀) (fun _ _ _ hinv hadm hstep => step_inv hinv hadm hstep) h).fresh

instance : DeviceTypes DataType where
  layout
    | _, .int, values => (4, values.length)
    | part, .string, values =>
      if part = "_allChars" then (1, ((values : List Str).map List.length).sum) else (8, values.length)

/-- a server with 1000 bytes on each device -/
def startedServer : St DataType where
  db := ⟨"db", 4, ∅⟩
  devices _ := ⟨GPUMemoryCache.construct 1000 GPUMemoryCache.smallAllocator, fun _ => none⟩
  history := []
  hits := []

theorem started_startedServer : Started startedServer :=
  ⟨rfl, fun _ => ⟨256001000, 100, 4096, _, 1000, rfl, rfl⟩, rfl, rfl⟩

/-- CREATE TABLE t (a int) -/
def createTable : Op DataType := .statement (.createTable "t" 4 [⟨"a", .int, false, false⟩])

/-- INSERT INTO t (a) VALUES (x) -/
def insertRow (x : Int32T) : Op DataType := .statement (.insertInto "t" [⟨"a", .int, [x], [0]⟩] true [])

/-- the request of SELECT a FROM t, of `n` rows of the first block -/
def loadRows (n : ℕ) : Op DataType := .load ⟨"t", "a", .column, 0, n, 0, false⟩ 0 false

/-- a query, the same query again, a row more, and the query again -/
theorem cache_never_stale_repeated :
    ∃ s, Run.Reach (step none 1) (Admitted 1) startedServer s ∧
      s.hits.length = 1 ∧ ∀ hit ∈ s.hits, hit.1 = some hit.2 := by
  have h₁ : Run.Reach (step none 1) (Admitted 1) startedServer _ := Run.Reach.refl.tail createTable trivial rfl
  have h₂ := h₁.tail (insertRow 7) trivial rfl
  have h₃ := h₂.tail (loadRows 1) (by decide) rfl
  have h₄ := h₃.tail (loadRows 1) (by decide) rfl
  have h₅ := h₄.tail (insertRow 8) trivial rfl
  have h₆ := h₅.tail (loadRows 2) (by decide) rfl
  exact ⟨_, h₆, rfl, cache_never_stale none 1 started_startedServer h₆⟩

/-- DROP TABLE clears nothing, and neither does INSERT INTO a table without blocks: after the table is created again the
row of the old table is found. -/
theorem cache_stale_recreated :
    ¬ ∀ (ops : List (Op DataType)) (s : St DataType), Run.exec (step none 1) startedServer ops = some s →
      ∀ hit ∈ s.hits, hit.1 = some hit.2 := by
  intro h
  have hit := h [createTable, insertRow 7, loadRows 1, .statement (.dropTable "t"), createTable, insertRow 8, loadRows 1]
    _ rfl (some (.data "" .int [(7 : Int32T)]), .data "" .int [(8 : Int32T)]) (List.mem_singleton.2 rfl)
  simp only [Option.some.injEq, Payload.data.injEq, heq_eq_eq, true_and] at hit
  exact absurd hit (by decide)

end QikkDB.CacheFreshness

/-
Aggregates with GROUP BY (GpuSqlParser/Dispatcher/GpuSqlDispatcherAggregationFunctions.h, `GroupByCol`,
`AggregationGroupBy`, `GroupByHelper::ProcessBlock`; GpuSqlDispatcher.cpp, `LoadColNullMask`): which rows of a block
reach the hash table of the aggregate.

`GroupByCol` filters a key column into a register of its own, named by a suffix. `AggregationGroupBy` filters the value
column in place, unless the column is a key or only counted: a key is taken as it was loaded, and COUNT takes the null
mask as it is stored, with no values. `ProcessBlock` reads the columns side by side as far as the shortest goes.

A register is named by its column and what it holds; a stored column whose own name ends in one of the suffixes is not
modelled. The variable for the null mask of a filtered column is not initialised; a column without a null mask leaves
it so, and what is read through it is undefined, as is a null mask copied from a column that has none.

Results:
- `grouped_keys`: the registers after the keys of the query.
- `group_rows`: the rows handed over are the filtered rows of the block, whatever they hold, exactly when the columns
  are nullable, as far as a filter passes rows, and those of a column taken unfiltered come before the others.
-/
import Mathlib.Tactic
import QikkDB.Engine.Aggregation

namespace QikkDB.GroupBy

open Decimal Select
open Aggregation (AggregationFunction NullMaskPtr reconstructColKeep)

/-! ## Model -/

/-- `allocatedPointers_`, by what a register holds, and `groupByColumns_` -/
structure St where
  columns : Text → Option Aggregation.Column
  /-- the registers with NULL_SUFFIX -/
  nullMasks : Text → Option NullMaskPtr
  /-- the registers with RECONSTRUCTED_SUFFIX -/
  reconstructed : Text → Option Aggregation.Column
  /-- the registers with both -/
  nullMasksReconstructed : Text → Option NullMaskPtr
  groupByColumns : List Text

def start : St := ⟨fun _ => none, fun _ => none, fun _ => none, fun _ => none, []⟩

def insertRegister {α : Type} (registers : Text → Option α) (name : Text) (value : α) :
    Except String (Text → Option α) :=
  match registers name with
  | none => .ok (Function.update registers name (some value))
  | some _ => .error "Attempt to overwrite existing register"

/-- `LoadCol`: a column that is there stays as it is; so does its null mask -/
def loadCol (b : Aggregation.Block) (s : St) (colName : Text) : St × Aggregation.Column :=
  match s.columns colName with
  | some c => (s, c)
  | none =>
    match (b.column colName).nullMask, s.nullMasks colName with
    | .flags l, none =>
      ({ s with columns := Function.update s.columns colName (some (b.column colName)),
                nullMasks := Function.update s.nullMasks colName (some (.flags l)) }, b.column colName)
    | .flags _, some mask =>
      ({ s with columns := Function.update s.columns colName (some ⟨(b.column colName).data, mask⟩) },
        ⟨(b.column colName).data, mask⟩)
    | _, _ =>
      ({ s with columns := Function.update s.columns colName (some ⟨(b.column colName).data, .null⟩) },
        ⟨(b.column colName).data, .null⟩)

/-- `LoadColNullMask`, for a block that is there -/
def loadColNullMask (b : Aggregation.Block) (s : St) (colName : Text) : Except String (St × NullMaskPtr) :=
  match s.nullMasks colName with
  | some mask => .ok (s, mask)
  | none =>
    match (b.column colName).nullMask with
    | .flags l => .ok ({ s with nullMasks := Function.update s.nullMasks colName (some (.flags l)) }, .flags l)
    | _ => .error "copy of a null mask that is not there"

def groupByCol (b : Aggregation.Block) (filter : Option (List Bool)) (s : St) (columnName : Text) :
    Except String St := do
  let (s, column) := loadCol b s columnName
  let out := reconstructColKeep column filter .uninitialized
  let reconstructed ← insertRegister s.reconstructed columnName out
  let masks ← insertRegister s.nullMasksReconstructed columnName out.nullMask
  .ok { s with
    reconstructed := reconstructed,
    nullMasksReconstructed := masks,
    groupByColumns := if columnName ∈ s.groupByColumns then s.groupByColumns else s.groupByColumns ++ [columnName] }

/-- what `ProcessBlock` gets of the values; COUNT has no data -/
structure ValueColumn where
  gpuPtr : Option (List ℤ)
  elementCount : ℕ
  nullMask : NullMaskPtr
deriving DecidableEq, Repr

/-- `reconstructOutNullMask != column.GpuNullMaskPtr`: a filter leaves a new buffer, or none -/
def newNullMask (column out : Aggregation.Column) (filter : Option (List Bool)) : Bool :=
  match column.nullMask, out.nullMask with
  | .null, .null => false
  | _, _ => filter.isSome

/-- `AggregationGroupBy` up to `ProcessBlock`, for an aggregate of a stored column -/
def valueColumn (b : Aggregation.Block) (filter : Option (List Bool)) (op : AggregationFunction) (colTableName : Text)
    (s : St) : Except String (St × ValueColumn) :=
  match op with
  | .count => do
    let (s, mask) ← loadColNullMask b s colTableName
    .ok (s, ⟨none, b.size, mask⟩)
  | _ => do
    let (s, column) := loadCol b s colTableName
    if colTableName ∈ s.groupByColumns then
      .ok (s, ⟨some column.data, column.data.length, column.nullMask⟩)
    else
      let out := reconstructColKeep column filter .uninitialized
      let masks ←
        if newNullMask column out filter then insertRegister s.nullMasksReconstructed colTableName out.nullMask
        else .ok s.nullMasksReconstructed
      .ok ({ s with nullMasksReconstructed := masks,
                    columns := Function.update s.columns colTableName (some out) },
        ⟨some out.data, out.data.length, out.nullMask⟩)

/-- one row of what `ProcessBlock` reads: keys and value, each with its NULL flag -/
structure GroupRow where
  keys : List (ℤ × Bool)
  value : Option ℤ
  valueIsNull : Bool
deriving DecidableEq, Repr

/-- bit `i` of a null mask; no mask, no NULL -/
def NullMaskPtr.isNull (mask : NullMaskPtr) (i : ℕ) : Except String Bool :=
  match mask with
  | .uninitialized => .error "read through an uninitialised pointer"
  | .null => .ok false
  | .flags l => .ok (l.getD i false)

def readKey (i : ℕ) (c : Aggregation.Column) : Except String (ℤ × Bool) := do
  let isNull ← NullMaskPtr.isNull c.nullMask i
  .ok (c.data.getD i 0, isNull)

def readRow (keys : List Aggregation.Column) (value : ValueColumn) (i : ℕ) : Except String GroupRow := do
  let ks ← keys.mapM (readKey i)
  let isNull ← NullMaskPtr.isNull value.nullMask i
  .ok ⟨ks, value.gpuPtr.map fun l => l.getD i 0, isNull⟩

/-- the minimum of the element counts; INT_MAX, from which the keys start, is no bound on an int32_t -/
def dataSize (keys : List Aggregation.Column) (value : ValueColumn) : ℕ :=
  keys.foldr (fun k n => Min.min k.data.length n) value.elementCount

def processBlock (keys : List Aggregation.Column) (value : ValueColumn) : Except String (List GroupRow) :=
  (List.range (dataSize keys value)).mapM (readRow keys value)

/-- `allocatedPointers_.at(groupByColumnName + RECONSTRUCTED_SUFFIX)` -/
def St.key (s : St) (columnName : Text) : Except String Aggregation.Column :=
  match s.reconstructed columnName with
  | some c => .ok c
  | none => .error "out_of_range"

/-- the rows of a block that reach the table of the aggregate; an empty block is skipped at its first load -/
def handedRows (b : Aggregation.Block) (filter : Option (List Bool)) (keys : List Text) (op : AggregationFunction)
    (colTableName : Text) : Except String (List GroupRow) :=
  if b.size = 0 then .ok []
  else do
    let s ← keys.foldlM (groupByCol b filter) start
    let (s, value) ← valueColumn b filter op colTableName s
    let keyColumns ← s.groupByColumns.mapM s.key
    processBlock keyColumns value

/-- a row of the table -/
structure Row where
  value : Text → ℤ
  isNull : Text → Bool

/-- a block of rows; only the columns that are nullable have a mask -/
def blockOf (nullable : Text → Bool) (rows : List Row) : Aggregation.Block :=
  ⟨rows.length, fun c => ⟨rows.map (·.value c), if nullable c then .flags (rows.map (·.isNull c)) else .null⟩⟩

/-- what a row has to hand over; COUNT takes no value -/
def ownRow (nullable : Text → Bool) (keys : List Text) (op : AggregationFunction) (colTableName : Text) (r : Row) :
    GroupRow :=
  ⟨keys.map fun k => (r.value k, nullable k && r.isNull k), if op = .count then none else some (r.value colTableName),
    nullable colTableName && r.isNull colTableName⟩

/-! ## The registers after the keys -/

section Keys

variable {b : Aggregation.Block} {filter : Option (List Bool)}

/-- what is loaded is what the block holds -/
structure Loaded (b : Aggregation.Block) (s : St) : Prop where
  columns : ∀ c col, s.columns c = some col → col = b.column c
  nullMasks : ∀ c m, s.nullMasks c = some m → m = (b.column c).nullMask ∧ m ≠ .null

/-- the state after the keys `done` -/
structure Grouped (b : Aggregation.Block) (filter : Option (List Bool)) (done : List Text) (s : St) : Prop
    extends Loaded b s where
  reconstructed : ∀ k ∈ done, s.reconstructed k = some (reconstructColKeep (b.column k) filter .uninitialized)
  fresh : ∀ k, k ∉ done → s.reconstructed k = none ∧ s.nullMasksReconstructed k = none
  groupByColumns : s.groupByColumns = done

theorem loaded_update {s : St} (h : Loaded b s) (c : Text) :
    Loaded b { s with columns := Function.update s.columns c (some (b.column c)) } := by
  refine ⟨fun c' col hcol => ?_, h.nullMasks⟩
  rcases eq_or_ne c' c with rfl | hne
  · simpa using hcol.symm
  · exact h.columns c' col (by simpa [Function.update_of_ne hne] using hcol)

theorem loaded_update_mask {s : St} {l : List Bool} (h : Loaded b s) (c : Text)
    (hc : (b.column c).nullMask = .flags l) :
    Loaded b { s with nullMasks := Function.update s.nullMasks c (some (.flags l)) } := by
  refine ⟨h.columns, fun c' m hm => ?_⟩
  rcases eq_or_ne c' c with rfl | hne
  · obtain rfl : NullMaskPtr.flags l = m := by simpa using hm
    exact ⟨hc.symm, by simp⟩
  · exact h.nullMasks c' m (by simpa [Function.update_of_ne hne] using hm)

/-- a load gives the column of the block and leaves the registers of the keys -/
theorem loadCol_spec {s : St} (hb : ∀ c, (b.column c).nullMask ≠ .uninitialized) (h : Loaded b s) (c : Text) :
    ∃ s', loadCol b s c = (s', b.column c) ∧ Loaded b s' ∧ s'.columns c = some (b.column c) ∧
      s'.reconstructed = s.reconstructed ∧ s'.nullMasksReconstructed = s.nullMasksReconstructed ∧
      s'.groupByColumns = s.groupByColumns := by
  cases hcol : s.columns c with
  | some col =>
    obtain rfl := h.columns c col hcol
    exact ⟨s, by simp [loadCol, hcol], h, hcol, rfl, rfl, rfl⟩
  | none =>
    cases hmask : (b.column c).nullMask with
    | uninitialized => exact absurd hmask (hb c)
    | null =>
      have hsame : (⟨(b.column c).data, .null⟩ : Aggregation.Column) = b.column c := by rw [← hmask]
      refine ⟨{ s with columns := Function.update s.columns c (some (b.column c)) }, ?_, loaded_update h c, by simp,
        rfl, rfl, rfl⟩
      simp [loadCol, hcol, hmask, hsame]
    | flags l =>
      cases hreg : s.nullMasks c with
      | none =>
        refine ⟨{ s with
          columns := Function.update s.columns c (some (b.column c)),
          nullMasks := Function.update s.nullMasks c (some (.flags l)) }, ?_, ?_, by simp, rfl, rfl, rfl⟩
        · simp [loadCol, hcol, hmask, hreg]
        · exact loaded_update_mask (loaded_update h c) c hmask
      | some m =>
        have hsame : (⟨(b.column c).data, m⟩ : Aggregation.Column) = b.column c := by rw [(h.nullMasks c m hreg).1]
        refine ⟨{ s with columns := Function.update s.columns c (some (b.column c)) }, ?_, loaded_update h c, by simp,
          rfl, rfl, rfl⟩
        simp [loadCol, hcol, hmask, hreg, hsame]

theorem groupByCol_spec {s : St} {done : List Text} (hb : ∀ c, (b.column c).nullMask ≠ .uninitialized)
    (h : Grouped b filter done s) {k : Text} (hk : k ∉ done) :
    ∃ s', groupByCol b filter s k = .ok s' ∧ Grouped b filter (done ++ [k]) s' := by
  obtain ⟨s₁, hload, hloaded, -, hrec, hmasks, hcols⟩ := loadCol_spec hb h.toLoaded k
  obtain ⟨hfree, hfreeMask⟩ := h.fresh k hk
  set out := reconstructColKeep (b.column k) filter .uninitialized with hout
  refine ⟨{ s₁ with
    reconstructed := Function.update s₁.reconstructed k (some out),
    nullMasksReconstructed := Function.update s₁.nullMasksReconstructed k (some out.nullMask),
    groupByColumns := done ++ [k] }, ?_, ⟨hloaded.columns, hloaded.nullMasks⟩, ?_, ?_, rfl⟩
  · simp [groupByCol, hload, insertRegister, hrec, hmasks, hcols, hfree, hfreeMask, h.groupByColumns, hk, ← hout, bind,
      Except.bind]
  · intro k' hk'
    rcases eq_or_ne k' k with rfl | hne
    · simp [hout]
    · have hold : k' ∈ done := by simpa [hne] using hk'
      simpa [Function.update_of_ne hne, hrec] using h.reconstructed k' hold
  · intro k' hk'
    have hne : k' ≠ k := fun heq => hk' (by simp [heq])
    have hold : k' ∉ done := fun hin => hk' (by simp [hin])
    simpa [Function.update_of_ne hne, hrec, hmasks] using h.fresh k' hold

theorem grouped_keys (filter : Option (List Bool)) (hb : ∀ c, (b.column c).nullMask ≠ .uninitialized)
    {keys : List Text} (hnodup : keys.Nodup) :
    ∃ s, keys.foldlM (groupByCol b filter) start = .ok s ∧ Grouped b filter keys s := by
  have gen : ∀ (done : List Text) (s : St), Grouped b filter done s → (done ++ keys).Nodup →
      ∃ s', keys.foldlM (groupByCol b filter) s = .ok s' ∧ Grouped b filter (done ++ keys) s' := by
    clear hnodup
    induction keys with
    | nil => exact fun done s h _ => ⟨s, rfl, by simpa using h⟩
    | cons k keys ih =>
      intro done s h hnodup
      have hk : k ∉ done := fun hin => List.disjoint_of_nodup_append hnodup hin List.mem_cons_self
      obtain ⟨s₁, hstep, h₁⟩ := groupByCol_spec hb h hk
      obtain ⟨s₂, hrun, h₂⟩ := ih (done ++ [k]) s₁ h₁ (by simpa using hnodup)
      refine ⟨s₂, ?_, by simpa using h₂⟩
      rw [List.foldlM_cons, hstep]
      exact hrun
  have hstart : Grouped b filter [] start := by
    refine ⟨⟨?_, ?_⟩, ?_, ?_, rfl⟩ <;> simp [start]
  simpa using gen [] start hstart (by simpa using hnodup)

end Keys

/-! ## The value column -/

/-- what `ProcessBlock` gets of the values, by the kind of the aggregate -/
def valueOf (b : Aggregation.Block) (filter : Option (List Bool)) (keys : List Text) (op : AggregationFunction)
    (c : Text) : ValueColumn :=
  if op = .count then ⟨none, b.size, (b.column c).nullMask⟩
  else
    let out := if c ∈ keys then b.column c else reconstructColKeep (b.column c) filter .uninitialized
    ⟨some out.data, out.data.length, out.nullMask⟩

section Value

variable {b : Aggregation.Block} {filter : Option (List Bool)} {keys : List Text} {s : St} {c : Text}

theorem loadColNullMask_flags (h : Loaded b s) {l : List Bool} (hc : (b.column c).nullMask = .flags l) :
    ∃ s', loadColNullMask b s c = .ok (s', (b.column c).nullMask) ∧ s'.nullMasks c = some (b.column c).nullMask ∧
      s'.reconstructed = s.reconstructed ∧ s'.groupByColumns = s.groupByColumns := by
  cases hreg : s.nullMasks c with
  | none =>
    refine ⟨{ s with nullMasks := Function.update s.nullMasks c (some (.flags l)) }, ?_, by simp [hc], rfl, rfl⟩
    simp [loadColNullMask, hreg, hc]
  | some m =>
    obtain rfl := (h.nullMasks c m hreg).1
    exact ⟨s, by simp [loadColNullMask, hreg], hreg, rfl, rfl⟩

theorem loadColNullMask_null (h : Loaded b s) (hc : (b.column c).nullMask = .null) :
    ∃ e, loadColNullMask b s c = .error e := by
  cases hreg : s.nullMasks c with
  | none => exact ⟨_, by simp [loadColNullMask, hreg, hc]; rfl⟩
  | some m =>
    obtain ⟨rfl, hne⟩ := h.nullMasks c m hreg
    exact absurd hc hne

theorem valueColumn_key {op : AggregationFunction} (hop : op ≠ .count) {s₁ : St} {col : Aggregation.Column}
    (hload : loadCol b s c = (s₁, col)) (hc : c ∈ s₁.groupByColumns) :
    valueColumn b filter op c s = .ok (s₁, ⟨some col.data, col.data.length, col.nullMask⟩) := by
  cases op with
  | count => exact absurd rfl hop
  | _ => simp [valueColumn, hload, hc]

theorem valueColumn_other {op : AggregationFunction} (hop : op ≠ .count) {s₁ : St} {col : Aggregation.Column}
    (hload : loadCol b s c = (s₁, col)) (hc : c ∉ s₁.groupByColumns) :
    valueColumn b filter op c s = (do
      let masks ←
        if newNullMask col (reconstructColKeep col filter .uninitialized) filter then
          insertRegister s₁.nullMasksReconstructed c (reconstructColKeep col filter .uninitialized).nullMask
        else .ok s₁.nullMasksReconstructed
      .ok ({ s₁ with nullMasksReconstructed := masks,
                     columns := Function.update s₁.columns c (some (reconstructColKeep col filter .uninitialized)) },
        ⟨some (reconstructColKeep col filter .uninitialized).data,
          (reconstructColKeep col filter .uninitialized).data.length,
          (reconstructColKeep col filter .uninitialized).nullMask⟩)) := by
  cases op with
  | count => exact absurd rfl hop
  | _ => simp only [valueColumn, hload, hc, if_false]

/-- the value column, for every aggregate that does not count -/
theorem valueColumn_values {op : AggregationFunction} (hop : op ≠ .count)
    (hb : ∀ c, (b.column c).nullMask ≠ .uninitialized) (h : Grouped b filter keys s) :
    ∃ s', valueColumn b filter op c s = .ok (s', valueOf b filter keys op c) ∧ s'.reconstructed = s.reconstructed ∧
      s'.groupByColumns = keys ∧ s'.columns c = some (if c ∈ keys then b.column c
        else reconstructColKeep (b.column c) filter .uninitialized) ∧
      (c ∉ keys → newNullMask (b.column c) (reconstructColKeep (b.column c) filter .uninitialized) filter = true →
        s'.nullMasksReconstructed c ≠ none) := by
  obtain ⟨s₁, hload, -, hcolumn, hrec, hmasks, hcols⟩ := loadCol_spec hb h.toLoaded c
  have hcols : s₁.groupByColumns = keys := hcols.trans h.groupByColumns
  by_cases hc : c ∈ keys
  · refine ⟨s₁, ?_, hrec, hcols, by simp [hc, hcolumn], fun hc' => absurd hc hc'⟩
    rw [valueColumn_key hop hload (hcols ▸ hc)]
    simp [valueOf, hop, hc]
  · have hfree := (h.fresh c hc).2
    rw [valueColumn_other hop hload (hcols ▸ hc)]
    simp only [insertRegister, hmasks, hfree, valueOf, hop, hc, if_false]
    split_ifs with hnew
    · exact ⟨_, rfl, hrec, hcols, by simp, fun _ _ => by simp⟩
    · exact ⟨_, rfl, hrec, hcols, by simp, fun _ hnew' => absurd hnew' hnew⟩

theorem valueColumn_count {l : List Bool} (h : Grouped b filter keys s) (hc : (b.column c).nullMask = .flags l) :
    ∃ s', valueColumn b filter .count c s = .ok (s', valueOf b filter keys .count c) ∧
      s'.reconstructed = s.reconstructed ∧ s'.groupByColumns = keys ∧ s'.nullMasks c = some (b.column c).nullMask := by
  obtain ⟨s₁, hload, hmask, hrec, hcols⟩ := loadColNullMask_flags h.toLoaded hc
  refine ⟨s₁, ?_, hrec, hcols.trans h.groupByColumns, hmask⟩
  simp [valueColumn, hload, valueOf, bind, Except.bind]

end Value

theorem mapM_ok {β γ : Type} {g : β → Except String γ} {f : β → γ} {l : List β} (h : ∀ a ∈ l, g a = .ok (f a)) :
    l.mapM g = .ok (l.map f) := by
  induction l with
  | nil => rfl
  | cons a l ih =>
    rw [List.mapM_cons, h a List.mem_cons_self, ih fun b hb => h b (List.mem_cons_of_mem _ hb)]
    rfl

/-- the columns `ProcessBlock` gets, for a block that is not empty -/
theorem handedRows_eq {b : Aggregation.Block} {filter : Option (List Bool)} {keys : List Text}
    {op : AggregationFunction} {c : Text} (hsize : b.size ≠ 0) (hb : ∀ c, (b.column c).nullMask ≠ .uninitialized) (hnodup : keys.Nodup)
    (hcount : op = .count → ∃ l, (b.column c).nullMask = .flags l) :
    handedRows b filter keys op c =
      processBlock (keys.map fun k => reconstructColKeep (b.column k) filter .uninitialized)
        (valueOf b filter keys op c) := by
  obtain ⟨s, hrun, h⟩ := grouped_keys filter hb hnodup
  have hvalue : ∃ s', valueColumn b filter op c s = .ok (s', valueOf b filter keys op c) ∧
      s'.reconstructed = s.reconstructed ∧ s'.groupByColumns = keys := by
    by_cases hop : op = .count
    · obtain ⟨l, hl⟩ := hcount hop
      subst hop
      obtain ⟨s₁, hv, hrec, hcols, -⟩ := valueColumn_count h hl
      exact ⟨s₁, hv, hrec, hcols⟩
    · obtain ⟨s₁, hv, hrec, hcols, -⟩ := valueColumn_values (c := c) hop hb h
      exact ⟨s₁, hv, hrec, hcols⟩
  obtain ⟨s₁, hv, hrec, hcols⟩ := hvalue
  have hkeys : keys.mapM s₁.key = .ok (keys.map fun k => reconstructColKeep (b.column k) filter .uninitialized) := by
    have hkey : ∀ k ∈ keys, s₁.key k = .ok (reconstructColKeep (b.column k) filter .uninitialized) := by
      intro k hk
      simp [St.key, hrec, h.reconstructed k hk]
    exact mapM_ok hkey
  simp [handedRows, hsize, hrun, hv, hcols, hkeys, bind, Except.bind]

theorem handedRows_count_error {b : Aggregation.Block} (filter : Option (List Bool)) {keys : List Text} {c : Text}
    (hsize : b.size ≠ 0) (hb : ∀ c, (b.column c).nullMask ≠ .uninitialized) (hnodup : keys.Nodup)
    (hc : (b.column c).nullMask = .null) : ∃ e, handedRows b filter keys .count c = .error e := by
  obtain ⟨s, hrun, h⟩ := grouped_keys filter hb hnodup
  obtain ⟨e, he⟩ := loadColNullMask_null h.toLoaded hc
  exact ⟨e, by simp [handedRows, hsize, hrun, valueColumn, he, bind, Except.bind]⟩

/-! ## Reading rows -/

theorem mapM_range {β γ : Type} {g : ℕ → Except String γ} {l : List β} {f : β → γ}
    (h : ∀ (i : ℕ) (hi : i < l.length), g i = .ok (f l[i])) : (List.range l.length).mapM g = .ok (l.map f) := by
  induction l using List.reverseRecOn with
  | nil => rfl
  | append_singleton l a ih =>
    have hinit : (List.range l.length).mapM g = .ok (l.map f) := by
      refine ih fun i hi => ?_
      have := h i (by simp; omega)
      rwa [List.getElem_append_left hi] at this
    have hlast : g l.length = .ok (f a) := by
      have := h l.length (by simp)
      simpa using this
    rw [List.length_append, List.length_singleton, List.range_succ, List.mapM_append, hinit]
    simp [hlast, bind, Except.bind, pure, Except.pure]

section Rows

variable (nullable : Text → Bool) (keys : List Text) (op : AggregationFunction) (c : Text)

/-- a row that has its keys from `r` and its value from `r'` -/
def mixedRow (r r' : Row) : GroupRow := { ownRow nullable keys op c r' with keys := (ownRow nullable keys op c r).keys }

theorem blockOf_initialized (rows : List Row) (c : Text) :
    ((blockOf nullable rows).column c).nullMask ≠ .uninitialized := by
  unfold blockOf
  cases h : nullable c <;> simp [h]

/-- the value column of the rows `rows`, nothing filtered -/
def wholeValue (rows : List Row) : ValueColumn :=
  ⟨if op = .count then none else some (rows.map (·.value c)), rows.length,
    ((blockOf nullable rows).column c).nullMask⟩

theorem isNull_blockOf (rows : List Row) (i : ℕ) (hi : i < rows.length) (c : Text) :
    NullMaskPtr.isNull ((blockOf nullable rows).column c).nullMask i = .ok (nullable c && rows[i].isNull c) := by
  cases h : nullable c
  · simp [blockOf, NullMaskPtr.isNull, h]
  · simp [blockOf, NullMaskPtr.isNull, h, hi]

theorem readRow_blockOf (F V : List Row) (i : ℕ) (hF : i < F.length) (hV : i < V.length) :
    readRow (keys.map fun k => (blockOf nullable F).column k) (wholeValue nullable op c V) i =
      .ok (mixedRow nullable keys op c F[i] V[i]) := by
  have hkey : ∀ k, readKey i ((blockOf nullable F).column k) = .ok (F[i].value k, nullable k && F[i].isNull k) := by
    intro k
    rw [readKey, isNull_blockOf nullable F i hF k]
    simp [blockOf, bind, Except.bind, hF]
  have hkeys : (keys.map fun k => (blockOf nullable F).column k).mapM (readKey i) =
      .ok (keys.map fun k => (F[i].value k, nullable k && F[i].isNull k)) := by
    rw [List.mapM_map]
    exact mapM_ok fun k _ => hkey k
  rw [readRow, hkeys, wholeValue, isNull_blockOf nullable V i hV c]
  by_cases hop : op = .count
  · simp [hop, mixedRow, ownRow, bind, Except.bind]
  · simp [hop, mixedRow, ownRow, bind, Except.bind, hV]

theorem dataSize_eq {cols : List Aggregation.Column} {n : ℕ} {v : ValueColumn} (hne : cols ≠ [])
    (hcols : ∀ k ∈ cols, k.data.length = n) (hv : n ≤ v.elementCount) : dataSize cols v = n := by
  unfold dataSize
  induction cols with
  | nil => exact absurd rfl hne
  | cons k cols ih =>
    rw [List.foldr_cons, hcols k List.mem_cons_self]
    rcases cols with _ | ⟨k', cols⟩
    · exact min_eq_left hv
    · rw [ih (by simp) fun q hq => hcols q (List.mem_cons_of_mem _ hq), min_self]

theorem dataSize_pos {cols : List Aggregation.Column} {v : ValueColumn} (hcols : ∀ k ∈ cols, 0 < k.data.length)
    (hv : 0 < v.elementCount) : 0 < dataSize cols v := by
  unfold dataSize
  induction cols with
  | nil => exact hv
  | cons k cols ih =>
    exact lt_min (hcols k List.mem_cons_self) (ih fun k' hk' => hcols k' (List.mem_cons_of_mem _ hk'))

/-- `ProcessBlock` on the keys of `F` and the values of `V`: row by row as far as `F` goes -/
theorem processBlock_blockOf {F V : List Row} (hkeys : keys ≠ []) (hle : F.length ≤ V.length) :
    processBlock (keys.map fun k => (blockOf nullable F).column k) (wholeValue nullable op c V) =
      .ok ((F.zip V).map fun p => mixedRow nullable keys op c p.1 p.2) := by
  have hsize : dataSize (keys.map fun k => (blockOf nullable F).column k) (wholeValue nullable op c V) =
      (F.zip V).length := by
    have hlen : (F.zip V).length = F.length := by simp [hle]
    rw [hlen]
    refine dataSize_eq (by simpa using hkeys) ?_ hle
    simp [blockOf]
  rw [processBlock, hsize]
  refine mapM_range fun i hi => ?_
  have hF : i < F.length := by
    simp only [List.length_zip] at hi
    omega
  rw [readRow_blockOf nullable keys op c F V i hF (by omega)]
  simp

theorem mapM_exists {β γ : Type} {g : β → Except String γ} {l : List β} (h : ∀ a ∈ l, ∃ x, g a = .ok x) :
    ∃ xs, l.mapM g = .ok xs := by
  induction l with
  | nil => exact ⟨[], rfl⟩
  | cons a l ih =>
    obtain ⟨x, hx⟩ := h a List.mem_cons_self
    obtain ⟨xs, hxs⟩ := ih fun b hb => h b (List.mem_cons_of_mem _ hb)
    exact ⟨x :: xs, by rw [List.mapM_cons, hx, hxs]; rfl⟩

theorem processBlock_defined {cols : List Aggregation.Column} {v : ValueColumn}
    (hcols : ∀ k ∈ cols, k.nullMask ≠ .uninitialized) (hv : v.nullMask ≠ .uninitialized) : ∃ rows, processBlock cols v = .ok rows := by
  have hmask : ∀ (m : NullMaskPtr) (i : ℕ), m ≠ .uninitialized → ∃ x, NullMaskPtr.isNull m i = .ok x := by
    intro m i hm
    cases m with
    | uninitialized => exact absurd rfl hm
    | null => exact ⟨_, rfl⟩
    | flags l => exact ⟨_, rfl⟩
  refine mapM_exists fun i _ => ?_
  obtain ⟨ks, hks⟩ := mapM_exists (g := readKey i) (l := cols) fun k hk => by
    obtain ⟨x, hx⟩ := hmask k.nullMask i (hcols k hk)
    exact ⟨_, by rw [readKey, hx]; rfl⟩
  obtain ⟨x, hx⟩ := hmask v.nullMask i hv
  exact ⟨_, by rw [readRow, hks, hx]; rfl⟩

/-- a key without a null mask that a filter passes rows of, or such a value: what is read is undefined -/
theorem processBlock_undefined {cols : List Aggregation.Column} {v : ValueColumn} (hsize : 0 < dataSize cols v)
    (h : (∃ k ∈ cols, k.nullMask = .uninitialized) ∨ v.nullMask = .uninitialized) :
    ∃ e, processBlock cols v = .error e := by
  have hrow : ∃ e, readRow cols v 0 = .error e := by
    cases hks : cols.mapM (readKey 0) with
    | error e => exact ⟨e, by simp [readRow, hks, bind, Except.bind]⟩
    | ok ks =>
      rcases h with ⟨k, hk, hmask⟩ | hmask
      · exfalso
        clear hsize
        induction cols generalizing ks with
        | nil => simp at hk
        | cons a cols ih =>
          rw [List.mapM_cons] at hks
          rcases List.mem_cons.1 hk with rfl | hk
          · simp [readKey, hmask, NullMaskPtr.isNull, bind, Except.bind] at hks
          · cases ha : readKey 0 a with
            | error e => simp [ha, bind, Except.bind] at hks
            | ok x =>
              cases hrest : cols.mapM (readKey 0) with
              | error e => simp [ha, hrest, bind, Except.bind] at hks
              | ok ys => exact ih ys hrest hk
      · exact ⟨_, by simp [readRow, hks, hmask, NullMaskPtr.isNull, bind, Except.bind]; rfl⟩
  obtain ⟨e, he⟩ := hrow
  obtain ⟨n, hn⟩ := Nat.exists_eq_add_of_lt hsize
  refine ⟨e, ?_⟩
  rw [processBlock, hn, zero_add, List.range_succ_eq_map, List.mapM_cons, he]
  rfl

end Rows

/-! ## The rows handed over -/

section Handed

variable {nullable : Text → Bool} {keys : List Text} {op : AggregationFunction} {c : Text} {rows : List Row}
  {m : List Bool}

theorem reconstruct_none (hrows : rows ≠ []) (k : Text) (o : NullMaskPtr) :
    reconstructColKeep ((blockOf nullable rows).column k) none o = (blockOf nullable rows).column k := by
  have hpos : 0 < rows.length := List.length_pos_iff.2 hrows
  simp [reconstructColKeep, blockOf, hpos]

theorem keep_ne_nil (hlen : m.length = rows.length) (hpass : true ∈ m) : keep m rows ≠ [] := by
  intro h
  have := length_keep hlen
  rw [h, List.length_nil] at this
  exact absurd hpass (List.count_eq_zero.1 this.symm)

theorem reconstruct_some (hlen : m.length = rows.length) (hpass : true ∈ m) (k : Text) :
    reconstructColKeep ((blockOf nullable rows).column k) (some m) .uninitialized =
      ⟨(keep m rows).map (·.value k),
        if nullable k then .flags ((keep m rows).map (·.isNull k)) else .uninitialized⟩ := by
  have hpos : 0 < rows.length := by
    rw [← hlen]
    exact List.length_pos_of_mem hpass
  have hkeep : 0 < (keep m rows).length := List.length_pos_iff.2 (keep_ne_nil hlen hpass)
  cases hk : nullable k <;> simp [reconstructColKeep, blockOf, hpos, keep_map, hkeep, hk]

theorem reconstruct_nullable (hlen : m.length = rows.length) (hpass : true ∈ m) {k : Text} (hk : nullable k = true) :
    reconstructColKeep ((blockOf nullable rows).column k) (some m) .uninitialized =
      (blockOf nullable (keep m rows)).column k := by
  rw [reconstruct_some hlen hpass]
  simp [blockOf, hk]

theorem reconstruct_nothing (hlen : m.length = rows.length) (hpass : true ∉ m) (k : Text) :
    reconstructColKeep ((blockOf nullable rows).column k) (some m) .uninitialized = ⟨[], .null⟩ := by
  have hkeep : keep m rows = [] := List.length_eq_zero_iff.1 (by rw [length_keep hlen, List.count_eq_zero.2 hpass])
  by_cases hpos : 0 < rows.length
  · simp [reconstructColKeep, blockOf, hpos, keep_map, hkeep]
  · simp [reconstructColKeep, blockOf, hpos]

/-- a value column that is taken as it is -/
theorem valueOf_unfiltered {filter : Option (List Bool)} (hrows : rows ≠ [])
    (h : op = .count ∨ c ∈ keys ∨ filter = none) :
    valueOf (blockOf nullable rows) filter keys op c = wholeValue nullable op c rows := by
  by_cases hop : op = .count
  · simp [valueOf, wholeValue, hop, blockOf]
  · have hout : (if c ∈ keys then (blockOf nullable rows).column c
        else reconstructColKeep ((blockOf nullable rows).column c) filter .uninitialized) =
        (blockOf nullable rows).column c := by
      by_cases hc : c ∈ keys
      · exact if_pos hc
      · obtain rfl : filter = none := by simpa [hop, hc] using h
        rw [if_neg hc, reconstruct_none hrows]
    simp only [valueOf, hop, if_false, hout]
    simp [wholeValue, blockOf, hop]

theorem valueOf_filtered (hlen : m.length = rows.length) (hpass : true ∈ m) (hc : nullable c = true)
    (hop : op ≠ .count) (hkey : c ∉ keys) :
    valueOf (blockOf nullable rows) (some m) keys op c = wholeValue nullable op c (keep m rows) := by
  simp only [valueOf, hop, hkey, if_false, reconstruct_nullable hlen hpass hc]
  simp [wholeValue, blockOf, hop]

/-- rows whose keys and values are read at the same positions -/
theorem zip_own {F V : List Row} (h : F = V.take F.length) :
    (F.zip V).map (fun p => mixedRow nullable keys op c p.1 p.2) = F.map (ownRow nullable keys op c) := by
  have hle : F.length ≤ V.length := by
    have := congrArg List.length h
    rw [List.length_take] at this
    omega
  refine List.ext_getElem (by simp [hle]) fun i hi _ => ?_
  have hF : i < F.length := by
    simp only [List.length_map, List.length_zip] at hi
    omega
  have hsame : F[i] = V[i] := by
    rw [List.getElem_of_eq h hF, List.getElem_take]
  simp only [List.getElem_map, List.getElem_zip, hsame]
  rfl

variable (hkeys : keys ≠ []) (hnodup : keys.Nodup)
include hkeys hnodup

/-- no filter: each row of the block as it is -/
theorem handedRows_all (hrows : rows ≠ []) (hcount : op = .count → nullable c = true) :
    handedRows (blockOf nullable rows) none keys op c = .ok (rows.map (ownRow nullable keys op c)) := by
  rw [handedRows_eq (by simpa [blockOf] using hrows) (blockOf_initialized nullable rows) hnodup
    fun h => ⟨_, by simp only [blockOf, hcount h, if_true]; rfl⟩]
  simp only [reconstruct_none hrows]
  rw [valueOf_unfiltered hrows (.inr (.inr rfl)), processBlock_blockOf nullable keys op c hkeys le_rfl,
    zip_own (List.take_length).symm]

/-- a filter that passes nothing: no row -/
theorem handedRows_nothing (hrows : rows ≠ []) (hlen : m.length = rows.length) (hpass : true ∉ m)
    (hcount : op = .count → nullable c = true) :
    handedRows (blockOf nullable rows) (some m) keys op c = .ok [] := by
  rw [handedRows_eq (by simpa [blockOf] using hrows) (blockOf_initialized nullable rows) hnodup
    fun h => ⟨_, by simp only [blockOf, hcount h, if_true]; rfl⟩]
  simp only [reconstruct_nothing hlen hpass]
  have hsize : dataSize (keys.map fun _ => (⟨[], .null⟩ : Aggregation.Column))
      (valueOf (blockOf nullable rows) (some m) keys op c) = 0 :=
    dataSize_eq (by simpa using hkeys) (by simp) (Nat.zero_le _)
  rw [processBlock, hsize]
  rfl

/-- the columns that a filter passes rows of, when they are nullable: the keys are those of the rows passed, the
values those of the rows passed or of the whole block -/
theorem handedRows_mixed (hlen : m.length = rows.length) (hpass : true ∈ m) (hc : nullable c = true)
    (hnull : ∀ k ∈ keys, nullable k = true) :
    handedRows (blockOf nullable rows) (some m) keys op c =
      .ok (((keep m rows).zip (if op = .count ∨ c ∈ keys then rows else keep m rows)).map
        fun p => mixedRow nullable keys op c p.1 p.2) := by
  have hpos : 0 < rows.length := by
    rw [← hlen]
    exact List.length_pos_of_mem hpass
  have hrows : rows ≠ [] := List.length_pos_iff.1 hpos
  rw [handedRows_eq (by simpa [blockOf] using hrows) (blockOf_initialized nullable rows) hnodup
    fun _ => ⟨_, by simp only [blockOf, hc, if_true]; rfl⟩]
  have hcols : (keys.map fun k => reconstructColKeep ((blockOf nullable rows).column k) (some m) .uninitialized) =
      keys.map fun k => (blockOf nullable (keep m rows)).column k :=
    List.map_congr_left fun k hk => reconstruct_nullable hlen hpass (hnull k hk)
  have hle : (keep m rows).length ≤ rows.length := by
    rw [length_keep hlen, ← hlen]
    exact List.count_le_length
  rw [hcols]
  by_cases h : op = .count ∨ c ∈ keys
  · rw [if_pos h, valueOf_unfiltered hrows (h.imp_right .inl), processBlock_blockOf nullable keys op c hkeys hle]
  · rw [if_neg h, valueOf_filtered hlen hpass hc (fun ho => h (.inl ho)) (fun hk => h (.inr hk)),
      processBlock_blockOf nullable keys op c hkeys le_rfl]

/-- a column that is not nullable, of which a filter passes rows -/
theorem handedRows_undefined (hlen : m.length = rows.length) (hpass : true ∈ m)
    (hcount : op = .count → nullable c = true) (h : nullable c = false ∨ ∃ k ∈ keys, nullable k = false) :
    ∃ e, handedRows (blockOf nullable rows) (some m) keys op c = .error e := by
  have hpos : 0 < rows.length := by
    rw [← hlen]
    exact List.length_pos_of_mem hpass
  have hrows : rows ≠ [] := List.length_pos_iff.1 hpos
  have hkeep : 0 < (keep m rows).length := List.length_pos_iff.2 (keep_ne_nil hlen hpass)
  have hle : (keep m rows).length ≤ rows.length := by
    rw [length_keep hlen, ← hlen]
    exact List.count_le_length
  rw [handedRows_eq (by simpa [blockOf] using hrows) (blockOf_initialized nullable rows) hnodup
    fun ho => ⟨_, by simp only [blockOf, hcount ho, if_true]; rfl⟩]
  refine processBlock_undefined ?_ ?_
  · rw [dataSize_eq (n := (keep m rows).length) (by simpa using hkeys)]
    · exact hkeep
    · simp [reconstruct_some hlen hpass]
    · by_cases ho : op = .count
      · simpa [valueOf, ho, blockOf] using hle
      · by_cases hc : c ∈ keys
        · simpa [valueOf, ho, hc, blockOf] using hle
        · simp [valueOf, ho, hc, reconstruct_some hlen hpass]
  · have hbad : ∀ k ∈ keys, nullable k = false → ∃ col ∈ keys.map fun k =>
        reconstructColKeep ((blockOf nullable rows).column k) (some m) .uninitialized,
        col.nullMask = .uninitialized := fun k hk hn =>
      ⟨_, List.mem_map.2 ⟨k, hk, rfl⟩, by simp [reconstruct_some hlen hpass, hn]⟩
    rcases h with hc | ⟨k, hk, hn⟩
    · by_cases hmem : c ∈ keys
      · exact .inl (hbad c hmem hc)
      · have ho : op ≠ .count := fun ho => absurd (hcount ho) (by simp [hc])
        exact .inr (by simp [valueOf, ho, hmem, reconstruct_some hlen hpass, hc])
    · exact .inl (hbad k hk hn)

end Handed

/-- rows that hold, in every column, whether the filter passes them -/
def flagRows (m : List Bool) : List Row := m.map fun p => ⟨fun _ => if p then 1 else 0, fun _ => p⟩

/-- a column that is taken unfiltered begins like its rows passed only if these come first -/
theorem passFirst_of_handed {nullable : Text → Bool} {keys : List Text} {op : AggregationFunction} {c : Text}
    {m : List Bool} (hc : nullable c = true)
    (h : ((keep m (flagRows m)).zip (flagRows m)).map (fun p => mixedRow nullable keys op c p.1 p.2) =
      (keep m (flagRows m)).map (ownRow nullable keys op c)) : PassFirst m := by
  refine passFirst_of_take fun b hb => ?_
  have hcount : (keep m (flagRows m)).length = m.count true := length_keep (by simp [flagRows])
  obtain ⟨i, hi, rfl⟩ := List.mem_iff_getElem.1 hb
  have hlt : i < min (m.count true) m.length := by rwa [← List.length_take]
  have hF : i < (keep m (flagRows m)).length := by omega
  have hV : i < (flagRows m).length := by
    simp only [flagRows, List.length_map]
    omega
  have hrow := List.getElem_of_eq (i := i) h (by simp; omega)
  simp only [List.getElem_map, List.getElem_zip] at hrow
  have hflag : (flagRows m)[i].isNull c = (keep m (flagRows m))[i].isNull c := by
    simpa [mixedRow, ownRow, hc] using congrArg GroupRow.valueIsNull hrow
  have hleft : (flagRows m)[i].isNull c = (m.take (m.count true))[i] := by
    simp [flagRows]
  have hright : (keep m (flagRows m))[i].isNull c = true := by
    refine keep_self m _ ?_
    have hmap : keep m m = (keep m (flagRows m)).map (·.isNull c) := by
      rw [← keep_map]
      simp [flagRows, Function.comp_def]
    rw [hmap]
    exact List.mem_map.2 ⟨_, List.getElem_mem hF, rfl⟩
  exact hleft ▸ hflag.trans hright

/-- **Which rows GROUP BY sees.** For every list of keys, aggregate, filter and size of a block: the rows handed over
are the filtered rows of the block in order, each with its own keys, value and NULL flags, whatever they hold, if and
only if the block is empty, or a counted column is nullable and, where the filter passes rows, all columns are nullable
and, if the value column is a key or counted, the rows passed come before the others. -/
theorem group_rows (nullable : Text → Bool) (keys : List Text) (op : AggregationFunction) (c : Text)
    (filter : Option (List Bool)) (n : ℕ) (hkeys : keys ≠ []) (hnodup : keys.Nodup)
    (hfilter : ∀ m ∈ filter, m.length = n) :
    (∀ rows : List Row, rows.length = n → handedRows (blockOf nullable rows) filter keys op c =
      .ok ((Aggregation.select filter rows).map (ownRow nullable keys op c))) ↔
    n = 0 ∨ (op = .count → nullable c = true) ∧
      ∀ m ∈ filter, true ∈ m → nullable c = true ∧ (∀ k ∈ keys, nullable k = true) ∧
        (op = .count ∨ c ∈ keys → PassFirst m) := by
  constructor
  · intro h
    rcases Nat.eq_zero_or_pos n with hn | hn
    · exact .inl hn
    refine .inr ?_
    have hcount : op = .count → nullable c = true := by
      rintro rfl
      by_contra hc
      have hlen : (flagRows (List.replicate n true)).length = n := by simp [flagRows]
      obtain ⟨e, he⟩ := handedRows_count_error (b := blockOf nullable (flagRows (List.replicate n true))) filter
        (c := c) (by simp [blockOf, flagRows]; omega) (blockOf_initialized nullable _) hnodup (by simp [blockOf, hc])
      rw [h _ hlen] at he
      exact absurd he (by simp)
    refine ⟨hcount, fun m hm hpass => ?_⟩
    obtain rfl : filter = some m := hm
    have hlen : m.length = (flagRows m).length := by simp [flagRows]
    have hrows := h (flagRows m) (by rw [← hlen]; exact hfilter m rfl)
    have hdefined : ¬ (nullable c = false ∨ ∃ k ∈ keys, nullable k = false) := by
      intro hbad
      obtain ⟨e, he⟩ := handedRows_undefined hkeys hnodup hlen hpass hcount hbad
      rw [hrows] at he
      exact absurd he (by simp)
    push Not at hdefined
    have hc : nullable c = true := by simpa using hdefined.1
    have hnull : ∀ k ∈ keys, nullable k = true := fun k hk => by simpa using hdefined.2 k hk
    refine ⟨hc, hnull, fun hval => ?_⟩
    rw [handedRows_mixed hkeys hnodup hlen hpass hc hnull, if_pos hval] at hrows
    exact passFirst_of_handed hc (Except.ok.inj hrows)
  · rintro h rows rfl
    rcases eq_or_ne rows [] with rfl | hrows
    · cases filter with
      | none => rfl
      | some m => simp [handedRows, blockOf, Aggregation.select]
    obtain ⟨hcount, hpassed⟩ := h.resolve_left (by simpa using hrows)
    cases filter with
    | none => exact handedRows_all hkeys hnodup hrows hcount
    | some m =>
      have hlen : m.length = rows.length := hfilter m rfl
      by_cases hpass : true ∈ m
      · obtain ⟨hc, hnull, hval⟩ := hpassed m rfl hpass
        rw [handedRows_mixed hkeys hnodup hlen hpass hc hnull]
        refine congrArg Except.ok (zip_own ?_)
        by_cases hv : op = .count ∨ c ∈ keys
        · rw [if_pos hv, length_keep hlen]
          exact keep_of_passFirst hlen (hval hv)
        · rw [if_neg hv, List.take_length]
      · have hkeep : keep m rows = [] := by
          rw [← List.length_eq_zero_iff, length_keep hlen, List.count_eq_zero.2 hpass]
        rw [handedRows_nothing hkeys hnodup hrows hlen hpass hcount]
        simp [Aggregation.select, hkeep]

/-- SUM(b) GROUP BY a over nullable columns, where the second of two rows passes -/
theorem group_rows_sum :
    handedRows (blockOf (fun _ => true) (flagRows [false, true])) (some [false, true]) ["t.a".toList] .sum
      "t.b".toList = .ok ((Aggregation.select (some [false, true]) (flagRows [false, true])).map
        (ownRow (fun _ => true) ["t.a".toList] .sum "t.b".toList)) :=
  (group_rows (fun _ => true) ["t.a".toList] .sum "t.b".toList (some [false, true]) 2 (by simp) (by simp)
    (by simp)).2 (.inr ⟨by simp, by decide⟩) _ rfl

/-- SUM(a) GROUP BY a over rows 1 and 2, where the second passes: the group of 2 gets the value 1 -/
theorem group_rows_key :
    ¬ ∀ (nullable : Text → Bool) (keys : List Text) (op : AggregationFunction) (c : Text) (filter : Option (List Bool))
      (rows : List Row), keys ≠ [] → keys.Nodup → (∀ m ∈ filter, m.length = rows.length) →
      handedRows (blockOf nullable rows) filter keys op c =
        .ok ((Aggregation.select filter rows).map (ownRow nullable keys op c)) := by
  intro h
  have := h (fun _ => true) ["t.a".toList] .sum "t.a".toList (some [false, true])
    [⟨fun _ => 1, fun _ => false⟩, ⟨fun _ => 2, fun _ => false⟩] (by simp) (by simp) (by simp)
  exact absurd this (by decide)

end QikkDB.GroupBy

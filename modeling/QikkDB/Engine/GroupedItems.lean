/-
Queries with several aggregates and GROUP BY (GpuSqlParser/Dispatcher/GpuSqlDispatcherAggregationFunctions.h,
`AggregationGroupBy`, `GroupByHelper::GetResults`), continued from the queries without GROUP BY: the registers that the
items of a block share, and when an item is independent of the others.

Each item adds the rows of a block to the one table of the device. At the overall last block, each item that is not done
yet takes its results out of the table and inserts the registers of the keys, which fails when another item has done so.
A block that the WHERE clause skips is not loaded; when it is the last block, no results are taken at all. The hash
table is a parameter; it does not fill up.

Results:
- `groupBlock_registers`: at the last block, a query that does not fail has one register.
- `groupBlock_repeat`, `groupBlock_twice`: an item given twice.
- `grouped_iff`: when the items of a query with GROUP BY are independent.
- `select_items`: when the items of a query are independent.
-/
import Mathlib.Tactic
import QikkDB.Engine.SelectItems

namespace QikkDB.SelectItems

open Decimal Select
open Aggregation (AggregationFunction Aggregate NullMaskPtr reconstructColKeep)
open GroupBy (Row blockOf GroupRow ValueColumn valueColumn processBlock groupByCol Grouped)

/-! ## Model -/

/-- the hash table of GROUP BY; an aggregate is told apart by the functor it is processed with -/
structure GroupTable where
  Table : Type
  Groups : Type
  createInstance : AggregationFunction → Table
  processRows : AggregationFunction → Table → List GroupRow → Table
  getResults : AggregationFunction → Table → Groups

/-- the largest int32_t, the number of elements of the dummy column of COUNT(*) -/
def int32Max : ℕ := 2 ^ 31 - 1

/-- what the items of a block share -/
structure ItemSt (G : GroupTable) where
  pointers : GroupBy.St
  groupByTable : Option G.Table
  aggregatedRegisters : List Text
  /-- whether the registers with KEYS_SUFFIX are there -/
  keysInserted : Bool
  registers : Text → Option G.Groups

/-- the value column of an item -/
def valueFor (b : Aggregation.Block) (filter : Option (List Bool)) (a : Aggregate) (s : GroupBy.St) :
    Except String (GroupBy.St × ValueColumn) :=
  match a with
  | .asterisk => .ok (s, ⟨none, int32Max, .null⟩)
  | .col op colTableName => valueColumn b filter op colTableName s

local instance lawfulText : LawfulBEq Text := inferInstance

def aggregationGroupBy (G : GroupTable) (b : Aggregation.Block) (filter : Option (List Bool)) (isLast : Bool)
    (s : ItemSt G) (a : Aggregate) : Except String (ItemSt G) := do
  let (pointers, value) ← valueFor b filter a s.pointers
  let table := s.groupByTable.getD (G.createInstance (Aggregate.op a))
  if a.reg ∈ s.aggregatedRegisters then
    .ok { s with pointers := pointers, groupByTable := some table }
  else do
    let keyColumns ← pointers.groupByColumns.mapM pointers.key
    let rows ← processBlock keyColumns value
    let table := G.processRows (Aggregate.op a) table rows
    if isLast && s.keysInserted then .error "Attempt to overwrite existing register"
    else
      .ok ⟨pointers, some table, a.reg :: s.aggregatedRegisters, s.keysInserted || isLast,
        if isLast then Function.update s.registers a.reg (some (G.getResults (Aggregate.op a) table))
        else s.registers⟩

/-- the keys and items of a query on one block -/
def groupBlock (G : GroupTable) (keys : List Text) (items : List Aggregate) (b : Aggregation.Block)
    (filter : Option (List Bool)) (isLast : Bool) (table : Option G.Table) : Except String (ItemSt G) := do
  let pointers ← keys.foldlM (groupByCol b filter) GroupBy.start
  items.foldlM (aggregationGroupBy G b filter isLast) ⟨pointers, table, [], false, fun _ => none⟩

structure GroupQuery where
  nullable : Text → Bool
  usingWhere : Bool
  keys : List Text

/-- the blocks one after the other, each with whether it is loaded; the results of the last one -/
def groupRun (G : GroupTable) (q : GroupQuery) (items : List Aggregate) :
    Option G.Table → List (Rows × Bool) → Except String (Text → Option G.Groups)
  | _, [] => .ok fun _ => none
  | table, (_, false) :: rest => groupRun G q items table rest
  | table, (rows, true) :: rest => do
    let s ← groupBlock G q.keys items (blockRows q.nullable rows) (filterOf q.usingWhere rows) rest.isEmpty table
    if rest.isEmpty then .ok s.registers else groupRun G q items s.groupByTable rest

/-- the groups that a query returns for an item; none when it fails -/
def returnedGroups (G : GroupTable) (q : GroupQuery) (items : List Aggregate) (blocks : List (Rows × Bool))
    (e : Aggregate) : Option G.Groups :=
  (groupRun G q items none blocks).toOption.bind fun registers => registers e.reg

/-! ## One item on a block -/

/-- the item reads a null mask that is not there, in a block with these filter flags -/
def Undefined (q : GroupQuery) (e : Aggregate) (fl : List Bool) : Prop :=
  (∃ c, e = .col .count c ∧ q.nullable c = false) ∨
  (q.usingWhere = true ∧ true ∈ fl ∧
    ((∃ k ∈ q.keys, q.nullable k = false) ∨ ∃ op c, e = .col op c ∧ q.nullable c = false))

/-- the item leaves its column as it finds it, in a block with these filter flags -/
def Repeatable (q : GroupQuery) (e : Aggregate) (fl : List Bool) : Prop :=
  q.usingWhere = false ∨ true ∉ fl ∨ ∀ op c, e = .col op c → op = .count ∨ c ∈ q.keys

section Item

variable {q : GroupQuery} {rows : Rows}

/-- the value column of an item on a block -/
def itemValue (q : GroupQuery) (rows : Rows) : Aggregate → ValueColumn
  | .asterisk => ⟨none, int32Max, .null⟩
  | .col op c => GroupBy.valueOf (blockRows q.nullable rows) (filterOf q.usingWhere rows) q.keys op c

/-- the filtered key columns of a block -/
def keyColumns (q : GroupQuery) (rows : Rows) : List Aggregation.Column :=
  q.keys.map fun k =>
    reconstructColKeep ((blockRows q.nullable rows).column k) (filterOf q.usingWhere rows) .uninitialized

theorem nullMask_defined (hrows : rows ≠ []) {k : Text}
    (h : q.usingWhere = true → true ∈ rows.map Prod.snd → q.nullable k = true) :
    (reconstructColKeep ((blockRows q.nullable rows).column k) (filterOf q.usingWhere rows)
      .uninitialized).nullMask ≠ .uninitialized := by
  have hfst : rows.map Prod.fst ≠ [] := by simpa using hrows
  cases hw : q.usingWhere with
  | false =>
    have : filterOf false rows = none := rfl
    rw [this, blockRows, GroupBy.reconstruct_none hfst]
    exact GroupBy.blockOf_initialized q.nullable _ k
  | true =>
    have hf : filterOf true rows = some (rows.map Prod.snd) := rfl
    rw [hf, blockRows]
    by_cases hpass : true ∈ rows.map Prod.snd
    · rw [GroupBy.reconstruct_nullable (by simp) hpass (h hw hpass)]
      exact GroupBy.blockOf_initialized q.nullable _ k
    · rw [GroupBy.reconstruct_nothing (by simp) hpass]
      simp

theorem nullMask_undefined (hw : q.usingWhere = true) (hpass : true ∈ rows.map Prod.snd) (k : Text) :
    0 < (reconstructColKeep ((blockRows q.nullable rows).column k) (filterOf q.usingWhere rows)
        .uninitialized).data.length ∧
      (q.nullable k = false → (reconstructColKeep ((blockRows q.nullable rows).column k) (filterOf q.usingWhere rows)
        .uninitialized).nullMask = .uninitialized) := by
  have hf : filterOf q.usingWhere rows = some (rows.map Prod.snd) := by rw [hw]; rfl
  rw [hf, blockRows, GroupBy.reconstruct_some (by simp) hpass]
  refine ⟨?_, fun hk => by simp [hk]⟩
  have hkeep : keep (rows.map Prod.snd) (rows.map Prod.fst) ≠ [] := GroupBy.keep_ne_nil (by simp) hpass
  simpa using List.length_pos_iff.2 hkeep

/-- the key columns and the value column of an item, when their null masks are there -/
theorem item_defined (hrows : rows ≠ []) {e : Aggregate} (h : ¬ Undefined q e (rows.map Prod.snd)) :
    ∃ out, processBlock (keyColumns q rows) (itemValue q rows e) = .ok out := by
  have hkeys : ∀ col ∈ keyColumns q rows, col.nullMask ≠ .uninitialized := by
    intro col hcol
    obtain ⟨k, hk, rfl⟩ := List.mem_map.1 hcol
    refine nullMask_defined hrows fun hw hpass => ?_
    by_contra hn
    exact h (.inr ⟨hw, hpass, .inl ⟨k, hk, by simpa using hn⟩⟩)
  refine GroupBy.processBlock_defined hkeys ?_
  cases e with
  | asterisk => simp [itemValue]
  | col op c =>
    have hinit := GroupBy.blockOf_initialized q.nullable (rows.map Prod.fst) c
    by_cases hop : op = .count
    · simpa [itemValue, GroupBy.valueOf, hop, blockRows] using hinit
    · by_cases hc : c ∈ q.keys
      · simpa [itemValue, GroupBy.valueOf, hop, hc, blockRows] using hinit
      · have := nullMask_defined (k := c) hrows fun hw hpass => by
          by_contra hn
          exact h (.inr ⟨hw, hpass, .inr ⟨op, c, rfl, by simpa using hn⟩⟩)
        simpa [itemValue, GroupBy.valueOf, hop, hc] using this

/-- a null mask that is not there, but for COUNT, which finds that out before -/
theorem item_undefined {e : Aggregate} (hcount : ¬ ∃ c, e = .col .count c ∧ q.nullable c = false)
    (h : Undefined q e (rows.map Prod.snd)) :
    ∃ m, processBlock (keyColumns q rows) (itemValue q rows e) = .error m := by
  obtain ⟨hw, hpass, hbad⟩ := h.resolve_left hcount
  have hmask := fun k => nullMask_undefined hw hpass k
  refine GroupBy.processBlock_undefined (GroupBy.dataSize_pos ?_ ?_) ?_
  · intro col hcol
    obtain ⟨k, -, rfl⟩ := List.mem_map.1 hcol
    exact (hmask k).1
  · have hlen : 0 < rows.length := by
      have := List.length_pos_of_mem hpass
      simpa using this
    cases e with
    | asterisk => simp [itemValue, int32Max]
    | col op c =>
      by_cases hop : op = .count
      · simpa [itemValue, GroupBy.valueOf, hop, blockRows, blockOf] using hlen
      · by_cases hc : c ∈ q.keys
        · simpa [itemValue, GroupBy.valueOf, hop, hc, blockRows, blockOf] using hlen
        · simpa [itemValue, GroupBy.valueOf, hop, hc] using (hmask c).1
  · have hkey : ∀ k ∈ q.keys, q.nullable k = false → ∃ col ∈ keyColumns q rows, col.nullMask = .uninitialized :=
      fun k hk hn => ⟨_, List.mem_map.2 ⟨k, hk, rfl⟩, (hmask k).2 hn⟩
    rcases hbad with ⟨k, hk, hn⟩ | ⟨op, c, rfl, hn⟩
    · exact .inl (hkey k hk hn)
    · by_cases hc : c ∈ q.keys
      · exact .inl (hkey c hc hn)
      · have hop : op ≠ .count := by
          rintro rfl
          exact hcount ⟨c, rfl, hn⟩
        refine .inr ?_
        simpa [itemValue, GroupBy.valueOf, hop, hc] using (hmask c).2 hn

/-- a column that is there is loaded as it is -/
theorem loadCol_there {b : Aggregation.Block} {s : GroupBy.St} {c : Text} {col : Aggregation.Column}
    (h : s.columns c = some col) :
    GroupBy.loadCol b s c = (s, col) := by
  simp [GroupBy.loadCol, h]

/-- filtering a column again without a new null mask changes nothing -/
theorem valueColumn_again {b : Aggregation.Block} {filter : Option (List Bool)} {s : GroupBy.St} {c : Text}
    {col : Aggregation.Column} {op : AggregationFunction} (hop : op ≠ .count) (hcol : s.columns c = some col) (hc : c ∉ s.groupByColumns)
    (hsame : reconstructColKeep col filter .uninitialized = col) (hnew : GroupBy.newNullMask col col filter = false) :
    ∃ v, valueColumn b filter op c s = .ok (s, v) := by
  rw [GroupBy.valueColumn_other hop (loadCol_there hcol) hc, hsame, hnew]
  refine ⟨⟨some col.data, col.data.length, col.nullMask⟩, ?_⟩
  have hupdate : Function.update s.columns c (some col) = s.columns := by
    rw [← hcol]
    exact Function.update_eq_self c s.columns
  simp [bind, Except.bind, hupdate]

theorem valueFor_first (hrows : rows ≠ []) {e : Aggregate} {s : GroupBy.St}
    (h : Grouped (blockRows q.nullable rows) (filterOf q.usingWhere rows) q.keys s)
    (hcount : ¬ ∃ c, e = .col .count c ∧ q.nullable c = false) :
    ∃ s', valueFor (blockRows q.nullable rows) (filterOf q.usingWhere rows) e s = .ok (s', itemValue q rows e) ∧
      s'.reconstructed = s.reconstructed ∧ s'.groupByColumns = q.keys ∧
      (Repeatable q e (rows.map Prod.snd) →
        ∃ v, valueFor (blockRows q.nullable rows) (filterOf q.usingWhere rows) e s' = .ok (s', v)) ∧
      (¬ Repeatable q e (rows.map Prod.snd) → ¬ Undefined q e (rows.map Prod.snd) →
        ∃ m, valueFor (blockRows q.nullable rows) (filterOf q.usingWhere rows) e s' = .error m) := by
  have hb : ∀ c, ((blockRows q.nullable rows).column c).nullMask ≠ .uninitialized :=
    GroupBy.blockOf_initialized q.nullable (rows.map Prod.fst)
  have hfst : rows.map Prod.fst ≠ [] := by simpa using hrows
  cases e with
  | asterisk =>
    refine ⟨s, rfl, rfl, h.groupByColumns, fun _ => ⟨_, rfl⟩, fun hr => absurd (.inr (.inr ?_)) hr⟩
    intro op c hne
    exact absurd hne (by simp)
  | col op c =>
    by_cases hop : op = .count
    · subst hop
      have hnull : q.nullable c = true := by
        by_contra hn
        exact hcount ⟨c, rfl, by simpa using hn⟩
      have hflags : ((blockRows q.nullable rows).column c).nullMask =
          .flags ((rows.map Prod.fst).map (·.isNull c)) := by
        simp [blockRows, blockOf, hnull]
      obtain ⟨s₁, hv, hrec, hcols, hmask⟩ := GroupBy.valueColumn_count h hflags
      refine ⟨s₁, hv, hrec, hcols, fun _ => ⟨⟨none, (blockRows q.nullable rows).size,
        ((blockRows q.nullable rows).column c).nullMask⟩, ?_⟩, fun hr => absurd (.inr (.inr ?_)) hr⟩
      · simp only [valueFor, valueColumn, GroupBy.loadColNullMask, hmask]
        rfl
      · intro op' c' heq
        obtain ⟨rfl, rfl⟩ : AggregationFunction.count = op' ∧ c = c' := by simpa using heq
        exact .inl rfl
    · obtain ⟨s₁, hv, hrec, hcols, hcol, hinserted⟩ := GroupBy.valueColumn_values (c := c) hop hb h
      refine ⟨s₁, hv, hrec, hcols, fun hr => ?_, fun hr hdef => ?_⟩
      · by_cases hc : c ∈ q.keys
        · rw [if_pos hc] at hcol
          exact ⟨_, GroupBy.valueColumn_key hop (loadCol_there hcol) (hcols ▸ hc)⟩
        · rw [if_neg hc] at hcol
          have hc₁ : c ∉ s₁.groupByColumns := hcols ▸ hc
          by_cases hw : q.usingWhere = false
          · have hnone : filterOf q.usingWhere rows = none := by rw [hw]; rfl
            rw [hnone] at hcol ⊢
            refine valueColumn_again hop hcol hc₁ ?_ ?_
            · rw [blockRows, GroupBy.reconstruct_none hfst, GroupBy.reconstruct_none hfst]
            · unfold GroupBy.newNullMask
              split <;> rfl
          · have hpass : true ∉ rows.map Prod.snd := by
              rcases hr with hr | hr | hr
              · exact absurd hr hw
              · exact hr
              · rcases hr op c rfl with h' | h'
                · exact absurd h' hop
                · exact absurd h' hc
            have hsome : filterOf q.usingWhere rows = some (rows.map Prod.snd) := by
              rw [filterOf, if_pos (by simpa using hw)]
            rw [hsome, blockRows, GroupBy.reconstruct_nothing (by simp) hpass] at hcol
            rw [hsome]
            exact valueColumn_again hop hcol hc₁ rfl rfl
      · have hw : q.usingWhere = true := by
          by_contra hw
          exact hr (.inl (by simpa using hw))
        have hpass : true ∈ rows.map Prod.snd := by
          by_contra hpass
          exact hr (.inr (.inl hpass))
        have hc : c ∉ q.keys := by
          intro hc
          refine hr (.inr (.inr fun op' c' heq => ?_))
          obtain ⟨-, rfl⟩ : op = op' ∧ c = c' := by simpa using heq
          exact .inr hc
        have hnull : q.nullable c = true := by
          by_contra hn
          exact hdef (.inr ⟨hw, hpass, .inr ⟨op, c, rfl, by simpa using hn⟩⟩)
        have hsome : filterOf q.usingWhere rows = some (rows.map Prod.snd) := by rw [hw]; rfl
        have hflags : ∀ rs : List Row, ((blockOf q.nullable rs).column c).nullMask = .flags (rs.map (·.isNull c)) := by
          intro rs
          simp [blockOf, hnull]
        have hnew : ∀ (rs : List Row) (out : Aggregation.Column),
            GroupBy.newNullMask ((blockOf q.nullable rs).column c) out (some (rows.map Prod.snd)) = true := by
          intro rs out
          simp [GroupBy.newNullMask, hflags rs]
        rw [if_neg hc, hsome, blockRows, GroupBy.reconstruct_nullable (by simp) hpass hnull] at hcol
        have hthere := hinserted hc (by rw [hsome]; exact hnew _ _)
        obtain ⟨m, hm⟩ := Option.ne_none_iff_exists'.1 hthere
        rw [hsome]
        refine ⟨"Attempt to overwrite existing register", ?_⟩
        rw [valueFor, GroupBy.valueColumn_other hop (loadCol_there hcol) (hcols ▸ hc), hnew]
        simp only [if_true, GroupBy.insertRegister, hm]
        rfl

end Item

/-! ## The items of a block -/

section Items

variable {G : GroupTable} {b : Aggregation.Block} {filter : Option (List Bool)} {isLast : Bool}

/-- what an item does that does not fail -/
theorem aggregationGroupBy_cases {s s' : ItemSt G} {a : Aggregate}
    (h : aggregationGroupBy G b filter isLast s a = .ok s') :
    (a.reg ∈ s.aggregatedRegisters ∧ s'.aggregatedRegisters = s.aggregatedRegisters ∧
      s'.keysInserted = s.keysInserted) ∨
    ((isLast && s.keysInserted) = false ∧ s'.aggregatedRegisters = a.reg :: s.aggregatedRegisters ∧
      s'.keysInserted = (s.keysInserted || isLast)) := by
  cases hv : valueFor b filter a s.pointers with
  | error m => simp [aggregationGroupBy, hv, bind, Except.bind] at h
  | ok r =>
    obtain ⟨pointers, value⟩ := r
    by_cases hreg : a.reg ∈ s.aggregatedRegisters
    · refine .inl ⟨hreg, ?_⟩
      simp only [aggregationGroupBy, hv, bind, Except.bind, hreg, if_true, Except.ok.injEq] at h
      exact ⟨by rw [← h], by rw [← h]⟩
    · refine .inr ?_
      simp only [aggregationGroupBy, hv, bind, Except.bind, hreg, if_false] at h
      cases hk : pointers.groupByColumns.mapM pointers.key with
      | error m => simp [hk] at h
      | ok cols =>
        cases hp : processBlock cols value with
        | error m => simp [hk, hp] at h
        | ok rows =>
          simp only [hk, hp] at h
          split_ifs at h with hl hl'
          · have h := Except.ok.inj h
            exact ⟨by simpa using hl, by rw [← h], by rw [← h]⟩
          · have h := Except.ok.inj h
            exact ⟨by simpa using hl, by rw [← h], by rw [← h]⟩

/-- **Last block.** The items of a query that does not fail at the last block have one register. -/
theorem groupBlock_registers {keys : List Text} {e₁ : Aggregate} {rest : List Aggregate} {table : Option G.Table}
    {s : ItemSt G} (h : groupBlock G keys (e₁ :: rest) b filter true table = .ok s) :
    ∀ e ∈ rest, e.reg = e₁.reg := by
  have gen : ∀ s₁ : ItemSt G, s₁.aggregatedRegisters = [e₁.reg] → s₁.keysInserted = true →
      rest.foldlM (aggregationGroupBy G b filter true) s₁ = .ok s → ∀ e ∈ rest, e.reg = e₁.reg := by
    clear h
    induction rest with
    | nil => simp
    | cons a rest ih =>
      intro s₁ hreg hkeys hrun
      rw [List.foldlM_cons] at hrun
      cases hstep : aggregationGroupBy G b filter true s₁ a with
      | error m =>
        rw [hstep] at hrun
        exact absurd hrun (by simp [bind, Except.bind])
      | ok s₂ =>
        rw [hstep] at hrun
        rcases aggregationGroupBy_cases hstep with ⟨hmem, hregs, hins⟩ | ⟨hl, -, -⟩
        · have ha : a.reg = e₁.reg := by simpa [hreg] using hmem
          intro e he
          rcases List.mem_cons.1 he with rfl | he
          · exact ha
          · exact ih s₂ (hregs.trans hreg) (hins.trans hkeys) hrun e he
        · simp [hkeys] at hl
  cases hp : keys.foldlM (groupByCol b filter) GroupBy.start with
  | error m => simp [groupBlock, hp, bind, Except.bind] at h
  | ok pointers =>
    simp only [groupBlock, hp, bind, Except.bind] at h
    rw [List.foldlM_cons] at h
    cases hstep : aggregationGroupBy G b filter true ⟨pointers, table, [], false, fun _ => none⟩ e₁ with
    | error m =>
      rw [hstep] at h
      exact absurd h (by simp [bind, Except.bind])
    | ok s₁ =>
      rw [hstep] at h
      rcases aggregationGroupBy_cases hstep with ⟨hmem, -, -⟩ | ⟨-, hregs, hins⟩
      · simp at hmem
      · exact gen s₁ hregs (by simpa using hins) h

end Items

section Block

variable {G : GroupTable} {q : GroupQuery} {rows : Rows} {isLast : Bool} {table : Option G.Table}

/-- the state of a block before its items -/
theorem groupBlock_start (hnodup : q.keys.Nodup) (items : List Aggregate) :
    ∃ pointers, Grouped (blockRows q.nullable rows) (filterOf q.usingWhere rows) q.keys pointers ∧
      groupBlock G q.keys items (blockRows q.nullable rows) (filterOf q.usingWhere rows) isLast table =
        items.foldlM (aggregationGroupBy G (blockRows q.nullable rows) (filterOf q.usingWhere rows) isLast)
          ⟨pointers, table, [], false, fun _ => none⟩ := by
  obtain ⟨pointers, hrun, h⟩ := GroupBy.grouped_keys (filterOf q.usingWhere rows)
    (GroupBy.blockOf_initialized q.nullable (rows.map Prod.fst)) hnodup
  have hrun : q.keys.foldlM (groupByCol (blockRows q.nullable rows) (filterOf q.usingWhere rows)) GroupBy.start =
    .ok pointers := hrun
  exact ⟨pointers, h, by simp [groupBlock, hrun, bind, Except.bind]⟩

theorem key_columns {pointers s' : GroupBy.St}
    (h : Grouped (blockRows q.nullable rows) (filterOf q.usingWhere rows) q.keys pointers)
    (hrec : s'.reconstructed = pointers.reconstructed) (hcols : s'.groupByColumns = q.keys) :
    s'.groupByColumns.mapM s'.key = .ok (keyColumns q rows) := by
  rw [hcols]
  refine GroupBy.mapM_ok fun k hk => ?_
  simp [GroupBy.St.key, hrec, h.reconstructed k hk]

/-- the first item of a block -/
theorem first_item (hrows : rows ≠ []) {pointers : GroupBy.St}
    (h : Grouped (blockRows q.nullable rows) (filterOf q.usingWhere rows) q.keys pointers) (e : Aggregate) :
    (Undefined q e (rows.map Prod.snd) →
      ∃ m, aggregationGroupBy G (blockRows q.nullable rows) (filterOf q.usingWhere rows) isLast
        ⟨pointers, table, [], false, fun _ => none⟩ e = .error m) ∧
    (¬ Undefined q e (rows.map Prod.snd) →
      ∃ s₁, aggregationGroupBy G (blockRows q.nullable rows) (filterOf q.usingWhere rows) isLast
          ⟨pointers, table, [], false, fun _ => none⟩ e = .ok s₁ ∧
        (isLast = true → s₁.registers e.reg ≠ none) ∧
        (Repeatable q e (rows.map Prod.snd) → aggregationGroupBy G (blockRows q.nullable rows)
          (filterOf q.usingWhere rows) isLast s₁ e = .ok s₁) ∧
        (¬ Repeatable q e (rows.map Prod.snd) → ∃ m, aggregationGroupBy G (blockRows q.nullable rows)
          (filterOf q.usingWhere rows) isLast s₁ e = .error m)) := by
  by_cases hcount : ∃ c, e = .col .count c ∧ q.nullable c = false
  · refine ⟨fun _ => ?_, fun hdef => absurd (.inl hcount) hdef⟩
    obtain ⟨c, rfl, hn⟩ := hcount
    obtain ⟨m, hm⟩ := GroupBy.loadColNullMask_null (c := c) h.toLoaded (by simp [blockRows, blockOf, hn])
    exact ⟨m, by simp [aggregationGroupBy, valueFor, valueColumn, hm, bind, Except.bind]⟩
  · obtain ⟨s', hv, hrec, hcols, hagain, htwice⟩ := valueFor_first hrows h hcount
    have hkeys := key_columns h hrec hcols
    refine ⟨fun hundef => ?_, fun hdef => ?_⟩
    · obtain ⟨m, hm⟩ := item_undefined hcount hundef
      exact ⟨m, by simp [aggregationGroupBy, hv, hkeys, hm, bind, Except.bind]⟩
    · obtain ⟨out, hout⟩ := item_defined hrows hdef
      refine ⟨_, by simp [aggregationGroupBy, hv, hkeys, hout, bind, Except.bind]; rfl, fun hl => by simp [hl], ?_, ?_⟩
      · intro hr
        obtain ⟨v, hv'⟩ := hagain hr
        simp [aggregationGroupBy, hv', bind, Except.bind]
      · intro hr
        obtain ⟨m, hm⟩ := htwice hr hdef
        exact ⟨m, by simp [aggregationGroupBy, hm, bind, Except.bind]⟩

theorem groupBlock_undefined (hnodup : q.keys.Nodup) (hrows : rows ≠ []) {e₁ : Aggregate} (rest : List Aggregate)
    (h : Undefined q e₁ (rows.map Prod.snd)) :
    ∃ m, groupBlock G q.keys (e₁ :: rest) (blockRows q.nullable rows) (filterOf q.usingWhere rows) isLast table =
      .error m := by
  obtain ⟨pointers, hgrouped, hblock⟩ := groupBlock_start hnodup (e₁ :: rest)
  obtain ⟨m, hm⟩ := (first_item hrows hgrouped e₁).1 h
  exact ⟨m, by rw [hblock, List.foldlM_cons, hm]; rfl⟩

theorem groupBlock_defined (hnodup : q.keys.Nodup) (hrows : rows ≠ []) {e : Aggregate}
    (h : ¬ Undefined q e (rows.map Prod.snd)) :
    ∃ s, groupBlock G q.keys [e] (blockRows q.nullable rows) (filterOf q.usingWhere rows) isLast table = .ok s ∧
      (isLast = true → s.registers e.reg ≠ none) := by
  obtain ⟨pointers, hgrouped, hblock⟩ := groupBlock_start hnodup [e]
  obtain ⟨s, hs, hreg, -⟩ := (first_item hrows hgrouped e).2 h
  exact ⟨s, by rw [hblock, List.foldlM_cons, hs]; rfl, hreg⟩

/-- an item that is given several times and leaves its column as it finds it -/
theorem groupBlock_repeat (hnodup : q.keys.Nodup) (hrows : rows ≠ []) {e₁ : Aggregate} {rest : List Aggregate}
    (hrest : ∀ e ∈ rest, e = e₁) (h : Repeatable q e₁ (rows.map Prod.snd)) :
    groupBlock G q.keys (e₁ :: rest) (blockRows q.nullable rows) (filterOf q.usingWhere rows) isLast table =
      groupBlock G q.keys [e₁] (blockRows q.nullable rows) (filterOf q.usingWhere rows) isLast table := by
  obtain ⟨pointers, hrun, hgrouped⟩ := GroupBy.grouped_keys (filterOf q.usingWhere rows)
    (GroupBy.blockOf_initialized q.nullable (rows.map Prod.fst)) hnodup
  have hrun : q.keys.foldlM (groupByCol (blockRows q.nullable rows) (filterOf q.usingWhere rows)) GroupBy.start =
    .ok pointers := hrun
  simp only [groupBlock, hrun, bind, Except.bind]
  rw [List.foldlM_cons, List.foldlM_cons]
  by_cases hu : Undefined q e₁ (rows.map Prod.snd)
  · obtain ⟨m, hm⟩ := (first_item hrows hgrouped e₁).1 hu
    rw [hm]
    rfl
  · obtain ⟨s, hs, -, hagain, -⟩ := (first_item hrows hgrouped e₁).2 hu
    rw [hs]
    have hstable := hagain h
    have gen : ∀ l : List Aggregate, (∀ e ∈ l, e = e₁) →
        l.foldlM (aggregationGroupBy G (blockRows q.nullable rows) (filterOf q.usingWhere rows) isLast) s = .ok s := by
      intro l hl
      induction l with
      | nil => rfl
      | cons a l ih =>
        obtain rfl := hl a List.mem_cons_self
        rw [List.foldlM_cons, hstable]
        exact ih fun e he => hl e (List.mem_cons_of_mem _ he)
    exact (gen rest hrest).trans rfl

/-- an item that is given twice and leaves its column filtered -/
theorem groupBlock_twice (hnodup : q.keys.Nodup) (hrows : rows ≠ []) {e₁ : Aggregate} {rest : List Aggregate}
    (h : ¬ Repeatable q e₁ (rows.map Prod.snd)) :
    ∃ m, groupBlock G q.keys (e₁ :: e₁ :: rest) (blockRows q.nullable rows) (filterOf q.usingWhere rows) isLast table =
      .error m := by
  obtain ⟨pointers, hgrouped, hblock⟩ := groupBlock_start hnodup (e₁ :: e₁ :: rest)
  rw [hblock, List.foldlM_cons]
  by_cases hu : Undefined q e₁ (rows.map Prod.snd)
  · obtain ⟨m, hm⟩ := (first_item hrows hgrouped e₁).1 hu
    exact ⟨m, by rw [hm]; rfl⟩
  · obtain ⟨s, hs, -, -, htwice⟩ := (first_item hrows hgrouped e₁).2 hu
    obtain ⟨m, hm⟩ := htwice h
    have htail : (e₁ :: rest).foldlM (aggregationGroupBy G (blockRows q.nullable rows) (filterOf q.usingWhere rows)
        isLast) s = .error m := by
      rw [List.foldlM_cons, hm]
      rfl
    refine ⟨m, ?_⟩
    rw [hs]
    exact htail

end Block

/-! ## The run over the blocks -/

/-- filter flags and loads of the blocks -/
def groupShape (blocks : List (Rows × Bool)) : List (List Bool × Bool) :=
  blocks.map fun p => (p.1.map Prod.snd, p.2)

/-- the last block is there and loaded -/
def LastLoaded (sh : List (List Bool × Bool)) : Prop := ∃ p ∈ sh.getLast?, p.2 = true

section Run

variable {G : GroupTable} {q : GroupQuery}

/-- a query that fails on a loaded block fails -/
theorem groupRun_error {items : List Aggregate} {blocks : List (Rows × Bool)}
    (h : ∃ p ∈ blocks, p.2 = true ∧ ∀ (isLast : Bool) (table : Option G.Table), ∃ m,
      groupBlock G q.keys items (blockRows q.nullable p.1) (filterOf q.usingWhere p.1) isLast table = .error m)
    (table : Option G.Table) : ∃ m, groupRun G q items table blocks = .error m := by
  induction blocks generalizing table with
  | nil => simp at h
  | cons p blocks ih =>
    obtain ⟨rows, loaded⟩ := p
    obtain ⟨p', hp', hl, herr⟩ := h
    rcases List.mem_cons.1 hp' with rfl | hmem
    · obtain rfl : loaded = true := hl
      obtain ⟨m, hm⟩ := herr blocks.isEmpty table
      exact ⟨m, by simp only [groupRun, hm, bind, Except.bind]⟩
    · cases loaded with
      | false => exact ih ⟨p', hmem, hl, herr⟩ table
      | true =>
        cases hb : groupBlock G q.keys items (blockRows q.nullable rows) (filterOf q.usingWhere rows) blocks.isEmpty
            table with
        | error m => exact ⟨m, by simp only [groupRun, hb, bind, Except.bind]⟩
        | ok s =>
          have hne : blocks.isEmpty = false := by
            cases blocks with
            | nil => simp at hmem
            | cons _ _ => rfl
          obtain ⟨m, hm⟩ := ih ⟨p', hmem, hl, herr⟩ s.groupByTable
          rw [hne] at hb
          exact ⟨m, by simp only [groupRun, hne, hb, bind, Except.bind]; exact hm⟩

/-- a query all of whose loaded blocks are processed gives results when the last block is loaded, and only then -/
theorem groupRun_ok {items : List Aggregate} {e : Aggregate} {blocks : List (Rows × Bool)}
    (h : ∀ p ∈ blocks, p.2 = true → ∀ (isLast : Bool) (table : Option G.Table), ∃ s,
      groupBlock G q.keys items (blockRows q.nullable p.1) (filterOf q.usingWhere p.1) isLast table = .ok s ∧
        (isLast = true → s.registers e.reg ≠ none)) (table : Option G.Table) :
    ∃ registers, groupRun G q items table blocks = .ok registers ∧
      (LastLoaded (groupShape blocks) → registers e.reg ≠ none) := by
  induction blocks generalizing table with
  | nil => exact ⟨_, rfl, by simp [LastLoaded, groupShape]⟩
  | cons p blocks ih =>
    obtain ⟨rows, loaded⟩ := p
    have hrest : ∀ p ∈ blocks, _ := fun p hp => h p (List.mem_cons_of_mem _ hp)
    have hlast : blocks ≠ [] → LastLoaded (groupShape ((rows, loaded) :: blocks)) → LastLoaded (groupShape blocks) := by
      intro hne hl
      cases blocks with
      | nil => exact absurd rfl hne
      | cons p' blocks => simpa [LastLoaded, groupShape, List.getLast?_cons_cons] using hl
    cases loaded with
    | false =>
      obtain ⟨registers, hrun, hreg⟩ := ih hrest table
      refine ⟨registers, hrun, fun hl => hreg ?_⟩
      rcases eq_or_ne blocks [] with rfl | hne
      · simp [LastLoaded, groupShape] at hl
      · exact hlast hne hl
    | true =>
      obtain ⟨s, hs, hsreg⟩ := h (rows, true) List.mem_cons_self rfl blocks.isEmpty table
      have hs : groupBlock G q.keys items (blockRows q.nullable rows) (filterOf q.usingWhere rows) blocks.isEmpty
        table = .ok s := hs
      rcases eq_or_ne blocks [] with rfl | hne
      · exact ⟨s.registers, by simp only [groupRun, hs, bind, Except.bind]; rfl, fun _ => hsreg rfl⟩
      · obtain ⟨registers, hrun, hreg⟩ := ih hrest s.groupByTable
        have hempty : blocks.isEmpty = false := by simpa using hne
        refine ⟨registers, ?_, fun hl => hreg (hlast hne hl)⟩
        rw [hempty] at hs
        simp only [groupRun, hempty, hs, bind, Except.bind]
        exact hrun

/-- no results without the last block -/
theorem groupRun_notLoaded {items : List Aggregate} {blocks : List (Rows × Bool)} (h : ¬ LastLoaded (groupShape blocks))
    (table : Option G.Table) {registers : Text → Option G.Groups}
    (hrun : groupRun G q items table blocks = .ok registers) : registers = fun _ => none := by
  induction blocks generalizing table with
  | nil => exact (Except.ok.inj hrun).symm
  | cons p blocks ih =>
    obtain ⟨rows, loaded⟩ := p
    cases loaded with
    | false =>
      refine ih (fun hl => h ?_) table hrun
      cases blocks with
      | nil => simp [LastLoaded, groupShape] at hl
      | cons p' blocks => simpa [LastLoaded, groupShape, List.getLast?_cons_cons] using hl
    | true =>
      cases blocks with
      | nil => exact absurd (by simp [LastLoaded, groupShape]) h
      | cons p' blocks =>
        cases hb : groupBlock G q.keys items (blockRows q.nullable rows) (filterOf q.usingWhere rows) false table with
        | error m => simp [groupRun, hb, bind, Except.bind] at hrun
        | ok s =>
          refine ih (fun hl => h ?_) s.groupByTable ?_
          · simpa [LastLoaded, groupShape, List.getLast?_cons_cons] using hl
          · simpa only [groupRun, List.isEmpty_cons, hb, bind, Except.bind, Bool.false_eq_true, if_false] using hrun

/-- a query with two registers gives no results -/
theorem groupRun_registers {e₁ : Aggregate} {rest : List Aggregate} {blocks : List (Rows × Bool)}
    (hl : LastLoaded (groupShape blocks)) (htwo : ∃ e ∈ rest, e.reg ≠ e₁.reg) (table : Option G.Table) :
    ∃ m, groupRun G q (e₁ :: rest) table blocks = .error m := by
  induction blocks generalizing table with
  | nil => simp [LastLoaded, groupShape] at hl
  | cons p blocks ih =>
    obtain ⟨rows, loaded⟩ := p
    cases blocks with
    | nil =>
      obtain rfl : loaded = true := by simpa [LastLoaded, groupShape] using hl
      cases hb : groupBlock G q.keys (e₁ :: rest) (blockRows q.nullable rows) (filterOf q.usingWhere rows) true
          table with
      | error m => exact ⟨m, by simp [groupRun, hb, bind, Except.bind]⟩
      | ok s =>
        obtain ⟨e, he, hne⟩ := htwo
        exact absurd (groupBlock_registers hb e he) hne
    | cons p' blocks =>
      have hl' : LastLoaded (groupShape (p' :: blocks)) := by
        simpa [LastLoaded, groupShape, List.getLast?_cons_cons] using hl
      cases loaded with
      | false => exact ih hl' table
      | true =>
        cases hb : groupBlock G q.keys (e₁ :: rest) (blockRows q.nullable rows) (filterOf q.usingWhere rows) false
            table with
        | error m => exact ⟨m, by simp [groupRun, hb, bind, Except.bind]⟩
        | ok s =>
          obtain ⟨m, hm⟩ := ih hl' s.groupByTable
          exact ⟨m, by simpa [groupRun, hb, bind, Except.bind] using hm⟩

/-- an item given several times that leaves its column as it finds it in every loaded block -/
theorem groupRun_repeat (hnodup : q.keys.Nodup) {e₁ : Aggregate} {rest : List Aggregate} (hrest : ∀ e ∈ rest, e = e₁)
    {blocks : List (Rows × Bool)} (hblocks : ∀ p ∈ blocks, p.1 ≠ [])
    (h : ∀ p ∈ blocks, p.2 = true → Repeatable q e₁ (p.1.map Prod.snd)) (table : Option G.Table) :
    groupRun G q (e₁ :: rest) table blocks = groupRun G q [e₁] table blocks := by
  induction blocks generalizing table with
  | nil => rfl
  | cons p blocks ih =>
    obtain ⟨rows, loaded⟩ := p
    have ih' := ih (fun p hp => hblocks p (List.mem_cons_of_mem _ hp)) fun p hp => h p (List.mem_cons_of_mem _ hp)
    cases loaded with
    | false => exact ih' table
    | true =>
      have hrows : rows ≠ [] := hblocks _ List.mem_cons_self
      have hrep : Repeatable q e₁ (rows.map Prod.snd) := h _ List.mem_cons_self rfl
      simp only [groupRun, groupBlock_repeat hnodup hrows hrest hrep]
      cases groupBlock G q.keys [e₁] (blockRows q.nullable rows) (filterOf q.usingWhere rows) blocks.isEmpty table with
      | error m => rfl
      | ok s =>
        simp only [bind, Except.bind]
        split_ifs
        · rfl
        · exact ih' s.groupByTable

theorem returnedGroups_error {items : List Aggregate} {blocks : List (Rows × Bool)}
    (h : ∃ m, groupRun G q items none blocks = .error m) (e : Aggregate) :
    returnedGroups G q items blocks e = none := by
  obtain ⟨m, hm⟩ := h
  rw [returnedGroups, hm]
  rfl

/-- an item reads a null mask that is not there in one of the loaded blocks -/
def UndefinedIn (q : GroupQuery) (e : Aggregate) (sh : List (List Bool × Bool)) : Prop :=
  ∃ p ∈ sh, p.2 = true ∧ Undefined q e p.1

theorem returnedGroups_undefined (hnodup : q.keys.Nodup) {e₁ : Aggregate} (rest : List Aggregate)
    {blocks : List (Rows × Bool)} (hblocks : ∀ p ∈ blocks, p.1 ≠ []) (h : UndefinedIn q e₁ (groupShape blocks))
    (e : Aggregate) : returnedGroups G q (e₁ :: rest) blocks e = none := by
  obtain ⟨_, hmem, hl, hu⟩ := h
  obtain ⟨p, hp, rfl⟩ := List.mem_map.1 hmem
  refine returnedGroups_error (groupRun_error ⟨p, hp, hl, fun isLast table => ?_⟩ none) e
  exact groupBlock_undefined hnodup (hblocks p hp) rest hu

theorem returnedGroups_defined (hnodup : q.keys.Nodup) {e : Aggregate} {blocks : List (Rows × Bool)}
    (hblocks : ∀ p ∈ blocks, p.1 ≠ []) (hl : LastLoaded (groupShape blocks))
    (h : ¬ UndefinedIn q e (groupShape blocks)) : returnedGroups G q [e] blocks e ≠ none := by
  obtain ⟨registers, hrun, hreg⟩ := groupRun_ok (G := G) (fun p hp hl isLast table =>
    groupBlock_defined hnodup (hblocks p hp) fun hu => h ⟨_, List.mem_map.2 ⟨p, hp, rfl⟩, hl, hu⟩) none
  rw [returnedGroups, hrun]
  exact hreg hl

/-- the condition under which the items of a query with GROUP BY are independent -/
def GroupedIndependent (q : GroupQuery) (e₁ : Aggregate) (rest : List Aggregate) (sh : List (List Bool × Bool)) :
    Prop :=
  ¬ LastLoaded sh ∨ (∀ e ∈ e₁ :: rest, UndefinedIn q e sh) ∨
  ((∀ e ∈ rest, e = e₁) ∧ (rest = [] ∨ ∀ p ∈ sh, p.2 = true → Repeatable q e₁ p.1))

theorem grouped_iff (hnodup : q.keys.Nodup) {e₁ : Aggregate} {rest : List Aggregate}
    (hproper : ∀ e ∈ e₁ :: rest, Proper e) {blocks : List (Rows × Bool)} (hblocks : ∀ p ∈ blocks, p.1 ≠ []) :
    (∀ e ∈ e₁ :: rest, returnedGroups G q (e₁ :: rest) blocks e = returnedGroups G q [e] blocks e) ↔
      GroupedIndependent q e₁ rest (groupShape blocks) := by
  constructor
  · intro h
    by_cases hl : LastLoaded (groupShape blocks)
    · by_cases hu : ∀ e ∈ e₁ :: rest, UndefinedIn q e (groupShape blocks)
      · exact .inr (.inl hu)
      push Not at hu
      obtain ⟨e, he, hdef⟩ := hu
      have hsome := returnedGroups_defined (G := G) hnodup hblocks hl hdef
      rw [← h e he] at hsome
      have hok : ¬ ∃ m, groupRun G q (e₁ :: rest) none blocks = .error m := fun herr =>
        hsome (returnedGroups_error herr e)
      have hsame : ∀ e ∈ rest, e = e₁ := by
        intro e' he'
        by_contra hne
        refine hok (groupRun_registers hl ⟨e', he', fun hreg => hne ?_⟩ none)
        exact reg_inj (hproper e' (List.mem_cons_of_mem _ he')) (hproper e₁ List.mem_cons_self) hreg
      refine .inr (.inr ⟨hsame, ?_⟩)
      rcases rest with _ | ⟨e₂, rest⟩
      · exact .inl rfl
      refine .inr fun p' hp' hpl => ?_
      by_contra hrep
      obtain rfl := hsame e₂ List.mem_cons_self
      obtain ⟨p, hp, rfl⟩ := List.mem_map.1 hp'
      exact hok (groupRun_error ⟨p, hp, hpl, fun _ _ => groupBlock_twice hnodup (hblocks p hp) hrep⟩ none)
    · exact .inl hl
  · intro h e he
    rcases h with hl | hu | ⟨hsame, hrep⟩
    · have hnone : ∀ items : List Aggregate, returnedGroups G q items blocks e = none := by
        intro items
        cases hrun : groupRun G q items none blocks with
        | error m => exact returnedGroups_error ⟨m, hrun⟩ e
        | ok registers =>
          rw [returnedGroups, hrun, groupRun_notLoaded hl none hrun]
          rfl
      rw [hnone, hnone]
    · rw [returnedGroups_undefined hnodup rest hblocks (hu e₁ List.mem_cons_self) e,
        returnedGroups_undefined hnodup [] hblocks (hu e he) e]
    · obtain rfl : e = e₁ := by
        rcases List.mem_cons.1 he with heq | he
        · exact heq
        · exact hsame e he
      rcases hrep with rfl | hrep
      · rfl
      · rw [returnedGroups, returnedGroups, groupRun_repeat hnodup hsame hblocks]
        intro p hp hpl
        exact hrep _ (List.mem_map.2 ⟨p, hp, rfl⟩) hpl

end Run

/-! ## Queries with and without GROUP BY -/

/-- the blocks that are loaded -/
def loadedRows (blocks : List (Rows × Bool)) : List Rows := (blocks.filter Prod.snd).map Prod.fst

def loadedFlags (sh : List (List Bool × Bool)) : List (List Bool) := (sh.filter Prod.snd).map Prod.fst

theorem flagsOf_loadedRows (blocks : List (Rows × Bool)) :
    flagsOf (loadedRows blocks) = loadedFlags (groupShape blocks) := by
  simp [flagsOf, loadedRows, loadedFlags, groupShape, List.filter_map, Function.comp_def]

/-- each item returns what the query with this item alone returns; a query without keys has no GROUP BY -/
def Independent (G : GroupTable) (q : GroupQuery) (items : List Aggregate) (blocks : List (Rows × Bool)) : Prop :=
  if q.keys = [] then
    ∀ e ∈ items, returned q.nullable q.usingWhere items (loadedRows blocks) e =
      returned q.nullable q.usingWhere [e] (loadedRows blocks) e
  else ∀ e ∈ items, returnedGroups G q items blocks e = returnedGroups G q [e] blocks e

/-- **When the items of a query are independent.** For every hash table, every query with the items `e₁ :: rest`, with
or without WHERE and GROUP BY, and all filter flags of its blocks: each item returns what it returns alone, whatever
the values are, if and only if the condition for queries without GROUP BY holds of the blocks that are loaded or, for
queries with GROUP BY, that for them holds. -/
theorem select_items (G : GroupTable) (q : GroupQuery) (e₁ : Aggregate) (rest : List Aggregate)
    (sh : List (List Bool × Bool)) (hnodup : q.keys.Nodup) (hproper : ∀ e ∈ e₁ :: rest, Proper e)
    (hsh : ∀ p ∈ sh, p.1 ≠ []) :
    (∀ blocks, groupShape blocks = sh → Independent G q (e₁ :: rest) blocks) ↔
    if q.keys = [] then PlainIndependent q.usingWhere e₁ rest (loadedFlags sh)
    else GroupedIndependent q e₁ rest sh := by
  have hfill : ∀ g : ℕ → ℤ, groupShape (sh.map fun p => (fill g p.1, p.2)) = sh := by
    intro g
    simp [groupShape, Function.comp_def, flags_fill]
  have hrows : ∀ blocks, groupShape blocks = sh → ∀ p ∈ blocks, p.1 ≠ [] := by
    rintro blocks rfl p hp hnil
    exact hsh _ (List.mem_map.2 ⟨p, hp, rfl⟩) (by simp [hnil])
  by_cases hk : q.keys = []
  · simp only [Independent, hk, if_true]
    constructor
    · intro h
      by_cases hw : q.usingWhere = false
      · exact .inl hw
      have hw : q.usingWhere = true := by simpa using hw
      rw [hw] at h
      by_cases hpass : ∀ fl ∈ loadedFlags sh, false ∉ fl
      · exact .inr (.inl hpass)
      push Not at hpass
      have hloaded : ∀ g, loadedRows (sh.map fun p => (fill g p.1, p.2)) = (loadedFlags sh).map (fill g) := by
        intro g
        simp [loadedRows, loadedFlags, List.filter_map, Function.comp_def]
      have hne : ∀ fl ∈ loadedFlags sh, fl ≠ [] := by
        intro fl hfl
        obtain ⟨p, hp, rfl⟩ := List.mem_map.1 hfl
        exact hsh p (List.mem_of_mem_filter hp)
      have hreturned : ∀ g, ∀ e ∈ e₁ :: rest, returned q.nullable true (e₁ :: rest) ((loadedFlags sh).map (fill g)) e =
          returned q.nullable true [e] ((loadedFlags sh).map (fill g)) e := by
        intro g
        rw [← hloaded]
        exact h _ (hfill g)
      exact .inr (.inr (independent_of_plain hproper hne hreturned hpass))
    · rintro h blocks rfl
      refine plain_of_independent hproper ?_ (by rwa [flagsOf_loadedRows])
      intro rows hr
      obtain ⟨p, hp, rfl⟩ := List.mem_map.1 hr
      exact hrows blocks rfl p (List.mem_of_mem_filter hp)
  · simp only [Independent, hk, if_false]
    constructor
    · intro h
      have hb := hfill fun _ => 0
      rw [← hb]
      exact (grouped_iff hnodup hproper (hrows _ hb)).1 (h _ hb)
    · rintro h blocks rfl
      exact (grouped_iff hnodup hproper (hrows blocks rfl)).2 h

/-- a table that keeps the rows it gets -/
def rowTable : GroupTable := ⟨List GroupRow, List GroupRow, fun _ => [], fun _ t rows => t ++ rows, fun _ t => t⟩

/-- SUM(a), MIN(a) over two rows, the first of which passes -/
theorem select_items_sum_min :
    Independent rowTable ⟨fun _ => true, true, []⟩ [.col .sum "t.a".toList, .col .min "t.a".toList]
      [([(⟨fun _ => 3, fun _ => false⟩, true), (⟨fun _ => 1, fun _ => false⟩, false)], true)] := by
  refine (select_items rowTable ⟨fun _ => true, true, []⟩ (.col .sum "t.a".toList) [.col .min "t.a".toList]
    [([true, false], true)] List.nodup_nil ?_ (by decide)).2 ?_ _ rfl
  · simp [Proper]
  · rw [if_pos rfl]
    exact .inr (.inr (.inr ⟨fun h => absurd h (by decide), by decide⟩))

/-- COUNT(a), SUM(a) over 3 and 4, of which 3 passes: the sum is 7 instead of 3 -/
theorem select_items_count_sum :
    ¬ ∀ (G : GroupTable) (q : GroupQuery) (items : List Aggregate) (blocks : List (Rows × Bool)), q.keys.Nodup →
      (∀ e ∈ items, Proper e) → (∀ p ∈ blocks, p.1 ≠ []) → Independent G q items blocks := by
  intro h
  have := h rowTable ⟨fun _ => true, true, []⟩ [.col .count "t.a".toList, .col .sum "t.a".toList]
    [([(⟨fun _ => 3, fun _ => false⟩, true), (⟨fun _ => 4, fun _ => false⟩, false)], true)] List.nodup_nil
    (by simp [Proper]) (by simp)
  rw [Independent, if_pos rfl] at this
  exact absurd (this (.col .sum "t.a".toList) (by simp)) (by decide)

end QikkDB.SelectItems

/-
Queries with several aggregates, without GROUP BY (GpuSqlParser/GpuSqlCustomParser.cpp, `WalkSqlSelect`;
GpuSqlListener.cpp, `exitAggregation`, `exitSelectColumn`; Dispatcher/GpuSqlDispatcherAggregationFunctions.h, `AggregationCol`): what one
item of the SELECT clause leaves for the next.

The items of a block share the dispatcher's state. The first item clears the filter of the WHERE clause and, unless it
counts, leaves its column filtered; the items after it find no filter. One device works through the blocks. A block of a
stored column holds at least one row.

Results:
- `after_step`, `after_run`: what the items after the first compute on a block.
- `responses`: the response, item by item.
- `plain_of_independent`, `independent_of_plain`: when each item returns what it returns alone.
-/
import Mathlib.Tactic
import Mathlib.Data.Bool.Count
import QikkDB.Engine.MergeResults
import QikkDB.Engine.GroupBy

namespace QikkDB.SelectItems

open Decimal Select
open Aggregation (AggregationFunction Aggregate aggregationCol start mergePayload mergeRows loadCol store
  countRows reconstructColKeep mergeInto)
open GroupBy (Row blockOf)

/-! ## Without GROUP BY -/

/-- the rows of a block, each with whether the WHERE clause passes it -/
abbrev Rows := List (Row × Bool)

def blockRows (nullable : Text → Bool) (rows : Rows) : Aggregation.Block := blockOf nullable (rows.map Prod.fst)

def filterOf (usingWhere : Bool) (rows : Rows) : Option (List Bool) :=
  if usingWhere then some (rows.map Prod.snd) else none

/-- the items of a query on one block: the registers they leave -/
def blockValues (b : Aggregation.Block) (filter : Option (List Bool)) (items : List Aggregate) :
    Except String (Text → Option ℤ) := do
  let s ← items.foldlM (fun s a => aggregationCol b a s) (start filter)
  .ok s.registers

/-- the blocks one after the other; each register that is returned is merged under its own name -/
def respond (nullable : Text → Bool) (usingWhere : Bool) (items : List Aggregate) :
    (Text → Option (List ℤ)) → List Rows → Except String (Text → Option (List ℤ))
  | response, [] => .ok response
  | response, rows :: rest => do
    let regs ← blockValues (blockRows nullable rows) (filterOf usingWhere rows) items
    respond nullable usingWhere items (fun reg => match regs reg with
      | none => response reg
      | some v => mergePayload reg (response reg) [v]) rest

/-- the rows that a query returns for an item; none when it fails -/
def returned (nullable : Text → Bool) (usingWhere : Bool) (items : List Aggregate) (blocks : List Rows)
    (e : Aggregate) : Option (List ℤ) :=
  (respond nullable usingWhere items (fun _ => none) blocks).toOption.bind fun response => response e.reg

/-! ### Names of registers -/

/-- the column of an aggregate is a column of a table -/
def Proper : Aggregate → Prop
  | .col _ c => c ≠ ['*']
  | .asterisk => True

theorem reg_col (op : AggregationFunction) (c : Text) :
    (Aggregate.col op c).reg = op.name ++ '(' :: (c ++ [')']) := by
  have : (Aggregate.col op c).reg = op.name ++ '(' :: c ++ [')'] := rfl
  rw [this, List.append_assoc]
  rfl

theorem reg_asterisk : Aggregate.asterisk.reg = (Aggregate.col .count ['*']).reg := rfl

theorem name_inj {op op' : AggregationFunction} (h : op.name = op'.name) : op = op' := by
  cases op <;> cases op' <;> first | rfl | exact absurd h (by decide)

theorem reg_col_inj {op op' : AggregationFunction} {c c' : Text}
    (h : (Aggregate.col op c).reg = (Aggregate.col op' c').reg) : op = op' ∧ c = c' := by
  have hop : op.name = op'.name := by
    have := congrArg Aggregation.operation h
    rw [reg_col, reg_col, Aggregation.operation_of_split (Aggregation.name_paren op),
      Aggregation.operation_of_split (Aggregation.name_paren op'), Aggregation.name_upper,
      Aggregation.name_upper] at this
    exact Option.some.inj this
  obtain rfl := name_inj hop
  rw [reg_col, reg_col] at h
  have := List.append_cancel_left h
  simp only [List.cons.injEq, true_and] at this
  exact ⟨rfl, List.append_cancel_right this⟩

theorem reg_inj {e e' : Aggregate} (he : Proper e) (he' : Proper e') (h : e.reg = e'.reg) : e = e' := by
  cases e with
  | col op c =>
    cases e' with
    | col op' c' =>
      obtain ⟨rfl, rfl⟩ := reg_col_inj h
      rfl
    | asterisk => exact absurd (reg_col_inj (h.trans reg_asterisk)).2 he
  | asterisk =>
    cases e' with
    | col op' c' => exact absurd (reg_col_inj (h.symm.trans reg_asterisk)).2 he'
    | asterisk => rfl

/-! ### What an item sees -/

def Aggregate.op : Aggregate → AggregationFunction
  | .col op _ => op
  | .asterisk => .count

/-- the values an item is about; COUNT(*) is only about their number -/
def dataOf (b : Aggregation.Block) : Aggregate → List ℤ
  | .col _ c => (b.column c).data
  | .asterisk => List.replicate b.size 0

/-- the item leaves the column filtered -/
def rewrites : Aggregate → Text → Bool
  | .col op c', c => op ≠ .count && c' = c
  | .asterisk, _ => false

/-- an item that sees the filtered rows in a query whose first item is `e₁` -/
def covered (e₁ e : Aggregate) : Bool :=
  e = e₁ || match e with
    | .col _ c => rewrites e₁ c
    | .asterisk => false

/-- the values that an item sees after `e₁` -/
def seen (b : Aggregation.Block) (filter : Option (List Bool)) (e₁ e : Aggregate) : List ℤ :=
  if covered e₁ e then Aggregation.select filter (dataOf b e) else dataOf b e

/-- a block whose columns, and the filter, are as long as it says -/
structure Aligned (b : Aggregation.Block) (filter : Option (List Bool)) : Prop where
  columns : ∀ c, (b.column c).data.length = b.size
  mask : ∀ m ∈ filter, m.length = b.size

theorem length_dataOf {b : Aggregation.Block} {filter : Option (List Bool)} (h : Aligned b filter) (e : Aggregate) :
    (dataOf b e).length = b.size := by
  cases e with
  | col op c => exact h.columns c
  | asterisk => simp [dataOf]

/-- the state after the items `done`, the first of which is `e₁` -/
structure After (b : Aggregation.Block) (filter : Option (List Bool)) (e₁ : Aggregate) (done : List Aggregate)
    (s : Aggregation.St) : Prop where
  cleared : s.filter = none
  columns : ∀ c col, s.allocatedPointers c = some col →
    col.data = if rewrites e₁ c then Aggregation.select filter (b.column c).data else (b.column c).data
  rewritten : ∀ c, rewrites e₁ c = true → ∃ col, s.allocatedPointers c = some col
  registers : ∀ e ∈ done, ∃ v, s.registers e.reg = some v ∧ (Aggregate.op e).agg (seen b filter e₁ e) = .ok v
  only : ∀ r v, s.registers r = some v → ∃ e ∈ done, e.reg = r

section Block

variable {b : Aggregation.Block} {filter : Option (List Bool)}

theorem count_eq {l : List ℤ} {n : ℕ} (h : l.length = n) : AggregationFunction.agg .count l = .ok (n : ℤ) := by
  rw [← h]
  rfl

/-- a register that is stored keeps what holds of the others -/
theorem After.store {e₁ e : Aggregate} {done : List Aggregate} {s : Aggregation.St} {v : ℤ}
    (h : After b filter e₁ done s) (hfresh : s.registers e.reg = none)
    (hv : (Aggregate.op e).agg (seen b filter e₁ e) = .ok v) :
    After b filter e₁ (done ++ [e])
      { s with registers := Function.update s.registers e.reg (some v), filter := none } := by
  refine ⟨rfl, h.columns, h.rewritten, fun e' he' => ?_, fun r w hr => ?_⟩
  · rcases eq_or_ne e'.reg e.reg with heq | hne
    · rcases List.mem_append.1 he' with hold | hnew
      · obtain ⟨w, hw, -⟩ := h.registers e' hold
        rw [heq, hfresh] at hw
        exact absurd hw (by simp)
      · obtain rfl := List.mem_singleton.1 hnew
        exact ⟨v, by simp, hv⟩
    · have hold : e' ∈ done := by
        rcases List.mem_append.1 he' with hold | hnew
        · exact hold
        · obtain rfl := List.mem_singleton.1 hnew
          exact absurd rfl hne
      simpa [Function.update_of_ne hne] using h.registers e' hold
  · rcases eq_or_ne r e.reg with rfl | hne
    · exact ⟨e, by simp, rfl⟩
    · obtain ⟨e', he', hreg⟩ := h.only r w (by simpa [Function.update_of_ne hne] using hr)
      exact ⟨e', by simp [he'], hreg⟩

/-- an item whose register is there changes nothing -/
theorem After.again {e₁ e : Aggregate} {done : List Aggregate} {s : Aggregation.St} (h : After b filter e₁ done s)
    (he : e ∈ done) : After b filter e₁ (done ++ [e]) { s with filter := none } := by
  refine ⟨rfl, h.columns, h.rewritten, fun e' he' => ?_, fun r w hr => ?_⟩
  · rcases List.mem_append.1 he' with hold | hnew
    · exact h.registers e' hold
    · obtain rfl := List.mem_singleton.1 hnew
      exact h.registers e' he
  · obtain ⟨e', he', hreg⟩ := h.only r w hr
    exact ⟨e', by simp [he'], hreg⟩

/-- a load gives the column as the first item left it -/
theorem After.load {e₁ : Aggregate} {done : List Aggregate} {s : Aggregation.St} (h : After b filter e₁ done s)
    (c : Text) :
    ∃ s' col, loadCol b s c = (s', col) ∧ After b filter e₁ done s' ∧ s'.registers = s.registers ∧
      col.data = if rewrites e₁ c then Aggregation.select filter (b.column c).data else (b.column c).data := by
  cases hc : s.allocatedPointers c with
  | some col => exact ⟨s, col, by simp [loadCol, hc], h, rfl, h.columns c col hc⟩
  | none =>
    have hnot : rewrites e₁ c = false := by
      by_contra hr
      obtain ⟨col, hcol⟩ := h.rewritten c (by simpa using hr)
      rw [hc] at hcol
      exact absurd hcol (by simp)
    refine ⟨{ s with allocatedPointers := Function.update s.allocatedPointers c (some (b.column c)) }, b.column c,
      by simp [loadCol, hc], ⟨h.cleared, fun c' col hcol => ?_, fun c' hr => ?_, h.registers, h.only⟩, rfl,
      by simp [hnot]⟩
    · rcases eq_or_ne c' c with rfl | hne
      · obtain rfl : b.column c' = col := by simpa using hcol
        simp [hnot]
      · exact h.columns c' col (by simpa [Function.update_of_ne hne] using hcol)
    · rcases eq_or_ne c' c with rfl | hne
      · exact ⟨b.column c', by simp⟩
      · simpa [Function.update_of_ne hne] using h.rewritten c' hr

/-- so does a column that is rewritten without a filter -/
theorem After.rewrite {e₁ : Aggregate} {done : List Aggregate} {s : Aggregation.St} (h : After b filter e₁ done s)
    {c : Text} {col : Aggregation.Column}
    (hcol : col.data = if rewrites e₁ c then Aggregation.select filter (b.column c).data else (b.column c).data) :
    After b filter e₁ done { s with allocatedPointers := Function.update s.allocatedPointers c (some col) } := by
  refine ⟨h.cleared, fun c' col' hc' => ?_, fun c' hr => ?_, h.registers, h.only⟩
  · rcases eq_or_ne c' c with rfl | hne
    · obtain rfl : col = col' := by simpa using hc'
      exact hcol
    · exact h.columns c' col' (by simpa [Function.update_of_ne hne] using hc')
  · rcases eq_or_ne c' c with rfl | hne
    · exact ⟨col, by simp⟩
    · simpa [Function.update_of_ne hne] using h.rewritten c' hr

theorem seen_col {e₁ : Aggregate} {op : AggregationFunction} {c : Text} (hne : Aggregate.col op c ≠ e₁) :
    seen b filter e₁ (.col op c) =
      if rewrites e₁ c then Aggregation.select filter (b.column c).data else (b.column c).data := by
  simp [seen, covered, hne, dataOf]

/-- storing the value of what an item sees -/
theorem After.store_step {e₁ e : Aggregate} {done : List Aggregate} {s : Aggregation.St}
    (h : After b filter e₁ done s) (hfresh : s.registers e.reg = none) {value : Except String ℤ}
    (hvalue : value = (Aggregate.op e).agg (seen b filter e₁ e)) :
    (∃ s', Aggregation.store s e.reg value = .ok s' ∧ After b filter e₁ (done ++ [e]) s') ∨
      ∃ m, (Aggregate.op e).agg (seen b filter e₁ e) = .error m ∧ Aggregation.store s e.reg value = .error m := by
  cases hv : (Aggregate.op e).agg (seen b filter e₁ e) with
  | ok v =>
    refine .inl ⟨_, ?_, h.store hfresh hv⟩
    simp [Aggregation.store, hfresh, hvalue, hv, bind, Except.bind]
  | error m =>
    refine .inr ⟨m, rfl, ?_⟩
    simp [Aggregation.store, hfresh, hvalue, hv, bind, Except.bind]

/-- **One more item.** It computes the aggregate of what it sees, or fails as that does. -/
theorem after_step {e₁ e : Aggregate} {done : List Aggregate} {s : Aggregation.St}
    (h : After b filter e₁ done s) (h₁ : e₁ ∈ done) (hdone : ∀ e' ∈ done, Proper e') (he : Proper e) :
    (∃ s', aggregationCol b e s = .ok s' ∧ After b filter e₁ (done ++ [e]) s') ∨
      ∃ m, (Aggregate.op e).agg (seen b filter e₁ e) = .error m ∧ aggregationCol b e s = .error m := by
  cases hreg : s.registers e.reg with
  | some w =>
    obtain ⟨e', he', heq⟩ := h.only _ _ hreg
    obtain rfl := reg_inj (hdone e' he') he heq
    refine .inl ?_
    cases e' with
    | asterisk => exact ⟨_, by simp [aggregationCol, Aggregation.store, hreg], h.again he'⟩
    | col op c =>
      obtain ⟨s₁, col, hload, hafter, hregs, hcol⟩ := h.load c
      have hreg₁ : s₁.registers (Aggregate.col op c).reg = some w := by rw [hregs, hreg]
      cases op with
      | count =>
        refine ⟨{ s₁ with filter := none }, ?_, hafter.again he'⟩
        simp [aggregationCol, hload, Aggregation.store, hreg₁]
      | _ =>
        have hout : (reconstructColKeep col s₁.filter .null).data = if rewrites e₁ c
            then Aggregation.select filter (b.column c).data else (b.column c).data := by
          rw [Aggregation.reconstructColKeep_data, hafter.cleared]
          exact hcol
        refine ⟨_, ?_, (hafter.rewrite hout).again he'⟩
        simp [aggregationCol, hload, Aggregation.store, hreg₁]
  | none =>
    have hne : e ≠ e₁ := by
      rintro rfl
      obtain ⟨v, hv, -⟩ := h.registers e h₁
      rw [hreg] at hv
      exact absurd hv (by simp)
    cases e with
    | asterisk =>
      refine h.store_step hreg ?_
      have hseen : seen b filter e₁ .asterisk = List.replicate b.size 0 := by simp [seen, covered, hne, dataOf]
      rw [hseen, Aggregate.op, count_eq (List.length_replicate ..)]
      simp [countRows, h.cleared]
    | col op c =>
      obtain ⟨s₁, col, hload, hafter, hregs, hcol⟩ := h.load c
      have hreg₁ : s₁.registers (Aggregate.col op c).reg = none := by rw [hregs, hreg]
      have hseen : seen b filter e₁ (.col op c) = col.data := (seen_col hne).trans hcol.symm
      have hout : (reconstructColKeep col s₁.filter .null).data = col.data := by
        rw [Aggregation.reconstructColKeep_data, hafter.cleared]
        rfl
      cases op with
      | count =>
        have hvalue : (.ok (countRows s₁ col.data.length) : Except String ℤ) =
            (Aggregate.op (.col .count c)).agg (seen b filter e₁ (.col .count c)) := by
          rw [hseen, Aggregate.op, count_eq rfl]
          simp [countRows, hafter.cleared]
        have hstep := hafter.store_step hreg₁ hvalue
        simpa [aggregationCol, hload] using hstep
      | _ =>
        have hstep := (hafter.rewrite (hout.trans hcol)).store_step hreg₁
          (congrArg (Aggregate.op (.col _ c)).agg (hout.trans hseen.symm))
        simpa [aggregationCol, hload, Aggregate.op] using hstep

theorem seen_first (e₁ : Aggregate) : seen b filter e₁ e₁ = Aggregation.select filter (dataOf b e₁) := by
  simp [seen, covered]

/-- the state after the first item, whatever it is -/
theorem after_first {e₁ : Aggregate} {v : ℤ} {pointers : Text → Option Aggregation.Column}
    (hv : (Aggregate.op e₁).agg (seen b filter e₁ e₁) = .ok v)
    (hcols : ∀ c col, pointers c = some col →
      col.data = if rewrites e₁ c then Aggregation.select filter (b.column c).data else (b.column c).data)
    (hrew : ∀ c, rewrites e₁ c = true → ∃ col, pointers c = some col) :
    After b filter e₁ [e₁] ⟨pointers, Function.update (fun _ => none) e₁.reg (some v), none⟩ := by
  refine ⟨rfl, hcols, hrew, fun e he => ?_, fun r w hr => ?_⟩
  · obtain rfl := List.mem_singleton.1 he
    exact ⟨v, by simp, hv⟩
  · rcases eq_or_ne r e₁.reg with rfl | hne
    · exact ⟨e₁, by simp, rfl⟩
    · simp [Function.update_of_ne hne] at hr

/-- the first item: the aggregate of the filtered rows, or its failure -/
theorem first_step (hal : Aligned b filter) (e₁ : Aggregate) :
    (∃ s, aggregationCol b e₁ (start filter) = .ok s ∧ After b filter e₁ [e₁] s) ∨
      ∃ m, (Aggregate.op e₁).agg (seen b filter e₁ e₁) = .error m ∧
        aggregationCol b e₁ (start filter) = .error m := by
  have hcount : ∀ l : List ℤ, l.length = b.size →
      (.ok (countRows (start filter) l.length) : Except String ℤ) = .ok ((Aggregation.select filter l).length : ℤ) := by
    intro l hl
    rw [Aggregation.countRows_start l fun m hm => (hal.mask m hm).trans hl.symm]
  cases e₁ with
  | asterisk =>
    refine .inl ⟨_, rfl, after_first ?_ (fun c col h => absurd h (by simp [start])) (by simp [rewrites])⟩
    have hsize := hcount (List.replicate b.size 0) (by simp)
    rw [List.length_replicate] at hsize
    rw [seen_first]
    exact hsize.symm
  | col op c =>
    cases op with
    | count =>
      refine .inl ⟨_, rfl, after_first ?_ ?_ (by simp [rewrites])⟩
      · rw [seen_first]
        exact (hcount _ (hal.columns c)).symm
      · intro c' col hcol
        rcases eq_or_ne c' c with rfl | hne
        · obtain rfl : b.column c' = col := by simpa [start] using hcol
          simp [rewrites]
        · simp [start, Function.update_of_ne hne] at hcol
    | _ =>
      have hdata := Aggregation.reconstructColKeep_data (b.column c) filter .null
      cases hv : (Aggregate.op (.col _ c)).agg (Aggregation.select filter (b.column c).data) with
      | error m =>
        refine .inr ⟨m, by rw [seen_first]; exact hv, ?_⟩
        simp only [Aggregate.op] at hv
        simp [aggregationCol, loadCol, start, Aggregation.store, hdata, hv, bind, Except.bind]
      | ok v =>
        refine .inl ⟨⟨Function.update (Function.update (fun _ => none) c (some (b.column c))) c
          (some (reconstructColKeep (b.column c) filter .null)), _, none⟩, ?_,
          after_first (v := v) (by rw [seen_first]; exact hv) ?_ ?_⟩
        · simp only [Aggregate.op] at hv
          simp [aggregationCol, loadCol, start, Aggregation.store, hdata, hv, bind, Except.bind]
        · intro c' col hcol
          rcases eq_or_ne c' c with rfl | hne
          · obtain rfl : reconstructColKeep (b.column c') filter .null = col := by simpa using hcol
            simpa [rewrites] using hdata
          · simp [Function.update_of_ne hne] at hcol
        · intro c' hr
          obtain rfl : c = c' := by simpa [rewrites] using hr
          exact ⟨reconstructColKeep (b.column c) filter .null, by simp⟩

/-- **The items of a block.** Each computes the aggregate of what it sees; the query fails on the block when one of
these does. -/
theorem after_run (hal : Aligned b filter) {e₁ : Aggregate} {rest : List Aggregate}
    (hproper : ∀ e ∈ e₁ :: rest, Proper e) :
    (∃ s, (e₁ :: rest).foldlM (fun s a => aggregationCol b a s) (start filter) = .ok s ∧
        After b filter e₁ (e₁ :: rest) s) ∨
      ∃ m, (∃ e ∈ e₁ :: rest, (Aggregate.op e).agg (seen b filter e₁ e) = .error m) ∧
        (e₁ :: rest).foldlM (fun s a => aggregationCol b a s) (start filter) = .error m := by
  have gen : ∀ (done : List Aggregate) (s : Aggregation.St), e₁ ∈ done → (∀ e ∈ done ++ rest, Proper e) →
      After b filter e₁ done s →
      (∃ s', rest.foldlM (fun s a => aggregationCol b a s) s = .ok s' ∧ After b filter e₁ (done ++ rest) s') ∨
        ∃ m, (∃ e ∈ rest, (Aggregate.op e).agg (seen b filter e₁ e) = .error m) ∧
          rest.foldlM (fun s a => aggregationCol b a s) s = .error m := by
    clear hproper
    induction rest with
    | nil => exact fun done s _ _ h => .inl ⟨s, rfl, by simpa using h⟩
    | cons e rest ih =>
      intro done s h₁ hproper h
      have hstep := after_step h h₁ (fun e' he' => hproper e' (by simp [he'])) (hproper e (by simp))
      rw [List.foldlM_cons]
      rcases hstep with ⟨s₁, hs₁, hafter⟩ | ⟨m, hm, hs₁⟩
      · rw [hs₁]
        rcases ih (done ++ [e]) s₁ (by simp [h₁]) (by simpa using hproper) hafter with
          ⟨s₂, hs₂, h₂⟩ | ⟨m, ⟨e', he', hm⟩, hs₂⟩
        · exact .inl ⟨s₂, hs₂, by simpa using h₂⟩
        · exact .inr ⟨m, ⟨e', List.mem_cons_of_mem _ he', hm⟩, hs₂⟩
      · rw [hs₁]
        exact .inr ⟨m, ⟨e, List.mem_cons_self, hm⟩, rfl⟩
  rw [List.foldlM_cons]
  rcases first_step hal e₁ with ⟨s, hs, h⟩ | ⟨m, hm, hs⟩
  · rw [hs]
    rcases gen [e₁] s (by simp) (by simpa using hproper) h with ⟨s', hs', h'⟩ | ⟨m, ⟨e, he, hm⟩, hs'⟩
    · exact .inl ⟨s', hs', h'⟩
    · exact .inr ⟨m, ⟨e, List.mem_cons_of_mem _ he, hm⟩, hs'⟩
  · rw [hs]
    exact .inr ⟨m, ⟨e₁, List.mem_cons_self, hm⟩, rfl⟩

end Block

/-! ### The response -/

/-- the value of an aggregate where it has one -/
def valueOf : AggregationFunction → List ℤ → ℤ
  | .min, l => Aggregation.reduce Min.min Aggregation.int64Max l
  | .max, l => Aggregation.reduce Max.max Aggregation.int64Lowest l
  | .sum, l => l.sum
  | .avg, l => l.sum.tdiv l.length
  | .count, l => l.length

theorem agg_eq (op : AggregationFunction) (l : List ℤ) :
    op.agg l = if op = .avg ∧ l = [] then .error "GPU Error 2" else .ok (valueOf op l) := by
  cases op with
  | avg =>
    by_cases h : l = []
    · simp [AggregationFunction.agg, h]
    · simp [AggregationFunction.agg, h, valueOf, Aggregation.reduce_sum]
  | _ => rfl

theorem aligned_rows (nullable : Text → Bool) (usingWhere : Bool) (rows : Rows) :
    Aligned (blockRows nullable rows) (filterOf usingWhere rows) := by
  refine ⟨fun c => by simp [blockRows, blockOf], fun m hm => ?_⟩
  cases usingWhere
  · simp [filterOf] at hm
  · obtain rfl : rows.map Prod.snd = m := by simpa [filterOf] using hm
    simp [blockRows, blockOf]

section Response

variable (nullable : Text → Bool) (usingWhere : Bool)

/-- what an item sees of the rows of a block after `e₁` -/
def seenRows (e₁ e : Aggregate) (rows : Rows) : List ℤ :=
  seen (blockRows nullable rows) (filterOf usingWhere rows) e₁ e

/-- an item fails on a block -/
def Fails (e₁ e : Aggregate) (rows : Rows) : Prop :=
  Aggregate.op e = .avg ∧ seenRows nullable usingWhere e₁ e rows = []

theorem blockValues_spec {e₁ : Aggregate} {rest : List Aggregate} (hproper : ∀ e ∈ e₁ :: rest, Proper e) (rows : Rows) :
    ((∀ e ∈ e₁ :: rest, ¬ Fails nullable usingWhere e₁ e rows) ∧
      ∃ regs, blockValues (blockRows nullable rows) (filterOf usingWhere rows) (e₁ :: rest) = .ok regs ∧
        ∀ e ∈ e₁ :: rest, regs e.reg = some (valueOf (Aggregate.op e) (seenRows nullable usingWhere e₁ e rows))) ∨
    (∃ e ∈ e₁ :: rest, Fails nullable usingWhere e₁ e rows) ∧
      ∃ m, blockValues (blockRows nullable rows) (filterOf usingWhere rows) (e₁ :: rest) = .error m := by
  rcases after_run (aligned_rows nullable usingWhere rows) hproper with ⟨s, hs, h⟩ | ⟨m, ⟨e, he, hm⟩, hs⟩
  · have hval : ∀ e ∈ e₁ :: rest, ¬ Fails nullable usingWhere e₁ e rows ∧
        s.registers e.reg = some (valueOf (Aggregate.op e) (seenRows nullable usingWhere e₁ e rows)) := by
      intro e he
      obtain ⟨v, hv, hagg⟩ := h.registers e he
      rw [agg_eq] at hagg
      split_ifs at hagg with hf
      exact ⟨hf, by rw [hv, ← Except.ok.inj hagg]; rfl⟩
    refine .inl ⟨fun e he => (hval e he).1, s.registers, ?_, fun e he => (hval e he).2⟩
    rw [blockValues, hs]
    rfl
  · rw [agg_eq] at hm
    split_ifs at hm with hf
    refine .inr ⟨⟨e, he, hf⟩, m, ?_⟩
    rw [blockValues, hs]
    rfl

/-- **The response, item by item.** A query fails when an item fails on a block; else the response to an item merges
the aggregates of what it sees of the blocks. -/
theorem responses {e₁ : Aggregate} {rest : List Aggregate} (hproper : ∀ e ∈ e₁ :: rest, Proper e) (blocks : List Rows)
    {e : Aggregate} (he : e ∈ e₁ :: rest) :
    ((∀ rows ∈ blocks, ∀ e ∈ e₁ :: rest, ¬ Fails nullable usingWhere e₁ e rows) →
      returned nullable usingWhere (e₁ :: rest) blocks e = mergeRows e.reg none
        (blocks.map fun rows => valueOf (Aggregate.op e) (seenRows nullable usingWhere e₁ e rows))) ∧
    ((∃ rows ∈ blocks, ∃ e ∈ e₁ :: rest, Fails nullable usingWhere e₁ e rows) →
      returned nullable usingWhere (e₁ :: rest) blocks e = none) := by
  have gen : ∀ response : Text → Option (List ℤ),
      ((∀ rows ∈ blocks, ∀ e ∈ e₁ :: rest, ¬ Fails nullable usingWhere e₁ e rows) →
        (respond nullable usingWhere (e₁ :: rest) response blocks).toOption.bind (fun r => r e.reg) =
          mergeRows e.reg (response e.reg)
            (blocks.map fun rows => valueOf (Aggregate.op e) (seenRows nullable usingWhere e₁ e rows))) ∧
      ((∃ rows ∈ blocks, ∃ e ∈ e₁ :: rest, Fails nullable usingWhere e₁ e rows) →
        (respond nullable usingWhere (e₁ :: rest) response blocks).toOption.bind (fun r => r e.reg) = none) := by
    induction blocks with
    | nil => exact fun response => ⟨fun _ => rfl, by simp⟩
    | cons rows blocks ih =>
      intro response
      rcases blockValues_spec nullable usingWhere hproper rows with ⟨hok, regs, hregs, hval⟩ | ⟨hfail, m, hm⟩
      · simp only [respond, hregs, bind, Except.bind]
        obtain ⟨ih₁, ih₂⟩ := ih fun reg => match regs reg with
          | none => response reg
          | some v => mergePayload reg (response reg) [v]
        refine ⟨fun h => ?_, fun h => ih₂ ?_⟩
        · refine (ih₁ fun r hr => h r (List.mem_cons_of_mem _ hr)).trans ?_
          simp only [hval e he]
          rfl
        · obtain ⟨r, hr, hf⟩ := h
          rcases List.mem_cons.1 hr with rfl | hr
          · obtain ⟨e', he', hf⟩ := hf
            exact absurd hf (hok e' he')
          · exact ⟨r, hr, hf⟩
      · refine ⟨fun h => ?_, fun _ => ?_⟩
        · obtain ⟨e', he', hf⟩ := hfail
          exact absurd hf (h rows List.mem_cons_self e' he')
        · simp only [respond, hm, bind, Except.bind]
          rfl
  exact gen fun _ => none

end Response

/-! ### Merging tells the rows apart -/

theorem mergeRows_reg (e : Aggregate) (vs : List ℤ) :
    mergeRows e.reg none vs = (vs.foldl (mergeInto (Aggregate.op e)) none).map fun x => [x] := by
  cases e with
  | col op c => exact Aggregation.mergeRows_plain op c none vs
  | asterisk => exact Aggregation.mergeRows_plain .count ['*'] none vs

theorem foldl_min (a : ℤ) (vs : List ℤ) :
    ∃ x, vs.foldl (mergeInto .min) (some a) = some x ∧ x ∈ a :: vs ∧ ∀ v ∈ a :: vs, x ≤ v := by
  induction vs generalizing a with
  | nil => exact ⟨a, rfl, by simp, by simp⟩
  | cons v vs ih =>
    obtain ⟨x, hx, hmem, hle⟩ := ih (Min.min v a)
    have hmin := hle _ List.mem_cons_self
    refine ⟨x, hx, ?_, fun w hw => ?_⟩
    · rcases List.mem_cons.1 hmem with rfl | hmem
      · rcases min_choice v a with h | h <;> simp [h]
      · simp [hmem]
    · rcases List.mem_cons.1 hw with rfl | hw
      · exact hmin.trans (min_le_right _ _)
      · rcases List.mem_cons.1 hw with rfl | hw
        · exact hmin.trans (min_le_left _ _)
        · exact hle w (List.mem_cons_of_mem _ hw)

theorem foldl_max (a : ℤ) (vs : List ℤ) :
    ∃ x, vs.foldl (mergeInto .max) (some a) = some x ∧ x ∈ a :: vs ∧ ∀ v ∈ a :: vs, v ≤ x := by
  induction vs generalizing a with
  | nil => exact ⟨a, rfl, by simp, by simp⟩
  | cons v vs ih =>
    obtain ⟨x, hx, hmem, hle⟩ := ih (Max.max v a)
    have hmax := hle _ List.mem_cons_self
    refine ⟨x, hx, ?_, fun w hw => ?_⟩
    · rcases List.mem_cons.1 hmem with rfl | hmem
      · rcases max_choice v a with h | h <;> simp [h]
      · simp [hmem]
    · rcases List.mem_cons.1 hw with rfl | hw
      · exact (le_max_right _ _).trans hmax
      · rcases List.mem_cons.1 hw with rfl | hw
        · exact (le_max_left _ _).trans hmax
        · exact hle w (List.mem_cons_of_mem _ hw)

/-- values of the blocks that are apart merge to different results -/
theorem merged_ne {op : AggregationFunction} {fs : List (List Bool)} {v w : List Bool → ℤ}
    (h : match op with
      | .min => ∃ x, (∃ fl ∈ fs, v fl < x) ∧ ∀ fl ∈ fs, x ≤ w fl
      | .max => ∃ x, (∃ fl ∈ fs, x < v fl) ∧ ∀ fl ∈ fs, w fl ≤ x
      | _ => (∀ fl ∈ fs, w fl ≤ v fl) ∧ ∃ fl ∈ fs, w fl < v fl) :
    (fs.map v).foldl (mergeInto op) none ≠ (fs.map w).foldl (mergeInto op) none := by
  intro heq
  cases fs with
  | nil => cases op <;> simp at h
  | cons f fs =>
    have hsum : ∀ u : List Bool → ℤ, ((f :: fs).map u).foldl (mergeInto .avg) none = some ((f :: fs).map u).sum := by
      intro u
      rw [List.map_cons, List.sum_cons]
      exact Aggregation.foldl_mergeInto_avg (u f) (fs.map u)
    cases op with
    | min =>
      obtain ⟨x, ⟨fl, hfl, hlt⟩, hle⟩ := h
      obtain ⟨y, hy, -, hmin⟩ := foldl_min (v f) (fs.map v)
      obtain ⟨z, hz, hmem, -⟩ := foldl_min (w f) (fs.map w)
      have hyz : y = z := Option.some.inj (hy.symm.trans (heq.trans hz))
      have h₁ : y ≤ v fl := hmin _ (List.mem_map.2 ⟨fl, hfl, rfl⟩)
      obtain ⟨fl', hfl', hz'⟩ := List.mem_map.1 (show z ∈ (f :: fs).map w from hmem)
      have := hle fl' hfl'
      omega
    | max =>
      obtain ⟨x, ⟨fl, hfl, hlt⟩, hle⟩ := h
      obtain ⟨y, hy, -, hmax⟩ := foldl_max (v f) (fs.map v)
      obtain ⟨z, hz, hmem, -⟩ := foldl_max (w f) (fs.map w)
      have hyz : y = z := Option.some.inj (hy.symm.trans (heq.trans hz))
      have h₁ : v fl ≤ y := hmax _ (List.mem_map.2 ⟨fl, hfl, rfl⟩)
      obtain ⟨fl', hfl', hz'⟩ := List.mem_map.1 (show z ∈ (f :: fs).map w from hmem)
      have := hle fl' hfl'
      omega
    | _ =>
      have hlt := List.sum_lt_sum w v h.1 h.2
      exact absurd (Option.some.inj ((hsum v).symm.trans (heq.trans (hsum w)))) hlt.ne'

/-- a block whose rows hold 0 where the filter passes them and `g` of their number elsewhere -/
def fill (g : ℕ → ℤ) (fl : List Bool) : Rows :=
  fl.map fun p => (⟨fun _ => if p then 0 else g fl.length, fun _ => false⟩, p)

section Fill

variable {nullable : Text → Bool} {g : ℕ → ℤ} {fl : List Bool} {e : Aggregate}

theorem flags_fill : (fill g fl).map Prod.snd = fl := by
  simp [fill, Function.comp_def]

theorem length_dataOf_fill : (dataOf (blockRows nullable (fill g fl)) e).length = fl.length := by
  rw [length_dataOf (aligned_rows nullable true (fill g fl)) e]
  simp [blockRows, blockOf, fill]

theorem dataOf_fill (hop : Aggregate.op e ≠ .count) :
    dataOf (blockRows nullable (fill g fl)) e = fl.map fun p => if p then 0 else g fl.length := by
  cases e with
  | asterisk => exact absurd rfl hop
  | col op c => simp [dataOf, blockRows, blockOf, fill, Function.comp_def]

theorem keep_fill {k x : ℤ} (h : x ∈ keep fl (fl.map fun p => if p then 0 else k)) : x = 0 := by
  rw [keep_map] at h
  obtain ⟨p, hp, rfl⟩ := List.mem_map.1 h
  simp [keep_self fl p hp]

theorem sum_fill (k : ℤ) (fl : List Bool) : (fl.map fun p => if p then 0 else k).sum = fl.count false * k := by
  induction fl with
  | nil => simp
  | cons p fl ih =>
    cases p
    · simp [ih, add_mul, add_comm]
    · simp [ih]

/-- with well chosen values, the rows that are not passed change the merged result -/
theorem fill_ne (nullable : Text → Bool) (sh : List (List Bool)) (e : Aggregate) (h : ∃ fl ∈ sh, false ∈ fl) :
    ∃ g : ℕ → ℤ, mergeRows e.reg none (sh.map fun fl =>
        valueOf (Aggregate.op e) (dataOf (blockRows nullable (fill g fl)) e)) ≠
      mergeRows e.reg none (sh.map fun fl =>
        valueOf (Aggregate.op e) (keep fl (dataOf (blockRows nullable (fill g fl)) e))) := by
  obtain ⟨fl₀, hfl₀, hfalse⟩ := h
  have hpos : 0 < fl₀.count false := List.count_pos_iff.2 hfalse
  have suff : ∀ (g : ℕ → ℤ) (v w : List Bool → ℤ),
      (∀ fl, valueOf (Aggregate.op e) (dataOf (blockRows nullable (fill g fl)) e) = v fl) →
      (∀ fl, valueOf (Aggregate.op e) (keep fl (dataOf (blockRows nullable (fill g fl)) e)) = w fl) →
      (sh.map v).foldl (mergeInto (Aggregate.op e)) none ≠ (sh.map w).foldl (mergeInto (Aggregate.op e)) none →
      mergeRows e.reg none (sh.map fun fl =>
        valueOf (Aggregate.op e) (dataOf (blockRows nullable (fill g fl)) e)) ≠
      mergeRows e.reg none (sh.map fun fl =>
        valueOf (Aggregate.op e) (keep fl (dataOf (blockRows nullable (fill g fl)) e))) := by
    intro g v w hv hw hne heq
    simp only [hv, hw, mergeRows_reg] at heq
    refine hne (Option.map_injective ?_ heq)
    intro a b hab
    simpa using hab
  cases hop : Aggregate.op e with
  | min =>
    have hdata : ∀ fl, dataOf (blockRows nullable (fill (fun _ => -1) fl)) e = _ := fun fl =>
      dataOf_fill (by simp [hop])
    rw [hop] at suff
    refine ⟨fun _ => -1, suff _ _ _ (fun _ => rfl) (fun _ => rfl) (merged_ne ⟨0, ⟨fl₀, hfl₀, ?_⟩, fun fl _ => ?_⟩)⟩
    · have hmem : (-1 : ℤ) ∈ dataOf (blockRows nullable (fill (fun _ => -1) fl₀)) e := by
        rw [hdata]
        exact List.mem_map.2 ⟨false, hfalse, rfl⟩
      have : valueOf .min (dataOf (blockRows nullable (fill (fun _ => -1) fl₀)) e) ≤ -1 :=
        Aggregation.reduce_min_le hmem
      omega
    · rw [hdata]
      exact Aggregation.le_reduce_min (by decide) fun a ha => (keep_fill ha).ge
  | max =>
    have hdata : ∀ fl, dataOf (blockRows nullable (fill (fun _ => 1) fl)) e = _ := fun fl =>
      dataOf_fill (by simp [hop])
    rw [hop] at suff
    refine ⟨fun _ => 1, suff _ _ _ (fun _ => rfl) (fun _ => rfl) (merged_ne ⟨0, ⟨fl₀, hfl₀, ?_⟩, fun fl _ => ?_⟩)⟩
    · have hmem : (1 : ℤ) ∈ dataOf (blockRows nullable (fill (fun _ => 1) fl₀)) e := by
        rw [hdata]
        exact List.mem_map.2 ⟨false, hfalse, rfl⟩
      have : 1 ≤ valueOf .max (dataOf (blockRows nullable (fill (fun _ => 1) fl₀)) e) :=
        Aggregation.le_reduce_max hmem
      omega
    · rw [hdata]
      exact Aggregation.reduce_max_le (by decide) fun a ha => (keep_fill ha).le
  | sum =>
    rw [hop] at suff
    refine ⟨fun _ => 1, suff _ (fun fl => fl.count false) (fun _ => 0) (fun fl => ?_) (fun fl => ?_)
      (merged_ne ⟨fun fl _ => by simp, fl₀, hfl₀, by simpa using hfalse⟩)⟩
    · rw [dataOf_fill (by simp [hop]), valueOf, sum_fill, mul_one]
    · rw [dataOf_fill (by simp [hop])]
      exact List.sum_eq_zero fun a ha => keep_fill ha
  | avg =>
    -- the sum is the number of rows not passed, times the length
    rw [hop] at suff
    refine ⟨fun n => n, suff _ (fun fl => fl.count false) (fun _ => 0) (fun fl => ?_) (fun fl => ?_)
      (merged_ne ⟨fun fl _ => by simp, fl₀, hfl₀, by simpa using hfalse⟩)⟩
    · rw [dataOf_fill (by simp [hop]), valueOf, sum_fill, List.length_map]
      rcases Nat.eq_zero_or_pos fl.length with hz | hz
      · simp [List.length_eq_zero_iff.1 hz]
      · exact Int.mul_tdiv_cancel _ (by omega)
    · rw [dataOf_fill (by simp [hop]), valueOf]
      have hzero : (keep fl (fl.map fun p => if p then (0 : ℤ) else (fl.length : ℤ))).sum = 0 :=
        List.sum_eq_zero fun a ha => keep_fill ha
      rw [hzero, Int.zero_tdiv]
  | count =>
    rw [hop] at suff
    refine ⟨fun _ => 0, suff _ (fun fl => fl.length) (fun fl => fl.count true) (fun fl => ?_) (fun fl => ?_)
      (merged_ne ⟨fun fl _ => by exact_mod_cast List.count_le_length, fl₀, hfl₀, ?_⟩)⟩
    · simp [valueOf, length_dataOf_fill]
    · simp [valueOf, length_keep length_dataOf_fill.symm]
    · have := List.count_true_add_count_false fl₀
      exact_mod_cast (by omega : fl₀.count true < fl₀.length)

end Fill

theorem mergeRows_ne_none (e : Aggregate) {vs : List ℤ} (h : vs ≠ []) : mergeRows e.reg none vs ≠ none := by
  have gen : ∀ (vs : List ℤ) (a : ℤ), ∃ x, vs.foldl (mergeInto (Aggregate.op e)) (some a) = some x := by
    intro vs
    induction vs with
    | nil => exact fun a => ⟨a, rfl⟩
    | cons v vs ih => exact fun a => ih _
  cases vs with
  | nil => exact absurd rfl h
  | cons v vs =>
    obtain ⟨x, hx⟩ := gen vs v
    have hx : (v :: vs).foldl (mergeInto (Aggregate.op e)) none = some x := hx
    rw [mergeRows_reg, hx]
    simp

/-! ### When the items are independent -/

/-- the filter flags of the blocks, whatever the values are -/
def flagsOf (blocks : List Rows) : List (List Bool) := blocks.map fun rows => rows.map Prod.snd

theorem flagsOf_fill (g : ℕ → ℤ) (sh : List (List Bool)) : flagsOf (sh.map (fill g)) = sh := by
  simp [flagsOf, Function.comp_def, flags_fill]

/-- the condition under which the items of a query without GROUP BY are independent -/
def PlainIndependent (usingWhere : Bool) (e₁ : Aggregate) (rest : List Aggregate) (sh : List (List Bool)) : Prop :=
  usingWhere = false ∨ (∀ fl ∈ sh, false ∉ fl) ∨
  ((∃ fl ∈ sh, true ∉ fl) ∧ ∀ e ∈ e₁ :: rest, Aggregate.op e = .avg) ∨
  (((∃ fl ∈ sh, true ∉ fl) → ∀ e ∈ e₁ :: rest, Aggregate.op e ≠ .avg) ∧ ∀ e ∈ e₁ :: rest, covered e₁ e = true)

section Plain

variable {nullable : Text → Bool} {usingWhere : Bool} {e₁ : Aggregate} {rest : List Aggregate}

theorem seenRows_self (e : Aggregate) (rows : Rows) : seenRows nullable usingWhere e e rows =
    Aggregation.select (filterOf usingWhere rows) (dataOf (blockRows nullable rows) e) := seen_first e

theorem seenRows_covered {e : Aggregate} (h : covered e₁ e = true) (rows : Rows) :
    seenRows nullable usingWhere e₁ e rows = seenRows nullable usingWhere e e rows := by
  rw [seenRows_self]
  simp [seenRows, seen, h]

theorem seenRows_uncovered {e : Aggregate} (h : covered e₁ e = false) (rows : Rows) :
    seenRows nullable usingWhere e₁ e rows = dataOf (blockRows nullable rows) e := by
  simp [seenRows, seen, h]

theorem length_dataOf_rows (e : Aggregate) (rows : Rows) :
    (dataOf (blockRows nullable rows) e).length = rows.length := by
  rw [length_dataOf (aligned_rows nullable true rows) e]
  simp [blockRows, blockOf]

theorem seenRows_where (e : Aggregate) (rows : Rows) :
    seenRows nullable true e e rows = keep (rows.map Prod.snd) (dataOf (blockRows nullable rows) e) := by
  rw [seenRows_self]
  rfl

theorem length_seenRows_where (e : Aggregate) (rows : Rows) :
    (seenRows nullable true e e rows).length = (rows.map Prod.snd).count true := by
  rw [seenRows_where, length_keep (by rw [length_dataOf_rows, List.length_map])]

/-- an AVG alone fails on the blocks of which no row is passed -/
theorem fails_self_iff {e : Aggregate} {rows : Rows} :
    Fails nullable true e e rows ↔ Aggregate.op e = .avg ∧ true ∉ rows.map Prod.snd := by
  rw [Fails, ← List.length_eq_zero_iff, length_seenRows_where, List.count_eq_zero]

theorem not_fails_uncovered {e : Aggregate} {rows : Rows} (h : covered e₁ e = false) (hrows : rows ≠ []) :
    ¬ Fails nullable usingWhere e₁ e rows := by
  rintro ⟨-, hnil⟩
  rw [seenRows_uncovered h, ← List.length_eq_zero_iff, length_dataOf_rows] at hnil
  exact hrows (List.length_eq_zero_iff.1 hnil)

/-- the response to an item alone -/
theorem returned_single {e : Aggregate} (he : Proper e) (blocks : List Rows) :
    ((∀ rows ∈ blocks, ¬ Fails nullable usingWhere e e rows) →
      returned nullable usingWhere [e] blocks e = mergeRows e.reg none
        (blocks.map fun rows => valueOf (Aggregate.op e) (seenRows nullable usingWhere e e rows))) ∧
    ((∃ rows ∈ blocks, Fails nullable usingWhere e e rows) → returned nullable usingWhere [e] blocks e = none) := by
  have hproper : ∀ e' ∈ [e], Proper e' := by simpa using he
  simpa using responses nullable usingWhere hproper blocks (List.mem_singleton_self e)

/-- where every item sees what it sees alone, and none fails, the query returns what the items alone return -/
theorem returned_of_same (hproper : ∀ e ∈ e₁ :: rest, Proper e) {blocks : List Rows}
    (hsame : ∀ rows ∈ blocks, ∀ e ∈ e₁ :: rest,
      seenRows nullable usingWhere e₁ e rows = seenRows nullable usingWhere e e rows)
    (hok : ∀ rows ∈ blocks, ∀ e ∈ e₁ :: rest, ¬ Fails nullable usingWhere e e rows) :
    ∀ e ∈ e₁ :: rest, returned nullable usingWhere (e₁ :: rest) blocks e =
      returned nullable usingWhere [e] blocks e := by
  intro e he
  have hmulti := (responses nullable usingWhere hproper blocks he).1 fun rows hr e' he' hf =>
    hok rows hr e' he' ⟨hf.1, (hsame rows hr e' he') ▸ hf.2⟩
  have hsingle := (returned_single (hproper e he) blocks).1 fun rows hr => hok rows hr e he
  rw [hmulti, hsingle]
  congr 1
  refine List.map_congr_left fun rows hr => ?_
  rw [hsame rows hr e he]

/-- the condition is enough -/
theorem plain_of_independent (hproper : ∀ e ∈ e₁ :: rest, Proper e) {blocks : List Rows}
    (hblocks : ∀ rows ∈ blocks, rows ≠ []) (h : PlainIndependent usingWhere e₁ rest (flagsOf blocks)) :
    ∀ e ∈ e₁ :: rest, returned nullable usingWhere (e₁ :: rest) blocks e =
      returned nullable usingWhere [e] blocks e := by
  have hflags : ∀ rows ∈ blocks, rows.map Prod.snd ∈ flagsOf blocks := fun rows hr => List.mem_map.2 ⟨rows, hr, rfl⟩
  have hwhole : ∀ rows ∈ blocks, (∀ e, seenRows nullable usingWhere e e rows = dataOf (blockRows nullable rows) e) →
      ∀ e, seenRows nullable usingWhere e₁ e rows = seenRows nullable usingWhere e e rows ∧
        ¬ Fails nullable usingWhere e e rows := by
    intro rows hr hall e
    refine ⟨?_, ?_⟩
    · cases hc : covered e₁ e
      · rw [seenRows_uncovered hc, hall]
      · exact seenRows_covered hc rows
    · rintro ⟨-, hnil⟩
      rw [hall, ← List.length_eq_zero_iff, length_dataOf_rows] at hnil
      exact hblocks rows hr (List.length_eq_zero_iff.1 hnil)
  cases hw : usingWhere with
  | false =>
    subst hw
    have hall : ∀ rows ∈ blocks, ∀ e, seenRows nullable false e e rows = dataOf (blockRows nullable rows) e := by
      intro rows _ e
      rw [seenRows_self]
      rfl
    exact returned_of_same hproper (fun rows hr e _ => (hwhole rows hr (hall rows hr) e).1)
      fun rows hr e _ => (hwhole rows hr (hall rows hr) e).2
  | true =>
    subst hw
    rcases h with h | h | ⟨⟨fl, hfl, hnone⟩, havg⟩ | ⟨havg, hcov⟩
    · exact absurd h (by simp)
    · have hall : ∀ rows ∈ blocks, ∀ e, seenRows nullable true e e rows = dataOf (blockRows nullable rows) e := by
        intro rows hr e
        rw [seenRows_where, keep_all (by rw [length_dataOf_rows, List.length_map])]
        intro p hp
        have hne : p ≠ false := fun heq => h _ (hflags rows hr) (heq ▸ hp)
        simpa using hne
      exact returned_of_same hproper (fun rows hr e _ => (hwhole rows hr (hall rows hr) e).1)
        fun rows hr e _ => (hwhole rows hr (hall rows hr) e).2
    · -- the first AVG fails, and so does each AVG alone
      obtain ⟨rows, hr, rfl⟩ := List.mem_map.1 hfl
      intro e he
      have hfail : ∀ e' ∈ e₁ :: rest, Fails nullable true e' e' rows := fun e' he' =>
        fails_self_iff.2 ⟨havg e' he', hnone⟩
      rw [(responses nullable true hproper blocks he).2 ⟨rows, hr, e₁, List.mem_cons_self, hfail e₁ List.mem_cons_self⟩,
        (returned_single (hproper e he) blocks).2 ⟨rows, hr, hfail e he⟩]
    · refine returned_of_same hproper (fun rows _ e he => seenRows_covered (hcov e he) rows) fun rows hr e he hf => ?_
      obtain ⟨hop, hnone⟩ := fails_self_iff.1 hf
      exact havg ⟨_, hflags rows hr, hnone⟩ e he hop

theorem mem_fill_blocks {g : ℕ → ℤ} {sh : List (List Bool)} {rows : Rows} (h : rows ∈ sh.map (fill g)) :
    ∃ fl ∈ sh, rows = fill g fl ∧ rows.map Prod.snd = fl := by
  obtain ⟨fl, hfl, rfl⟩ := List.mem_map.1 h
  exact ⟨fl, hfl, rfl, flags_fill⟩

/-- the condition is needed: an item fails alone that does not fail in the query, or the other way round, or the values
of the rows that are not passed show -/
theorem independent_of_plain (hproper : ∀ e ∈ e₁ :: rest, Proper e) {sh : List (List Bool)}
    (hsh : ∀ fl ∈ sh, fl ≠ [])
    (h : ∀ g, ∀ e ∈ e₁ :: rest, returned nullable true (e₁ :: rest) (sh.map (fill g)) e =
      returned nullable true [e] (sh.map (fill g)) e)
    (hpass : ∃ fl ∈ sh, false ∈ fl) :
    ((∃ fl ∈ sh, true ∉ fl) ∧ ∀ e ∈ e₁ :: rest, Aggregate.op e = .avg) ∨
    (((∃ fl ∈ sh, true ∉ fl) → ∀ e ∈ e₁ :: rest, Aggregate.op e ≠ .avg) ∧ ∀ e ∈ e₁ :: rest, covered e₁ e = true) := by
  have hne : ∀ g, sh.map (fill g) ≠ [] := by
    obtain ⟨fl, hfl, -⟩ := hpass
    intro g hnil
    rw [List.map_eq_nil_iff.1 hnil] at hfl
    simp at hfl
  by_cases hE : (∃ fl ∈ sh, true ∉ fl) ∧ ∃ a ∈ e₁ :: rest, Aggregate.op a = .avg
  · obtain ⟨⟨fl, hfl, hnone⟩, a, ha, hopa⟩ := hE
    refine .inl ⟨⟨fl, hfl, hnone⟩, fun e he => ?_⟩
    by_contra hop
    set blocks := sh.map (fill fun _ => 0) with hblocks
    have hrows : fill (fun _ => 0) fl ∈ blocks := List.mem_map.2 ⟨fl, hfl, rfl⟩
    have haNone : returned nullable true [a] blocks a = none :=
      (returned_single (hproper a ha) blocks).2 ⟨_, hrows, fails_self_iff.2 ⟨hopa, by rwa [flags_fill]⟩⟩
    have heSome : returned nullable true [e] blocks e ≠ none := by
      rw [(returned_single (hproper e he) blocks).1 fun rows _ hf => hop (fails_self_iff.1 hf).1]
      exact mergeRows_ne_none e (by simpa [hblocks] using hne fun _ => 0)
    by_cases hf : ∃ rows ∈ blocks, ∃ e' ∈ e₁ :: rest, Fails nullable true e₁ e' rows
    · refine heSome ?_
      rw [← h _ e he]
      exact (responses nullable true hproper blocks he).2 hf
    · push Not at hf
      have haSome := (responses nullable true hproper blocks ha).1 hf
      rw [h _ a ha, haNone] at haSome
      exact mergeRows_ne_none a (by simpa [hblocks] using hne fun _ => 0) haSome.symm
  · have havg : (∃ fl ∈ sh, true ∉ fl) → ∀ e ∈ e₁ :: rest, Aggregate.op e ≠ .avg :=
      fun hex e he hop => hE ⟨hex, e, he, hop⟩
    refine .inr ⟨havg, fun e he => ?_⟩
    by_contra hcov
    have hcov : covered e₁ e = false := by simpa using hcov
    obtain ⟨g, hg⟩ := fill_ne nullable sh e hpass
    have hself : ∀ rows ∈ sh.map (fill g), ∀ e' ∈ e₁ :: rest, ¬ Fails nullable true e' e' rows := by
      intro rows hr e' he' hf
      obtain ⟨fl, hfl, -, hfl'⟩ := mem_fill_blocks hr
      obtain ⟨hop, hnone⟩ := fails_self_iff.1 hf
      exact havg ⟨fl, hfl, hfl' ▸ hnone⟩ e' he' hop
    have hmulti := (responses nullable true hproper (sh.map (fill g)) he).1 (by
      intro rows hr e' he'
      cases hc : covered e₁ e'
      · refine not_fails_uncovered hc fun hnil => ?_
        obtain ⟨fl, hfl, -, hfl'⟩ := mem_fill_blocks hr
        exact hsh fl hfl (by rw [← hfl', hnil]; rfl)
      · rintro ⟨hop, hnil⟩
        exact hself rows hr e' he' ⟨hop, (seenRows_covered hc rows) ▸ hnil⟩)
    have hsingle := (returned_single (hproper e he) (sh.map (fill g))).1 fun rows hr => hself rows hr e he
    rw [h g e he, hsingle, List.map_map, List.map_map] at hmulti
    refine hg ?_
    refine Eq.trans ?_ (hmulti.symm.trans ?_)
    · congr 1
      refine List.map_congr_left fun fl _ => ?_
      simp [seenRows_uncovered hcov]
    · congr 1
      refine List.map_congr_left fun fl _ => ?_
      simp [seenRows_where, flags_fill]

end Plain

end QikkDB.SelectItems

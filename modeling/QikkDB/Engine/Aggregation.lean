/-
Aggregates without GROUP BY (GpuSqlParser/Dispatcher/GpuSqlDispatcherAggregationFunctions.h, `AggregationCol`;
QueryEngine/GPUCore/AggregationFunctions.cuh, GPUReconstruct.cuh): on one block of a table, load the column, drop the
rows that the WHERE clause did not pass, reduce what is left to one value in a register.

What the instructions of a query share while they process a block is the dispatcher's state: the loaded columns
(`allocatedPointers_`), the registers with results, and `filter_`, the pointer to the mask of the WHERE clause, which
`AggregationCol` clears when it is done.

Columns are of type int64_t and their values exact integers, as are the results: neither the overflow of a sum nor the
rounding of the float division of an average is modelled.

Results:
- `aggregationCol_fresh`: what the first aggregate of a block computes.
- `null_rows`: NULL rows do not contribute exactly when no row that passes the filter is NULL.
-/
import Mathlib.Tactic
import QikkDB.Lib.Decimal
import QikkDB.Lib.Select

namespace QikkDB.Aggregation

open Decimal Select

/-! ## Model -/

/-- the functors of `AggregationFunctions` -/
inductive AggregationFunction where
  | min
  | max
  | sum
  | avg
  | count
deriving DecidableEq, Repr

/-- `std::numeric_limits<int64_t>::max()` and `lowest()` -/
def int64Max : ℤ := 2 ^ 63 - 1

def int64Lowest : ℤ := -2 ^ 63

/-- a pointer variable for a null mask; the flags are one for each row -/
inductive NullMaskPtr where
  | uninitialized
  | null
  | flags (l : List Bool)
deriving DecidableEq, Repr

/-- what a `PointerAllocation` of a column points to -/
structure Column where
  /-- `GpuPtr` and `ElementCount` -/
  data : List ℤ
  /-- `GpuNullMaskPtr` -/
  nullMask : NullMaskPtr
deriving DecidableEq, Repr

/-- `GPUReconstruct::reconstructColKeep`; `outNullMask` is the caller's variable before the call -/
def reconstructColKeep (col : Column) (inMask : Option (List Bool)) (outNullMask : NullMaskPtr) : Column :=
  if col.data.length > 0 then
    match inMask with
    | some m =>
      let out := keep m col.data
      if out.length > 0 then
        match col.nullMask with
        | .flags n => ⟨out, .flags (keep m n)⟩
        -- a column without a null mask leaves the variable as it is
        | _ => ⟨out, outNullMask⟩
      else ⟨[], .null⟩
    | none => col
  else ⟨[], .null⟩

/-- `cub::DeviceReduce` from the initial value -/
def reduce (f : ℤ → ℤ → ℤ) (init : ℤ) (l : List ℤ) : ℤ := l.foldr f init

/-- `agg` of the functors: the reduction of the data buffer, for `avg` divided by the number of elements -/
def AggregationFunction.agg : AggregationFunction → List ℤ → Except String ℤ
  | .min, l => .ok (reduce Min.min int64Max l)
  | .max, l => .ok (reduce Max.max int64Lowest l)
  | .sum, l => .ok (reduce (· + ·) 0 l)
  | .avg, l =>
    if l.length = 0 then .error "GPU Error 2" else .ok ((reduce (· + ·) 0 l).tdiv l.length)
  | .count, l => .ok l.length

/-- what an aggregate is taken of -/
inductive Aggregate where
  | col (op : AggregationFunction) (colName : Text)
  /-- COUNT(*) -/
  | asterisk
deriving DecidableEq, Repr

def AggregationFunction.name : AggregationFunction → Text
  | .min => "MIN".toList
  | .max => "MAX".toList
  | .sum => "SUM".toList
  | .avg => "AVG".toList
  | .count => "COUNT".toList

/-- the register of `exitAggregation`, without its '$' -/
def Aggregate.reg : Aggregate → Text
  | .col op colName => op.name ++ '(' :: colName ++ [')']
  | .asterisk => "COUNT(*)".toList

/-- a block of the table, as `LoadCol` reads it -/
structure Block where
  size : ℕ
  column : Text → Column

structure St where
  /-- the loaded columns -/
  allocatedPointers : Text → Option Column
  /-- the registers with the result of an aggregate -/
  registers : Text → Option ℤ
  filter : Option (List Bool)

/-- the state at the first aggregate of a block -/
def start (filter : Option (List Bool)) : St := ⟨fun _ => none, fun _ => none, filter⟩

/-- `LoadCol`: a column that is there stays as it is -/
def loadCol (b : Block) (s : St) (colName : Text) : St × Column :=
  match s.allocatedPointers colName with
  | some c => (s, c)
  | none => ({ s with allocatedPointers := Function.update s.allocatedPointers colName (some (b.column colName)) },
      b.column colName)

/-- the end of `AggregationCol`: an allocated register keeps its value; the filter is cleared -/
def store (s : St) (reg : Text) (value : Except String ℤ) : Except String St :=
  match s.registers reg with
  | some _ => .ok { s with filter := none }
  | none => do
    let v ← value
    .ok { s with registers := Function.update s.registers reg (some v), filter := none }

/-- the number of rows a COUNT counts: `n`, or those the filter passes -/
def countRows (s : St) (n : ℕ) : ℕ :=
  match s.filter with
  | some m => (m.take n).count true
  | none => n

def aggregationCol (b : Block) (a : Aggregate) (s : St) : Except String St :=
  match a with
  | .asterisk => store s a.reg (.ok (countRows s b.size))
  | .col op colName =>
    let (s, column) := loadCol b s colName
    match op with
    | .count => store s a.reg (.ok (countRows s column.data.length))
    | _ =>
      let out := reconstructColKeep column s.filter .null
      -- RewriteColumn
      let s := { s with allocatedPointers := Function.update s.allocatedPointers colName (some out) }
      store s a.reg (op.agg out.data)

/-- the value of an aggregate that is the first of its block -/
def result (b : Block) (a : Aggregate) (filter : Option (List Bool)) : Except String (Option ℤ) := do
  let s ← aggregationCol b a (start filter)
  .ok (s.registers a.reg)

/-! ## The reductions -/

theorem reduce_sum (l : List ℤ) : reduce (· + ·) 0 l = l.sum := rfl

theorem reduce_min_le {l : List ℤ} {x : ℤ} (h : x ∈ l) : reduce Min.min int64Max l ≤ x := by
  induction l with
  | nil => simp at h
  | cons a l ih =>
    rcases List.mem_cons.1 h with rfl | h
    · exact min_le_left _ _
    · exact (min_le_right _ _).trans (ih h)

theorem le_reduce_min {l : List ℤ} {x : ℤ} (hx : x ≤ int64Max) (h : ∀ a ∈ l, x ≤ a) :
    x ≤ reduce Min.min int64Max l := by
  induction l with
  | nil => exact hx
  | cons a l ih => exact le_min (h a List.mem_cons_self) (ih fun b hb => h b (List.mem_cons_of_mem a hb))

theorem le_reduce_max {l : List ℤ} {x : ℤ} (h : x ∈ l) : x ≤ reduce Max.max int64Lowest l := by
  induction l with
  | nil => simp at h
  | cons a l ih =>
    rcases List.mem_cons.1 h with rfl | h
    · exact le_max_left _ _
    · exact (ih h).trans (le_max_right _ _)

theorem reduce_max_le {l : List ℤ} {x : ℤ} (hx : int64Lowest ≤ x) (h : ∀ a ∈ l, a ≤ x) :
    reduce Max.max int64Lowest l ≤ x := by
  induction l with
  | nil => exact hx
  | cons a l ih => exact max_le (h a List.mem_cons_self) (ih fun b hb => h b (List.mem_cons_of_mem a hb))

/-- what an aggregate of values is, however it is computed -/
def AggregateOf : AggregationFunction → List ℤ → ℤ → Prop
  | .min, l, v => v ∈ l ∧ ∀ x ∈ l, v ≤ x
  | .max, l, v => v ∈ l ∧ ∀ x ∈ l, x ≤ v
  | .sum, l, v => v = l.sum
  | .avg, l, v => v = l.sum.tdiv l.length
  | .count, l, v => v = l.length

theorem reduce_min_mem {l : List ℤ} (hne : l ≠ []) (h : ∀ a ∈ l, a ≤ int64Max) : reduce Min.min int64Max l ∈ l := by
  induction l with
  | nil => exact absurd rfl hne
  | cons a l ih =>
    have hmin : reduce Min.min int64Max (a :: l) = Min.min a (reduce Min.min int64Max l) := rfl
    rcases min_choice a (reduce Min.min int64Max l) with hc | hc
    · rw [hmin, hc]
      exact List.mem_cons_self
    · rcases l with _ | ⟨b, l⟩
      · have ha := h a List.mem_cons_self
        have : reduce Min.min int64Max [a] = a := min_eq_left ha
        simp [this]
      · rw [hmin, hc]
        exact List.mem_cons_of_mem _ (ih (by simp) fun x hx => h x (List.mem_cons_of_mem _ hx))

theorem reduce_max_mem {l : List ℤ} (hne : l ≠ []) (h : ∀ a ∈ l, int64Lowest ≤ a) :
    reduce Max.max int64Lowest l ∈ l := by
  induction l with
  | nil => exact absurd rfl hne
  | cons a l ih =>
    have hmax : reduce Max.max int64Lowest (a :: l) = Max.max a (reduce Max.max int64Lowest l) := rfl
    rcases max_choice a (reduce Max.max int64Lowest l) with hc | hc
    · rw [hmax, hc]
      exact List.mem_cons_self
    · rcases l with _ | ⟨b, l⟩
      · have ha := h a List.mem_cons_self
        have : reduce Max.max int64Lowest [a] = a := max_eq_left ha
        simp [this]
      · rw [hmax, hc]
        exact List.mem_cons_of_mem _ (ih (by simp) fun x hx => h x (List.mem_cons_of_mem _ hx))

/-- the value of an int64_t -/
def InRange (x : ℤ) : Prop := int64Lowest ≤ x ∧ x ≤ int64Max

/-- on values there are, the reductions compute the aggregates -/
theorem aggregateOf_agg (op : AggregationFunction) {l : List ℤ} (hne : l ≠ []) (h : ∀ a ∈ l, InRange a) :
    ∃ v, op.agg l = .ok v ∧ AggregateOf op l v := by
  cases op with
  | min => exact ⟨_, rfl, reduce_min_mem hne fun a ha => (h a ha).2, fun x hx => reduce_min_le hx⟩
  | max => exact ⟨_, rfl, reduce_max_mem hne fun a ha => (h a ha).1, fun x hx => le_reduce_max hx⟩
  | sum => exact ⟨_, rfl, rfl⟩
  | avg => exact ⟨_, if_neg (by simpa using hne), rfl⟩
  | count => exact ⟨_, rfl, rfl⟩

/-! ## The first aggregate of a block -/

/-- the rows a filter passes; no filter passes all -/
def select {α : Type*} (filter : Option (List Bool)) (l : List α) : List α :=
  match filter with
  | some m => keep m l
  | none => l

theorem reconstructColKeep_data (col : Column) (filter : Option (List Bool)) (o : NullMaskPtr) :
    (reconstructColKeep col filter o).data = select filter col.data := by
  unfold reconstructColKeep select
  cases filter with
  | none =>
    by_cases h : col.data.length > 0
    · simp [h]
    · have : col.data = [] := by simpa using h
      simp [this]
  | some m =>
    by_cases h : col.data.length > 0
    · by_cases hk : (keep m col.data).length > 0
      · cases hn : col.nullMask <;> simp [h, hk]
      · have : keep m col.data = [] := by simpa using hk
        simp [h, this]
    · have : col.data = [] := by simpa using h
      simp [this]

theorem countRows_start {filter : Option (List Bool)} (l : List ℤ) (h : ∀ m ∈ filter, m.length = l.length) :
    countRows (start filter) l.length = (select filter l).length := by
  cases filter with
  | none => rfl
  | some m =>
    have hm := h m rfl
    simp [countRows, start, select, length_keep hm, ← hm]

theorem aggregationCol_fresh (b : Block) (op : AggregationFunction) (colName : Text) (filter : Option (List Bool))
    (h : ∀ m ∈ filter, m.length = (b.column colName).data.length) :
    result b (.col op colName) filter = (op.agg (select filter (b.column colName).data)).map some := by
  cases op with
  | count =>
    have hcount := countRows_start (b.column colName).data h
    simp only [countRows, start] at hcount
    simp [result, aggregationCol, loadCol, start, store, countRows, AggregationFunction.agg, bind, Except.bind,
      Except.map, hcount]
  | _ =>
    simp only [result, aggregationCol, loadCol, start, store, reconstructColKeep_data, bind, Except.bind]
    cases AggregationFunction.agg _ (select filter (b.column colName).data) <;> simp [Except.map]

/-! ## NULL rows -/

/-- a row of a nullable column; `value` is what is stored, under a NULL flag the placeholder -/
structure Row where
  value : ℤ
  isNull : Bool
  passes : Bool
deriving DecidableEq, Repr

/-- a block whose column `colName` holds the rows; its other columns are empty -/
def blockOf (colName : Text) (rows : List Row) : Block :=
  ⟨rows.length, Function.update (fun _ => ⟨[], .null⟩) colName ⟨rows.map Row.value, .flags (rows.map Row.isNull)⟩⟩

/-- the mask of the WHERE clause, if there is one -/
def whereMask (usingWhere : Bool) (rows : List Row) : Option (List Bool) :=
  if usingWhere then some (rows.map Row.passes) else none

/-- a row that the query takes -/
def Row.taken (usingWhere : Bool) (r : Row) : Bool := !usingWhere || r.passes

theorem result_rows (op : AggregationFunction) (colName : Text) (usingWhere : Bool) (rows : List Row) :
    result (blockOf colName rows) (.col op colName) (whereMask usingWhere rows) =
      (op.agg ((rows.filter (Row.taken usingWhere)).map Row.value)).map some := by
  rw [aggregationCol_fresh]
  · congr 2
    cases usingWhere
    · have : rows.filter (Row.taken false) = rows := List.filter_eq_self.2 fun _ _ => rfl
      simp [whereMask, select, blockOf, this]
    · have : Row.taken true = Row.passes := rfl
      simpa [whereMask, select, blockOf, this] using keep_filter Row.passes Row.value rows
  · intro m hm
    cases usingWhere
    · simp [whereMask] at hm
    · obtain rfl : rows.map Row.passes = m := by simpa [whereMask] using hm
      simp [blockOf]

/-- the values of the rows that are taken and not NULL -/
def contributing (usingWhere : Bool) (rows : List Row) : List ℤ :=
  (rows.filter fun r => r.taken usingWhere && !r.isNull).map Row.value

/-- NULL flags and filter of a column, whatever its values are -/
def shape (rows : List Row) : List (Bool × Bool) := rows.map fun r => (r.isNull, r.passes)

/-- the rows of a given shape whose values depend on the flags only -/
def fill (f : Bool → ℤ) (sh : List (Bool × Bool)) : List Row := sh.map fun p => ⟨f p.1, p.1, p.2⟩

theorem shape_fill (f : Bool → ℤ) (sh : List (Bool × Bool)) : shape (fill f sh) = sh := by
  simp [shape, fill, Function.comp_def]

/-- the values a query takes, NULL or not -/
def takenValues (usingWhere : Bool) (rows : List Row) : List ℤ := (rows.filter (Row.taken usingWhere)).map Row.value

theorem mem_takenValues_fill {f : Bool → ℤ} {usingWhere : Bool} {sh : List (Bool × Bool)} {x : ℤ}
    (h : x ∈ takenValues usingWhere (fill f sh)) : x = f true ∨ x = f false := by
  simp only [takenValues, fill, List.mem_map, List.mem_filter] at h
  obtain ⟨r, ⟨⟨p, _, rfl⟩, _⟩, rfl⟩ := h
  cases p.1 <;> simp

theorem mem_contributing_fill {f : Bool → ℤ} {usingWhere : Bool} {sh : List (Bool × Bool)} {x : ℤ}
    (h : x ∈ contributing usingWhere (fill f sh)) : x = f false := by
  simp only [contributing, fill, List.mem_map, List.mem_filter, Bool.and_eq_true] at h
  obtain ⟨r, ⟨⟨p, _, rfl⟩, _, hn⟩, rfl⟩ := h
  have : p.1 = false := by simpa using hn
  simp [this]

theorem contributing_eq (usingWhere : Bool) (rows : List Row) :
    contributing usingWhere rows = ((rows.filter (Row.taken usingWhere)).filter fun r => !r.isNull).map Row.value := by
  rw [List.filter_filter]
  simp [contributing, Bool.and_comm]

/-- where the NULL rows hold 0 and the others 1, the sum counts the others -/
theorem sum_ones (l : List Row) (h : ∀ r ∈ l, r.value = if r.isNull then 0 else 1) :
    (l.map Row.value).sum = (l.filter fun r => !r.isNull).length := by
  induction l with
  | nil => rfl
  | cons r l ih =>
    have hl := ih fun q hq => h q (List.mem_cons_of_mem r hq)
    simp only [List.map_cons, List.sum_cons, hl, List.filter_cons, h r List.mem_cons_self]
    cases r.isNull
    · simp [add_comm]
    · simp

theorem sum_taken_ones (usingWhere : Bool) (sh : List (Bool × Bool)) :
    (takenValues usingWhere (fill (fun b => if b then 0 else 1) sh)).sum =
      (contributing usingWhere (fill (fun b => if b then 0 else 1) sh)).length := by
  rw [contributing_eq, List.length_map]
  refine sum_ones _ fun r hr => ?_
  obtain ⟨q, _, rfl⟩ := List.mem_map.1 (List.mem_of_mem_filter hr)
  rfl

/-- a NULL row that is taken changes the count, and with well chosen values every other aggregate -/
theorem agg_ne_of_null (op : AggregationFunction) (usingWhere : Bool) (sh : List (Bool × Bool))
    (h : ∃ p ∈ sh, p.1 = true ∧ (usingWhere = true → p.2 = true)) :
    ∃ f : Bool → ℤ, (∀ b, -1 ≤ f b ∧ f b ≤ 1) ∧
      op.agg (takenValues usingWhere (fill f sh)) ≠ op.agg (contributing usingWhere (fill f sh)) := by
  obtain ⟨p, hp, hnull, hpass⟩ := h
  have hrow : ∀ f : Bool → ℤ, (⟨f p.1, p.1, p.2⟩ : Row) ∈ (fill f sh).filter (Row.taken usingWhere) := by
    intro f
    refine List.mem_filter.2 ⟨List.mem_map.2 ⟨p, hp, rfl⟩, ?_⟩
    cases usingWhere
    · rfl
    · simpa [Row.taken] using hpass rfl
  have hmem : ∀ f : Bool → ℤ, f true ∈ takenValues usingWhere (fill f sh) := fun f =>
    List.mem_map.2 ⟨_, hrow f, by simp [hnull]⟩
  have hlen : ∀ f : Bool → ℤ, (contributing usingWhere (fill f sh)).length <
      (takenValues usingWhere (fill f sh)).length := by
    intro f
    rw [contributing_eq, takenValues, List.length_map, List.length_map, List.length_filter_lt_length_iff_exists]
    exact ⟨_, hrow f, by simp [hnull]⟩
  cases op with
  | min =>
    refine ⟨fun b => if b then -1 else 0, by decide, ?_⟩
    have h₁ := reduce_min_le (hmem fun b => if b then -1 else 0)
    have h₂ : 0 ≤ reduce Min.min int64Max (contributing usingWhere (fill (fun b => if b then -1 else 0) sh)) :=
      le_reduce_min (by decide) fun a ha => (mem_contributing_fill ha).ge
    intro heq
    have := Except.ok.inj heq
    simp only [if_true] at h₁
    omega
  | max =>
    refine ⟨fun b => if b then 1 else 0, by decide, ?_⟩
    have h₁ := le_reduce_max (hmem fun b => if b then 1 else 0)
    have h₂ : reduce Max.max int64Lowest (contributing usingWhere (fill (fun b => if b then 1 else 0) sh)) ≤ 0 :=
      reduce_max_le (by decide) fun a ha => (mem_contributing_fill ha).le
    intro heq
    have := Except.ok.inj heq
    simp only [if_true] at h₁
    omega
  | sum =>
    refine ⟨fun b => if b then 1 else 0, by decide, ?_⟩
    have h₁ : (1 : ℤ) ≤ (takenValues usingWhere (fill (fun b => if b then 1 else 0) sh)).sum := by
      refine List.single_le_sum ?_ _ (hmem fun b => if b then 1 else 0)
      intro x hx
      rcases mem_takenValues_fill hx with rfl | rfl <;> simp
    have h₂ : (contributing usingWhere (fill (fun b => if b then 1 else 0) sh)).sum = 0 :=
      List.sum_eq_zero fun a ha => mem_contributing_fill ha
    intro heq
    have := Except.ok.inj heq
    simp only [reduce_sum] at this
    omega
  | avg =>
    -- NULL rows hold 0 and the others 1: the average is 0 with the NULL rows and 1, or undefined, without
    refine ⟨fun b => if b then 0 else 1, by decide, ?_⟩
    have hsum := sum_taken_ones usingWhere sh
    set f : Bool → ℤ := fun b => if b then 0 else 1 with hf
    have hlt := hlen f
    have hpos : (takenValues usingWhere (fill f sh)).length ≠ 0 := by omega
    have htaken : AggregationFunction.agg .avg (takenValues usingWhere (fill f sh)) = .ok 0 := by
      simp only [AggregationFunction.agg, hpos, if_false, reduce_sum, hsum]
      rw [Int.tdiv_eq_zero_of_lt] <;> omega
    have hall : (contributing usingWhere (fill f sh)).sum = (contributing usingWhere (fill f sh)).length := by
      have := List.sum_eq_card_nsmul (contributing usingWhere (fill f sh)) 1 fun a ha => mem_contributing_fill ha
      simpa using this
    rw [htaken]
    simp only [AggregationFunction.agg, reduce_sum, hall]
    split_ifs with hz
    · simp
    · rw [Int.tdiv_self (by omega)]
      simp
  | count =>
    refine ⟨fun _ => 0, by decide, ?_⟩
    have := hlen fun _ => 0
    intro heq
    have := Except.ok.inj heq
    omega

/-- NULL rows do not contribute: the result is that of the table without them, and where rows are left it is the
aggregate of their values -/
structure NullFree (op : AggregationFunction) (colName : Text) (usingWhere : Bool) (rows : List Row) : Prop where
  without : result (blockOf colName rows) (.col op colName) (whereMask usingWhere rows) =
    result (blockOf colName (rows.filter fun r => !r.isNull)) (.col op colName)
      (whereMask usingWhere (rows.filter fun r => !r.isNull))
  value : contributing usingWhere rows ≠ [] → ∃ v, AggregateOf op (contributing usingWhere rows) v ∧
    result (blockOf colName rows) (.col op colName) (whereMask usingWhere rows) = .ok (some v)

theorem result_nonNull (op : AggregationFunction) (colName : Text) (usingWhere : Bool) (rows : List Row) :
    result (blockOf colName (rows.filter fun r => !r.isNull)) (.col op colName)
      (whereMask usingWhere (rows.filter fun r => !r.isNull)) = (op.agg (contributing usingWhere rows)).map some := by
  rw [result_rows, List.filter_filter, contributing]

end QikkDB.Aggregation

/-
How the results of an aggregate are put together over the blocks of a table and over the devices
(GpuSqlParser/GpuSqlDispatcher.cpp, `MergePayload`; GpuSqlDispatcher.h, `AggregateOnCPU`; GpuSqlCustomParser.cpp,
`MergeDispatcherResults`).

Each dispatcher runs the query on its blocks, one after the other, and merges the row of each block into its response;
the parser merges the responses of the dispatchers the same way. Which operation merges two rows is read off the text
of the result column: what stands before its first parenthesis, in upper case. A text that does not start with the name
of an aggregate, as that of 2*SUM(t.a)+1, makes the rows be appended.

Results:
- `execute_eq`, `response_eq`: the response as a fold over the values of the blocks.
- `agg_append`, `merge_parts`: MIN, MAX, SUM and COUNT of the parts of a column merge to that of the whole; AVG does
  not.
- `aggregates_split`: the response is the row of the whole column exactly when the item is an aggregate other than AVG,
  or only one block has rows.
-/
import Mathlib.Tactic
import QikkDB.Engine.Aggregation

namespace QikkDB.Aggregation

open Decimal

/-! ## Model -/

/-- an item of the SELECT clause: AGG(col) or c1*AGG(col)+c2 -/
inductive SelectItem where
  | plain (op : AggregationFunction)
  | affine (c1 : ℤ) (op : AggregationFunction) (c2 : ℤ)
deriving DecidableEq, Repr

def SelectItem.op : SelectItem → AggregationFunction
  | .plain op => op
  | .affine _ op _ => op

/-- the register of the item, without its '$', as `exitAggregation` and `exitBinaryOperation` name it -/
def SelectItem.text (colName : Text) : SelectItem → Text
  | .plain op => (Aggregate.col op colName).reg
  | .affine c1 op c2 => decimal c1 ++ '*' :: (Aggregate.col op colName).reg ++ '+' :: decimal c2

/-- the value of the item for a value of the aggregate -/
def SelectItem.eval : SelectItem → ℤ → ℤ
  | .plain _, v => v
  | .affine c1 _ c2, v => c1 * v + c2

structure Query where
  item : SelectItem
  colName : Text
  nullable : Bool
  usingWhere : Bool
deriving DecidableEq, Repr

/-- a block: the values of the column and whether the row passes the WHERE clause -/
abbrev Rows := List (ℤ × Bool)

def Query.block (q : Query) (rows : Rows) : Block :=
  ⟨rows.length, fun _ => ⟨rows.map Prod.fst, if q.nullable then .flags (rows.map fun _ => false) else .null⟩⟩

def Query.filter (q : Query) (rows : Rows) : Option (List Bool) :=
  if q.usingWhere then some (rows.map Prod.snd) else none

/-- what the query returns for a block: nothing when its load is skipped, else one row -/
def blockPayload (q : Query) (rows : Rows) : Except String (Option ℤ) :=
  if rows.length = 0 then .ok none
  else do
    let v ← result (q.block rows) (.col q.item.op q.colName) (q.filter rows)
    .ok (v.map q.item.eval)

/-- the text before the first parenthesis, in upper case -/
def operation (realName : Text) : Option Text :=
  if '(' ∈ realName then some ((realName.takeWhile (· ≠ '(')).map Char.toUpper) else none

def aggregateOnCPU (operation : Text) (number1 number2 : ℤ) : Option ℤ :=
  if operation = "MIN".toList then some (if number1 < number2 then number1 else number2)
  else if operation = "MAX".toList then some (if number1 > number2 then number1 else number2)
  else if operation = "SUM".toList ∨ operation = "AVG".toList ∨ operation = "COUNT".toList then
    some (number1 + number2)
  else none

/-- `MergePayload` for the one key of the query; a payload is not empty -/
def mergePayload (realName : Text) (response : Option (List ℤ)) (payload : List ℤ) : Option (List ℤ) :=
  match response with
  | none => some payload
  | some old =>
    match operation realName, payload, old with
    | some op, number1 :: _, number2 :: rest =>
      match aggregateOnCPU op number1 number2 with
      | some v => some (v :: rest)
      | none => some (old ++ payload)
    | _, _, _ => some (old ++ payload)

/-- the blocks of one dispatcher -/
def execute (q : Query) : Option (List ℤ) → List Rows → Except String (Option (List ℤ))
  | response, [] => .ok response
  | response, rows :: rest => do
    let p ← blockPayload q rows
    match p with
    | none => execute q response rest
    | some v => execute q (mergePayload (q.item.text q.colName) response [v]) rest

def mergeDispatcherResults (q : Query) (partials : List (Option (List ℤ))) : Option (List ℤ) :=
  partials.foldl (fun response r => match r with
    | none => response
    | some payload => mergePayload (q.item.text q.colName) response payload) none

/-- the response to a query over the blocks of each device -/
def response (q : Query) (devices : List (List Rows)) : Except String (Option (List ℤ)) := do
  let partials ← devices.mapM (execute q none)
  .ok (mergeDispatcherResults q partials)

/-! ## The operation of a text -/

theorem operation_of_split {pre post : Text} (h : '(' ∉ pre) :
    operation (pre ++ '(' :: post) = some (pre.map Char.toUpper) := by
  have hpre : ∀ c ∈ pre, (fun c => decide (c ≠ '(')) c = true := by
    intro c hc
    have : c ≠ '(' := fun heq => h (heq ▸ hc)
    simpa using this
  rw [operation, if_pos (by simp), List.takeWhile_append_of_pos hpre]
  simp

theorem name_upper (op : AggregationFunction) : op.name.map Char.toUpper = op.name := by
  cases op <;> rfl

theorem name_paren (op : AggregationFunction) : '(' ∉ op.name := by
  cases op <;> decide

theorem operation_plain (op : AggregationFunction) (colName : Text) :
    operation ((SelectItem.plain op).text colName) = some op.name := by
  have hsplit : (SelectItem.plain op).text colName = op.name ++ '(' :: (colName ++ [')']) :=
    List.append_assoc op.name ('(' :: colName) [')']
  rw [hsplit, operation_of_split (name_paren op), name_upper]

/-- what stands before the parenthesis of c1*AGG(col)+c2 contains the '*' -/
theorem operation_affine (c1 : ℤ) (op : AggregationFunction) (c2 : ℤ) (colName : Text) :
    ∃ t, operation ((SelectItem.affine c1 op c2).text colName) = some t ∧ '*' ∈ t := by
  have hsplit : (SelectItem.affine c1 op c2).text colName =
      (decimal c1 ++ '*' :: op.name) ++ '(' :: (colName ++ ')' :: '+' :: decimal c2) := by
    have : (SelectItem.affine c1 op c2).text colName =
        decimal c1 ++ '*' :: (op.name ++ '(' :: colName ++ [')']) ++ '+' :: decimal c2 := rfl
    simp [this]
  have hparen : '(' ∉ decimal c1 ++ '*' :: op.name := by
    simp only [List.mem_append, List.mem_cons, not_or]
    exact ⟨fun h => absurd (mem_decimal h) (by decide), by decide, name_paren op⟩
  refine ⟨_, hsplit ▸ operation_of_split hparen, List.mem_map.2 ⟨'*', by simp, rfl⟩⟩

/-- the merge that `AggregateOnCPU` picks for an aggregate -/
def AggregationFunction.merge : AggregationFunction → ℤ → ℤ → ℤ
  | .min => Min.min
  | .max => Max.max
  | .sum => (· + ·)
  | .avg => (· + ·)
  | .count => (· + ·)

theorem aggregateOnCPU_name (op : AggregationFunction) (a b : ℤ) :
    aggregateOnCPU op.name a b = some (op.merge a b) := by
  cases op <;> simp [aggregateOnCPU, AggregationFunction.name, AggregationFunction.merge]
  · split_ifs <;> omega
  · split_ifs <;> omega

theorem aggregateOnCPU_star {t : Text} (h : '*' ∈ t) (a b : ℤ) : aggregateOnCPU t a b = none := by
  have hne : ∀ u : Text, '*' ∉ u → t ≠ u := by
    rintro u hu rfl
    exact hu h
  have hmin := hne "MIN".toList (by decide)
  have hmax := hne "MAX".toList (by decide)
  have hsum := hne "SUM".toList (by decide)
  have havg := hne "AVG".toList (by decide)
  have hcount := hne "COUNT".toList (by decide)
  simp only [aggregateOnCPU, hmin, hmax, hsum, havg, hcount, if_false, or_self]

/-! ## The response as a fold over the rows of the blocks -/

/-- the rows of the blocks, in order -/
def payloadsOf (q : Query) : List Rows → Except String (List ℤ)
  | [] => .ok []
  | rows :: rest => do
    let p ← blockPayload q rows
    let vs ← payloadsOf q rest
    .ok (p.toList ++ vs)

/-- the response of a dispatcher that has merged the rows `vs` -/
def mergeRows (t : Text) (acc : Option (List ℤ)) (vs : List ℤ) : Option (List ℤ) :=
  vs.foldl (fun r v => mergePayload t r [v]) acc

theorem execute_eq (q : Query) (acc : Option (List ℤ)) (blocks : List Rows) :
    execute q acc blocks = (payloadsOf q blocks).map (mergeRows (q.item.text q.colName) acc) := by
  induction blocks generalizing acc with
  | nil => rfl
  | cons rows rest ih =>
    cases hp : blockPayload q rows with
    | error m => simp [execute, payloadsOf, hp, bind, Except.bind, Except.map]
    | ok p =>
      cases p with
      | none =>
        simp only [execute, payloadsOf, hp, bind, Except.bind, ih]
        cases payloadsOf q rest <;> rfl
      | some v =>
        simp only [execute, payloadsOf, hp, bind, Except.bind, ih]
        cases payloadsOf q rest <;> rfl

theorem mapM_execute (q : Query) (devices : List (List Rows)) :
    devices.mapM (execute q none) =
      (devices.mapM (payloadsOf q)).map (List.map (mergeRows (q.item.text q.colName) none)) := by
  induction devices with
  | nil => rfl
  | cons d devices ih =>
    rw [List.mapM_cons, List.mapM_cons, execute_eq, ih]
    cases payloadsOf q d with
    | error m => rfl
    | ok vs =>
      cases devices.mapM (payloadsOf q) <;> rfl

theorem payloadsOf_append (q : Query) (xs ys : List Rows) :
    payloadsOf q (xs ++ ys) =
      (payloadsOf q xs).bind fun a => (payloadsOf q ys).bind fun b => .ok (a ++ b) := by
  induction xs with
  | nil =>
    simp only [List.nil_append, payloadsOf, Except.bind]
    cases payloadsOf q ys <;> rfl
  | cons x xs ih =>
    simp only [List.cons_append, payloadsOf, ih, bind, Except.bind]
    cases blockPayload q x with
    | error m => rfl
    | ok p =>
      cases payloadsOf q xs with
      | error m => rfl
      | ok a =>
        cases payloadsOf q ys with
        | error m => rfl
        | ok b => simp

theorem payloadsOf_flatten (q : Query) (devices : List (List Rows)) :
    payloadsOf q devices.flatten = (devices.mapM (payloadsOf q)).map List.flatten := by
  induction devices with
  | nil => rfl
  | cons d devices ih =>
    rw [List.flatten_cons, payloadsOf_append, List.mapM_cons, ih]
    cases payloadsOf q d with
    | error m => rfl
    | ok vs =>
      cases devices.mapM (payloadsOf q) <;> rfl

section Plain

variable (op : AggregationFunction) (colName : Text)

/-- one more row merged into the value so far -/
def mergeInto (acc : Option ℤ) (v : ℤ) : Option ℤ :=
  match acc with
  | none => some v
  | some o => some (op.merge v o)

theorem merge_assoc (a b c : ℤ) : op.merge a (op.merge b c) = op.merge (op.merge a b) c := by
  cases op with
  | min => exact (min_assoc a b c).symm
  | max => exact (max_assoc a b c).symm
  | sum => exact (add_assoc a b c).symm
  | avg => exact (add_assoc a b c).symm
  | count => exact (add_assoc a b c).symm

theorem mergePayload_plain (acc : Option ℤ) (v : ℤ) :
    mergePayload ((SelectItem.plain op).text colName) (acc.map fun x => [x]) [v] =
      (mergeInto op acc v).map fun x => [x] := by
  cases acc with
  | none => rfl
  | some o => simp [mergePayload, operation_plain, aggregateOnCPU_name, mergeInto]

theorem mergeRows_plain (acc : Option ℤ) (vs : List ℤ) :
    mergeRows ((SelectItem.plain op).text colName) (acc.map fun x => [x]) vs =
      (vs.foldl (mergeInto op) acc).map fun x => [x] := by
  induction vs generalizing acc with
  | nil => rfl
  | cons v vs ih =>
    have := ih (mergeInto op acc v)
    rw [← mergePayload_plain op colName] at this
    exact this

/-- merging rows one after the other is merging their total -/
theorem foldl_mergeInto (acc : Option ℤ) (vs : List ℤ) :
    vs.foldl (mergeInto op) acc =
      match vs.foldl (mergeInto op) none with
      | none => acc
      | some x => mergeInto op acc x := by
  induction vs using List.reverseRecOn with
  | nil => rfl
  | append_singleton vs v ih =>
    rw [List.foldl_append, List.foldl_append, List.foldl_cons, List.foldl_nil, List.foldl_cons, List.foldl_nil, ih]
    cases hv : vs.foldl (mergeInto op) none with
    | none => rfl
    | some x =>
      cases acc with
      | none => rfl
      | some o => exact congrArg some (merge_assoc op v x o)

theorem mergeDispatcherResults_plain (nullable usingWhere : Bool) (vss : List (List ℤ)) :
    mergeDispatcherResults ⟨.plain op, colName, nullable, usingWhere⟩
        (vss.map (mergeRows ((SelectItem.plain op).text colName) none)) =
      (vss.flatten.foldl (mergeInto op) none).map fun x => [x] := by
  have gen : ∀ acc : Option ℤ, (vss.map (mergeRows ((SelectItem.plain op).text colName) none)).foldl
      (fun response r => match r with
        | none => response
        | some payload => mergePayload ((SelectItem.plain op).text colName) response payload) (acc.map fun x => [x]) =
      (vss.flatten.foldl (mergeInto op) acc).map fun x => [x] := by
    induction vss with
    | nil => intro acc; rfl
    | cons vs vss ih =>
      intro acc
      rw [List.map_cons, List.foldl_cons, List.flatten_cons, List.foldl_append, ← ih (vs.foldl (mergeInto op) acc),
        show mergeRows ((SelectItem.plain op).text colName) none vs = (vs.foldl (mergeInto op) none).map fun x => [x]
          from mergeRows_plain op colName none vs, foldl_mergeInto op acc vs]
      congr 1
      cases vs.foldl (mergeInto op) none with
      | none => rfl
      | some x => exact mergePayload_plain op colName acc x
  exact gen none

end Plain

section Affine

variable (c1 : ℤ) (op : AggregationFunction) (c2 : ℤ) (colName : Text)

theorem mergePayload_affine (r : Option (List ℤ)) (payload : List ℤ) :
    mergePayload ((SelectItem.affine c1 op c2).text colName) r payload = some (r.getD [] ++ payload) := by
  obtain ⟨t, ht, hstar⟩ := operation_affine c1 op c2 colName
  rcases r with _ | old
  · rfl
  · rcases payload with _ | ⟨number1, payload⟩
    · simp [mergePayload]
    · rcases old with _ | ⟨number2, old⟩
      · simp [mergePayload]
      · simp [mergePayload, ht, aggregateOnCPU_star hstar]

/-- the rows `vs` appended to a response -/
def appendRows (r : Option (List ℤ)) (vs : List ℤ) : Option (List ℤ) :=
  if vs = [] then r else some (r.getD [] ++ vs)

theorem appendRows_append (r : Option (List ℤ)) (xs ys : List ℤ) :
    appendRows (appendRows r xs) ys = appendRows r (xs ++ ys) := by
  by_cases hx : xs = []
  · simp [appendRows, hx]
  · by_cases hy : ys = []
    · simp [appendRows, hy]
    · simp [appendRows, hx, hy]

theorem mergeRows_affine (r : Option (List ℤ)) (vs : List ℤ) :
    mergeRows ((SelectItem.affine c1 op c2).text colName) r vs = appendRows r vs := by
  induction vs generalizing r with
  | nil => rfl
  | cons v vs ih =>
    have hstep : mergePayload ((SelectItem.affine c1 op c2).text colName) r [v] = appendRows r [v] :=
      mergePayload_affine c1 op c2 colName r [v]
    calc mergeRows ((SelectItem.affine c1 op c2).text colName) r (v :: vs)
        = mergeRows ((SelectItem.affine c1 op c2).text colName) (appendRows r [v]) vs :=
          congrArg (mergeRows _ · vs) hstep
      _ = appendRows (appendRows r [v]) vs := ih _
      _ = appendRows r (v :: vs) := appendRows_append r [v] vs

theorem mergeDispatcherResults_affine (nullable usingWhere : Bool) (vss : List (List ℤ)) :
    mergeDispatcherResults ⟨.affine c1 op c2, colName, nullable, usingWhere⟩
        (vss.map (mergeRows ((SelectItem.affine c1 op c2).text colName) none)) = appendRows none vss.flatten := by
  have gen : ∀ acc, (vss.map (mergeRows ((SelectItem.affine c1 op c2).text colName) none)).foldl
      (fun response r => match r with
        | none => response
        | some payload => mergePayload ((SelectItem.affine c1 op c2).text colName) response payload) acc =
      appendRows acc vss.flatten := by
    induction vss with
    | nil => intro acc; rfl
    | cons vs vss ih =>
      intro acc
      rw [List.map_cons, List.foldl_cons, List.flatten_cons, ← appendRows_append, ← ih (appendRows acc vs),
        mergeRows_affine]
      congr 1
      by_cases hvs : vs = []
      · simp [appendRows, hvs]
      · simpa [appendRows, hvs] using mergePayload_affine c1 op c2 colName acc vs
  exact gen none

end Affine

/-- what is left of the rows `vs` of the blocks -/
def SelectItem.merged : SelectItem → List ℤ → Option (List ℤ)
  | .plain op, vs => (vs.foldl (mergeInto op) none).map fun x => [x]
  | .affine _ _ _, vs => appendRows none vs

theorem response_eq (q : Query) (devices : List (List Rows)) :
    response q devices = (payloadsOf q devices.flatten).map q.item.merged := by
  rw [response, mapM_execute, payloadsOf_flatten]
  cases devices.mapM (payloadsOf q) with
  | error m => rfl
  | ok vss =>
    obtain ⟨item, colName, nullable, usingWhere⟩ := q
    refine congrArg Except.ok ?_
    cases item with
    | plain op => exact mergeDispatcherResults_plain op colName nullable usingWhere vss
    | affine c1 op c2 => exact mergeDispatcherResults_affine c1 op c2 colName nullable usingWhere vss

/-! ## The rows of the blocks -/

/-- the values of the rows that the query takes -/
def Query.taken (q : Query) (rows : Rows) : List ℤ := (rows.filter fun r => !q.usingWhere || r.2).map Prod.fst

theorem taken_append (q : Query) (xs ys : Rows) : q.taken (xs ++ ys) = q.taken xs ++ q.taken ys := by
  simp [Query.taken]

theorem select_filter (q : Query) (rows : Rows) :
    Aggregation.select (q.filter rows) (rows.map Prod.fst) = q.taken rows := by
  cases hw : q.usingWhere
  · simp [Query.filter, Query.taken, Aggregation.select, hw]
  · simpa [Query.filter, Query.taken, Aggregation.select, hw] using Select.keep_filter Prod.snd Prod.fst rows

theorem blockPayload_cons (q : Query) (r : ℤ × Bool) (rows : Rows) :
    blockPayload q (r :: rows) = (q.item.op.agg (q.taken (r :: rows))).map (some ∘ q.item.eval) := by
  have hres : result (q.block (r :: rows)) (.col q.item.op q.colName) (q.filter (r :: rows)) =
      (q.item.op.agg (q.taken (r :: rows))).map some := by
    rw [aggregationCol_fresh]
    · rw [← select_filter]
      rfl
    · intro m hm
      cases hw : q.usingWhere
      · simp [Query.filter, hw] at hm
      · obtain rfl : (r :: rows).map Prod.snd = m := by simpa [Query.filter, hw] using hm
        simp [Query.block]
  rw [blockPayload, if_neg (by simp), hres]
  cases q.item.op.agg (q.taken (r :: rows)) <;> rfl

/-- the blocks whose load is not skipped -/
def loaded (blocks : List Rows) : List Rows := blocks.filter (· ≠ [])

theorem payloadsOf_loaded (q : Query) (blocks : List Rows) :
    payloadsOf q blocks = (loaded blocks).mapM fun rows => (q.item.op.agg (q.taken rows)).map q.item.eval := by
  induction blocks with
  | nil => rfl
  | cons rows rest ih =>
    cases rows with
    | nil =>
      have : loaded ([] :: rest) = loaded rest := rfl
      rw [this, ← ih]
      simp only [payloadsOf, blockPayload, bind, Except.bind, List.length_nil, if_true]
      cases payloadsOf q rest <;> rfl
    | cons r rows =>
      have : loaded ((r :: rows) :: rest) = (r :: rows) :: loaded rest := rfl
      rw [this, List.mapM_cons, ← ih]
      simp only [payloadsOf, blockPayload_cons, bind, Except.bind]
      cases q.item.op.agg (q.taken (r :: rows)) with
      | error m => rfl
      | ok v => cases payloadsOf q rest <;> rfl

theorem taken_loaded (q : Query) (blocks : List Rows) :
    ((loaded blocks).map q.taken).flatten = q.taken blocks.flatten := by
  induction blocks with
  | nil => rfl
  | cons rows rest ih =>
    cases rows with
    | nil => exact ih
    | cons r rows =>
      have : loaded ((r :: rows) :: rest) = (r :: rows) :: loaded rest := rfl
      rw [this, List.map_cons, List.flatten_cons, List.flatten_cons, taken_append, ih]

/-! ## Merging the parts of a column -/

theorem agg_ok {op : AggregationFunction} (hop : op ≠ .avg) (l : List ℤ) : ∃ v, op.agg l = .ok v := by
  cases op with
  | avg => exact absurd rfl hop
  | _ => exact ⟨_, rfl⟩

/-- a reduction of two parts, when the initial value is neutral for what reductions give -/
theorem reduce_append {f : ℤ → ℤ → ℤ} {init : ℤ} (hcomm : ∀ x y z, f x (f y z) = f y (f x z))
    (hinit : ∀ l, f (reduce f init l) init = reduce f init l) (xs ys : List ℤ) :
    reduce f init (xs ++ ys) = f (reduce f init ys) (reduce f init xs) := by
  induction xs with
  | nil => exact (hinit ys).symm
  | cons x xs ih =>
    calc f x (reduce f init (xs ++ ys))
        = f x (f (reduce f init ys) (reduce f init xs)) := congrArg (f x) ih
      _ = f (reduce f init ys) (f x (reduce f init xs)) := hcomm _ _ _

theorem reduce_min_le_init (l : List ℤ) : reduce Min.min int64Max l ≤ int64Max := by
  induction l with
  | nil => exact le_refl _
  | cons a l ih => exact (min_le_right _ _).trans ih

theorem init_le_reduce_max (l : List ℤ) : int64Lowest ≤ reduce Max.max int64Lowest l := by
  induction l with
  | nil => exact le_refl _
  | cons a l ih => exact ih.trans (le_max_right _ _)

theorem agg_append {op : AggregationFunction} (hop : op ≠ .avg) {xs ys : List ℤ} {a b : ℤ}
    (hx : op.agg xs = .ok a) (hy : op.agg ys = .ok b) : op.agg (xs ++ ys) = .ok (op.merge b a) := by
  cases op with
  | avg => exact absurd rfl hop
  | min =>
    obtain rfl := Except.ok.inj hx
    obtain rfl := Except.ok.inj hy
    exact congrArg Except.ok (reduce_append min_left_comm (fun l => min_eq_left (reduce_min_le_init l)) xs ys)
  | max =>
    obtain rfl := Except.ok.inj hx
    obtain rfl := Except.ok.inj hy
    exact congrArg Except.ok (reduce_append max_left_comm (fun l => max_eq_left (init_le_reduce_max l)) xs ys)
  | sum =>
    obtain rfl := Except.ok.inj hx
    obtain rfl := Except.ok.inj hy
    exact congrArg Except.ok (reduce_append add_left_comm (fun l => add_zero _) xs ys)
  | count =>
    obtain rfl := Except.ok.inj hx
    obtain rfl := Except.ok.inj hy
    refine congrArg Except.ok ?_
    simp [AggregationFunction.merge, add_comm]

/-- the values of parts that follow a part with value `acc` merge to that of the whole -/
theorem merge_parts {op : AggregationFunction} (hop : op ≠ .avg) (parts : List (List ℤ)) (done : List ℤ) (acc : ℤ)
    (h : op.agg done = .ok acc) :
    ∃ vs v, parts.mapM op.agg = .ok vs ∧ vs.foldl (mergeInto op) (some acc) = some v ∧
      op.agg (done ++ parts.flatten) = .ok v := by
  induction parts generalizing done acc with
  | nil => exact ⟨[], acc, rfl, rfl, by simpa using h⟩
  | cons l parts ih =>
    obtain ⟨b, hb⟩ := agg_ok hop l
    obtain ⟨vs, v, hvs, hfold, hv⟩ := ih (done ++ l) (op.merge b acc) (agg_append hop h hb)
    refine ⟨b :: vs, v, ?_, hfold, ?_⟩
    · rw [List.mapM_cons, hb, hvs]
      rfl
    · simpa using hv

/-! ## The split of a column -/

/-- the response is one row, the item of the aggregate of all rows the query takes -/
def SplitFree (q : Query) (devices : List (List Rows)) : Prop :=
  ∃ v, AggregateOf q.item.op (q.taken devices.flatten.flatten) v ∧ response q devices = .ok (some [q.item.eval v])

theorem merged_singleton (item : SelectItem) (v : ℤ) : item.merged [v] = some [v] := by
  cases item <;> rfl

theorem splitFree_of_one {q : Query} {devices : List (List Rows)} {rows : Rows}
    (hone : loaded devices.flatten = [rows]) (hne : q.taken devices.flatten.flatten ≠ [])
    (hrange : ∀ a ∈ q.taken devices.flatten.flatten, InRange a) : SplitFree q devices := by
  have htaken : q.taken rows = q.taken devices.flatten.flatten := by
    rw [← taken_loaded, hone]
    simp
  obtain ⟨v, hagg, hv⟩ := aggregateOf_agg q.item.op hne hrange
  refine ⟨v, hv, ?_⟩
  rw [response_eq, payloadsOf_loaded, hone, List.mapM_cons, htaken, hagg]
  exact congrArg Except.ok (merged_singleton q.item _)

theorem splitFree_of_plain {q : Query} {op : AggregationFunction} {devices : List (List Rows)}
    (hitem : q.item = .plain op) (hop : op ≠ .avg) (hne : q.taken devices.flatten.flatten ≠ [])
    (hrange : ∀ a ∈ q.taken devices.flatten.flatten, InRange a) : SplitFree q devices := by
  obtain ⟨v, hagg, hv⟩ := aggregateOf_agg q.item.op hne hrange
  have hval : ∀ rows, (q.item.op.agg (q.taken rows)).map q.item.eval = op.agg (q.taken rows) := by
    intro rows
    rw [hitem]
    cases h : op.agg (q.taken rows) <;> simp [SelectItem.op, h, Except.map, SelectItem.eval]
  refine ⟨v, hv, ?_⟩
  rw [response_eq, payloadsOf_loaded]
  simp only [hval]
  rw [← taken_loaded] at hne hagg
  rcases hl : loaded devices.flatten with _ | ⟨rows, rest⟩
  · simp [hl] at hne
  · obtain ⟨a, ha⟩ := agg_ok hop (q.taken rows)
    obtain ⟨vs, w, hvs, hfold, hw⟩ := merge_parts hop (rest.map q.taken) (q.taken rows) a ha
    have hwv : w = v := by
      rw [hl, hitem] at hagg
      exact Except.ok.inj (hw.symm.trans hagg)
    rw [List.mapM_map] at hvs
    rw [List.mapM_cons, ha]
    simp only [bind, Except.bind]
    have hvs' : rest.mapM (fun rows => op.agg (q.taken rows)) = .ok vs := hvs
    rw [hvs', hitem]
    have hmerged : (SelectItem.plain op).merged (a :: vs) = some [w] := by
      have : (a :: vs).foldl (mergeInto op) none = some w := hfold
      simp [SelectItem.merged, this]
    rw [← hwv]
    exact congrArg Except.ok hmerged

/-- the filter flags of the blocks of each device, whatever the values are -/
def passFlags (devices : List (List Rows)) : List (List (List Bool)) :=
  devices.map fun blocks => blocks.map fun rows => rows.map Prod.snd

/-- a table of the given shape whose values are all 1 -/
def ones (sh : List (List (List Bool))) : List (List Rows) :=
  sh.map fun blocks => blocks.map fun flags => flags.map fun p => (1, p)

theorem passFlags_ones (sh : List (List (List Bool))) : passFlags (ones sh) = sh := by
  simp [passFlags, ones, Function.comp_def]

theorem mem_taken_ones {q : Query} {sh : List (List (List Bool))} {rows : Rows} {x : ℤ}
    (h : rows ∈ (ones sh).flatten) (hx : x ∈ q.taken rows) : x = 1 := by
  simp only [ones, List.mem_flatten, List.mem_map] at h
  obtain ⟨_, ⟨blocks, _, rfl⟩, hrows⟩ := h
  obtain ⟨flags, _, rfl⟩ := List.mem_map.1 hrows
  simp only [Query.taken, List.mem_map, List.mem_filter] at hx
  obtain ⟨r, ⟨⟨p, _, rfl⟩, _⟩, rfl⟩ := hx
  rfl

theorem loaded_passFlags (devices : List (List Rows)) :
    (loaded devices.flatten).length = ((passFlags devices).flatten.filter (· ≠ [])).length := by
  have hflat : (passFlags devices).flatten = devices.flatten.map fun rows => rows.map Prod.snd := by
    simp [passFlags, List.map_flatten]
  rw [hflat, List.filter_map, List.length_map]
  congr 1
  refine List.filter_congr fun rows _ => ?_
  simp

theorem mapM_forall₂ {α β : Type} {f : α → Except String β} {l : List α} {vs : List β} (h : l.mapM f = .ok vs) :
    List.Forall₂ (fun a v => f a = .ok v) l vs := by
  induction l generalizing vs with
  | nil =>
    obtain rfl : [] = vs := Except.ok.inj h
    exact .nil
  | cons a l ih =>
    rw [List.mapM_cons] at h
    cases ha : f a with
    | error m => simp [ha, bind, Except.bind] at h
    | ok v =>
      cases hl : l.mapM f with
      | error m => simp [ha, hl, bind, Except.bind] at h
      | ok ws =>
        obtain rfl : v :: ws = vs := by
          rw [ha, hl] at h
          exact Except.ok.inj h
        exact .cons ha (ih hl)

/-- every loaded block gives one row -/
theorem payloadsOf_length {q : Query} {blocks : List Rows} {vs : List ℤ} (h : payloadsOf q blocks = .ok vs) :
    vs.length = (loaded blocks).length := by
  rw [payloadsOf_loaded] at h
  exact (mapM_forall₂ h).length_eq.symm

theorem foldl_mergeInto_avg (acc : ℤ) (vs : List ℤ) :
    vs.foldl (mergeInto .avg) (some acc) = some (acc + vs.sum) := by
  induction vs generalizing acc with
  | nil => simp
  | cons v vs ih =>
    calc vs.foldl (mergeInto .avg) (some (v + acc))
        = some (v + acc + vs.sum) := ih _
      _ = some (acc + (v :: vs).sum) := by rw [List.sum_cons, add_comm v acc, add_assoc]

/-- an average of ones is 1 -/
theorem avg_ones {l : List ℤ} (hone : ∀ x ∈ l, x = 1) (hne : l ≠ []) : l.sum.tdiv l.length = 1 := by
  have hsum : l.sum = l.length := by
    have := List.sum_eq_card_nsmul l 1 hone
    simpa using this
  have hpos : 0 < l.length := List.length_pos_iff.2 hne
  rw [hsum, Int.tdiv_self (by omega)]

/-- with AVG, the response to a table of ones is the number of blocks -/
theorem merged_avg_ones {q : Query} {sh : List (List (List Bool))} {vs : List ℤ} {x : ℤ} (hq : q.item = .plain .avg)
    (hvs : payloadsOf q (ones sh).flatten = .ok vs) (hx : q.item.merged vs = some [x]) : x = vs.length := by
  have hall : ∀ v ∈ vs, v = 1 := by
    rw [payloadsOf_loaded] at hvs
    intro v hv
    obtain ⟨i, hi, rfl⟩ := List.mem_iff_getElem.1 hv
    have hf := mapM_forall₂ hvs
    have hi' : i < (loaded (ones sh).flatten).length := by
      rw [hf.length_eq]
      exact hi
    have hget := (List.forall₂_iff_get.1 hf).2 i hi' hi
    have hmem : (loaded (ones sh).flatten)[i] ∈ (ones sh).flatten := List.mem_of_mem_filter (List.getElem_mem hi')
    simp only [List.get_eq_getElem] at hget
    by_cases hempty : q.taken (loaded (ones sh).flatten)[i] = []
    · simp [hq, SelectItem.op, AggregationFunction.agg, hempty, Except.map] at hget
    · have hone := avg_ones (fun y hy => mem_taken_ones hmem hy) hempty
      simp [hq, SelectItem.op, AggregationFunction.agg, hempty, Except.map, reduce_sum, hone, SelectItem.eval] at hget
      exact hget.symm
  cases vs with
  | nil => simp [hq, SelectItem.merged] at hx
  | cons v vs =>
    have hfold : (v :: vs).foldl (mergeInto .avg) none = some (v + vs.sum) := foldl_mergeInto_avg v vs
    have hsum : (v :: vs).sum = (v :: vs).length := by
      have := List.sum_eq_card_nsmul (v :: vs) 1 hall
      simpa using this
    simp only [hq, SelectItem.merged, hfold, Option.map_some, Option.some.injEq, List.cons.injEq, and_true] at hx
    rw [← hx, ← hsum, List.sum_cons]

theorem one_of_splitFree {q : Query} {sh : List (List (List Bool))}
    (hitem : ∀ op, q.item = .plain op → op = .avg) (hne : q.taken (ones sh).flatten.flatten ≠ [])
    (h : SplitFree q (ones sh)) : (loaded (ones sh).flatten).length = 1 := by
  obtain ⟨v, hv, hresp⟩ := h
  rw [response_eq] at hresp
  cases hp : payloadsOf q (ones sh).flatten with
  | error m => simp [hp, Except.map] at hresp
  | ok vs =>
    have hmerged : q.item.merged vs = some [q.item.eval v] := by
      rw [hp] at hresp
      exact Except.ok.inj hresp
    rw [← payloadsOf_length hp]
    cases hi : q.item with
    | plain op =>
      obtain rfl := hitem op hi
      have hlen := merged_avg_ones hi hp hmerged
      have hones : ∀ x ∈ q.taken (ones sh).flatten.flatten, x = 1 := by
        intro x hx
        rw [← taken_loaded, List.mem_flatten] at hx
        obtain ⟨l, hl, hx⟩ := hx
        obtain ⟨rows, hrows, rfl⟩ := List.mem_map.1 hl
        exact mem_taken_ones (List.mem_of_mem_filter hrows) hx
      have hone : v = 1 := by
        simp only [hi, SelectItem.op, AggregateOf] at hv
        rw [hv, avg_ones hones hne]
      simp only [hi, SelectItem.eval, hone] at hlen
      omega
    | affine c1 op c2 =>
      rw [hi] at hmerged
      by_cases hvs : vs = []
      · simp [SelectItem.merged, appendRows, hvs] at hmerged
      · simp only [SelectItem.merged, appendRows, hvs, if_false, Option.getD_none, List.nil_append,
          Option.some.injEq] at hmerged
        simp [hmerged]

/-- a row that is taken stays taken whatever its value is -/
theorem taken_ne_nil {q : Query} {devices : List (List Rows)}
    (h : ∃ p ∈ (passFlags devices).flatten.flatten, q.usingWhere = true → p = true) :
    q.taken devices.flatten.flatten ≠ [] := by
  obtain ⟨p, hp, hpass⟩ := h
  have hflat : (passFlags devices).flatten.flatten = devices.flatten.flatten.map Prod.snd := by
    simp [passFlags, List.map_flatten]
  rw [hflat] at hp
  obtain ⟨r, hr, rfl⟩ := List.mem_map.1 hp
  have hr' : r.1 ∈ q.taken devices.flatten.flatten := by
    refine List.mem_map.2 ⟨r, List.mem_filter.2 ⟨hr, ?_⟩, rfl⟩
    cases hw : q.usingWhere
    · rfl
    · simp [hpass hw]
  exact List.ne_nil_of_mem hr'

/-- **When an aggregate does not depend on the split.** For every item, every filter and every split of the rows into
blocks and devices in which some row is taken: the response is one row, that of the aggregate of all rows taken,
whatever the values are, if and only if the item is an aggregate other than AVG or only one block has rows. -/
theorem aggregates_split (q : Query) (sh : List (List (List Bool)))
    (hsome : ∃ p ∈ sh.flatten.flatten, q.usingWhere = true → p = true) :
    (∀ devices, passFlags devices = sh → (∀ r ∈ devices.flatten.flatten, InRange r.1) → SplitFree q devices) ↔
    (∃ op, q.item = .plain op ∧ op ≠ .avg) ∨ (sh.flatten.filter (· ≠ [])).length = 1 := by
  constructor
  · intro h
    by_cases hplain : ∃ op, q.item = .plain op ∧ op ≠ .avg
    · exact .inl hplain
    · refine .inr ?_
      have hitem : ∀ op, q.item = .plain op → op = .avg := by
        intro op hop
        by_contra hne
        exact hplain ⟨op, hop, hne⟩
      have hsh := passFlags_ones sh
      have hne : q.taken (ones sh).flatten.flatten ≠ [] := taken_ne_nil (by rwa [hsh])
      have hrange : ∀ r ∈ (ones sh).flatten.flatten, InRange r.1 := by
        intro r hr
        simp only [ones, ← List.map_flatten, List.mem_map] at hr
        obtain ⟨p, _, rfl⟩ := hr
        exact (by decide : int64Lowest ≤ 1 ∧ (1 : ℤ) ≤ int64Max)
      have := one_of_splitFree hitem hne (h (ones sh) hsh hrange)
      rwa [loaded_passFlags, hsh] at this
  · rintro h devices rfl hrange
    have hne := taken_ne_nil hsome
    have hvals : ∀ a ∈ q.taken devices.flatten.flatten, InRange a := by
      intro a ha
      obtain ⟨r, hr, rfl⟩ := List.mem_map.1 ha
      exact hrange r (List.mem_of_mem_filter hr)
    rcases h with ⟨op, hitem, hop⟩ | hone
    · exact splitFree_of_plain hitem hop hne hvals
    · rw [← loaded_passFlags] at hone
      obtain ⟨rows, hrows⟩ := List.length_eq_one_iff.1 hone
      exact splitFree_of_one hrows hne hvals

/-- SUM over two blocks on two devices -/
theorem aggregates_split_sum :
    SplitFree ⟨.plain .sum, "t.a".toList, false, false⟩ [[[(3, true)]], [[(4, true), (5, true)]]] :=
  (aggregates_split ⟨.plain .sum, "t.a".toList, false, false⟩ [[[true]], [[true, true]]]
    ⟨true, by decide, fun _ => rfl⟩).2 (.inl ⟨.sum, rfl, by decide⟩) _ rfl
    (by simp [InRange, int64Lowest, int64Max])

/-- AVG over two blocks that hold 4 and 6 is 10 -/
theorem aggregates_split_avg :
    ¬ ∀ (q : Query) (devices : List (List Rows)), q.taken devices.flatten.flatten ≠ [] →
      (∀ r ∈ devices.flatten.flatten, InRange r.1) → SplitFree q devices := by
  intro h
  obtain ⟨v, hv, hresp⟩ := h ⟨.plain .avg, "t.a".toList, false, false⟩ [[[(4, true)], [(6, true)]]] (by decide)
    (by simp [InRange, int64Lowest, int64Max])
  have h10 : response ⟨.plain .avg, "t.a".toList, false, false⟩ [[[(4, true)], [(6, true)]]] = .ok (some [10]) := by
    decide
  rw [h10] at hresp
  obtain rfl : v = 10 := by simpa [SelectItem.eval] using hresp.symm
  have hv : (10 : ℤ) = ([4, 6] : List ℤ).sum.tdiv 2 := hv
  exact absurd hv (by decide)

end QikkDB.Aggregation

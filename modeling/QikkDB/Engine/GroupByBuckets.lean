/-
The value buffers of the hash tables of GROUP BY (QueryEngine/GPUCore/GPUGroupBy.cuh, GPUGroupByString.cuh,
GPUGroupByMultiKey.cuh; AggregationFunctions.cuh): what a row does to the slot of its key, and what GetResults makes of
a slot.

`values_` and `keyOccurrenceCount_` have `valueBufferMultiplier_` lanes for a slot, and a thread works on the lane of its
index. Values are of any ordered type with a least and a greatest value and an addition, as the wrapping integers are;
the division of an average is left to its two operands.

Results:
- `result_foldl`: a slot has the aggregate of the rows that went to it.
- `aggregate_perm`: which does not depend on their order.
-/
import QikkDB.Core.Element
import QikkDB.Lib.Lanes
import QikkDB.Lib.Probing

namespace QikkDB.GroupByBuckets

open Lanes

/-! ## Aggregation functions -/

/-- the functors of `AggregationFunctions` -/
inductive AggregationFunction where
  | min
  | max
  | sum
  | avg
  | count
  | none
deriving DecidableEq, Repr

/-- `USE_VALUES` -/
def AggregationFunction.useValues : AggregationFunction → Bool
  | .min | .max | .sum | .avg => true
  | .count | .none => false

/-- `USE_KEY_OCCURRENCES` -/
def AggregationFunction.useKeyOccurrences : AggregationFunction → Bool
  | .avg | .count => true
  | .min | .max | .sum | .none => false

variable {κ V : Type} [LinearOrder V] [BoundedOrder V] [AddCommMonoid V]

/-- `operator()` and `nonatomic` -/
def AggregationFunction.apply : AggregationFunction → V → V → V
  | .min, a, b => Min.min a b
  | .max, a, b => Max.max a b
  | .sum, a, b | .avg, a, b => a + b
  | .count, a, _ | .none, a, _ => a

/-- `getInitValue` -/
def AggregationFunction.getInitValue : AggregationFunction → V
  | .min => ⊤
  | .max => ⊥
  | .sum | .avg | .count | .none => 0

def AggregationFunction.accumulator (agg : AggregationFunction) (h : agg.useValues = true) : Accumulator V where
  op := agg.apply
  init := agg.getInitValue
  comm a b := by
    cases agg with
    | min => exact min_comm a b
    | max => exact max_comm a b
    | sum => exact add_comm a b
    | avg => exact add_comm a b
    | count => cases h
    | none => cases h
  assoc a b c := by
    cases agg with
    | min => exact min_assoc a b c
    | max => exact max_assoc a b c
    | sum => exact add_assoc a b c
    | avg => exact add_assoc a b c
    | count => cases h
    | none => cases h
  init_op a := by
    cases agg with
    | min => exact min_eq_right le_top
    | max => exact max_eq_right bot_le
    | sum => exact zero_add a
    | avg => exact zero_add a
    | count => cases h
    | none => cases h

/-! ## Integers as values -/

section

variable {w : ℕ}

/-- std::numeric_limits -/
instance : BoundedOrder (IntN w) where
  top := IntN.max w
  le_top := IntN.le_max
  bot := IntN.lowest w
  bot_le := IntN.lowest_le

theorem wrap_add_left (a b : ℤ) : IntN.wrap w ((IntN.wrap w a).val + b) = IntN.wrap w (a + b) := by
  apply IntN.ext
  have hcast : (a + 2 ^ (w - 1)) % 2 ^ (w - 1 + 1) - 2 ^ (w - 1) + b + 2 ^ (w - 1) =
      (a + 2 ^ (w - 1)) % 2 ^ (w - 1 + 1) + b := by omega
  have hsum : a + b + 2 ^ (w - 1) = a + 2 ^ (w - 1) + b := by omega
  simp only [IntN.wrap, hcast, hsum, Int.emod_add_emod]

theorem wrap_add_right (a b : ℤ) : IntN.wrap w (a + (IntN.wrap w b).val) = IntN.wrap w (a + b) := by
  rw [add_comm, wrap_add_left, add_comm]

instance : Add (IntN w) := ⟨fun a b => IntN.wrap w (a.val + b.val)⟩

instance : Zero (IntN w) := ⟨IntN.wrap w 0⟩

/-- wrapping addition -/
instance : AddCommMonoid (IntN w) where
  add_assoc a b c := by
    change IntN.wrap w ((IntN.wrap w (a.val + b.val)).val + c.val) =
      IntN.wrap w (a.val + (IntN.wrap w (b.val + c.val)).val)
    rw [wrap_add_left, wrap_add_right, add_assoc]
  add_comm a b := congrArg (IntN.wrap w) (add_comm a.val b.val)
  zero_add a := by
    change IntN.wrap w ((IntN.wrap w 0).val + a.val) = a
    rw [wrap_add_left, zero_add, IntN.wrap_val]
  add_zero a := by
    change IntN.wrap w (a.val + (IntN.wrap w 0).val) = a
    rw [wrap_add_right, add_zero, IntN.wrap_val]
  nsmul := nsmulRec

end

/-- a number of rows as an int64_t counter -/
def count64 (n : ℕ) : Int64T := IntN.wrap 64 n

theorem count64_add (m n : ℕ) : count64 (m + n) = count64 m + count64 n := by
  change IntN.wrap 64 ((m + n : ℕ) : ℤ) = IntN.wrap 64 ((IntN.wrap 64 (m : ℤ)).val + (IntN.wrap 64 (n : ℤ)).val)
  rw [wrap_add_left, wrap_add_right, Nat.cast_add]

def counter : Accumulator Int64T := ⟨(· + ·), 0, add_comm, add_assoc, zero_add⟩

/-! ## Slots -/

/-- a row of an input block, with the index of the thread that takes it -/
structure Row (κ V : Type) where
  key : κ
  value : Option V
  thread : ℕ
deriving DecidableEq

/-- one slot of `values_`, `valuesNullArray_` and `keyOccurrenceCount_` -/
structure Bucket (V : Type) where
  values : ℕ → V
  valueIsNull : Bool
  occurrences : ℕ → Int64T

def Bucket.start (agg : AggregationFunction) : Bucket V := ⟨fun _ => agg.getInitValue, true, fun _ => 0⟩

/-- the aggregation of `group_by_kernel` on the slot that was found -/
def Bucket.put (agg : AggregationFunction) (arrayMultiplier : ℕ) (b : Bucket V) (row : Row κ V) : Bucket V :=
  match row.value with
  | none => b
  | some v =>
    let lane := row.thread % arrayMultiplier
    { values := if agg.useValues then Function.update b.values lane (agg.apply (b.values lane) v) else b.values
      valueIsNull := if agg.useValues then false else b.valueIsNull
      occurrences :=
        if agg.useKeyOccurrences then Function.update b.occurrences lane (b.occurrences lane + count64 1)
        else b.occurrences }

/-- what is kept of a group: the accumulated value, NULL where there is none, and the number of values -/
@[ext] structure Partial (V : Type) where
  value : Option V
  occurrences : Int64T
deriving DecidableEq, Repr

/-- `kernel_merge_multiplied_arrays`, for the buffers that the function has -/
def Bucket.merged (agg : AggregationFunction) (arrayMultiplier : ℕ) (b : Bucket V) : Partial V where
  value :=
    if agg.useValues = true ∧ b.valueIsNull = false then
      some ((List.range arrayMultiplier).foldl (fun a j => agg.apply a (b.values j)) agg.getInitValue)
    else none
  occurrences :=
    if agg.useKeyOccurrences then (List.range arrayMultiplier).foldl (fun a j => a + b.occurrences j) 0 else 0

/-- what GetResults returns for a group -/
inductive Aggregate (V : Type) where
  | value (v : Option V)
  | average (sum : Option V) (count : Int64T)
  | count (n : Int64T)
  | nothing
deriving DecidableEq, Repr

/-- GetResults for a group; the null mask of COUNT is empty -/
def Partial.aggregate (agg : AggregationFunction) (p : Partial V) : Aggregate V :=
  match agg with
  | .min | .max | .sum => .value p.value
  | .avg => .average p.value p.occurrences
  | .count => .count p.occurrences
  | .none => .nothing

def Bucket.result (agg : AggregationFunction) (arrayMultiplier : ℕ) (b : Bucket V) : Aggregate V :=
  (b.merged agg arrayMultiplier).aggregate agg

/-! ## The aggregate of rows -/

/-- the values that are not NULL -/
def nonNull (rows : List (Row κ V)) : List V := rows.filterMap Row.value

/-- the value of a group, NULL when no row has one, and the number of its values -/
def partialOf (agg : AggregationFunction) (rows : List (Row κ V)) : Partial V where
  value :=
    if agg.useValues = true ∧ nonNull rows ≠ [] then some ((nonNull rows).foldl agg.apply agg.getInitValue) else none
  occurrences := if agg.useKeyOccurrences then count64 (nonNull rows).length else 0

def aggregate (agg : AggregationFunction) (rows : List (Row κ V)) : Aggregate V := (partialOf agg rows).aggregate agg

theorem partialOf_perm (agg : AggregationFunction) {rows rows' : List (Row κ V)} (h : rows.Perm rows') :
    partialOf agg rows = partialOf agg rows' := by
  have hvalues : (nonNull rows).Perm (nonNull rows') := h.filterMap _
  have hnil : nonNull rows ≠ [] ↔ nonNull rows' ≠ [] := by
    rw [← List.length_pos_iff, ← List.length_pos_iff, hvalues.length_eq]
  have hfold : agg.useValues = true →
      (nonNull rows).foldl agg.apply agg.getInitValue = (nonNull rows').foldl agg.apply agg.getInitValue :=
    fun huse => (agg.accumulator huse).fold_perm hvalues
  apply Partial.ext
  · simp only [partialOf]
    by_cases huse : agg.useValues = true
    · simp only [hnil, hfold huse]
    · rw [if_neg fun h => huse h.1, if_neg fun h => huse h.1]
  · simp only [partialOf, hvalues.length_eq]

theorem aggregate_perm (agg : AggregationFunction) {rows rows' : List (Row κ V)} (h : rows.Perm rows') :
    aggregate agg rows = aggregate agg rows' := congrArg (Partial.aggregate agg) (partialOf_perm agg h)

/-- the lanes of a slot together hold some values -/
structure Collected (agg : AggregationFunction) (arrayMultiplier : ℕ) (b : Bucket V) (values : List V) : Prop where
  merged : ∀ h : agg.useValues = true,
    (agg.accumulator h).merge arrayMultiplier b.values = (agg.accumulator h).fold values
  valueIsNull : agg.useValues = true → (b.valueIsNull = true ↔ values = [])
  occurrences : agg.useKeyOccurrences = true → counter.merge arrayMultiplier b.occurrences = count64 values.length

theorem collected_start (agg : AggregationFunction) (arrayMultiplier : ℕ) :
    Collected agg arrayMultiplier (Bucket.start agg : Bucket V) [] :=
  ⟨fun h => (agg.accumulator h).merge_init arrayMultiplier, fun _ => by simp [Bucket.start],
    fun _ => counter.merge_init arrayMultiplier⟩

theorem Collected.put {agg : AggregationFunction} {arrayMultiplier : ℕ} (hpos : 0 < arrayMultiplier) {b : Bucket V}
    {values : List V} (hb : Collected agg arrayMultiplier b values) (row : Row κ V) :
    Collected agg arrayMultiplier (b.put agg arrayMultiplier row) (values ++ row.value.toList) := by
  unfold Bucket.put
  cases row.value with
  | none => simpa using hb
  | some v =>
    have hlane : row.thread % arrayMultiplier < arrayMultiplier := Nat.mod_lt _ hpos
    refine ⟨fun h => ?_, fun h => ?_, fun h => ?_⟩
    · simp only [h, if_true, Option.toList_some]
      rw [(agg.accumulator h).fold_concat, ← hb.merged h]
      exact (agg.accumulator h).merge_put b.values hlane v
    · simp [h]
    · simp only [h, if_true, Option.toList_some, List.length_append, List.length_singleton]
      rw [count64_add, ← hb.occurrences h]
      exact counter.merge_put b.occurrences hlane (count64 1)

theorem collected_foldl (agg : AggregationFunction) {arrayMultiplier : ℕ} (hpos : 0 < arrayMultiplier)
    (rows : List (Row κ V)) :
    Collected agg arrayMultiplier (rows.foldl (Bucket.put agg arrayMultiplier) (Bucket.start agg)) (nonNull rows) := by
  induction rows using List.reverseRecOn with
  | nil => exact collected_start agg arrayMultiplier
  | append_singleton rows row ih =>
    have hvalues : nonNull (rows ++ [row]) = nonNull rows ++ row.value.toList := by
      simp only [nonNull, List.filterMap_append]
      cases hv : row.value <;> simp [hv]
    rw [List.foldl_append, List.foldl_cons, List.foldl_nil, hvalues]
    exact ih.put hpos row

/-- a slot keeps what there is to keep of its rows -/
theorem merged_foldl (agg : AggregationFunction) {arrayMultiplier : ℕ} (hpos : 0 < arrayMultiplier)
    (rows : List (Row κ V)) :
    (rows.foldl (Bucket.put agg arrayMultiplier) (Bucket.start agg)).merged agg arrayMultiplier =
      partialOf agg rows := by
  have hb := collected_foldl agg hpos rows
  generalize rows.foldl (Bucket.put agg arrayMultiplier) (Bucket.start agg) = b at hb
  apply Partial.ext
  · simp only [Bucket.merged, partialOf]
    by_cases huse : agg.useValues = true
    · have hmerged : (List.range arrayMultiplier).foldl (fun a j => agg.apply a (b.values j)) agg.getInitValue =
          (nonNull rows).foldl agg.apply agg.getInitValue := hb.merged huse
      have hnull : b.valueIsNull = false ↔ nonNull rows ≠ [] := by
        rw [← Bool.not_eq_true, hb.valueIsNull huse]
      simp only [hmerged, hnull]
    · rw [if_neg fun h => huse h.1, if_neg fun h => huse h.1]
  · simp only [Bucket.merged, partialOf]
    by_cases huse : agg.useKeyOccurrences = true
    · rw [if_pos huse, if_pos huse]
      exact hb.occurrences huse
    · rw [if_neg huse, if_neg huse]

/-- a slot has the aggregate of its rows -/
theorem result_foldl (agg : AggregationFunction) {arrayMultiplier : ℕ} (hpos : 0 < arrayMultiplier)
    (rows : List (Row κ V)) :
    (rows.foldl (Bucket.put agg arrayMultiplier) (Bucket.start agg)).result agg arrayMultiplier =
      aggregate agg rows := congrArg (Partial.aggregate agg) (merged_foldl agg hpos rows)

/-! ## Groups of several tables -/

section

open Probing

variable [DecidableEq κ]

/-- tables of some rows each, with what they keep of their groups -/
abbrev Parts (agg : AggregationFunction) (parts : List (List (Row κ V))) (groups : List (List (κ × Partial V))) : Prop :=
  List.Forall₂ (GroupsBy Row.key (partialOf agg)) parts groups

variable {agg : AggregationFunction} {parts : List (List (Row κ V))} {groups : List (List (κ × Partial V))}

theorem Parts.keys (h : Parts agg parts groups) (k : κ) :
    k ∈ groups.flatten.map Prod.fst ↔ ∃ row ∈ parts.flatten, row.key = k := by
  induction h with
  | nil => simp
  | cons hgroup _ ih =>
    rw [List.flatten_cons, List.flatten_cons, List.map_append, List.mem_append, ih, hgroup.keys]
    constructor
    · rintro (⟨row, hrow, hk⟩ | ⟨row, hrow, hk⟩)
      · exact ⟨row, List.mem_append_left _ hrow, hk⟩
      · exact ⟨row, List.mem_append_right _ hrow, hk⟩
    · rintro ⟨row, hrow, hk⟩
      exact (List.mem_append.1 hrow).imp (fun hrow => ⟨row, hrow, hk⟩) fun hrow => ⟨row, hrow, hk⟩

/-- the rows of a key in each table -/
def ofKey (parts : List (List (Row κ V))) (k : κ) : List (List V) :=
  parts.map fun rows => nonNull (rows.filter fun row => row.key = k)

omit [LinearOrder V] [BoundedOrder V] [AddCommMonoid V] in
theorem flatten_ofKey (parts : List (List (Row κ V))) (k : κ) :
    (ofKey parts k).flatten = nonNull (parts.flatten.filter fun row => row.key = k) := by
  induction parts with
  | nil => rfl
  | cons rows parts ih =>
    have hrest : (ofKey (rows :: parts) k).flatten =
        nonNull (rows.filter fun row => row.key = k) ++ (ofKey parts k).flatten := rfl
    rw [hrest, ih, List.flatten_cons, List.filter_append]
    simp only [nonNull, List.filterMap_append]

omit [LinearOrder V] [BoundedOrder V] [AddCommMonoid V] in
theorem nonNull_eq_nil_of_absent {rows : List (Row κ V)} {k : κ} (h : ¬ ∃ row ∈ rows, row.key = k) :
    nonNull (rows.filter fun row => row.key = k) = [] := by
  have hnil : rows.filter (fun row => row.key = k) = [] :=
    List.filter_eq_nil_iff.2 fun row hrow hk => h ⟨row, hrow, of_decide_eq_true hk⟩
  rw [hnil]
  rfl

/-- the values that the tables have for a key -/
theorem Parts.values (h : Parts agg parts groups) (huse : agg.useValues = true) (k : κ) :
    (groups.flatten.filter fun g => g.1 = k).filterMap (fun g => g.2.value) =
      (ofKey parts k).flatMap fun l => if l = [] then [] else [(agg.accumulator huse).fold l] := by
  induction h with
  | nil => rfl
  | @cons rows out parts groups hgroup _ ih =>
    have hrest : (ofKey (rows :: parts) k) = nonNull (rows.filter fun row => row.key = k) :: ofKey parts k := rfl
    rw [hrest, List.flatMap_cons, ← ih, List.flatten_cons, List.filter_append, List.filterMap_append,
      hgroup.filter_key]
    congr 1
    split_ifs with hkey hnil hnil
    · simp [partialOf, hnil]
    · simp only [partialOf, List.filterMap_cons, huse, hnil, ne_eq, not_false_eq_true, and_self, if_true]
      rfl
    · rfl
    · exact absurd (nonNull_eq_nil_of_absent hkey) hnil

/-- the counters that the tables have for a key -/
theorem Parts.occurrences (h : Parts agg parts groups) (huse : agg.useKeyOccurrences = true) (k : κ) :
    counter.fold ((groups.flatten.filter fun g => g.1 = k).map fun g => g.2.occurrences) =
      count64 (ofKey parts k).flatten.length := by
  induction h with
  | nil => rfl
  | @cons rows out parts groups hgroup _ ih =>
    have hrest : (ofKey (rows :: parts) k).flatten =
        nonNull (rows.filter fun row => row.key = k) ++ (ofKey parts k).flatten := rfl
    have hout : counter.fold ((out.filter fun g => g.1 = k).map fun g => g.2.occurrences) =
        count64 (nonNull (rows.filter fun row => row.key = k)).length := by
      rw [hgroup.filter_key]
      split_ifs with hkey
      · simp only [partialOf, huse, if_true, List.map_cons, List.map_nil]
        exact counter.init_op _
      · rw [nonNull_eq_nil_of_absent hkey]
        rfl
    rw [hrest, List.length_append, count64_add, ← ih, ← hout, List.flatten_cons, List.filter_append, List.map_append,
      counter.fold_append]
    rfl

/-- values accumulated by the groups of tables -/
theorem Parts.merged_value (h : Parts agg parts groups) (huse : agg.useValues = true) (k : κ) {values : List V}
    (hvalues : values.Perm ((groups.flatten.filter fun g => g.1 = k).filterMap fun g => g.2.value)) :
    (if values ≠ [] then some (values.foldl agg.apply agg.getInitValue) else none) =
      (partialOf agg (parts.flatten.filter fun row => row.key = k)).value := by
  rw [h.values huse k] at hvalues
  have hfold : values.foldl agg.apply agg.getInitValue =
      (nonNull (parts.flatten.filter fun row => row.key = k)).foldl agg.apply agg.getInitValue := by
    rw [← flatten_ofKey]
    exact ((agg.accumulator huse).fold_perm hvalues).trans ((agg.accumulator huse).fold_parts _)
  have hnil : values ≠ [] ↔ nonNull (parts.flatten.filter fun row => row.key = k) ≠ [] := by
    rw [← flatten_ofKey, ← List.length_pos_iff, hvalues.length_eq, List.length_pos_iff, not_iff_not,
      List.flatMap_eq_nil_iff, List.flatten_eq_nil_iff]
    refine forall₂_congr fun l _ => ?_
    split_ifs with hl <;> simp [hl]
  simp only [partialOf, huse, true_and, hfold, hnil]

/-- rows with what tables keep of their groups, in any order -/
def Carries {U : Type} (f : Partial V → Option U) (rows : List (Row κ U)) (out : List (κ × Partial V)) : Prop :=
  (rows.map fun row => (row.key, row.value)).Perm (out.map fun g => (g.1, f g.2))

variable {U : Type} {f : Partial V → Option U} {rows : List (Row κ U)} {out : List (κ × Partial V)}

omit [LinearOrder V] [BoundedOrder V] [AddCommMonoid V] [DecidableEq κ] in
theorem Carries.keys (h : Carries f rows out) (k : κ) : (∃ row ∈ rows, row.key = k) ↔ k ∈ out.map Prod.fst := by
  have hkeys : (rows.map Row.key).Perm (out.map Prod.fst) := by
    simpa [List.map_map, Function.comp_def] using h.map Prod.fst
  rw [← hkeys.mem_iff, List.mem_map]

omit [LinearOrder V] [BoundedOrder V] [AddCommMonoid V] in
theorem Carries.nonNull (h : Carries f rows out) (k : κ) : (nonNull (rows.filter fun row => row.key = k)).Perm
    ((out.filter fun g => g.1 = k).filterMap fun g => f g.2) := by
  have hrows : GroupByBuckets.nonNull (rows.filter fun row => row.key = k) =
      ((rows.map fun row => (row.key, row.value)).filter fun x => x.1 = k).filterMap Prod.snd := by
    simp [GroupByBuckets.nonNull, List.filter_map, List.filterMap_map, Function.comp_def]
  have hout : (out.filter fun g => g.1 = k).filterMap (fun g => f g.2) =
      ((out.map fun g => (g.1, f g.2)).filter fun x => x.1 = k).filterMap Prod.snd := by
    simp [List.filter_map, List.filterMap_map, Function.comp_def]
  rw [hrows, hout]
  exact (h.filter _).filterMap _

theorem Parts.keys_carries (h : Parts agg parts groups) (hrows : Carries f rows groups.flatten) (k : κ) :
    (∃ row ∈ rows, row.key = k) ↔ ∃ row ∈ parts.flatten, row.key = k :=
  (hrows.keys k).trans (h.keys k)

/-- `DIRECT_VALUES` -/
def AggregationFunction.directValues : AggregationFunction → Bool
  | .min | .max | .sum => true
  | .avg | .count | .none => false

theorem AggregationFunction.useValues_of_direct (h : agg.directValues = true) : agg.useValues = true := by
  cases agg <;> first | rfl | cases h

/-- MIN, MAX and SUM of what tables have are those of their rows -/
theorem Parts.direct (h : Parts agg parts groups) (hdirect : agg.directValues = true) {rows : List (Row κ V)}
    (hrows : Carries Partial.value rows groups.flatten) {out : List (κ × Aggregate V)}
    (hout : GroupsBy Row.key (aggregate agg) rows out) : GroupsBy Row.key (aggregate agg) parts.flatten out := by
  have huse := AggregationFunction.useValues_of_direct hdirect
  refine ⟨hout.nodup, fun k => (hout.keys k).trans (h.keys_carries hrows k), fun g hg => (hout.values g hg).trans ?_⟩
  have hvalue := h.merged_value huse g.1 (hrows.nonNull g.1)
  have hpartial : (partialOf agg (rows.filter fun row => row.key = g.1)).value =
      (partialOf agg (parts.flatten.filter fun row => row.key = g.1)).value := by
    rw [← hvalue]
    simp only [partialOf, huse, true_and]
  cases agg with
  | min => exact congrArg Aggregate.value hpartial
  | max => exact congrArg Aggregate.value hpartial
  | sum => exact congrArg Aggregate.value hpartial
  | avg => cases hdirect
  | count => cases hdirect
  | none => cases hdirect

/-- GROUP BY without an aggregate -/
theorem Parts.noAggregate (h : Parts .none parts groups) {f : Partial V → Option V} {rows : List (Row κ V)}
    (hrows : Carries f rows groups.flatten)
    {out : List (κ × Aggregate V)} (hout : GroupsBy Row.key (aggregate .none) rows out) :
    GroupsBy Row.key (aggregate .none) parts.flatten out :=
  ⟨hout.nodup, fun k => (hout.keys k).trans (h.keys_carries hrows k), fun g hg => by
    rw [hout.values g hg]
    simp only [aggregate, Partial.aggregate]⟩

/-- the sum of counters as the value of COUNT -/
def asCount : Aggregate Int64T → Aggregate V
  | .value (some c) => .count c
  | _ => .nothing

/-- COUNT is the sum of the counters -/
theorem Parts.counted (h : Parts .count parts groups) {rows : List (Row κ Int64T)}
    (hrows : Carries (fun p => some p.occurrences) rows groups.flatten) {out : List (κ × Aggregate Int64T)}
    (hout : GroupsBy Row.key (aggregate .sum) rows out) :
    GroupsBy Row.key (aggregate (V := V) .count) parts.flatten (out.map fun g => (g.1, asCount g.2)) := by
  have hfst : (out.map fun g => (g.1, (asCount g.2 : Aggregate V))).map Prod.fst = out.map Prod.fst := by
    simp [List.map_map, Function.comp_def]
  refine ⟨hfst ▸ hout.nodup, fun k => ?_, fun g' hg' => ?_⟩
  · rw [hfst]
    exact (hout.keys k).trans (h.keys_carries hrows k)
  · obtain ⟨g, hg, rfl⟩ := List.mem_map.1 hg'
    have hcounters := hrows.nonNull g.1
    have hmap : (groups.flatten.filter fun x => x.1 = g.1).filterMap (fun x => some x.2.occurrences) =
        (groups.flatten.filter fun x => x.1 = g.1).map fun x => x.2.occurrences := by
      rw [← List.filterMap_eq_map]
      rfl
    rw [hmap] at hcounters
    have hsum : (nonNull (rows.filter fun row => row.key = g.1)).foldl AggregationFunction.sum.apply
        AggregationFunction.sum.getInitValue = count64 (ofKey parts g.1).flatten.length :=
      (counter.fold_perm hcounters).trans (h.occurrences rfl g.1)
    have hne : nonNull (rows.filter fun row => row.key = g.1) ≠ [] := by
      obtain ⟨x, hx, hfst⟩ := List.mem_map.1 ((hrows.keys g.1).1 ((hout.keys g.1).1 (List.mem_map_of_mem hg)))
      rw [← List.length_pos_iff, hcounters.length_eq, List.length_map, List.length_pos_iff]
      exact List.ne_nil_of_mem (List.mem_filter.2 ⟨hx, decide_eq_true hfst⟩)
    have hvalue : (partialOf .sum (rows.filter fun row => row.key = g.1)).value =
        some (count64 (ofKey parts g.1).flatten.length) := by
      rw [← hsum]
      exact if_pos ⟨rfl, hne⟩
    have hg2 : g.2 = .value (some (count64 (ofKey parts g.1).flatten.length)) :=
      (hout.values g hg).trans (congrArg Aggregate.value hvalue)
    rw [flatten_ofKey] at hg2
    rw [hg2]
    rfl

/-- the quotient of the values and the counters that two tables have for a group; the null mask is the second's -/
def asAverage : Aggregate V → Aggregate Int64T → Aggregate V
  | .value s, .value (some c) => .average s c
  | .value _, .value none => .average none 0
  | _, _ => .nothing

/-- a group without a value has counted none -/
theorem Parts.occurrences_zero (h : Parts .avg parts groups) {g : κ × Partial V} (hg : g ∈ groups.flatten)
    (hnone : g.2.value = none) : g.2.occurrences = 0 := by
  induction h with
  | nil => cases hg
  | @cons rows out parts groups hgroup _ ih =>
    rcases List.mem_append.1 hg with hg | hg
    · rw [hgroup.values g hg] at hnone ⊢
      have hnil : nonNull (rows.filter fun row => row.key = g.1) = [] := by
        by_contra hne
        rw [partialOf, if_pos ⟨rfl, hne⟩] at hnone
        cases hnone
      simp only [partialOf, hnil]
      rfl
    · exact ih hg

omit [LinearOrder V] [BoundedOrder V] [AddCommMonoid V] [DecidableEq κ] in
theorem fold_values {out : List (κ × Partial V)} (h : ∀ g ∈ out, g.2.value = none → g.2.occurrences = 0) :
    counter.fold (out.filterMap fun g => g.2.value.map fun _ => g.2.occurrences) =
      counter.fold (out.map fun g => g.2.occurrences) := by
  induction out with
  | nil => rfl
  | cons g out ih =>
    have hrest := ih fun x hx => h x (List.mem_cons_of_mem _ hx)
    cases hv : g.2.value with
    | none =>
      rw [List.filterMap_cons_none (by rw [hv]; rfl), List.map_cons, counter.fold_cons, hrest,
        h g List.mem_cons_self hv]
      exact (counter.init_op _).symm
    | some v =>
      rw [List.filterMap_cons_some (by rw [hv]; rfl), List.map_cons, counter.fold_cons, counter.fold_cons, hrest]

/-- AVG is the sum of the values and the sum of the counters -/
theorem Parts.average (h : Parts .avg parts groups) {rows : List (Row κ V)} {counted : List (Row κ Int64T)}
    (hrows : Carries Partial.value rows groups.flatten)
    (hcounted : Carries (fun p => p.value.map fun _ => p.occurrences) counted groups.flatten)
    {sums : List (κ × Aggregate V)} {counts : List (κ × Aggregate Int64T)}
    (hsums : GroupsBy Row.key (aggregate .sum) rows sums) (hcounts : GroupsBy Row.key (aggregate .sum) counted counts)
    (hkeys : sums.map Prod.fst = counts.map Prod.fst) :
    GroupsBy Row.key (aggregate .avg) parts.flatten
      ((sums.zip counts).map fun x => (x.2.1, asAverage x.1.2 x.2.2)) := by
  have hpairs : List.Forall₂ (fun s c => s.1 = c.1) sums counts := by
    have heq : List.Forall₂ Eq (sums.map Prod.fst) (counts.map Prod.fst) := by
      rw [hkeys]
      exact List.forall₂_refl _
    exact List.forall₂_map_left_iff.1 (List.forall₂_map_right_iff.1 heq)
  have hfst : ((sums.zip counts).map fun x => (x.2.1, asAverage x.1.2 x.2.2)).map Prod.fst = counts.map Prod.fst := by
    have hsnd : (sums.zip counts).map Prod.snd = counts := List.map_snd_zip hpairs.length_eq.ge
    conv_rhs => rw [← hsnd]
    simp [List.map_map, Function.comp_def]
  refine ⟨hfst ▸ hcounts.nodup, fun k => ?_, fun g hg => ?_⟩
  · rw [hfst]
    exact (hcounts.keys k).trans (h.keys_carries hcounted k)
  · obtain ⟨⟨s, c⟩, hsc, rfl⟩ := List.mem_map.1 hg
    have hs := (List.of_mem_zip hsc).1
    have hc := (List.of_mem_zip hsc).2
    have hkey : s.1 = c.1 := List.forall₂_zip hpairs hsc
    have hsum : s.2 = .value (partialOf .avg (parts.flatten.filter fun row => row.key = c.1)).value := by
      have hvalue := h.merged_value rfl c.1 (hrows.nonNull c.1)
      rw [hsums.values s hs, hkey, ← hvalue]
      simp only [aggregate, Partial.aggregate, partialOf, AggregationFunction.useValues, true_and]
      rfl
    have hcounters := hcounted.nonNull c.1
    have hcount : counter.fold (nonNull (counted.filter fun row => row.key = c.1)) =
        (partialOf .avg (parts.flatten.filter fun row => row.key = c.1)).occurrences := by
      rw [counter.fold_perm hcounters, fold_values, h.occurrences rfl c.1, flatten_ofKey]
      · rfl
      · exact fun g hg => h.occurrences_zero (List.mem_of_mem_filter hg)
    have hc2 : c.2 = .value (partialOf .sum (counted.filter fun row => row.key = c.1)).value := hcounts.values c hc
    change asAverage s.2 c.2 = .average (partialOf .avg (parts.flatten.filter fun row => row.key = c.1)).value
      (partialOf .avg (parts.flatten.filter fun row => row.key = c.1)).occurrences
    rw [hsum, hc2, ← hcount]
    by_cases hnil : nonNull (counted.filter fun row => row.key = c.1) = []
    · have hvalues : (groups.flatten.filter fun g => g.1 = c.1).filterMap (fun g => g.2.value) = [] := by
        rw [hnil] at hcounters
        have hnone := List.filterMap_eq_nil_iff.1 hcounters.nil_eq.symm
        exact List.filterMap_eq_nil_iff.2 fun g hg => by simpa using hnone g hg
      have hnone : (partialOf .sum (counted.filter fun row => row.key = c.1)).value = none :=
        if_neg fun hand => hand.2 hnil
      rw [hnone, ← h.merged_value rfl c.1 (List.Perm.of_eq hvalues.symm), hnil]
      rfl
    · have hsome : (partialOf .sum (counted.filter fun row => row.key = c.1)).value =
          some (counter.fold (nonNull (counted.filter fun row => row.key = c.1))) := if_pos ⟨rfl, hnil⟩
      rw [hsome]
      rfl

end

end QikkDB.GroupByBuckets

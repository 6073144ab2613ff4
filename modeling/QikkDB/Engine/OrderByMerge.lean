/-
The merge of ORDER BY (GpuSqlDispatcherOrderByFunctions.cu, `OrderByReconstructRetAllBlocks`): the blocks of all
devices, each sorted already, go into one result.

Each step looks at the next row of every block. Column by column it asks whether all of them are equal; at the first
column where they are not it takes the first block with the extreme of that column. Blocks that share the extreme are
not compared in the later columns.

`copied` of the merge state is not in the source: it names the rows that were copied, in order. The order columns stand
in the order in which the loop looks at them (the source keeps them in inverse).

Results:
- `merges_of_run`, `run_of_merges`: the loop ends and copies what the rule `choose` takes from the blocks.
- `choose_iff_distinct`: when one step takes the row that comes first.
- `merge_sorts`: the result is a sorted permutation of the rows exactly when, whenever a row comes up, the first column
  in which the next rows differ tells it from the next row of every earlier block.
-/
import Mathlib.Order.PiLex
import Mathlib.Tactic
import QikkDB.Core.NullValues
import QikkDB.Lib.Merging

namespace QikkDB.OrderByMerge

open NullValues Merging

/-! ## The model -/

/-- OrderBy::Order -/
inductive Order where
  | asc
  | desc
  deriving DecidableEq, Repr

/-- an entry of `orderByColumns_` with the limits of its type -/
structure OrderColumn (α : Type) where
  order : Order
  lowest : α
  max : α

section Model

variable {n : ℕ} (V : Fin (n + 1) → Type) (C W : Type)

/-- the values of one row in the order columns and in the returned columns -/
structure Row where
  order : ∀ i, V i
  ret : C → W

/-- what one block of rows left in `orderByBlocks_`: its columns and the null masks of the returned ones -/
structure Block where
  rows : List (Row V C W)
  retNull : C → Mask
  retNull_size : ∀ c, getNullBitMaskSize rows.length ≤ (retNull c).length

/-- a row of the `m` blocks, and where it stands -/
structure Source (m : ℕ) where
  block : Fin m
  position : ℕ
  row : Row V C W

structure MergeState (m : ℕ) where
  currentIndicesInBlocks : Fin m → ℕ
  resultSetIdx : ℕ
  columnsMerged : C → List W
  columnsNullMerged : C → Mask
  copied : List (Source V C W m)

inductive Error where
  /-- `begin()` of an empty map -/
  | noBlocks
  /-- "MergeSort attempt to insert result to full dataset" -/
  | fullDataset
  /-- "MergeSort all blocks empty when looking for an extreme" -/
  | allBlocksEmpty
  /-- the loop did not end -/
  | notMerged
  deriving DecidableEq, Repr

variable {V C W} [∀ i, LinearOrder (V i)]

/-- the values at the merge positions are compared pairwise, one block with the next -/
def valuesAreEqual {α : Type} [DecidableEq α] : List α → Bool
  | a :: b :: l => if a ≠ b then false else valuesAreEqual (b :: l)
  | _ => true

/-- the search for the extreme: a value replaces it when it is better -/
def extremeBy {ι α : Type} (better : α → α → Prop) [DecidableRel better] (limit : α) (values : List (ι × α)) :
    Option ι :=
  (values.foldl (fun best v => if better v.2 best.1 then (v.2, some v.1) else best) (limit, none)).2

/-- blockToMergeIdx -/
def blockToMergeIdx {ι α : Type} [LinearOrder α] (column : OrderColumn α) (values : List (ι × α)) : Option ι :=
  match column.order with
  | .asc => extremeBy (fun value minimum => minimum > value) column.max values
  | .desc => extremeBy (fun value maximum => maximum < value) column.lowest values

/-- the block to take the next row from, looking at the columns `is`; `live` are the blocks with rows left -/
def chooseFrom {ι : Type} (orderByColumns : ∀ i, OrderColumn (V i)) (live : List (ι × Row V C W)) :
    List (Fin (n + 1)) → Except Error (Option ι)
  | [] => .error .notMerged
  | i :: is =>
    match live with
    | [] => .ok none
    | first :: _ =>
      if valuesAreEqual (live.map fun p => p.2.order i) then
        match is with
        | [] => .ok (some first.1)
        | _ :: _ => chooseFrom orderByColumns live is
      else
        match blockToMergeIdx (orderByColumns i) (live.map fun p => (p.1, p.2.order i)) with
        | some j => .ok (some j)
        | none => .error .allBlocksEmpty

def choose {ι : Type} (orderByColumns : ∀ i, OrderColumn (V i)) (live : List (ι × Row V C W)) :
    Except Error (Option ι) :=
  chooseFrom orderByColumns live (List.finRange (n + 1))

/-- the rows of one block, with their positions -/
def rowsOf (blocks : List (Block V C W)) (j : Fin blocks.length) : List (Source V C W blocks.length) :=
  (blocks.get j).rows.mapIdx fun q row => ⟨j, q, row⟩

/-- the next row of each block that has rows left -/
def liveRows (blocks : List (Block V C W)) (currentIndicesInBlocks : Fin blocks.length → ℕ) :
    List (Fin blocks.length × Row V C W) :=
  (List.finRange blocks.length).filterMap fun j =>
    ((blocks.get j).rows[currentIndicesInBlocks j]?).map fun row => (j, row)

def resultSetSize (blocks : List (Block V C W)) : ℕ := (blocks.map fun b => b.rows.length).sum

/-- GetConcreteBitFromBitmask on the null block of the row -/
def nullBit (blocks : List (Block V C W)) (x : Source V C W blocks.length) (c : C) : Bool :=
  getBit ((blocks.get x.block).retNull c) x.position

/-- the values and null flags of one row go to the end of the result -/
def write (blocks : List (Block V C W)) (st : MergeState V C W blocks.length) (x : Source V C W blocks.length) :
    MergeState V C W blocks.length where
  currentIndicesInBlocks := Function.update st.currentIndicesInBlocks x.block (st.currentIndicesInBlocks x.block + 1)
  resultSetIdx := st.resultSetIdx + 1
  columnsMerged c := (st.columnsMerged c).set st.resultSetIdx (x.row.ret c)
  columnsNullMerged c := (st.columnsNullMerged c).modify (getBitMaskIdx st.resultSetIdx) fun word =>
    word ||| ((if nullBit blocks x c then 1#64 else 0#64) <<< getShiftMaskIdx st.resultSetIdx)
  copied := st.copied ++ [x]

/-- the while loop -/
def run (orderByColumns : ∀ i, OrderColumn (V i)) (blocks : List (Block V C W)) :
    ℕ → MergeState V C W blocks.length → Except Error (MergeState V C W blocks.length)
  | 0, _ => .error .notMerged
  | fuel + 1, st =>
    match choose orderByColumns (liveRows blocks st.currentIndicesInBlocks) with
    | .error e => .error e
    | .ok none => .ok st
    | .ok (some j) =>
      match (rowsOf blocks j)[st.currentIndicesInBlocks j]? with
      | none => .error .allBlocksEmpty
      | some x =>
        if st.resultSetIdx < resultSetSize blocks then run orderByColumns blocks fuel (write blocks st x)
        else .error .fullDataset

/-- the result vectors as they are allocated -/
def start [Inhabited W] (blocks : List (Block V C W)) : MergeState V C W blocks.length where
  currentIndicesInBlocks _ := 0
  resultSetIdx := 0
  columnsMerged _ := List.replicate (resultSetSize blocks) default
  columnsNullMerged _ := zeroMask (resultSetSize blocks)
  copied := []

/-- the blocks of all devices, one device after the other -/
def allBlocks (orderByBlocks : List (List (Block V C W))) : List (Block V C W) := orderByBlocks.flatten

/-- `OrderByReconstructRetAllBlocks` of the thread that has the last block -/
def orderByReconstructRetAllBlocks [Inhabited W] (orderByColumns : ∀ i, OrderColumn (V i))
    (orderByBlocks : List (List (Block V C W))) :
    Except Error (MergeState V C W (allBlocks orderByBlocks).length) :=
  if allBlocks orderByBlocks = [] then .error .noBlocks
  else run orderByColumns (allBlocks orderByBlocks) (resultSetSize (allBlocks orderByBlocks) + 1)
    (start (allBlocks orderByBlocks))

end Model

/-! ## The order of the rows -/

namespace OrderColumn

variable {α : Type} [LinearOrder α]

/-- comes before, in the direction of the column -/
def Better (column : OrderColumn α) (a b : α) : Prop :=
  match column.order with
  | .asc => a < b
  | .desc => b < a

/-- where the search for the extreme starts -/
def limit (column : OrderColumn α) : α :=
  match column.order with
  | .asc => column.max
  | .desc => column.lowest

instance (column : OrderColumn α) : DecidableRel column.Better := fun a b =>
  match h : column.order with
  | .asc => decidable_of_iff (a < b) (by simp [Better, h])
  | .desc => decidable_of_iff (b < a) (by simp [Better, h])

instance (column : OrderColumn α) : IsStrictTotalOrder α column.Better where
  irrefl a := by
    unfold Better
    split <;> simp
  trans a b c := by
    unfold Better
    cases column.order with
    | asc => exact fun hab hbc => hab.trans hbc
    | desc => exact fun hab hbc => hbc.trans hab
  trichotomous a b := by
    unfold Better
    cases column.order with
    | asc => exact fun hab hba => le_antisymm (not_lt.1 hba) (not_lt.1 hab)
    | desc => exact fun hab hba => le_antisymm (not_lt.1 hab) (not_lt.1 hba)

end OrderColumn

section Lexicographic

variable {n : ℕ} {V : Fin (n + 1) → Type} [∀ i, LinearOrder (V i)]

/-- lexicographic order by the ORDER BY columns -/
def Before (orderByColumns : ∀ i, OrderColumn (V i)) (x y : ∀ i, V i) : Prop :=
  ∃ i, (∀ k < i, x k = y k) ∧ (orderByColumns i).Better (x i) (y i)

instance (orderByColumns : ∀ i, OrderColumn (V i)) : DecidableRel (Before orderByColumns) := fun x y =>
  inferInstanceAs (Decidable (∃ i, (∀ k < i, x k = y k) ∧ (orderByColumns i).Better (x i) (y i)))

instance (orderByColumns : ∀ i, OrderColumn (V i)) : IsStrictTotalOrder (∀ i, V i) (Before orderByColumns) where
  irrefl x := by
    rintro ⟨i, -, h⟩
    exact Std.Irrefl.irrefl (x i) h
  trans x y z := by
    rintro ⟨i, hi, hxy⟩ ⟨k, hk, hyz⟩
    rcases lt_trichotomy i k with hik | rfl | hki
    · exact ⟨i, fun l hl => (hi l hl).trans (hk l (hl.trans hik)), hk i hik ▸ hxy⟩
    · exact ⟨i, fun l hl => (hi l hl).trans (hk l hl), IsTrans.trans _ _ _ hxy hyz⟩
    · exact ⟨k, fun l hl => (hi l (hl.trans hki)).trans (hk l hl), (hi k hki).symm ▸ hyz⟩
  trichotomous := (Pi.trichotomous_lex (· < ·) (fun {i} => (orderByColumns i).Better) wellFounded_lt).trichotomous

instance (orderByColumns : ∀ i, OrderColumn (V i)) : IsStrictWeakOrder (∀ i, V i) (Before orderByColumns) :=
  isStrictWeakOrder_of_isOrderConnected

end Lexicographic

/-! ## One step -/

theorem valuesAreEqual_iff {α : Type} [DecidableEq α] (l : List α) :
    valuesAreEqual l = true ↔ ∀ a ∈ l, ∀ b ∈ l, a = b := by
  induction l with
  | nil => simp [valuesAreEqual]
  | cons a l ih =>
    cases l with
    | nil => simp [valuesAreEqual]
    | cons b l =>
      simp only [valuesAreEqual, ne_eq, ite_not, Bool.if_false_right, Bool.and_eq_true, decide_eq_true_eq, ih]
      constructor
      · rintro ⟨rfl, h⟩
        intro x hx y hy
        exact h x (by simpa using hx) y (by simpa using hy)
      · intro h
        refine ⟨h a (by simp) b (by simp), fun x hx y hy => ?_⟩
        exact h x (List.mem_cons_of_mem a hx) y (List.mem_cons_of_mem a hy)

section Extreme

variable {ι α : Type} [LinearOrder ι] {better : α → α → Prop} [DecidableRel better] [IsStrictTotalOrder α better]

/-- the fold keeps its start, or ends at the first of the best values -/
theorem foldl_extreme (values : List (ι × α)) (hsorted : values.Pairwise fun p q => p.1 < q.1) (best : α × Option ι) :
    let found := values.foldl (fun best v => if better v.2 best.1 then (v.2, some v.1) else best) best
    (found = best ∧ ∀ p ∈ values, ¬ better p.2 best.1) ∨
      ∃ p ∈ values, found = (p.2, some p.1) ∧ better p.2 best.1 ∧
        ∀ q ∈ values, ¬ better q.2 p.2 ∧ (q.2 = p.2 → p.1 ≤ q.1) := by
  induction values generalizing best with
  | nil => simp
  | cons v values ih =>
    obtain ⟨hfirst, hrest⟩ := List.pairwise_cons.1 hsorted
    simp only [List.foldl_cons]
    by_cases hbetter : better v.2 best.1
    · rw [if_pos hbetter]
      right
      rcases ih hrest (v.2, some v.1) with ⟨hfound, hnone⟩ | ⟨p, hp, hfound, hpv, hbest⟩
      · refine ⟨v, List.mem_cons_self, hfound, hbetter, ?_⟩
        intro q hq
        rw [List.mem_cons] at hq
        rcases hq with rfl | hq
        · exact ⟨Std.Irrefl.irrefl _, fun _ => le_rfl⟩
        · exact ⟨hnone q hq, fun _ => (hfirst q hq).le⟩
      · refine ⟨p, List.mem_cons_of_mem v hp, hfound, IsTrans.trans _ _ _ hpv hbetter, ?_⟩
        intro q hq
        rw [List.mem_cons] at hq
        rcases hq with rfl | hq
        · refine ⟨fun h => Std.Irrefl.irrefl _ (IsTrans.trans _ _ _ h hpv), fun h => ?_⟩
          exact absurd (h ▸ hpv) (Std.Irrefl.irrefl _)
        · exact hbest q hq
    · rw [if_neg hbetter]
      rcases ih hrest best with ⟨hfound, hnone⟩ | ⟨p, hp, hfound, hpb, hbest⟩
      · left
        refine ⟨hfound, fun q hq => ?_⟩
        rw [List.mem_cons] at hq
        rcases hq with rfl | hq
        · exact hbetter
        · exact hnone q hq
      · right
        refine ⟨p, List.mem_cons_of_mem v hp, hfound, hpb, ?_⟩
        intro q hq
        rw [List.mem_cons] at hq
        rcases hq with rfl | hq
        · refine ⟨fun h => hbetter (IsTrans.trans _ _ _ h hpb), fun h => absurd (h ▸ hpb) hbetter⟩
        · exact hbest q hq

theorem extremeBy_eq_some {limit : α} {values : List (ι × α)} (hsorted : values.Pairwise fun p q => p.1 < q.1)
    {j : ι} : extremeBy better limit values = some j ↔
      ∃ v, (j, v) ∈ values ∧ better v limit ∧ ∀ q ∈ values, ¬ better q.2 v ∧ (q.2 = v → j ≤ q.1) := by
  unfold extremeBy
  have hfold := @foldl_extreme ι α _ better _ _ values hsorted (limit, none)
  rcases hfold with ⟨hfound, hnone⟩ | ⟨p, hp, hfound, hlimit, hbest⟩
  · rw [hfound]
    constructor
    · intro h
      exact absurd h (by simp)
    · rintro ⟨v, hv, hbetter, -⟩
      exact absurd hbetter (hnone _ hv)
  · rw [hfound]
    constructor
    · intro h
      obtain rfl := Option.some.inj h
      exact ⟨p.2, hp, hlimit, hbest⟩
    · rintro ⟨v, hv, -, hj⟩
      -- both are the first of the best
      have hvp : v = p.2 := Std.Trichotomous.trichotomous (r := better) v p.2 (hbest _ hv).1 (hj p hp).1
      exact congrArg some (le_antisymm ((hbest _ hv).2 hvp) ((hj p hp).2 hvp.symm))

omit [LinearOrder ι] in
theorem extremeBy_congr {r s : α → α → Prop} [DecidableRel r] [DecidableRel s] (h : ∀ a b, r a b ↔ s a b) (limit : α)
    (values : List (ι × α)) : extremeBy r limit values = extremeBy s limit values := by
  unfold extremeBy
  congr 2
  funext best v
  exact if_congr (h v.2 best.1) rfl rfl

omit [LinearOrder ι] in
theorem blockToMergeIdx_eq {α : Type} [LinearOrder α] (column : OrderColumn α) (values : List (ι × α)) :
    blockToMergeIdx column values = extremeBy column.Better column.limit values := by
  obtain ⟨order, lowest, max⟩ := column
  cases order with
  | asc =>
    have hbetter : ∀ a b : α, b > a ↔ (OrderColumn.mk .asc lowest max).Better a b := fun _ _ => Iff.rfl
    exact extremeBy_congr hbetter max values
  | desc =>
    have hbetter : ∀ a b : α, b < a ↔ (OrderColumn.mk .desc lowest max).Better a b := fun _ _ => Iff.rfl
    exact extremeBy_congr hbetter lowest values

end Extreme

section Choose

variable {n : ℕ} {V : Fin (n + 1) → Type} [∀ i, LinearOrder (V i)] {C W ι : Type}
  {orderByColumns : ∀ i, OrderColumn (V i)}

/-- the first column in which the next rows differ -/
def firstDifference (live : List (ι × Row V C W)) (is : List (Fin (n + 1))) : Option (Fin (n + 1)) :=
  is.find? fun i => !valuesAreEqual (live.map fun p => p.2.order i)

theorem chooseFrom_eq (first : ι × Row V C W) (others : List (ι × Row V C W)) {is : List (Fin (n + 1))}
    (his : is ≠ []) : chooseFrom orderByColumns (first :: others) is =
      match firstDifference (first :: others) is with
      | none => .ok (some first.1)
      | some i =>
        match blockToMergeIdx (orderByColumns i) ((first :: others).map fun p => (p.1, p.2.order i)) with
        | some j => .ok (some j)
        | none => .error .allBlocksEmpty := by
  induction is with
  | nil => exact absurd rfl his
  | cons i is ih =>
    unfold chooseFrom firstDifference
    cases hequal : valuesAreEqual ((first :: others).map fun p => p.2.order i) with
    | false => simp only [hequal, Bool.false_eq_true, if_false, List.find?_cons, Bool.not_false]
    | true =>
      cases is with
      | nil => simp only [hequal, if_true, List.find?_cons, List.find?_nil, Bool.not_true]
      | cons k is =>
        simp only [if_true, List.find?_cons, hequal, Bool.not_true]
        exact ih (by simp)

/-- two next rows differ in a column -/
theorem not_valuesAreEqual_iff {live : List (ι × Row V C W)} {p : ι × Row V C W} (hp : p ∈ live) (i : Fin (n + 1)) :
    valuesAreEqual (live.map fun p => p.2.order i) = false ↔ ∃ q ∈ live, q.2.order i ≠ p.2.order i := by
  rw [← Bool.not_eq_true, valuesAreEqual_iff]
  constructor
  · intro h
    by_contra hall
    simp only [not_exists, not_and, not_not] at hall
    apply h
    intro a ha b hb
    obtain ⟨q, hq, rfl⟩ := List.mem_map.1 ha
    obtain ⟨r, hr, rfl⟩ := List.mem_map.1 hb
    rw [hall q hq, hall r hr]
  · rintro ⟨q, hq, hne⟩ h
    exact hne (h _ (List.mem_map_of_mem hq) _ (List.mem_map_of_mem hp))

theorem find?_finRange_eq_some {m : ℕ} {test : Fin m → Bool} {i : Fin m} :
    (List.finRange m).find? test = some i ↔ test i = true ∧ ∀ k < i, test k = false := by
  rw [List.find?_eq_some_iff_getElem]
  constructor
  · rintro ⟨hi, a, ha, rfl, hbefore⟩
    refine ⟨hi, fun k hk => ?_⟩
    have hk' : k.1 < a := by simpa [Fin.lt_def] using hk
    simpa using hbefore k.1 hk'
  · rintro ⟨hi, hbefore⟩
    refine ⟨hi, i.1, by simp, by simp, fun k hk => ?_⟩
    have hk' := hbefore ⟨k, hk.trans i.2⟩ hk
    simpa using hk'

theorem firstDifference_eq_some {live : List (ι × Row V C W)} {p : ι × Row V C W} (hp : p ∈ live) {i : Fin (n + 1)} :
    firstDifference live (List.finRange (n + 1)) = some i ↔
      (∀ q ∈ live, ∀ k < i, q.2.order k = p.2.order k) ∧ ∃ q ∈ live, q.2.order i ≠ p.2.order i := by
  have hequal : ∀ k, valuesAreEqual (live.map fun p => p.2.order k) = true ↔ ∀ q ∈ live, q.2.order k = p.2.order k := by
    intro k
    rw [← not_iff_not, Bool.not_eq_true, not_valuesAreEqual_iff hp k]
    simp
  rw [← not_valuesAreEqual_iff hp i, firstDifference, find?_finRange_eq_some, Bool.not_eq_true', and_comm]
  simp only [Bool.not_eq_false', hequal]
  constructor
  · rintro ⟨hbefore, hi⟩
    exact ⟨fun q hq k hk => hbefore k hk q hq, hi⟩
  · rintro ⟨hbefore, hi⟩
    exact ⟨fun k hk q hq => hbefore q hq k hk, hi⟩

theorem firstDifference_eq_none {live : List (ι × Row V C W)} {p : ι × Row V C W} (hp : p ∈ live) :
    firstDifference live (List.finRange (n + 1)) = none → ∀ q ∈ live, q.2.order = p.2.order := by
  intro h q hq
  funext k
  by_contra hne
  have hdiffers := (not_valuesAreEqual_iff hp k).2 ⟨q, hq, hne⟩
  have hnot := List.find?_eq_none.1 h k (List.mem_finRange k)
  simp [hdiffers] at hnot

omit [∀ i, LinearOrder (V i)] in
theorem pairwise_column [LinearOrder ι] {live : List (ι × Row V C W)} (hsorted : live.Pairwise fun p q => p.1 < q.1)
    (i : Fin (n + 1)) : (live.map fun p => (p.1, p.2.order i)).Pairwise fun p q => p.1 < q.1 :=
  List.pairwise_map.2 hsorted

/-- the rule prefers the first of blocks with equal rows -/
theorem choose_first [LinearOrder ι] {live : List (ι × Row V C W)} (hsorted : live.Pairwise fun p q => p.1 < q.1)
    {j : ι} (h : choose orderByColumns live = .ok (some j)) :
    ∃ row, (j, row) ∈ live ∧ ∀ q ∈ live, q.2.order = row.order → j ≤ q.1 := by
  cases live with
  | nil => simp [choose, chooseFrom, List.finRange_succ] at h
  | cons first others =>
    rw [choose, chooseFrom_eq first others (by simp [List.finRange_succ])] at h
    cases hdiff : firstDifference (first :: others) (List.finRange (n + 1)) with
    | none =>
      rw [hdiff] at h
      simp only [Except.ok.injEq, Option.some.injEq] at h
      subst h
      refine ⟨first.2, List.mem_cons_self, fun q hq _ => ?_⟩
      rw [List.mem_cons] at hq
      rcases hq with rfl | hq
      · exact le_rfl
      · exact ((List.pairwise_cons.1 hsorted).1 q hq).le
    | some i =>
      rw [hdiff] at h
      simp only at h
      split at h
      · rename_i k hk
        simp only [Except.ok.injEq, Option.some.injEq] at h
        subst h
        rw [blockToMergeIdx_eq, extremeBy_eq_some (pairwise_column hsorted i)] at hk
        obtain ⟨v, hv, -, hbest⟩ := hk
        obtain ⟨q, hq, hqv⟩ := List.mem_map.1 hv
        obtain ⟨rfl, rfl⟩ := Prod.mk.inj hqv
        refine ⟨q.2, hq, fun r hr horder => ?_⟩
        exact (hbest _ (List.mem_map_of_mem hr)).2 (congrFun horder i)
      · simp at h

/-- Where a row comes up: it is before the next rows of the earlier blocks and not after those of the others. -/
structure ComesUp [LinearOrder ι] (orderByColumns : ∀ i, OrderColumn (V i)) (live : List (ι × Row V C W)) (b : ι)
    (row : Row V C W) : Prop where
  mem : (b, row) ∈ live
  earlier : ∀ q ∈ live, q.1 < b → Before orderByColumns row.order q.2.order
  least : ∀ q ∈ live, ¬ Before orderByColumns q.2.order row.order

/-- the first column in which the next rows differ finds the row: its value is not the limit of the column, and the
earlier blocks have another value there -/
def Distinct [LinearOrder ι] (orderByColumns : ∀ i, OrderColumn (V i)) (live : List (ι × Row V C W)) (b : ι)
    (row : Row V C W) : Prop :=
  ∀ i, (∀ q ∈ live, ∀ k < i, q.2.order k = row.order k) → (∃ q ∈ live, q.2.order i ≠ row.order i) →
    (orderByColumns i).Better (row.order i) (orderByColumns i).limit ∧
      ∀ q ∈ live, q.1 < b → q.2.order i ≠ row.order i

instance [LinearOrder ι] (orderByColumns : ∀ i, OrderColumn (V i)) (live : List (ι × Row V C W)) (b : ι)
    (row : Row V C W) : Decidable (Distinct orderByColumns live b row) := by
  unfold Distinct
  infer_instance

theorem choose_iff_distinct [LinearOrder ι] {live : List (ι × Row V C W)} (hsorted : live.Pairwise fun p q => p.1 < q.1)
    {b : ι} {row : Row V C W} (h : ComesUp orderByColumns live b row) :
    choose orderByColumns live = .ok (some b) ↔ Distinct orderByColumns live b row := by
  have hrow : ∀ q ∈ live, q.1 = b → q = (b, row) := by
    intro q hq hqb
    have hnodup : (live.map Prod.fst).Nodup := List.pairwise_map.2 (hsorted.imp fun hlt => hlt.ne)
    exact List.inj_on_of_nodup_map hnodup hq h.mem hqb
  obtain ⟨first, others, rfl⟩ := List.exists_cons_of_ne_nil (List.ne_nil_of_mem h.mem)
  rw [choose, chooseFrom_eq first others (by simp [List.finRange_succ])]
  cases hdiff : firstDifference (first :: others) (List.finRange (n + 1)) with
  | none =>
    have hequal := firstDifference_eq_none h.mem hdiff
    have hfirst : first.1 = b := by
      by_contra hne
      have hmem := h.mem
      rw [List.mem_cons] at hmem
      rcases hmem with rfl | hmem
      · exact hne rfl
      · have hlt := (List.pairwise_cons.1 hsorted).1 _ hmem
        have hbefore := h.earlier first List.mem_cons_self hlt
        rw [hequal first List.mem_cons_self] at hbefore
        exact Std.Irrefl.irrefl _ hbefore
    constructor
    · rintro - i - ⟨q, hq, hne⟩
      exact absurd (congrFun (hequal q hq) i) hne
    · intro _
      simp [hfirst]
  | some i =>
    obtain ⟨hbefore, hdiffers⟩ := (firstDifference_eq_some h.mem).1 hdiff
    -- no next row is better in this column, since they agree before it
    have hleast : ∀ q ∈ first :: others, ¬ (orderByColumns i).Better (q.2.order i) (row.order i) := by
      intro q hq hbetter
      exact h.least q hq ⟨i, fun k hk => hbefore q hq k hk, hbetter⟩
    have hchoose : (match blockToMergeIdx (orderByColumns i) ((first :: others).map fun p => (p.1, p.2.order i)) with
        | some j => (.ok (some j) : Except Error (Option ι))
        | none => .error .allBlocksEmpty) = .ok (some b) ↔
        extremeBy (orderByColumns i).Better (orderByColumns i).limit
          ((first :: others).map fun p => (p.1, p.2.order i)) = some b := by
      rw [blockToMergeIdx_eq]
      cases extremeBy (orderByColumns i).Better (orderByColumns i).limit
          ((first :: others).map fun p => (p.1, p.2.order i)) with
      | none => simp
      | some j => simp
    rw [hchoose, extremeBy_eq_some (pairwise_column hsorted i)]
    constructor
    · rintro ⟨v, hv, hlimit, hbest⟩ k hk hkdiffers
      obtain rfl : k = i := by
        have := (firstDifference_eq_some h.mem).2 ⟨hk, hkdiffers⟩
        exact Option.some.inj (this.symm.trans hdiff)
      obtain ⟨q, hq, hqv⟩ := List.mem_map.1 hv
      obtain ⟨hqb, rfl⟩ := Prod.mk.inj hqv
      obtain rfl := hrow q hq hqb
      refine ⟨hlimit, fun r hr hlt horder => ?_⟩
      exact absurd ((hbest _ (List.mem_map_of_mem hr)).2 horder) (not_le.2 hlt)
    · intro hdistinct
      obtain ⟨hlimit, hearlier⟩ := hdistinct i hbefore hdiffers
      refine ⟨row.order i, List.mem_map.2 ⟨(b, row), h.mem, rfl⟩, hlimit, ?_⟩
      intro q hq
      obtain ⟨r, hr, rfl⟩ := List.mem_map.1 hq
      refine ⟨hleast r hr, fun horder => ?_⟩
      by_contra hlt
      exact hearlier r hr (not_le.1 hlt) horder

theorem choose_none {live : List (ι × Row V C W)} (h : choose orderByColumns live = .ok none) : live = [] := by
  cases live with
  | nil => rfl
  | cons first others =>
    rw [choose, chooseFrom_eq first others (by simp [List.finRange_succ])] at h
    split at h
    · simp at h
    · split at h <;> simp at h

theorem choose_nil : choose orderByColumns ([] : List (ι × Row V C W)) = .ok none := by
  simp [choose, chooseFrom, List.finRange_succ]

end Choose

/-! ## The loop -/

section Loop

variable {n : ℕ} {V : Fin (n + 1) → Type} {C W : Type}

/-- the next rows as the loop sees them -/
def live {m : ℕ} (h : Fin m → Option (Source V C W m)) : List (Fin m × Row V C W) :=
  (List.finRange m).filterMap fun j => (h j).map fun x => (j, x.row)

theorem mem_live {m : ℕ} {h : Fin m → Option (Source V C W m)} {p : Fin m × Row V C W} :
    p ∈ live h ↔ ∃ x, h p.1 = some x ∧ x.row = p.2 := by
  simp only [live, List.mem_filterMap, List.mem_finRange, true_and, Option.map_eq_some_iff]
  constructor
  · rintro ⟨j, x, hx, rfl⟩
    exact ⟨x, hx, rfl⟩
  · rintro ⟨x, hx, hrow⟩
    exact ⟨p.1, x, hx, by rw [hrow]⟩

theorem pairwise_live {m : ℕ} (h : Fin m → Option (Source V C W m)) : (live h).Pairwise fun p q => p.1 < q.1 := by
  rw [live, List.pairwise_filterMap]
  apply (List.pairwise_lt_finRange m).imp
  intro j k hjk p hp q hq
  obtain ⟨x, -, rfl⟩ := Option.map_eq_some_iff.1 hp
  obtain ⟨y, -, rfl⟩ := Option.map_eq_some_iff.1 hq
  exact hjk

/-- the rows of a block from the merge position on -/
def rowsLeft (blocks : List (Block V C W)) (currentIndicesInBlocks : Fin blocks.length → ℕ) (j : Fin blocks.length) :
    List (Source V C W blocks.length) :=
  (rowsOf blocks j).drop (currentIndicesInBlocks j)

theorem liveRows_eq (blocks : List (Block V C W)) (cur : Fin blocks.length → ℕ) :
    liveRows blocks cur = live (heads (rowsLeft blocks cur)) := by
  unfold liveRows live
  congr 1
  funext j
  simp [heads, rowsLeft, rowsOf, List.head?_drop, List.getElem?_mapIdx, Option.map_map, Function.comp_def]

theorem rowsLeft_update {blocks : List (Block V C W)} (cur : Fin blocks.length → ℕ) (j : Fin blocks.length) :
    rowsLeft blocks (Function.update cur j (cur j + 1)) =
      Function.update (rowsLeft blocks cur) j (rowsLeft blocks cur j).tail := by
  funext k
  by_cases hk : k = j
  · subst hk
    simp [rowsLeft]
  · simp [rowsLeft, hk]

theorem block_of_mem {blocks : List (Block V C W)} {j : Fin blocks.length} {x : Source V C W blocks.length}
    (hx : x ∈ rowsOf blocks j) : x.block = j := by
  obtain ⟨k, hk, rfl⟩ := List.mem_mapIdx.1 hx
  rfl

theorem rowsLeft_eq_cons {blocks : List (Block V C W)} {cur : Fin blocks.length → ℕ} {j : Fin blocks.length}
    {x : Source V C W blocks.length} :
    (rowsOf blocks j)[cur j]? = some x ↔ rowsLeft blocks cur j = x :: (rowsLeft blocks cur j).tail := by
  rw [rowsLeft, ← List.head?_drop]
  cases (rowsOf blocks j).drop (cur j) with
  | nil => simp
  | cons y ys => simp

variable [∀ i, LinearOrder (V i)] {orderByColumns : ∀ i, OrderColumn (V i)}

/-- the block that one step takes, as a rule on the heads -/
def rule (orderByColumns : ∀ i, OrderColumn (V i)) {m : ℕ} (h : Fin m → Option (Source V C W m)) : Option (Fin m) :=
  match choose orderByColumns (live h) with
  | .ok j => j
  | .error _ => none

theorem rule_eq_some {m : ℕ} {h : Fin m → Option (Source V C W m)} {j : Fin m} :
    rule orderByColumns h = some j ↔ choose orderByColumns (live h) = .ok (some j) := by
  unfold rule
  split
  · rename_i k hk
    simp [hk]
  · rename_i e he
    simp [he]

/-- what the loop leaves is what the rule takes -/
theorem merges_of_run {blocks : List (Block V C W)} {fuel : ℕ} {st st' : MergeState V C W blocks.length}
    (h : run orderByColumns blocks fuel st = .ok st') :
    ∃ out, Merges (rule orderByColumns) (rowsLeft blocks st.currentIndicesInBlocks) out ∧
      st' = out.foldl (write blocks) st := by
  induction fuel generalizing st with
  | zero => simp [run] at h
  | succ fuel ih =>
    rw [run] at h
    split at h
    · simp at h
    · rename_i hnone
      obtain rfl := Except.ok.inj h
      have hempty := choose_none hnone
      rw [liveRows_eq] at hempty
      refine ⟨[], .done fun j => ?_, rfl⟩
      by_contra hne
      obtain ⟨x, xs, hx⟩ := List.exists_cons_of_ne_nil hne
      have hmem : (j, x.row) ∈ live (heads (rowsLeft blocks st.currentIndicesInBlocks)) :=
        mem_live.2 ⟨x, heads_eq_some.2 ⟨xs, hx⟩, rfl⟩
      simp [hempty] at hmem
    · rename_i j hj
      split at h
      · simp at h
      · rename_i x hx
        split_ifs at h with hsize
        obtain ⟨out, hmerges, rfl⟩ := ih h
        have hblock : x.block = j := block_of_mem (List.mem_of_getElem? hx)
        have hrows : rowsLeft blocks st.currentIndicesInBlocks j =
            x :: (rowsLeft blocks st.currentIndicesInBlocks j).tail := rowsLeft_eq_cons.1 hx
        refine ⟨x :: out, .take ?_ hrows ?_, rfl⟩
        · rw [rule_eq_some, ← liveRows_eq]
          exact hj
        · rw [← rowsLeft_update]
          subst hblock
          exact hmerges

/-- with enough fuel the loop ends -/
theorem run_of_merges {blocks : List (Block V C W)} {out : List (Source V C W blocks.length)}
    {rest : Fin blocks.length → List (Source V C W blocks.length)} (h : Merges (rule orderByColumns) rest out) :
    ∀ (fuel : ℕ) (st : MergeState V C W blocks.length), rest = rowsLeft blocks st.currentIndicesInBlocks →
      st.resultSetIdx + out.length ≤ resultSetSize blocks → out.length < fuel →
      run orderByColumns blocks fuel st = .ok (out.foldl (write blocks) st) := by
  induction h with
  | done hempty =>
    intro fuel st hrest _ hfuel
    obtain ⟨fuel, rfl⟩ := Nat.exists_eq_succ_of_ne_zero (Nat.ne_of_gt hfuel)
    have hlive : liveRows blocks st.currentIndicesInBlocks = [] := by
      rw [liveRows_eq, ← hrest]
      apply List.eq_nil_iff_forall_not_mem.2
      intro p hp
      obtain ⟨x, hx, -⟩ := mem_live.1 hp
      obtain ⟨xs, hxs⟩ := heads_eq_some.1 hx
      simp [hempty] at hxs
    rw [run, hlive, choose_nil]
    rfl
  | @take rest j x xs out hchoose hj _ ih =>
    intro fuel st hrest hsize hfuel
    obtain ⟨fuel, rfl⟩ := Nat.exists_eq_succ_of_ne_zero (Nat.ne_of_gt (Nat.zero_lt_of_lt hfuel))
    subst hrest
    rw [rule_eq_some, ← liveRows_eq] at hchoose
    have htail : (rowsLeft blocks st.currentIndicesInBlocks j).tail = xs := by rw [hj, List.tail_cons]
    have hx : (rowsOf blocks j)[st.currentIndicesInBlocks j]? = some x := by
      rw [rowsLeft_eq_cons, htail]
      exact hj
    have hblock : x.block = j := block_of_mem (List.mem_of_getElem? hx)
    subst hblock
    simp only [List.length_cons] at hsize hfuel
    simp only [run, hchoose, hx]
    rw [if_pos (by omega)]
    refine ih fuel (write blocks st x) ?_ ?_ (by omega)
    · rw [← htail, ← rowsLeft_update]
      rfl
    · simp only [write]
      omega

end Loop

/-! ## The result vectors -/

section Result

variable {n : ℕ} {V : Fin (n + 1) → Type} {C W : Type} [Inhabited W]

/-- the result vectors hold the copied rows, and nothing after them -/
structure Written (blocks : List (Block V C W)) (st : MergeState V C W blocks.length) : Prop where
  index : st.resultSetIdx = st.copied.length
  columns : ∀ c, st.columnsMerged c = st.copied.map (fun x => x.row.ret c) ++
    List.replicate (resultSetSize blocks - st.copied.length) default
  words : ∀ c, (st.columnsNullMerged c).length = getNullBitMaskSize (resultSetSize blocks)
  bits : ∀ c k, getBit (st.columnsNullMerged c) k = ((st.copied[k]?).map fun x => nullBit blocks x c).getD false

theorem written_start (blocks : List (Block V C W)) : Written blocks (start blocks) where
  index := rfl
  columns c := by simp [start]
  words c := by simp [start, zeroMask]
  bits c k := by simp [start, getBit_zeroMask]

/-- the word of the result mask as the loop writes it -/
theorem getBit_or {mask : Mask} {i : ℕ} (hi : i / 64 < mask.length) (hclear : getBit mask i = false) (b : Bool)
    (k : ℕ) :
    getBit (mask.modify (getBitMaskIdx i) fun word => word ||| ((if b then 1#64 else 0#64) <<< getShiftMaskIdx i)) k =
      if k = i then b else getBit mask k := by
  cases b with
  | true =>
    rw [← getBit_setBit mask i k true hi]
    rfl
  | false =>
    have hsame : (mask.modify (getBitMaskIdx i) fun word => word ||| ((0#64) <<< getShiftMaskIdx i)) = mask := by
      apply List.ext_getElem?
      intro l
      simp [List.getElem?_modify]
    simp only [Bool.false_eq_true, if_false, hsame]
    split_ifs with h
    · rw [h, hclear]
    · rfl

theorem written_write {blocks : List (Block V C W)} {st : MergeState V C W blocks.length} (h : Written blocks st)
    (hsize : st.copied.length < resultSetSize blocks) (x : Source V C W blocks.length) :
    Written blocks (write blocks st x) where
  index := by simp [write, h.index]
  columns c := by
    obtain ⟨k, hk⟩ : ∃ k, resultSetSize blocks - st.copied.length = k + 1 := ⟨_, (Nat.succ_pred (by omega)).symm⟩
    have hk' : resultSetSize blocks - (st.copied.length + 1) = k := by omega
    simp only [write, h.columns c, h.index, hk, List.length_append, List.length_singleton, hk', List.map_append]
    rw [List.set_append_right _ _ (by simp), List.length_map, Nat.sub_self, List.replicate_succ, List.set_cons_zero]
    simp
  words c := by simp [write, h.words c]
  bits c k := by
    have hword : st.resultSetIdx / 64 < (st.columnsNullMerged c).length := by
      rw [h.words c, h.index, getNullBitMaskSize]
      omega
    have hclear : getBit (st.columnsNullMerged c) st.resultSetIdx = false := by
      rw [h.bits c, h.index]
      simp
    simp only [write]
    rw [getBit_or hword hclear, h.bits c k, h.index]
    split_ifs with hk
    · simp [hk]
    · by_cases hlt : k < st.copied.length
      · rw [List.getElem?_append_left hlt]
      · rw [List.getElem?_eq_none (by omega), List.getElem?_eq_none (by simp; omega)]

theorem foldl_write {blocks : List (Block V C W)} (out : List (Source V C W blocks.length))
    (st : MergeState V C W blocks.length) (h : Written blocks st)
    (hsize : st.copied.length + out.length ≤ resultSetSize blocks) :
    Written blocks (out.foldl (write blocks) st) ∧ (out.foldl (write blocks) st).copied = st.copied ++ out := by
  induction out generalizing st with
  | nil => simpa using h
  | cons x out ih =>
    simp only [List.length_cons] at hsize
    have hnext := ih (write blocks st x) (written_write h (by omega) x) (by simp [write]; omega)
    simpa [write] using hnext

end Result

/-! ## When the merge sorts -/

section Sorting

variable {n : ℕ} {V : Fin (n + 1) → Type} [∀ i, LinearOrder (V i)] {C W : Type}

/-- the order of the rows of the blocks -/
def Earlier (orderByColumns : ∀ i, OrderColumn (V i)) {m : ℕ} (x y : Source V C W m) : Prop :=
  Before orderByColumns x.row.order y.row.order

instance (orderByColumns : ∀ i, OrderColumn (V i)) (m : ℕ) :
    DecidableRel (Earlier orderByColumns : Source V C W m → Source V C W m → Prop) := fun x y =>
  inferInstanceAs (Decidable (Before orderByColumns x.row.order y.row.order))

instance (orderByColumns : ∀ i, OrderColumn (V i)) (m : ℕ) :
    IsStrictWeakOrder (Source V C W m) (Earlier orderByColumns) :=
  inferInstanceAs (IsStrictWeakOrder (Source V C W m)
    (Order.Preimage (fun x => x.row.order) (Before orderByColumns)))

/-- the merge gives all rows, sorted, with the values and null flags of every returned column -/
def Sorts [Inhabited W] (orderByColumns : ∀ i, OrderColumn (V i)) (orderByBlocks : List (List (Block V C W))) : Prop :=
  ∃ st, orderByReconstructRetAllBlocks orderByColumns orderByBlocks = .ok st ∧
    st.copied.Perm ((List.finRange _).flatMap (rowsOf (allBlocks orderByBlocks))) ∧
    (st.copied.Pairwise fun x y => ¬ Before orderByColumns y.row.order x.row.order) ∧
    ∀ c, st.columnsMerged c = st.copied.map (fun x => x.row.ret c) ∧
      ∀ k (hk : k < st.copied.length),
        getBit (st.columnsNullMerged c) k = nullBit (allBlocks orderByBlocks) (st.copied.get ⟨k, hk⟩) c

/-- the next row of each block when `x` comes up in block `b` of a sorted merge -/
def nextRows (orderByColumns : ∀ i, OrderColumn (V i)) (blocks : List (Block V C W)) (b : Fin blocks.length)
    (x : Source V C W blocks.length) : List (Fin blocks.length × Row V C W) :=
  live (cut (Earlier orderByColumns) (rowsOf blocks) b x)

theorem sorted_rowsOf {orderByColumns : ∀ i, OrderColumn (V i)} {blocks : List (Block V C W)}
    (hsorted : ∀ block ∈ blocks, block.rows.Pairwise fun r s => ¬ Before orderByColumns s.order r.order)
    (j : Fin blocks.length) : Sorted (Earlier orderByColumns) (rowsOf blocks j) := by
  have hblock := hsorted _ (List.get_mem blocks j)
  rw [Sorted, List.pairwise_iff_getElem]
  intro a b ha hb hab
  simp only [rowsOf, List.length_mapIdx] at ha hb
  simp only [rowsOf, List.getElem_mapIdx]
  exact List.pairwise_iff_getElem.1 hblock a b ha hb hab

theorem rule_first {orderByColumns : ∀ i, OrderColumn (V i)} {m : ℕ} (h : Fin m → Option (Source V C W m)) (j : Fin m)
    (x : Source V C W m) (hrule : rule orderByColumns h = some j) (hx : h j = some x) (k : Fin m) (y : Source V C W m)
    (hy : h k = some y) (hxy : ¬ Earlier orderByColumns x y) (hyx : ¬ Earlier orderByColumns y x) : j ≤ k := by
  obtain ⟨row, hrow, hfirst⟩ := choose_first (pairwise_live h) (rule_eq_some.1 hrule)
  obtain ⟨x', hx', rfl⟩ := mem_live.1 hrow
  obtain rfl : x = x' := Option.some.inj (hx.symm.trans hx')
  refine hfirst (k, y.row) (mem_live.2 ⟨y, hy, rfl⟩) ?_
  exact Std.Trichotomous.trichotomous _ _ hyx hxy

theorem rule_cut {orderByColumns : ∀ i, OrderColumn (V i)} {blocks : List (Block V C W)} (b : Fin blocks.length)
    (x : Source V C W blocks.length) :
    rule orderByColumns (cut (Earlier orderByColumns) (rowsOf blocks) b x) = some b ↔
      Distinct orderByColumns (nextRows orderByColumns blocks b x) b x.row := by
  rw [rule_eq_some]
  apply choose_iff_distinct (pairwise_live _)
  have hcases : ∀ j y, cut (Earlier orderByColumns) (rowsOf blocks) b x j = some y →
      (j < b ∧ Earlier orderByColumns x y) ∨ (j = b ∧ y = x) ∨ (b < j ∧ ¬ Earlier orderByColumns y x) := by
    intro j y hy
    simp only [cut] at hy
    split_ifs at hy with hlt heq
    · exact Or.inl ⟨hlt, by simpa using List.find?_some hy⟩
    · exact Or.inr (Or.inl ⟨heq, (Option.some.inj hy).symm⟩)
    · exact Or.inr (Or.inr ⟨lt_of_le_of_ne (not_lt.1 hlt) (Ne.symm heq), by simpa using List.find?_some hy⟩)
  refine ⟨mem_live.2 ⟨x, by simp [cut], rfl⟩, ?_, ?_⟩
  · intro q hq hlt
    obtain ⟨y, hy, hrow⟩ := mem_live.1 hq
    rcases hcases _ _ hy with ⟨-, h⟩ | ⟨h, -⟩ | ⟨h, -⟩
    · rw [← hrow]
      exact h
    · exact absurd hlt h.not_lt
    · exact absurd hlt h.not_gt
  · intro q hq
    obtain ⟨y, hy, hrow⟩ := mem_live.1 hq
    rw [← hrow]
    rcases hcases _ _ hy with ⟨-, h⟩ | ⟨-, rfl⟩ | ⟨-, h⟩
    · exact fun h' => Std.Irrefl.irrefl (r := Before orderByColumns) _ (IsTrans.trans _ _ _ h h')
    · exact Std.Irrefl.irrefl _
    · exact h

omit [∀ i, LinearOrder (V i)] in
theorem flatMap_perm {blocks : List (Block V C W)} {out : List (Source V C W blocks.length)}
    (h : (out : Multiset (Source V C W blocks.length)) = ∑ j, (rowsOf blocks j : Multiset _)) :
    out.Perm ((List.finRange _).flatMap (rowsOf blocks)) := by
  rw [← Multiset.coe_eq_coe, h, ← Multiset.coe_bind]
  rfl

omit [∀ i, LinearOrder (V i)] in
theorem length_of_perm {blocks : List (Block V C W)} {out : List (Source V C W blocks.length)}
    (h : (out : Multiset (Source V C W blocks.length)) = ∑ j, (rowsOf blocks j : Multiset _)) :
    out.length = resultSetSize blocks := by
  have hcard := congrArg Multiset.card h
  rw [Multiset.coe_card, Multiset.card_sum] at hcard
  rw [hcard, resultSetSize, ← Fin.sum_univ_fun_getElem]
  simp [rowsOf]

/-- Each input block is sorted. Then the merge sorts exactly when there is a block, and every row is found by the first
column in which the next rows differ. (The thread that merges has just left a block, so there is one.) -/
theorem merge_sorts [Inhabited W] (orderByColumns : ∀ i, OrderColumn (V i)) (orderByBlocks : List (List (Block V C W)))
    (hsorted : ∀ block ∈ allBlocks orderByBlocks,
      block.rows.Pairwise fun r s => ¬ Before orderByColumns s.order r.order) :
    Sorts orderByColumns orderByBlocks ↔ allBlocks orderByBlocks ≠ [] ∧ ∀ b, ∀ x ∈ rowsOf (allBlocks orderByBlocks) b,
      Distinct orderByColumns (nextRows orderByColumns (allBlocks orderByBlocks) b x) b x.row := by
  by_cases hblocks : allBlocks orderByBlocks = []
  · constructor
    · rintro ⟨st, hst, -⟩
      rw [orderByReconstructRetAllBlocks, if_pos hblocks] at hst
      exact absurd hst (by simp)
    · rintro ⟨hne, -⟩
      exact absurd hblocks hne
  set blocks := allBlocks orderByBlocks with hdef
  have hiff : (∃ out, Merges (rule orderByColumns) (rowsOf blocks) out ∧ Sorted (Earlier orderByColumns) out) ↔
      ∀ b, ∀ x ∈ rowsOf blocks b, rule orderByColumns (cut (Earlier orderByColumns) (rowsOf blocks) b x) = some b :=
    sorted_iff rule_first (sorted_rowsOf hsorted)
  simp only [rule_cut] at hiff
  rw [← hiff, and_iff_right hblocks]
  have hstart : rowsLeft blocks (start blocks).currentIndicesInBlocks = rowsOf blocks := by
    funext j
    simp [rowsLeft, start]
  have hrun : orderByReconstructRetAllBlocks orderByColumns orderByBlocks =
      run orderByColumns blocks (resultSetSize blocks + 1) (start blocks) := if_neg hblocks
  constructor
  · rintro ⟨st, hst, -, hout, -⟩
    rw [hrun] at hst
    obtain ⟨out, hmerges, rfl⟩ := merges_of_run hst
    rw [hstart] at hmerges
    have hlength := length_of_perm hmerges.coe_eq_sum
    obtain ⟨-, hcopied⟩ := foldl_write out (start blocks) (written_start blocks) (by simp [start, hlength])
    rw [hcopied] at hout
    exact ⟨out, hmerges, hout⟩
  · rintro ⟨out, hmerges, hout⟩
    have hlength := length_of_perm hmerges.coe_eq_sum
    obtain ⟨hwritten, hcopied⟩ :=
      foldl_write out (start blocks) (written_start blocks) (by simp [start, hlength])
    have hcopied' : (out.foldl (write blocks) (start blocks)).copied = out := hcopied
    refine ⟨out.foldl (write blocks) (start blocks), ?_, ?_, ?_, ?_⟩
    · rw [hrun]
      exact run_of_merges hmerges _ _ hstart.symm (by simp [start, hlength]) (by omega)
    · rw [hcopied']
      exact flatMap_perm hmerges.coe_eq_sum
    · rw [hcopied']
      exact hout
    · intro c
      refine ⟨?_, fun k hk => ?_⟩
      · rw [hwritten.columns c, hcopied', hlength]
        simp
      · rw [hwritten.bits c k, List.getElem?_eq_getElem hk]
        rfl

/-- a block of one row that returns its second order column -/
def blockOf (a b : ℤ) : Block (fun _ : Fin 2 => ℤ) Unit ℤ where
  rows := [⟨![a, b], fun _ => b⟩]
  retNull _ := [0]
  retNull_size _ := by simp [getNullBitMaskSize]

def int32Columns : Fin 2 → OrderColumn ℤ := fun _ => ⟨.asc, -2147483648, 2147483647⟩

theorem blockOf_sorted (columns : Fin 2 → OrderColumn ℤ) (a b : ℤ) :
    (blockOf a b).rows.Pairwise fun r s => ¬ Before columns s.order r.order :=
  List.pairwise_singleton _ _

theorem merge_sorts_three_blocks : Sorts int32Columns [[blockOf 1 3, blockOf 1 5], [blockOf 2 0]] := by
  have hsorted : ∀ block ∈ allBlocks [[blockOf 1 3, blockOf 1 5], [blockOf 2 0]],
      block.rows.Pairwise fun r s => ¬ Before int32Columns s.order r.order := by
    simp [allBlocks, blockOf_sorted]
  refine (merge_sorts int32Columns _ hsorted).2 ⟨by simp [allBlocks], ?_⟩
  decide

/-- Of the rows (1, 5), (1, 3) and (2, 0) the first two share the least value of the first column, and the first block
of them is taken. -/
theorem tie_of_two_heads : ¬ Sorts int32Columns [[blockOf 1 5], [blockOf 1 3], [blockOf 2 0]] := by
  rintro ⟨st, hst, -, hsorted, -⟩
  have hcopied : (orderByReconstructRetAllBlocks int32Columns [[blockOf 1 5], [blockOf 1 3], [blockOf 2 0]]).map
      (fun st => st.copied.map fun x => x.row.order) = .ok [![1, 5], ![1, 3], ![2, 0]] := rfl
  rw [hst] at hcopied
  have horders : st.copied.map (fun x => x.row.order) = [![1, 5], ![1, 3], ![2, 0]] := Except.ok.inj hcopied
  have hpairs : (st.copied.map fun x => x.row.order).Pairwise fun r s => ¬ Before int32Columns s r :=
    List.pairwise_map.2 hsorted
  rw [horders] at hpairs
  exact absurd hpairs (by decide)

end Sorting

end QikkDB.OrderByMerge

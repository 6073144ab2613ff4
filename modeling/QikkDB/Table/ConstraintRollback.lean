/-
The rollback of `AddConstraint` (Table.cpp, `AddConstraint`, `AddSortingColumn`, `RemoveSortingColumn`; ColumnBase.h,
`SetIsNullable`, `SetIsUnique`; BlockBase.h, `SetIsNullable`), with the null masks of the blocks.

`AddConstraint` sets the columns of the constraint one after the other. When one of them throws, it takes the flag from
all columns before it: it does not know which of them had the flag before, NOT NULL cannot be taken from a column that is
UNIQUE, and a block that becomes nullable gets a mask of zeros. The values of all columns are of one type here.

Results:
- `process_columns`: what a loop over columns does to each column.
- `addConstraint_atomic`: a call that throws changes nothing exactly when the columns taken back are those that were set,
  and their null masks are zero.
- `rollback_drops_not_null`: a column that was NOT NULL before is nullable after a call that failed.
-/
import Mathlib.Data.List.TakeWhile
import Mathlib.Tactic
import QikkDB.Core.Column
import QikkDB.Lib.Traverse
import QikkDB.Table.Constraints

set_option linter.unusedSectionVars false

namespace QikkDB.ConstraintRollback

open NullValues
open Constraints (ConstraintType)

variable {α : Type} [Element α] [DecidableEq α]

/-! ## Model -/

structure Table (α : Type) where
  columns : String → Option (Column α)
  sortingColumns : List String
  constraints : String → Option (ConstraintType × List String)

/-- what is thrown -/
inductive Thrown where
  /-- std::out_of_range of the map of columns -/
  | outOfRange
  | fault (f : Fault)
deriving DecidableEq, Repr

/-- a call on a column through `GetColumns().at` -/
def atColumn (t : Table α) (x : String) (f : Column α → Outcome (Column α)) : Table α × Option Thrown :=
  match t.columns x with
  | none => (t, some .outOfRange)
  | some c => ({ t with columns := Function.update t.columns x (some (f c).1) }, (f c).2.map .fault)

/-- `SetIsNullable`; a column that throws stays as it is -/
def setIsNullable (isNullable : Bool) (c : Column α) : Outcome (Column α) :=
  match c.setIsNullable isNullable with
  | .ok c' => (c', none)
  | .error e => (c, some e)

def addSortingColumn (t : Table α) (x : String) : Table α :=
  if x ∈ t.sortingColumns then t else { t with sortingColumns := t.sortingColumns ++ [x] }

def removeSortingColumn (t : Table α) (x : String) : Table α := { t with sortingColumns := t.sortingColumns.erase x }

section Calls

variable (toString : α → String)

/-- one column of a new constraint -/
def setColumn (type : ConstraintType) (t : Table α) (x : String) : Table α × Option Thrown :=
  match type with
  | .index => (addSortingColumn t x, none)
  | .notNull => atColumn t x (setIsNullable false)
  | .unique => atColumn t x fun c => c.setIsUnique true toString
  | .none => (t, none)

/-- one column of the rollback -/
def unsetColumn (type : ConstraintType) (t : Table α) (x : String) : Table α × Option Thrown :=
  match type with
  | .index => (removeSortingColumn t x, none)
  | .notNull => atColumn t x (setIsNullable true)
  | .unique => atColumn t x fun c => c.setIsUnique false toString
  | .none => (t, none)

/-- a loop over columns: the table, the processed columns and what was thrown -/
def process (f : Table α → String → Table α × Option Thrown) :
    Table α → List String → Table α × List String × Option Thrown
  | t, [] => (t, [], none)
  | t, x :: xs =>
    match f t x with
    | (t', some e) => (t', [], some e)
    | (t', none) => ((process f t' xs).1, x :: (process f t' xs).2.1, (process f t' xs).2.2)

/-- `AddConstraint`; a name that is taken is not inserted, and what the rollback throws replaces what was thrown -/
def addConstraint (t : Table α) (name : String) (type : ConstraintType) (cols : List String) :
    Table α × Option Thrown :=
  match process (setColumn toString type) t cols with
  | (t', _, none) =>
    match t'.constraints name with
    | some _ => (t', none)
    | none => ({ t' with constraints := Function.update t'.constraints name (some (type, cols)) }, none)
  | (t', done, some e) =>
    match process (unsetColumn toString type) t' done with
    | (t'', _, none) => (t'', some e)
    | (t'', _, some e') => (t'', some e')

/-! ## Atomicity -/

/-- flags and null masks of a column -/
def flags (c : Column α) : Bool × Bool × List (Option Mask) :=
  (c.isNullable, c.isUnique, c.getBlocksList.map Block.bitMask)

structure Unchanged (t t' : Table α) : Prop where
  columns : ∀ x, (t'.columns x).map flags = (t.columns x).map flags
  sortingColumns : t'.sortingColumns = t.sortingColumns
  constraints : t'.constraints = t.constraints

/-- a call that throws leaves flags, null masks, sorting columns and constraints as they were -/
def Atomic (t : Table α) (name : String) (type : ConstraintType) (cols : List String) : Prop :=
  (addConstraint toString t name type cols).2 ≠ none → Unchanged t (addConstraint toString t name type cols).1

end Calls

/-! ## Which calls are atomic -/

def hasNull (c : Column α) : Bool := c.getBlocksList.any fun b => (List.range b.size).any b.isNull

/-- the column can take the constraint -/
def takes (type : ConstraintType) (t : Table α) (x : String) : Bool :=
  match type, t.columns x with
  | .none, _ => true
  | .index, _ => true
  | _, none => false
  | .notNull, some c => !c.isNullable || !hasNull c
  | .unique, some c => c.isUnique || (!c.isNullable && decide (c.getBlocksList.flatMap Block.rows).Nodup)

/-- the column has what the constraint stands for -/
def has (type : ConstraintType) (t : Table α) (x : String) : Bool :=
  match type, t.columns x with
  | .notNull, some c => !c.isNullable
  | .unique, some c => c.isUnique
  | _, _ => false

def isUnique (t : Table α) (x : String) : Bool :=
  match t.columns x with
  | none => false
  | some c => c.isUnique

/-- the columns that are set before one throws -/
def processed (type : ConstraintType) (t : Table α) (cols : List String) : List String :=
  cols.takeWhile (takes type t)

/-- the columns that the rollback takes back; that of NOT NULL ends at a column that is UNIQUE -/
def undone (type : ConstraintType) (t : Table α) (cols : List String) : List String :=
  match type with
  | .notNull => (processed type t cols).takeWhile fun x => !isUnique t x
  | _ => processed type t cols

/-- all null masks of the column are zero, behind the rows too -/
def ZeroMasks (t : Table α) (x : String) : Prop :=
  ∀ c, t.columns x = some c → ∀ b ∈ c.getBlocksList, b.bitMask = some (zeroMask b.capacity)

/-- Of the columns that were set, those that are taken back did not have the flag before, with null masks of zeros in
the case of NOT NULL, and the others had it. -/
def Restores (type : ConstraintType) (t : Table α) (cols : List String) : Prop :=
  ∀ x ∈ processed type t cols,
    if x ∈ undone type t cols then has type t x = false ∧ (type = .notNull → ZeroMasks t x) else has type t x = true

/-! ## Calls on one column -/

/-- the column without its hash set, which is not part of what is compared -/
def forget (c : Column α) : Column α := { c with uniqueHashmap := [] }

theorem flags_forget (c : Column α) : flags (forget c) = flags c := rfl

/-- A call on a column: when it returns, what it then does, both up to the hash set, and that it keeps columns valid. -/
structure Operation (op : Column α → Outcome (Column α)) (test : Column α → Bool) (effect : Column α → Column α) :
    Prop where
  returns : ∀ c, c.Valid → ((op c).2 = none ↔ test c = true)
  done : ∀ c, c.Valid → test c = true → forget (op c).1 = effect (forget c)
  failed : ∀ c, c.Valid → test c = false → forget (op c).1 = forget c
  valid : ∀ c, c.Valid → (op c).1.Valid
  test_forget : ∀ c, test (forget c) = test c
  test_effect : ∀ c, test c = true → test (effect c) = true
  twice : ∀ c, effect (effect c) = effect c

/-- all blocks nullable or all not -/
def withMasks (isNullable : Bool) (c : Column α) : Column α :=
  { c with
    isNullable := isNullable
    blocks := c.blocks.map fun g => (g.1, g.2.map fun b => b.setIsNullable isNullable) }

theorem getBlocksList_withMasks (isNullable : Bool) (c : Column α) :
    (withMasks isNullable c).getBlocksList = c.getBlocksList.map fun b => b.setIsNullable isNullable := by
  simp only [Column.getBlocksList, withMasks, List.flatMap_map, List.map_flatMap]

theorem block_setIsNullable_twice (isNullable : Bool) (b : Block α) :
    (b.setIsNullable isNullable).setIsNullable isNullable = b.setIsNullable isNullable := by
  unfold Block.setIsNullable
  cases isNullable <;> cases hmask : b.bitMask <;> simp [Block.isNullable, hmask]

theorem withMasks_twice (isNullable : Bool) (c : Column α) :
    withMasks isNullable (withMasks isNullable c) = withMasks isNullable c := by
  simp only [withMasks, List.map_map]
  congr 1
  refine List.map_congr_left fun g _ => ?_
  simp only [Function.comp_apply, List.map_map]
  congr 1
  exact List.map_congr_left fun b _ => block_setIsNullable_twice isNullable b

/-- blocks that are as the column says stay as they are -/
theorem withMasks_self {c : Column α} (h : c.Valid) : withMasks c.isNullable c = c := by
  have hblocks : (c.blocks.map fun g => (g.1, g.2.map fun b => b.setIsNullable c.isNullable)) = c.blocks := by
    calc (c.blocks.map fun g => (g.1, g.2.map fun b => b.setIsNullable c.isNullable))
        = c.blocks.map id := by
          refine List.map_congr_left fun g hg => ?_
          refine Prod.ext rfl ?_
          calc g.2.map (fun b => b.setIsNullable c.isNullable)
              = g.2.map id := by
                refine List.map_congr_left fun b hb => ?_
                have hb := h.blocks b (List.mem_flatMap.2 ⟨g, hg, hb⟩)
                exact if_pos hb.nullable
            _ = g.2 := List.map_id _
      _ = c.blocks := List.map_id _
  simp only [withMasks, hblocks]

theorem block_valid_setIsNullable {b : Block α} {blockSize : ℕ} {wasNullable : Bool} (h : b.Valid blockSize wasNullable)
    (isNullable : Bool) : (b.setIsNullable isNullable).Valid blockSize isNullable := by
  unfold Block.setIsNullable
  split_ifs with hsame htrue
  · exact ⟨h.capacity, h.stored, h.room, hsame, h.mask⟩
  · refine ⟨h.capacity, h.stored, h.room, htrue.symm, ?_⟩
    intro m hm
    obtain rfl := Option.some.inj hm
    simp [zeroMask, h.capacity]
  · refine ⟨h.capacity, h.stored, h.room, ?_, ?_⟩
    · simpa [Block.isNullable] using htrue
    · intro m hm
      cases hm

theorem valid_withMasks {c : Column α} (h : c.Valid) {isNullable : Bool} (hunique : c.isUnique = true → isNullable = false) :
    (withMasks isNullable c).Valid := by
  refine ⟨h.small, fun b hb => ?_, hunique⟩
  rw [getBlocksList_withMasks] at hb
  obtain ⟨b, hmem, rfl⟩ := List.mem_map.1 hb
  exact block_valid_setIsNullable (h.blocks b hmem) isNullable

theorem setIsNullable_self {c : Column α} (h : c.Valid) :
    setIsNullable c.isNullable c = (withMasks c.isNullable c, none) := by
  rw [withMasks_self h, setIsNullable, Column.setIsNullable, if_pos rfl]

theorem setIsNullable_true {c : Column α} (h : c.Valid) (htest : (c.isNullable || !c.isUnique) = true) :
    setIsNullable true c = (withMasks true c, none) := by
  cases hnull : c.isNullable with
  | true =>
    have := setIsNullable_self h
    rwa [hnull] at this
  | false =>
    have huniq : c.isUnique = false := by simpa [hnull] using htest
    simp [setIsNullable, Column.setIsNullable, hnull, huniq, withMasks]

theorem setIsNullable_true_failed {c : Column α} (htest : (c.isNullable || !c.isUnique) = false) :
    ∃ e, setIsNullable true c = (c, some e) := by
  obtain ⟨hnull, huniq⟩ : c.isNullable = false ∧ c.isUnique = true := by simpa using htest
  simp [setIsNullable, Column.setIsNullable, hnull, huniq]

theorem setIsNullable_false {c : Column α} (h : c.Valid) (htest : (!c.isNullable || !hasNull c) = true) :
    setIsNullable false c = (withMasks false c, none) := by
  cases hnull : c.isNullable with
  | false =>
    have := setIsNullable_self h
    rwa [hnull] at this
  | true =>
    have hany : hasNull c = false := by simpa [hnull] using htest
    unfold hasNull at hany
    simp only [setIsNullable, Column.setIsNullable, hnull, Bool.true_eq_false, if_false, Bool.false_eq_true, hany,
      withMasks]

theorem setIsNullable_false_failed {c : Column α} (htest : (!c.isNullable || !hasNull c) = false) :
    ∃ e, setIsNullable false c = (c, some e) := by
  obtain ⟨hnull, hany⟩ : c.isNullable = true ∧ hasNull c = true := by simpa using htest
  unfold hasNull at hany
  simp only [setIsNullable, Column.setIsNullable, hnull, Bool.true_eq_false, if_false, Bool.false_eq_true, hany, if_true]
  exact ⟨_, rfl⟩

/-- an operation from what it gives when its test holds and when not -/
theorem operation_of_cases {op : Column α → Outcome (Column α)} {test : Column α → Bool}
    {effect : Column α → Column α}
    (hdone : ∀ c, c.Valid → test c = true → (op c).2 = none ∧ forget (op c).1 = effect (forget c) ∧ (op c).1.Valid)
    (hfailed : ∀ c, c.Valid → test c = false → (op c).2 ≠ none ∧ forget (op c).1 = forget c)
    (htest : ∀ c, test (forget c) = test c) (heffect : ∀ c, test c = true → test (effect c) = true)
    (htwice : ∀ c, effect (effect c) = effect c) : Operation op test effect := by
  refine ⟨fun c h => ?_, fun c h ht => (hdone c h ht).2.1, fun c h ht => (hfailed c h ht).2, fun c h => ?_, htest,
    heffect, htwice⟩
  · cases ht : test c with
    | true => simpa using (hdone c h ht).1
    | false => simpa using (hfailed c h ht).1
  · cases ht : test c with
    | true => exact (hdone c h ht).2.2
    | false =>
      -- a column is valid whatever its hash set is
      have hsame := (hfailed c h ht).2
      have hvalid : (forget (op c).1).Valid := hsame ▸ ⟨h.small, h.blocks, h.notNull⟩
      exact ⟨hvalid.small, hvalid.blocks, hvalid.notNull⟩

theorem setNotNull_operation :
    Operation (setIsNullable (α := α) false) (fun c => !c.isNullable || !hasNull c) (withMasks false) := by
  refine operation_of_cases (fun c h ht => ?_) (fun c h ht => ?_) (fun c => rfl) (fun c _ => rfl) (withMasks_twice false)
  · rw [setIsNullable_false h ht]
    exact ⟨rfl, rfl, valid_withMasks h fun _ => rfl⟩
  · obtain ⟨e, he⟩ := setIsNullable_false_failed ht
    rw [he]
    exact ⟨by simp, rfl⟩

theorem unsetNotNull_operation :
    Operation (setIsNullable (α := α) true) (fun c => c.isNullable || !c.isUnique) (withMasks true) := by
  refine operation_of_cases (fun c h ht => ?_) (fun c h ht => ?_) (fun c => rfl) (fun c _ => rfl) (withMasks_twice true)
  · rw [setIsNullable_true h ht]
    refine ⟨rfl, rfl, valid_withMasks h fun huniq => ?_⟩
    simp [h.notNull huniq, huniq] at ht
  · obtain ⟨e, he⟩ := setIsNullable_true_failed ht
    rw [he]
    exact ⟨by simp, rfl⟩

theorem collectUnique_ok (l seen : List α) :
    (∃ s, Column.collectUnique l seen = .ok s) ↔ l.Nodup ∧ ∀ x ∈ l, x ∉ seen := by
  induction l generalizing seen with
  | nil => simp [Column.collectUnique]
  | cons x l ih =>
    by_cases hx : x ∈ seen
    · simp [Column.collectUnique, hx]
    · simp only [Column.collectUnique, hx, if_false, ih, List.nodup_cons, List.mem_cons, not_or, forall_eq_or_imp,
        not_false_eq_true, true_and]
      constructor
      · rintro ⟨hnodup, hout⟩
        exact ⟨⟨fun hmem => (hout x hmem).1 rfl, hnodup⟩, fun y hy => (hout y hy).2⟩
      · rintro ⟨⟨hxl, hnodup⟩, hout⟩
        exact ⟨hnodup, fun y hy => ⟨fun hyx => hxl (hyx ▸ hy), hout y hy⟩⟩

theorem setUnique_operation (toString : α → String) :
    Operation (fun c : Column α => c.setIsUnique true toString)
      (fun c => c.isUnique || (!c.isNullable && decide (c.getBlocksList.flatMap Block.rows).Nodup))
      (fun c => { c with isUnique := true }) := by
  refine operation_of_cases (fun c h ht => ?_) (fun c h ht => ?_) (fun c => rfl) (fun c _ => by simp) (fun c => rfl)
  · cases huniq : c.isUnique with
    | true =>
      simp only [Column.setIsUnique, huniq, if_true]
      exact ⟨trivial, by simp [forget, huniq], h⟩
    | false =>
      obtain ⟨hnull, hnodup⟩ : c.isNullable = false ∧ (c.getBlocksList.flatMap Block.rows).Nodup := by
        simpa [huniq] using ht
      obtain ⟨seen, hseen⟩ := (collectUnique_ok (c.getBlocksList.flatMap Block.rows) []).2 ⟨hnodup, by simp⟩
      simp only [Column.setIsUnique, huniq, hnull, hseen, Bool.false_eq_true, if_false, if_true]
      exact ⟨trivial, by simp [forget, hnull], ⟨h.small, fun b hb => by simpa [hnull] using h.blocks b hb, fun _ => rfl⟩⟩
  · obtain ⟨huniq, hwhy⟩ : c.isUnique = false ∧ (c.isNullable = false →
        ¬ (c.getBlocksList.flatMap Block.rows).Nodup) := by
      simpa using ht
    cases hnull : c.isNullable with
    | true =>
      simp only [Column.setIsUnique, huniq, hnull, Bool.false_eq_true, if_false, if_true]
      exact ⟨by simp, by simp [forget, huniq, hnull]⟩
    | false =>
      cases hseen : Column.collectUnique (c.getBlocksList.flatMap Block.rows) [] with
      | ok seen => exact absurd ((collectUnique_ok _ _).1 ⟨seen, hseen⟩).1 (hwhy hnull)
      | error duplicate =>
        simp only [Column.setIsUnique, huniq, hnull, hseen, Bool.false_eq_true, if_false, if_true]
        exact ⟨by simp, by simp [forget, huniq, hnull]⟩

theorem unsetUnique_operation (toString : α → String) :
    Operation (fun c : Column α => c.setIsUnique false toString) (fun _ => true)
      (fun c => { c with isUnique := false }) := by
  refine operation_of_cases (fun c h _ => ?_) (fun c h ht => by cases ht) (fun c => rfl) (fun c _ => rfl) (fun c => rfl)
  cases huniq : c.isUnique with
  | false =>
    simp only [Column.setIsUnique, huniq, if_true]
    exact ⟨trivial, by simp [forget, huniq], h⟩
  | true =>
    simp only [Column.setIsUnique, huniq, Bool.true_eq_false, Bool.false_eq_true, if_false]
    exact ⟨trivial, rfl, ⟨h.small, h.blocks, fun h => by cases h⟩⟩

/-! ## Loops over columns -/

/-- the columns of a table are as the code keeps them -/
def Valid (t : Table α) : Prop := ∀ x c, t.columns x = some c → c.Valid

/-- the test of an operation, of a column by its name -/
def testAt (test : Column α → Bool) (t : Table α) (x : String) : Bool :=
  match t.columns x with
  | none => false
  | some c => test c

/-- What a loop did: the columns up to the first one whose test fails changed by the effect, up to the hash set. -/
structure Processed (test : Column α → Bool) (effect : Column α → Column α) (t : Table α) (cols : List String)
    (r : Table α × List String × Option Thrown) : Prop where
  done : r.2.1 = cols.takeWhile (testAt test t)
  returned : r.2.2 = none ↔ ∀ x ∈ cols, testAt test t x = true
  columns : ∀ y, (r.1.columns y).map forget =
    if y ∈ r.2.1 then (t.columns y).map (fun c => effect (forget c)) else (t.columns y).map forget
  sortingColumns : r.1.sortingColumns = t.sortingColumns
  constraints : r.1.constraints = t.constraints
  valid : Valid r.1

section Loop

variable {op : Column α → Outcome (Column α)} {test : Column α → Bool} {effect : Column α → Column α}

theorem valid_update {t : Table α} (h : Valid t) {x : String} {c : Column α} (hc : c.Valid) :
    Valid { t with columns := Function.update t.columns x (some c) } := by
  intro y d hd
  replace hd : Function.update t.columns x (some c) y = some d := hd
  by_cases hyx : y = x
  · subst hyx
    rw [Function.update_self] at hd
    exact Option.some.inj hd ▸ hc
  · rw [Function.update_of_ne hyx] at hd
    exact h y d hd

/-- tests of columns that differ in the hash set only -/
theorem testAt_congr (hop : Operation op test effect) {t t' : Table α} {y : String}
    (h : (t'.columns y).map forget = (t.columns y).map forget) : testAt test t' y = testAt test t y := by
  unfold testAt
  cases hc : t.columns y with
  | none =>
    rw [hc, Option.map_none, Option.map_eq_none_iff] at h
    simp [h]
  | some c =>
    rw [hc, Option.map_some] at h
    obtain ⟨c', hc', heq⟩ := Option.map_eq_some_iff.1 h
    simp only [hc']
    rw [← hop.test_forget, heq, hop.test_forget]

theorem process_columns (hop : Operation op test effect) {t : Table α} (h : Valid t) (cols : List String) :
    Processed test effect t cols (process (fun t x => atColumn t x op) t cols) := by
  induction cols generalizing t with
  | nil => exact ⟨rfl, by simp [process], by simp [process], rfl, rfl, h⟩
  | cons x cols ih =>
    cases hc : t.columns x with
    | none =>
      have hat : atColumn t x op = (t, some .outOfRange) := by simp [atColumn, hc]
      have htest : testAt test t x = false := by simp [testAt, hc]
      simp only [process, hat]
      exact ⟨by simp [htest], by simp [htest], by simp, rfl, rfl, h⟩
    | some c =>
      have hvalid := h x c hc
      have htest : testAt test t x = test c := by simp [testAt, hc]
      set t' : Table α := { t with columns := Function.update t.columns x (some (op c).1) } with ht'
      have hat : atColumn t x op = (t', (op c).2.map .fault) := by simp [atColumn, hc, ht']
      have hvalid' : Valid t' := valid_update h (hop.valid c hvalid)
      cases hok : test c with
      | false =>
        obtain ⟨e, he⟩ : ∃ e, (op c).2 = some e := Option.ne_none_iff_exists'.1 fun hnone => by
          rw [(hop.returns c hvalid).1 hnone] at hok
          cases hok
        simp only [process, hat, he, Option.map_some]
        refine ⟨by simp [htest, hok], by simp [htest, hok], fun y => ?_, rfl, rfl, hvalid'⟩
        by_cases hyx : y = x
        · subst hyx
          simp [ht', hc, hop.failed c hvalid hok]
        · simp [ht', Function.update_of_ne hyx]
      | true =>
        have hnone : (op c).2 = none := (hop.returns c hvalid).2 hok
        have hcolumn : ∀ y, y ≠ x → t'.columns y = t.columns y := fun y hyx => Function.update_of_ne hyx _ _
        have hself : t'.columns x = some (op c).1 := Function.update_self _ _ _
        have hdone := hop.done c hvalid hok
        -- the test of a column is not changed by the steps before
        have hsame : testAt test t' = testAt test t := by
          funext y
          by_cases hyx : y = x
          · subst hyx
            rw [htest, hok]
            simp only [testAt, hself]
            rw [← hop.test_forget, hdone]
            exact hop.test_effect _ (by rwa [hop.test_forget])
          · exact testAt_congr hop (by rw [hcolumn y hyx])
        have hrest := ih hvalid'
        simp only [process, hat, hnone, Option.map_none]
        refine ⟨?_, ?_, fun y => ?_, hrest.sortingColumns, hrest.constraints, hrest.valid⟩
        · simp [htest, hok, hrest.done, hsame]
        · simp [htest, hok, hrest.returned, hsame]
        · rw [hrest.columns y]
          by_cases hyx : y = x
          · subst hyx
            simp only [hself, hc, Option.map_some, hdone, hop.twice, List.mem_cons, true_or, if_true, ite_self]
          · simp [hcolumn y hyx, hyx]

end Loop

/-! ## The call -/

section Call

variable {t : Table α} {cols : List String} {type : ConstraintType} {name : String}

/-- flags that a column has after it was set and, perhaps, taken back -/
theorem columns_after {test test' : Column α → Bool} {effect effect' : Column α → Column α}
    {r r' : Table α × List String × Option Thrown} (h : Processed test effect t cols r)
    (h' : Processed test' effect' r.1 r.2.1 r') (hsub : ∀ y ∈ r'.2.1, y ∈ r.2.1) (y : String) :
    (r'.1.columns y).map flags = (t.columns y).map fun c =>
      flags (if y ∈ r'.2.1 then effect' (effect (forget c)) else if y ∈ r.2.1 then effect (forget c) else c) := by
  have hcolumns := h.columns y
  have hcolumns' := h'.columns y
  have hflags : (r'.1.columns y).map flags = ((r'.1.columns y).map forget).map flags := by
    rw [Option.map_map]
    rfl
  have heffect : (r.1.columns y).map (fun c => effect' (forget c)) = ((r.1.columns y).map forget).map effect' := by
    rw [Option.map_map]
    rfl
  rw [hflags, hcolumns', heffect, hcolumns]
  by_cases hmem' : y ∈ r'.2.1
  · have hmem := hsub y hmem'
    simp only [if_pos hmem', if_pos hmem, Option.map_map]
    rfl
  · by_cases hmem : y ∈ r.2.1
    · simp only [if_neg hmem', if_pos hmem, Option.map_map]
      rfl
    · simp only [if_neg hmem', if_neg hmem, Option.map_map]
      rfl

/-- The call with the operations that it makes: nothing changes exactly when each column that was set is as before. -/
theorem atomic_of_processed (toString : α → String) {test test' : Column α → Bool}
    {effect effect' : Column α → Column α}
    (h : Processed test effect t cols (process (setColumn toString type) t cols))
    (h' : Processed test' effect' (process (setColumn toString type) t cols).1
      (process (setColumn toString type) t cols).2.1
      (process (unsetColumn toString type) (process (setColumn toString type) t cols).1
        (process (setColumn toString type) t cols).2.1)) (htakes : takes type t = testAt test t)
    (hundone : (processed type t cols).takeWhile (testAt test' (process (setColumn toString type) t cols).1) =
      undone type t cols) :
    Atomic toString t name type cols ↔ (∀ x ∈ cols, takes type t x = true) ∨
      ∀ x ∈ processed type t cols, ∀ c, t.columns x = some c →
        flags (if x ∈ undone type t cols then effect' (effect (forget c)) else effect (forget c)) = flags c := by
  have hdone : (process (setColumn toString type) t cols).2.1 = processed type t cols := by
    rw [h.done, processed, htakes]
  have hdone' := h'.done
  rw [hdone, hundone] at hdone'
  have hsub : ∀ y ∈ undone type t cols, y ∈ processed type t cols := by
    intro y hy
    rw [← hundone] at hy
    exact List.takeWhile_subset _ hy
  have hafter := columns_after h h' (by rw [hdone, hdone']; exact hsub)
  rw [hdone, hdone'] at hafter
  have hreturned := h.returned
  rw [← htakes] at hreturned
  -- the table is unchanged when its columns are
  have hsorting := h'.sortingColumns.trans h.sortingColumns
  have hconstraints := h'.constraints.trans h.constraints
  unfold Atomic addConstraint
  rcases hproc : process (setColumn toString type) t cols with ⟨t', done, err⟩
  rw [hproc] at hdone hreturned hafter hsorting hconstraints
  simp only at hdone hreturned hafter hsorting hconstraints ⊢
  cases err with
  | none =>
    have hall := hreturned.1 rfl
    have hnone : ∀ r : Table α × Option Thrown, r.2 = none → (r.2 ≠ none → Unchanged t r.1) := fun r hr hne =>
      absurd hr hne
    refine iff_of_true ?_ (Or.inl hall)
    simp only
    split
    · exact hnone _ rfl
    · exact hnone _ rfl
  | some e =>
    have hnot : ¬ ∀ x ∈ cols, takes type t x = true := fun hall => by cases hreturned.2 hall
    rw [or_iff_right hnot]
    subst hdone
    rcases hproc' : process (unsetColumn toString type) t' (processed type t cols) with ⟨t'', done', err'⟩
    rw [hproc'] at hafter hsorting hconstraints
    simp only at hafter hsorting hconstraints
    have key : Unchanged t t'' ↔ ∀ x ∈ processed type t cols, ∀ c, t.columns x = some c →
        flags (if x ∈ undone type t cols then effect' (effect (forget c)) else effect (forget c)) = flags c := by
      constructor
      · intro hsame x hx c hc
        have := hsame.columns x
        rw [hafter x, hc, Option.map_some, Option.map_some] at this
        simpa [hx] using this
      · intro hsame
        refine ⟨fun x => ?_, hsorting, hconstraints⟩
        rw [hafter x]
        cases hc : t.columns x with
        | none => rfl
        | some c =>
          by_cases hx : x ∈ processed type t cols
          · simpa [hx] using hsame x hx c hc
          · have hx' : x ∉ undone type t cols := fun hmem => hx (hsub x hmem)
            simp [hx, hx']
    simp only
    rw [hproc']
    cases err' with
    | none => simpa using key
    | some e' => simpa using key

theorem process_returns {f : Table α → String → Table α × Option Thrown} (hf : ∀ t x, (f t x).2 = none)
    (t : Table α) (cols : List String) : (process f t cols).2.2 = none := by
  induction cols generalizing t with
  | nil => rfl
  | cons x cols ih =>
    unfold process
    rcases hx : f t x with ⟨t', err⟩
    obtain rfl : err = none := by simpa [hx] using hf t x
    exact ih t'

/-- a call that cannot throw -/
theorem atomic_of_returns (toString : α → String) (hf : ∀ (t : Table α) x, (setColumn toString type t x).2 = none) :
    Atomic toString t name type cols := by
  have hreturns := process_returns hf t cols
  unfold Atomic addConstraint
  rcases hproc : process (setColumn toString type) t cols with ⟨t', done, err⟩
  rw [hproc] at hreturns
  obtain rfl : err = none := hreturns
  intro hne
  simp only at hne
  split at hne
  · exact absurd rfl hne
  · exact absurd rfl hne

theorem block_reset_mask (b : Block α) :
    ((b.setIsNullable false).setIsNullable true).bitMask = some (zeroMask b.capacity) := by
  unfold Block.setIsNullable
  cases hmask : b.bitMask <;> simp [Block.isNullable, hmask]

/-- NOT NULL set and taken back -/
theorem flags_reset {c : Column α} :
    flags (withMasks true (withMasks false (forget c))) = flags c ↔
      c.isNullable = true ∧ ∀ b ∈ c.getBlocksList, b.bitMask = some (zeroMask b.capacity) := by
  have hmasks : (withMasks true (withMasks false (forget c))).getBlocksList.map Block.bitMask =
      c.getBlocksList.map fun b => some (zeroMask b.capacity) := by
    rw [getBlocksList_withMasks, getBlocksList_withMasks, List.map_map, List.map_map]
    exact List.map_congr_left fun b _ => block_reset_mask b
  simp only [flags, hmasks, Prod.mk.injEq]
  constructor
  · rintro ⟨hnull, -, hlist⟩
    exact ⟨hnull.symm, fun b hb => ((List.map_inj_left.1 hlist) b hb).symm⟩
  · rintro ⟨hnull, hzero⟩
    exact ⟨hnull.symm, rfl, List.map_congr_left fun b hb => (hzero b hb).symm⟩

/-- NOT NULL set and not taken back -/
theorem flags_set {c : Column α} (h : c.Valid) : flags (withMasks false (forget c)) = flags c ↔ c.isNullable = false := by
  constructor
  · intro hflags
    exact (congrArg Prod.fst hflags).symm
  · intro hnull
    have hforget : (forget c).Valid := ⟨h.small, h.blocks, h.notNull⟩
    have hself : withMasks false (forget c) = forget c := by
      have := withMasks_self hforget
      rwa [show (forget c).isNullable = false from hnull] at this
    rw [hself, flags_forget]

/-- a processed column is a column of the table -/
theorem exists_of_processed (htype : type = .notNull ∨ type = .unique) {x : String}
    (hx : x ∈ processed type t cols) : ∃ c, t.columns x = some c := by
  have htakes := List.mem_takeWhile_imp hx
  cases hc : t.columns x with
  | none => rcases htype with rfl | rfl <;> simp [takes, hc] at htakes
  | some c => exact ⟨c, rfl⟩

theorem restores_iff (htype : type = .notNull ∨ type = .unique) :
    Restores type t cols ↔ ∀ x ∈ processed type t cols, ∀ c, t.columns x = some c →
      if x ∈ undone type t cols then has type t x = false ∧ (type = .notNull → ZeroMasks t x)
      else has type t x = true := by
  constructor
  · exact fun h x hx _ _ => h x hx
  · intro h x hx
    obtain ⟨c, hc⟩ := exists_of_processed htype hx
    exact h x hx c hc

theorem atomic_notNull (toString : α → String) (h : Valid t) :
    Atomic toString t name .notNull cols ↔
      (∀ x ∈ cols, takes .notNull t x = true) ∨ Restores .notNull t cols := by
  have hset := process_columns setNotNull_operation h cols
  have hunset := process_columns unsetNotNull_operation hset.valid (process (setColumn toString .notNull) t cols).2.1
  have htakes : takes .notNull t = testAt (fun c => !c.isNullable || !hasNull c) t := by
    funext x
    simp only [takes, testAt]
    cases t.columns x <;> rfl
  have hdone : (process (setColumn toString .notNull) t cols).2.1 = processed .notNull t cols := by
    rw [processed, htakes]
    exact hset.done
  have hundone : (processed .notNull t cols).takeWhile (testAt (fun c => c.isNullable || !c.isUnique)
      (process (setColumn toString .notNull) t cols).1) = undone .notNull t cols := by
    refine Traverse.takeWhile_congr fun y hy => ?_
    obtain ⟨c, hc⟩ := exists_of_processed (Or.inl rfl) hy
    have hcolumn := hset.columns y
    change ((process (setColumn toString .notNull) t cols).1.columns y).map forget =
      if y ∈ (process (setColumn toString .notNull) t cols).2.1 then _ else _ at hcolumn
    rw [if_pos (by rwa [hdone]), hc, Option.map_some] at hcolumn
    obtain ⟨c', hc', heq⟩ := Option.map_eq_some_iff.1 hcolumn
    have hnull := congrArg Column.isNullable heq
    have huniq := congrArg Column.isUnique heq
    simp only [forget, withMasks] at hnull huniq
    simp [testAt, hc', isUnique, hc, hnull, huniq]
  rw [atomic_of_processed toString hset hunset htakes hundone, restores_iff (Or.inl rfl)]
  refine or_congr Iff.rfl (forall₂_congr fun x hx => forall₂_congr fun c hc => ?_)
  have hzero : ZeroMasks t x ↔ ∀ b ∈ c.getBlocksList, b.bitMask = some (zeroMask b.capacity) := by
    simp [ZeroMasks, hc]
  by_cases hmem : x ∈ undone .notNull t cols
  · simp only [if_pos hmem, flags_reset, has, hc, hzero]
    simp
  · simp only [if_neg hmem, flags_set (h x c hc), has, hc]
    simp

theorem atomic_unique (toString : α → String) (h : Valid t) :
    Atomic toString t name .unique cols ↔ (∀ x ∈ cols, takes .unique t x = true) ∨ Restores .unique t cols := by
  have hset := process_columns (setUnique_operation toString) h cols
  have hunset := process_columns (unsetUnique_operation toString) hset.valid
    (process (setColumn toString .unique) t cols).2.1
  have htakes : takes .unique t = testAt (fun c =>
      c.isUnique || (!c.isNullable && decide (c.getBlocksList.flatMap Block.rows).Nodup)) t := by
    funext x
    simp only [takes, testAt]
    cases t.columns x <;> rfl
  have hdone : (process (setColumn toString .unique) t cols).2.1 = processed .unique t cols := by
    rw [processed, htakes]
    exact hset.done
  have hundone : (processed .unique t cols).takeWhile (testAt (fun _ => true)
      (process (setColumn toString .unique) t cols).1) = undone .unique t cols := by
    refine List.takeWhile_eq_self_iff.2 fun y hy => ?_
    obtain ⟨c, hc⟩ := exists_of_processed (Or.inr rfl) hy
    have hcolumn := hset.columns y
    change ((process (setColumn toString .unique) t cols).1.columns y).map forget =
      if y ∈ (process (setColumn toString .unique) t cols).2.1 then _ else _ at hcolumn
    rw [if_pos (by rwa [hdone]), hc, Option.map_some] at hcolumn
    obtain ⟨c', hc', -⟩ := Option.map_eq_some_iff.1 hcolumn
    simp [testAt, hc']
  rw [atomic_of_processed toString hset hunset htakes hundone, restores_iff (Or.inr rfl)]
  refine or_congr Iff.rfl (forall₂_congr fun x hx => forall₂_congr fun c hc => ?_)
  have hmem : x ∈ undone .unique t cols := hx
  have hflags : flags (({ forget c with isUnique := false } : Column α)) = flags c ↔ c.isUnique = false := by
    simp only [flags, forget, Prod.mk.injEq, true_and]
    exact ⟨fun h => h.1.symm, fun h => ⟨h.symm, rfl⟩⟩
  simp only [if_pos hmem, has, hc, reduceCtorEq, false_implies, and_true]
  exact hflags

/-- **A call of `AddConstraint` that throws changes nothing** exactly when what the rollback takes back is what was
set: no column before the failing one had the flag already, except behind a UNIQUE column, where the rollback of NOT NULL
ends, and there all had it; and the null masks of the columns made nullable again were zero. -/
theorem addConstraint_atomic (toString : α → String) (t : Table α) (h : Valid t) (name : String)
    (type : ConstraintType) (cols : List String) :
    Atomic toString t name type cols ↔ (∀ x ∈ cols, takes type t x = true) ∨ Restores type t cols := by
  cases type with
  | none => exact iff_of_true (atomic_of_returns toString fun _ _ => rfl) (Or.inl fun _ _ => rfl)
  | index => exact iff_of_true (atomic_of_returns toString fun _ _ => rfl) (Or.inl fun _ _ => rfl)
  | notNull => exact atomic_notNull toString h
  | unique => exact atomic_unique toString h

end Call

/-! ## A column that had the flag before -/

def zero : Int32T := ⟨0, by norm_num, by norm_num⟩

/-- a NOT NULL column without rows, and a nullable column with a NULL -/
def rollbackTable : Table Int32T where
  columns x :=
    if x = "a" then some (Column.fresh "a" 4)
    else if x = "b" then
      some ⟨"b", 4, 1, [(-1, [⟨[zero], 1, zero, zero, 0, zero, 0, 4, some [1], true, 0⟩])], true, false, []⟩
    else none
  sortingColumns := []
  constraints _ := none

theorem rollbackTable_valid : Valid rollbackTable := by
  intro x c hc
  unfold rollbackTable at hc
  simp only at hc
  split_ifs at hc with ha hb
  · obtain rfl := Option.some.inj hc
    exact ⟨by decide, by simp [Column.fresh, Column.getBlocksList], by simp [Column.fresh]⟩
  · obtain rfl := Option.some.inj hc
    refine ⟨by decide, ?_, by simp⟩
    intro b hb
    simp only [Column.getBlocksList, List.flatMap_cons, List.flatMap_nil, List.append_nil, List.mem_singleton] at hb
    subst hb
    exact ⟨rfl, by decide, by decide, rfl, by simp [getNullBitMaskSize]⟩

/-- the condition of `addConstraint_atomic` for this table -/
theorem addConstraint_atomic_rollback : Valid rollbackTable ∧
    (Atomic (fun _ => "") rollbackTable "n" .notNull ["a", "b"] ↔
      (∀ x ∈ ["a", "b"], takes .notNull rollbackTable x = true) ∨ Restores .notNull rollbackTable ["a", "b"]) :=
  ⟨rollbackTable_valid, addConstraint_atomic _ rollbackTable rollbackTable_valid "n" .notNull ["a", "b"]⟩

/-- **A failed NOT NULL constraint makes a column nullable that was NOT NULL before.** -/
theorem rollback_drops_not_null : ¬ Atomic (fun _ => "") rollbackTable "n" .notNull ["a", "b"] := by
  intro h
  have hsame := (h (by decide)).columns "a"
  have hafter : ((addConstraint (fun _ => "") rollbackTable "n" .notNull ["a", "b"]).1.columns "a").map
      Column.isNullable = some true := by decide
  have hbefore : (rollbackTable.columns "a").map Column.isNullable = some false := by decide
  have hflag := congrArg (Option.map Prod.fst) hsame
  simp only [Option.map_map] at hflag
  have : (some true : Option Bool) = some false := by
    rw [← hafter, ← hbefore]
    exact hflag
  cases this

end QikkDB.ConstraintRollback

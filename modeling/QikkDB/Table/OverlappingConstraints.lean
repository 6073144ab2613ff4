/-
Constraints that share columns (Table.cpp, `AddConstraint`, `DropConstraint`, `AddSortingColumn`,
`RemoveSortingColumn`), called directly on a table without rows, in any order and with any names and columns.

A constraint is a named list of columns; what it promises is a flag of each column, or its entry in the sorting
columns. Dropping a constraint takes the flags of its columns back, and so does a failed `AddConstraint` with the
columns before the one that failed; neither looks at the other constraints.

Results:
- `step_enforced`: a call keeps the promises of all constraints exactly when it takes back no flag that another
  constraint of the same type promises.
- `run_enforced`: so it is in runs, for every state on the way.
- `dropped_not_null`: two NOT NULL constraints on one column, one of them dropped.
-/
import Mathlib.Data.List.TakeWhile
import Mathlib.Tactic
import QikkDB.Lib.Traverse
import QikkDB.Table.Constraints

set_option linter.unusedSectionVars false

namespace QikkDB.OverlappingConstraints

open Constraints Constraints.Table

variable {V : Type} [DecidableEq V]

/-! ## Model -/

/-- a call on the table -/
inductive Call where
  | add (name : String) (type : ConstraintType) (columns : List String)
  | drop (name : String)
deriving DecidableEq, Repr

/-- the table after a call, whether it threw or not -/
def step (t : Table V) : Call → Table V
  | .add name type columns => (t.addConstraint name type columns).1
  | .drop name => (t.dropConstraint name).1

def run (t : Table V) (calls : List Call) : Table V := calls.foldl step t

/-- the column has the property that a constraint of the type stands for -/
def Carries (t : Table V) (type : ConstraintType) (x : String) : Prop :=
  match type with
  | .none => True
  | .index => x ∈ t.sortingColumns
  | .notNull => ∃ c, t.columns x = some c ∧ c.isNullable = false
  | .unique => ∃ c, t.columns x = some c ∧ c.isUnique = true

/-- every column that a constraint lists has the property of the constraint -/
def Enforced (t : Table V) : Prop :=
  ∀ name type cols, t.constraints name = some (type, cols) → ∀ x ∈ cols, Carries t type x

/-! ## Which calls keep the promises -/

def isUnique (t : Table V) (x : String) : Bool :=
  match t.columns x with
  | none => false
  | some c => c.isUnique

/-- a constraint of the type can be set on the column -/
def takes (type : ConstraintType) (t : Table V) (x : String) : Bool :=
  match type, t.columns x with
  | .none, _ => true
  | .index, _ => true
  | _, none => false
  | .notNull, some c => !c.isNullable || c.rows.all fun r => !r.isNull
  | .unique, some c => c.isUnique || (!c.isNullable && decide (c.rows.map Cell.value).Nodup)

/-- the columns that `AddConstraint` sets and takes back when it fails; the rollback of NOT NULL ends at a column that
is unique -/
def undone (t : Table V) (type : ConstraintType) (cols : List String) : List String :=
  let processed := cols.takeWhile (takes type t)
  match type with
  | .notNull => processed.takeWhile fun x => !isUnique t x
  | _ => processed

/-- Adding: all columns can take the constraint, or none of those taken back is promised by a constraint of the type.
Dropping: the constraint is NOT NULL and a column is unique, so it stays, or no other constraint of the type has a
column of it. -/
def Respects (t : Table V) : Call → Prop
  | .add _ type cols => (∀ x ∈ cols, takes type t x = true) ∨ ∀ x ∈ undone t type cols, ¬ Lists t [type] x
  | .drop name => ∀ type cols, t.constraints name = some (type, cols) →
      (type = .notNull ∧ ∃ x ∈ cols, isUnique t x = true) ∨ type = .none ∨
        ∀ n cs, n ≠ name → t.constraints n = some (type, cs) → ∀ x ∈ cs, x ∉ cols

/-! ## Loops over columns -/

/-- a loop whose steps succeed exactly when a test of the column does, a test that no step changes -/
theorem process_takeWhile {f : Table V → String → Except Error (Table V)} {ok : Table V → String → Bool}
    (hok : ∀ t x, ok t x = true ↔ ∃ t', f t x = .ok t')
    (hkeep : ∀ t x t', f t x = .ok t' → ∀ y, ok t' y = ok t y) (t : Table V) (cols : List String) :
    (process f t cols).2.1 = cols.takeWhile (ok t) ∧
      ((process f t cols).2.2 = none ↔ ∀ x ∈ cols, ok t x = true) := by
  induction cols generalizing t with
  | nil => simp [process]
  | cons x cols ih =>
    cases hx : f t x with
    | error e =>
      have hfail : ok t x = false := by
        by_contra hne
        obtain ⟨t', ht'⟩ := (hok t x).1 (by simpa using hne)
        rw [hx] at ht'
        cases ht'
      simp [process, hx, hfail]
    | ok t' =>
      have hsucc : ok t x = true := (hok t x).2 ⟨t', hx⟩
      have hsame : ok t' = ok t := funext (hkeep t x t' hx)
      obtain ⟨hdone, herr⟩ := ih t'
      rw [hsame] at hdone herr
      simp only [process, hx, List.takeWhile_cons, hsucc, if_true, hdone, herr, List.mem_cons, forall_eq_or_imp,
        true_and, and_self]

/-- a loop that gives a property to the columns it goes through -/
theorem process_gives {f : Table V → String → Except Error (Table V)} {P : Table V → String → Prop}
    (hf : ∀ t x t', f t x = .ok t' → ∀ y, P t' y ↔ P t y ∨ y = x) (t : Table V) (cols : List String) (y : String) :
    P (process f t cols).1 y ↔ P t y ∨ y ∈ (process f t cols).2.1 := by
  induction cols generalizing t with
  | nil => simp [process]
  | cons x cols ih =>
    cases hx : f t x with
    | error e => simp [process, hx]
    | ok t' =>
      simp only [process, hx, ih t', hf t x t' hx, List.mem_cons]
      tauto

/-- a loop that takes a property from the columns it goes through, as long as J holds -/
theorem process_takes {f : Table V → String → Except Error (Table V)} {P : Table V → String → Prop}
    {J : Table V → Prop} (hJ : ∀ t x t', J t → f t x = .ok t' → J t')
    (hf : ∀ t x t', J t → f t x = .ok t' → ∀ y, P t' y ↔ P t y ∧ y ≠ x) {t : Table V} (ht : J t) (cols : List String)
    (y : String) : P (process f t cols).1 y ↔ P t y ∧ y ∉ (process f t cols).2.1 := by
  induction cols generalizing t with
  | nil => simp [process]
  | cons x cols ih =>
    cases hx : f t x with
    | error e => simp [process, hx]
    | ok t' =>
      simp only [process, hx, ih (hJ t x t' ht hx), hf t x t' ht hx, List.mem_cons]
      tauto

/-! ## One column -/

theorem atColumn_eq {t : Table V} {x : String} {f : Constraints.Column V → Except Error (Constraints.Column V)}
    {c c' : Constraints.Column V} (hc : t.columns x = some c) (hf : f c = .ok c') :
    t.atColumn x f = .ok { t with columns := Function.update t.columns x (some c') } := by
  simp only [atColumn, hc, hf, bind, Except.bind]

/-- a change of a column succeeds exactly when the column is there and the change succeeds -/
theorem atColumn_isOk {t : Table V} {x : String} {f : Constraints.Column V → Except Error (Constraints.Column V)} :
    (∃ t', t.atColumn x f = .ok t') ↔ ∃ c c', t.columns x = some c ∧ f c = .ok c' := by
  constructor
  · rintro ⟨t', ht'⟩
    obtain ⟨c, c', hc, hf, -⟩ := atColumn_ok ht'
    exact ⟨c, c', hc, hf⟩
  · rintro ⟨c, c', hc, hf⟩
    exact ⟨_, atColumn_eq hc hf⟩

theorem setIsNullable_false_isOk (c : Constraints.Column V) :
    (∃ c', c.setIsNullable false = .ok c') ↔ (!c.isNullable || c.rows.all fun r => !r.isNull) = true := by
  unfold Constraints.Column.setIsNullable
  cases hnull : c.isNullable with
  | false => simp
  | true =>
    by_cases hany : c.rows.any (fun r => r.isNull) = true
    · simp only [Bool.true_eq_false, if_false, Bool.false_eq_true, hany, if_true, reduceCtorEq, exists_false,
        Bool.not_true, Bool.false_or, false_iff]
      intro hall
      obtain ⟨r, hr, hnull⟩ := List.any_eq_true.1 hany
      have := List.all_eq_true.1 hall r hr
      simp [hnull] at this
    · have hall : (c.rows.all fun r => !r.isNull) = true := by
        rw [List.all_eq_true]
        intro r hr
        have : r.isNull ≠ true := fun h => hany (List.any_eq_true.2 ⟨r, hr, h⟩)
        simpa using this
      simp [hany, hall]

theorem setIsNullable_true_isOk (c : Constraints.Column V) :
    (∃ c', c.setIsNullable true = .ok c') ↔ (c.isNullable || !c.isUnique) = true := by
  unfold Constraints.Column.setIsNullable
  cases c.isNullable <;> cases c.isUnique <;> simp

theorem setIsUnique_true_isOk (c : Constraints.Column V) :
    (∃ c', c.setIsUnique true = .ok c') ↔
      (c.isUnique || (!c.isNullable && decide (c.rows.map Cell.value).Nodup)) = true := by
  unfold Constraints.Column.setIsUnique
  cases c.isUnique <;> cases c.isNullable <;> by_cases hnodup : (c.rows.map Cell.value).Nodup <;> simp [hnodup]

theorem setIsUnique_false_isOk (c : Constraints.Column V) : ∃ c', c.setIsUnique false = .ok c' := by
  unfold Constraints.Column.setIsUnique
  cases c.isUnique <;> simp

/-- the property can be taken from the column -/
def droppable (type : ConstraintType) (t : Table V) (x : String) : Bool :=
  match type, t.columns x with
  | .none, _ => true
  | .index, _ => true
  | _, none => false
  | .notNull, some c => c.isNullable || !c.isUnique
  | .unique, some _ => true

theorem takes_iff (type : ConstraintType) (t : Table V) (x : String) :
    takes type t x = true ↔ ∃ t', addConstraintColumn type t x = .ok t' := by
  cases type with
  | none => simp [takes, addConstraintColumn]
  | index => simp [takes, addConstraintColumn]
  | notNull =>
    simp only [addConstraintColumn, atColumn_isOk, takes]
    cases t.columns x with
    | none => simp
    | some c => simpa using (setIsNullable_false_isOk c).symm
  | unique =>
    simp only [addConstraintColumn, atColumn_isOk, takes]
    cases t.columns x with
    | none => simp
    | some c => simpa using (setIsUnique_true_isOk c).symm

theorem droppable_iff (type : ConstraintType) (t : Table V) (x : String) :
    droppable type t x = true ↔ ∃ t', dropConstraintColumn type t x = .ok t' := by
  cases type with
  | none => simp [droppable, dropConstraintColumn]
  | index => simp [droppable, dropConstraintColumn]
  | notNull =>
    simp only [dropConstraintColumn, atColumn_isOk, droppable]
    cases t.columns x with
    | none => simp
    | some c => simpa using (setIsNullable_true_isOk c).symm
  | unique =>
    simp only [dropConstraintColumn, atColumn_isOk, droppable]
    cases t.columns x with
    | none => simp
    | some c => simpa using setIsUnique_false_isOk c

/-- a test that looks at one column only, and holds of it before and after the change -/
theorem test_update {ok : Table V → String → Bool} {t t' : Table V} {x : String}
    (hlocal : ∀ y, t'.columns y = t.columns y → ok t' y = ok t y) (hout : ∀ y, y ≠ x → t'.columns y = t.columns y)
    (hx : ok t x = true) (hx' : ok t' x = true) (y : String) : ok t' y = ok t y := by
  by_cases hyx : y = x
  · subst hyx
    rw [hx, hx']
  · exact hlocal y (hout y hyx)

theorem takes_local {type : ConstraintType} {t t' : Table V} {y : String} (h : t'.columns y = t.columns y) :
    takes type t' y = takes type t y := by
  simp only [takes, h]

theorem droppable_local {type : ConstraintType} {t t' : Table V} {y : String} (h : t'.columns y = t.columns y) :
    droppable type t' y = droppable type t y := by
  simp only [droppable, h]

theorem takes_keep {type : ConstraintType} {t t' : Table V} {x : String}
    (h : addConstraintColumn type t x = .ok t') (y : String) : takes type t' y = takes type t y := by
  refine test_update (fun y hy => takes_local hy) (fun y hy => ((touches_addColumn h).outside y (by simpa using hy)).1)
    ((takes_iff type t x).2 ⟨t', h⟩) ?_ y
  cases type with
  | none => rfl
  | index => rfl
  | notNull =>
    obtain ⟨c, c', hc, hset, rfl⟩ := atColumn_ok h
    obtain ⟨rfl, -⟩ := setIsNullable_ok hset
    simp [takes]
  | unique =>
    obtain ⟨c, c', hc, hset, rfl⟩ := atColumn_ok h
    obtain rfl := setIsUnique_ok hset
    simp [takes]

theorem droppable_keep {type : ConstraintType} {t t' : Table V} {x : String}
    (h : dropConstraintColumn type t x = .ok t') (y : String) : droppable type t' y = droppable type t y := by
  refine test_update (fun y hy => droppable_local hy)
    (fun y hy => ((touches_dropColumn h).outside y (by simpa using hy)).1) ((droppable_iff type t x).2 ⟨t', h⟩) ?_ y
  cases type with
  | none => rfl
  | index => rfl
  | notNull =>
    obtain ⟨c, c', hc, hset, rfl⟩ := atColumn_ok h
    obtain ⟨rfl, -⟩ := setIsNullable_ok hset
    simp [droppable]
  | unique =>
    obtain ⟨c, c', hc, hset, rfl⟩ := atColumn_ok h
    simp [droppable]

/-! ## What the columns carry -/

theorem carries_add {type : ConstraintType} {t t' : Table V} {x : String}
    (h : addConstraintColumn type t x = .ok t') (y : String) : Carries t' type y ↔ Carries t type y ∨ y = x := by
  cases type with
  | none => simp [Carries]
  | index =>
    obtain rfl := Except.ok.inj h
    simp only [Carries, addSortingColumn]
    split
    next hmem => exact ⟨Or.inl, fun hy => hy.elim id fun hyx => hyx ▸ hmem⟩
    next => simp
  | notNull =>
    obtain ⟨c, c', hc, hset, rfl⟩ := atColumn_ok h
    obtain ⟨rfl, -⟩ := setIsNullable_ok hset
    by_cases hyx : y = x
    · simp [Carries, hyx]
    · simp [Carries, hyx]
  | unique =>
    obtain ⟨c, c', hc, hset, rfl⟩ := atColumn_ok h
    obtain rfl := setIsUnique_ok hset
    by_cases hyx : y = x
    · simp [Carries, hyx]
    · simp [Carries, hyx]

theorem carries_drop {type : ConstraintType} (htype : type ≠ .none) {t t' : Table V} {x : String}
    (hnodup : t.sortingColumns.Nodup) (h : dropConstraintColumn type t x = .ok t') (y : String) :
    Carries t' type y ↔ Carries t type y ∧ y ≠ x := by
  cases type with
  | none => exact absurd rfl htype
  | index =>
    obtain rfl := Except.ok.inj h
    simp only [Carries, removeSortingColumn]
    rw [hnodup.mem_erase_iff]
    tauto
  | notNull =>
    obtain ⟨c, c', hc, hset, rfl⟩ := atColumn_ok h
    obtain ⟨rfl, -⟩ := setIsNullable_ok hset
    by_cases hyx : y = x
    · simp [Carries, hyx]
    · simp [Carries, hyx]
  | unique =>
    obtain ⟨c, c', hc, hset, rfl⟩ := atColumn_ok h
    obtain rfl := setIsUnique_ok hset
    by_cases hyx : y = x
    · simp [Carries, hyx]
    · simp [Carries, hyx]

/-- constraints of another type do not see the change -/
theorem carries_other {type ty : ConstraintType} {cols : List String} {t t' : Table V} (h : Touches type cols t t')
    (hne : ty ≠ type) (y : String) : Carries t' ty y ↔ Carries t ty y := by
  have hcolumn : ∀ {p : Constraints.Column V → Prop},
      (∀ c c' : Constraints.Column V, (type ≠ .notNull → c'.isNullable = c.isNullable) →
      (type ≠ .unique → c'.isUnique = c.isUnique) → (p c' ↔ p c)) →
      ((∃ c, t'.columns y = some c ∧ p c) ↔ ∃ c, t.columns y = some c ∧ p c) := by
    intro p hp
    cases hc : t.columns y with
    | none => simp [h.missing y hc]
    | some c =>
      obtain ⟨c', hc', -, -, hnull, huniq⟩ := h.column y c hc
      simp [hc', hp c c' hnull huniq]
  cases ty with
  | none => simp [Carries]
  | index => simp only [Carries, h.sorting hne.symm]
  | notNull => exact hcolumn fun c c' hnull _ => by rw [hnull hne.symm]
  | unique => exact hcolumn fun c c' _ huniq => by rw [huniq hne.symm]

theorem nodup_add {type : ConstraintType} {t t' : Table V} {x : String} (hnodup : t.sortingColumns.Nodup)
    (h : addConstraintColumn type t x = .ok t') : t'.sortingColumns.Nodup := by
  by_cases htype : type = .index
  · subst htype
    obtain rfl := Except.ok.inj h
    simp only [addSortingColumn]
    split
    · exact hnodup
    next hmem => exact List.Nodup.append hnodup (List.nodup_singleton x) (by simpa using hmem)
  · rwa [(touches_addColumn h).sorting htype]

theorem nodup_drop {type : ConstraintType} {t t' : Table V} {x : String} (hnodup : t.sortingColumns.Nodup)
    (h : dropConstraintColumn type t x = .ok t') : t'.sortingColumns.Nodup := by
  by_cases htype : type = .index
  · subst htype
    obtain rfl := Except.ok.inj h
    exact hnodup.erase x
  · rwa [(touches_dropColumn h).sorting htype]

theorem nodup_restore {type : ConstraintType} {t t' : Table V} {x : String} (hnodup : t.sortingColumns.Nodup)
    (h : restoreConstraintColumn type t x = .ok t') : t'.sortingColumns.Nodup := by
  by_cases htype : type = .index
  · subst htype
    obtain rfl := Except.ok.inj h
    exact hnodup.erase x
  · rwa [(touches_restoreColumn h).sorting htype]

theorem isUnique_touches {type : ConstraintType} {cols : List String} {t t' : Table V} (h : Touches type cols t t')
    (hne : type ≠ .unique) (y : String) : isUnique t' y = isUnique t y := by
  cases hc : t.columns y with
  | none => simp [isUnique, hc, h.missing y hc]
  | some c =>
    obtain ⟨c', hc', -, -, -, huniq⟩ := h.column y c hc
    simp [isUnique, hc, hc', huniq hne]

/-- a column that carries the property of a type can be rid of it, except of NOT NULL when it is unique -/
theorem droppable_of_carries {type : ConstraintType} {t : Table V} {x : String} (h : Carries t type x) :
    droppable type t x = match type with
      | .notNull => !isUnique t x
      | _ => true := by
  cases type with
  | none => rfl
  | index => rfl
  | notNull =>
    obtain ⟨c, hc, hnull⟩ := h
    simp [droppable, isUnique, hc, hnull]
  | unique =>
    obtain ⟨c, hc, -⟩ := h
    simp [droppable, hc]

/-! ## Calls -/

/-- what every call keeps -/
structure Sound (t : Table V) : Prop where
  noNulls : NoNulls t
  nodup : t.sortingColumns.Nodup

theorem sound_process {f : Table V → String → Except Error (Table V)}
    (hf : ∀ t x t', Sound t → f t x = .ok t' → Sound t') {t : Table V} (h : Sound t) (cols : List String) :
    Sound (process f t cols).1 := process_inv f Sound hf h cols

theorem sound_add (type : ConstraintType) (t : Table V) (x : String) (t' : Table V) (h : Sound t)
    (hadd : addConstraintColumn type t x = .ok t') : Sound t' :=
  ⟨noNulls_addColumn h.noNulls hadd, nodup_add h.nodup hadd⟩

theorem sound_drop (type : ConstraintType) (t : Table V) (x : String) (t' : Table V) (h : Sound t)
    (hdrop : dropConstraintColumn type t x = .ok t') : Sound t' :=
  ⟨noNulls_dropColumn h.noNulls hdrop, nodup_drop h.nodup hdrop⟩

theorem sound_restore (type : ConstraintType) (t : Table V) (x : String) (t' : Table V) (h : Sound t)
    (hrestore : restoreConstraintColumn type t x = .ok t') : Sound t' :=
  ⟨noNulls_restoreColumn h.noNulls hrestore, nodup_restore h.nodup hrestore⟩

/-- the constraints are not looked at -/
theorem Sound.withConstraints {t : Table V} (h : Sound t) (k : String → Option (ConstraintType × List String)) :
    Sound { t with constraints := k } := ⟨h.noNulls, h.nodup⟩

theorem carries_withConstraints (t : Table V) (k : String → Option (ConstraintType × List String))
    (type : ConstraintType) (x : String) : Carries { t with constraints := k } type x ↔ Carries t type x := Iff.rfl

theorem step_sound {t : Table V} (h : Sound t) (c : Call) : Sound (step t c) := by
  cases c with
  | add name type cols =>
    have hadd := sound_process (sound_add type) h cols
    simp only [step, addConstraint]
    rcases hproc : process (addConstraintColumn type) t cols with ⟨t', done, err⟩
    rw [hproc] at hadd
    cases err with
    | none =>
      simp only
      split
      · exact hadd
      · exact hadd.withConstraints _
    | some e =>
      have hback := sound_process (sound_drop type) hadd done
      simp only
      rcases hproc' : process (dropConstraintColumn type) t' done with ⟨t'', done', err'⟩
      rw [hproc'] at hback
      cases err' with
      | none => exact hback
      | some e' => exact hback
  | drop name =>
    simp only [step, dropConstraint]
    cases hname : t.constraints name with
    | none => exact h
    | some e =>
      obtain ⟨type, cols⟩ := e
      have hdrop := sound_process (sound_drop type) h cols
      simp only
      rcases hproc : process (dropConstraintColumn type) t cols with ⟨t', done, err⟩
      rw [hproc] at hdrop
      cases err with
      | none => exact hdrop.withConstraints _
      | some e =>
        have hback := sound_process (sound_restore type) hdrop done
        simp only
        rcases hproc' : process (restoreConstraintColumn type) t' done with ⟨t'', done', err'⟩
        rw [hproc'] at hback
        cases err' with
        | none => exact hback
        | some e' => exact hback

/-- the rollback of a failed `AddConstraint` goes through the columns that are undone -/
theorem rollback_done {t t' : Table V} {type : ConstraintType} {cols : List String}
    (htouch : Touches type (cols.takeWhile (takes type t)) t t')
    (hcarries : ∀ y ∈ cols.takeWhile (takes type t), Carries t' type y) :
    (cols.takeWhile (takes type t)).takeWhile (droppable type t') = undone t type cols := by
  have hdrop : ∀ y ∈ cols.takeWhile (takes type t), droppable type t' y =
      if type = .notNull then !isUnique t y else true := by
    intro y hy
    rw [droppable_of_carries (hcarries y hy)]
    cases type with
    | notNull => simp only [isUnique_touches htouch (by simp) y, if_true]
    | none => rfl
    | index => rfl
    | unique => rfl
  rw [Traverse.takeWhile_congr hdrop]
  cases type with
  | notNull => rfl
  | none => exact List.takeWhile_eq_self_iff.2 fun _ _ => rfl
  | index => exact List.takeWhile_eq_self_iff.2 fun _ _ => rfl
  | unique => exact List.takeWhile_eq_self_iff.2 fun _ _ => rfl

/-- `AddConstraint` when all columns can take the constraint: nothing loses what it carries -/
theorem add_enforced {t : Table V} (henf : Enforced t) {name : String} {type : ConstraintType} {cols : List String}
    (htakes : ∀ x ∈ cols, takes type t x = true) : Enforced (t.addConstraint name type cols).1 := by
  obtain ⟨hdone, herr⟩ := process_takeWhile (takes_iff type) (fun t x t' h => takes_keep h) t cols
  have hgives := process_gives (P := fun t => Carries t type) (fun t x t' h => carries_add h) t cols
  have htouch := touches_process (addConstraintColumn type) (fun t x t' h => touches_addColumn h) t cols
  have hcols : cols.takeWhile (takes type t) = cols := List.takeWhile_eq_self_iff.2 htakes
  unfold addConstraint
  rcases hproc : process (addConstraintColumn type) t cols with ⟨t', done, err⟩
  rw [hproc] at hdone herr hgives htouch
  simp only at hdone herr hgives htouch
  obtain rfl : err = none := herr.2 htakes
  obtain rfl : done = cols := hdone.trans hcols
  -- constraints that were there before
  have hold : ∀ n ty cs, t.constraints n = some (ty, cs) → ∀ x ∈ cs, Carries t' ty x := by
    intro n ty cs hn x hx
    by_cases hty : ty = type
    · subst hty
      exact (hgives x).2 (Or.inl (henf n ty cs hn x hx))
    · exact (carries_other htouch hty x).2 (henf n ty cs hn x hx)
  simp only
  cases hname : t'.constraints name with
  | some e =>
    intro n ty cs hn
    simp only [htouch.constraints] at hn
    exact hold n ty cs hn
  | none =>
    intro n ty cs hn x hx
    replace hn : Function.update t'.constraints name (some (type, done)) n = some (ty, cs) := hn
    refine (carries_withConstraints t' _ ty x).2 ?_
    by_cases hnn : n = name
    · subst hnn
      rw [Function.update_self] at hn
      obtain ⟨rfl, rfl⟩ := Prod.mk.inj (Option.some.inj hn)
      exact (hgives x).2 (Or.inr hx)
    · rw [Function.update_of_ne hnn, htouch.constraints] at hn
      exact hold n ty cs hn x hx

/-- `AddConstraint` when a column cannot take the constraint -/
theorem add_failed {t : Table V} (hsound : Sound t) (henf : Enforced t) {name : String} {type : ConstraintType}
    {cols : List String} (hfail : ¬ ∀ x ∈ cols, takes type t x = true) :
    Enforced (t.addConstraint name type cols).1 ↔ ∀ x ∈ undone t type cols, ¬ Lists t [type] x := by
  have htype : type ≠ .none := by
    rintro rfl
    exact hfail fun _ _ => rfl
  obtain ⟨hdone, herr⟩ := process_takeWhile (takes_iff type) (fun t x t' h => takes_keep h) t cols
  have hgives := process_gives (P := fun t => Carries t type) (fun t x t' h => carries_add h) t cols
  have htouch := touches_process (addConstraintColumn type) (fun t x t' h => touches_addColumn h) t cols
  have hsound' := sound_process (sound_add type) hsound cols
  unfold addConstraint
  rcases hproc : process (addConstraintColumn type) t cols with ⟨t', done, err⟩
  rw [hproc] at hdone herr hgives htouch hsound'
  simp only at hdone herr hgives htouch hsound'
  cases err with
  | none => exact absurd (herr.1 rfl) hfail
  | some e =>
    subst hdone
    obtain ⟨hdone', -⟩ := process_takeWhile (droppable_iff type) (fun t x t' h => droppable_keep h) t'
      (cols.takeWhile (takes type t))
    have htakes := process_takes (P := fun t => Carries t type) (J := fun t => t.sortingColumns.Nodup)
      (fun t x t' ht h => nodup_drop ht h) (fun t x t' ht h => carries_drop htype ht h) hsound'.nodup
      (cols.takeWhile (takes type t))
    have hback := touches_process (dropConstraintColumn type) (fun t x t' h => touches_dropColumn h) t'
      (cols.takeWhile (takes type t))
    rw [rollback_done htouch fun y hy => (hgives y).2 (Or.inr hy)] at hdone'
    simp only
    rcases hproc' : process (dropConstraintColumn type) t' (cols.takeWhile (takes type t)) with ⟨t'', done', err'⟩
    rw [hproc'] at hdone' htakes hback
    simp only at hdone' htakes hback
    subst hdone'
    have hconstraints : t''.constraints = t.constraints := hback.constraints.trans htouch.constraints
    have key : Enforced t'' ↔ ∀ x ∈ undone t type cols, ¬ Lists t [type] x := by
      constructor
      · rintro h x hx ⟨n, ty, cs, hn, hty, hmem⟩
        obtain rfl : ty = type := by simpa using hty
        rw [← hconstraints] at hn
        exact ((htakes x).1 (h n ty cs hn x hmem)).2 hx
      · intro h n ty cs hn x hx
        rw [hconstraints] at hn
        have hcarries := henf n ty cs hn x hx
        by_cases hty : ty = type
        · subst hty
          exact (htakes x).2 ⟨(hgives x).2 (Or.inl hcarries), fun hmem => h x hmem ⟨n, ty, cs, hn, by simp, hx⟩⟩
        · exact (carries_other hback hty x).2 ((carries_other htouch hty x).2 hcarries)
    cases err' with
    | none => exact key
    | some e' => exact key

/-- `DropConstraint` of a constraint that can be dropped -/
theorem drop_enforced {t : Table V} (hsound : Sound t) (henf : Enforced t) {name : String} {type : ConstraintType}
    {cols : List String} (hname : t.constraints name = some (type, cols))
    (hdrop : ∀ x ∈ cols, droppable type t x = true) :
    Enforced (t.dropConstraint name).1 ↔
      type = .none ∨ ∀ n cs, n ≠ name → t.constraints n = some (type, cs) → ∀ x ∈ cs, x ∉ cols := by
  obtain ⟨hdone, herr⟩ := process_takeWhile (droppable_iff type) (fun t x t' h => droppable_keep h) t cols
  have htouch := touches_process (dropConstraintColumn type) (fun t x t' h => touches_dropColumn h) t cols
  have htakes : type ≠ .none → ∀ y, Carries (process (dropConstraintColumn type) t cols).1 type y ↔
      Carries t type y ∧ y ∉ (process (dropConstraintColumn type) t cols).2.1 := fun htype =>
    process_takes (P := fun t => Carries t type) (J := fun t => t.sortingColumns.Nodup)
      (fun t x t' ht h => nodup_drop ht h) (fun t x t' ht h => carries_drop htype ht h) hsound.nodup cols
  have hcols : cols.takeWhile (droppable type t) = cols := List.takeWhile_eq_self_iff.2 hdrop
  unfold dropConstraint
  rw [hname]
  simp only
  rcases hproc : process (dropConstraintColumn type) t cols with ⟨t', done, err⟩
  rw [hproc] at hdone herr htakes htouch
  simp only at hdone herr htakes htouch
  obtain rfl : err = none := herr.2 hdrop
  obtain rfl : done = cols := hdone.trans hcols
  simp only
  -- the constraints that are left
  have hleft : ∀ n e, Function.update t'.constraints name none n = some e ↔ n ≠ name ∧ t.constraints n = some e := by
    intro n e
    by_cases hnn : n = name
    · subst hnn
      simp
    · rw [Function.update_of_ne hnn, htouch.constraints]
      simp [hnn]
  constructor
  · intro h
    by_cases htype : type = .none
    · exact Or.inl htype
    · refine Or.inr fun n cs hnn hn x hx hmem => ?_
      have hcarries := h n type cs ((hleft n _).2 ⟨hnn, hn⟩) x hx
      exact ((htakes htype x).1 hcarries).2 hmem
  · intro h n ty cs hn x hx
    obtain ⟨hnn, hn⟩ := (hleft n _).1 hn
    have hcarries := henf n ty cs hn x hx
    refine (carries_withConstraints t' _ ty x).2 ?_
    by_cases hty : ty = type
    · subst hty
      rcases h with rfl | h
      · trivial
      · by_cases htype : ty = .none
        · subst htype
          trivial
        · exact (htakes htype x).2 ⟨hcarries, h n cs hnn hn x hx⟩
    · exact (carries_other htouch hty x).2 hcarries

/-- `DropConstraint` of a NOT NULL constraint that stays because a column of it is unique -/
theorem drop_refused {t : Table V} (hsound : Sound t) (henf : Enforced t) {name : String} {type : ConstraintType}
    {cols : List String} (hname : t.constraints name = some (type, cols))
    (hdrop : ¬ ∀ x ∈ cols, droppable type t x = true) : Enforced (t.dropConstraint name).1 := by
  have htype : type = .notNull := by
    by_contra htype
    refine hdrop fun x hx => ?_
    rw [droppable_of_carries (henf name type cols hname x hx)]
    cases type with
    | notNull => exact absurd rfl htype
    | none => rfl
    | index => rfl
    | unique => rfl
  subst htype
  obtain ⟨-, herr⟩ := process_takeWhile (droppable_iff .notNull) (fun t x t' h => droppable_keep h) t cols
  have htouch := touches_process (dropConstraintColumn .notNull) (fun t x t' h => touches_dropColumn h) t cols
  have hdone := process_done (dropConstraintColumn .notNull) t cols
  have htakes := process_takes (P := fun t => Carries t .notNull) (J := fun t => t.sortingColumns.Nodup)
    (fun t x t' ht h => nodup_drop ht h) (fun t x t' ht h => carries_drop (by simp) ht h) hsound.nodup cols
  unfold dropConstraint
  rw [hname]
  simp only
  rcases hproc : process (dropConstraintColumn .notNull) t cols with ⟨t', done, err⟩
  rw [hproc] at herr htakes htouch hdone
  simp only at herr htakes htouch hdone
  cases err with
  | none => exact absurd (herr.1 rfl) hdrop
  | some e =>
    -- the columns that were made nullable have no NULL, so they become not nullable again
    have hrows : ∀ x ∈ done, ∃ c, t'.columns x = some c ∧ ∀ r ∈ c.rows, r.isNull = false := by
      intro x hx
      obtain ⟨c, hc, hnull⟩ := henf name .notNull cols hname x (hdone x hx)
      obtain ⟨c', hc', hblocks, -⟩ := htouch.column x c hc
      refine ⟨c', hc', ?_⟩
      unfold Constraints.Column.rows
      rw [hblocks]
      exact hsound.noNulls x c hc hnull
    obtain ⟨hok, hflag⟩ := processRestore_notNull hrows
    have hback := touches_process (restoreConstraintColumn .notNull) (fun t x t' h => touches_restoreColumn h) t' done
    have hgives := process_gives (f := restoreConstraintColumn .notNull) (P := fun t => Carries t .notNull)
      (fun t x t' h => carries_add h) t' done
    have hall := process_all hok
    simp only
    rcases hproc' : process (restoreConstraintColumn .notNull) t' done with ⟨t'', done', err'⟩
    rw [hproc'] at hok hback hgives hall
    simp only at hok hback hgives hall
    subst hok hall
    intro n ty cs hn x hx
    have hconstraints : t''.constraints = t.constraints := hback.constraints.trans htouch.constraints
    simp only [hconstraints] at hn
    have hcarries := henf n ty cs hn x hx
    by_cases hty : ty = .notNull
    · subst hty
      refine (hgives x).2 ?_
      by_cases hmem : x ∈ done'
      · exact Or.inr hmem
      · exact Or.inl ((htakes x).2 ⟨hcarries, hmem⟩)
    · exact (carries_other hback hty x).2 ((carries_other htouch hty x).2 hcarries)

/-- **A call keeps the promises of all constraints exactly when it takes back none that another constraint makes.** -/
theorem step_enforced {t : Table V} (hsound : Sound t) (henf : Enforced t) (c : Call) :
    Enforced (step t c) ↔ Respects t c := by
  cases c with
  | add name type cols =>
    by_cases htakes : ∀ x ∈ cols, takes type t x = true
    · exact iff_of_true (add_enforced henf htakes) (Or.inl htakes)
    · refine (add_failed hsound henf htakes).trans ?_
      simp only [Respects]
      exact ⟨Or.inr, fun h => h.resolve_left htakes⟩
  | drop name =>
    cases hname : t.constraints name with
    | none =>
      refine iff_of_true ?_ fun type cols h => ?_
      · simpa [step, dropConstraint, hname] using henf
      · rw [hname] at h
        cases h
    | some e =>
      obtain ⟨type, cols⟩ := e
      have hcarries := henf name type cols hname
      have hrespects : Respects t (.drop name) ↔ (type = .notNull ∧ ∃ x ∈ cols, isUnique t x = true) ∨
          type = .none ∨ ∀ n cs, n ≠ name → t.constraints n = some (type, cs) → ∀ x ∈ cs, x ∉ cols := by
        constructor
        · intro h
          exact h type cols hname
        · intro h type' cols' hname'
          rw [hname] at hname'
          obtain ⟨rfl, rfl⟩ := Prod.mk.inj (Option.some.inj hname')
          exact h
      have hrefused : (¬ ∀ x ∈ cols, droppable type t x = true) ↔
          type = .notNull ∧ ∃ x ∈ cols, isUnique t x = true := by
        constructor
        · intro h
          simp only [not_forall] at h
          obtain ⟨x, hx, hfalse⟩ := h
          rw [droppable_of_carries (hcarries x hx)] at hfalse
          cases type with
          | notNull => exact ⟨rfl, x, hx, by simpa using hfalse⟩
          | none => exact absurd rfl hfalse
          | index => exact absurd rfl hfalse
          | unique => exact absurd rfl hfalse
        · rintro ⟨rfl, x, hx, huniq⟩ h
          have := h x hx
          rw [droppable_of_carries (hcarries x hx), huniq] at this
          cases this
      rw [hrespects]
      by_cases hdrop : ∀ x ∈ cols, droppable type t x = true
      · refine (drop_enforced hsound henf hname hdrop).trans ⟨Or.inr, fun h => h.resolve_left ?_⟩
        exact fun h => (hrefused.2 h) hdrop
      · exact iff_of_true (drop_refused hsound henf hname hdrop) (Or.inl (hrefused.1 hdrop))

/-! ## Runs -/

theorem run_append (t : Table V) (calls : List Call) (c : Call) : run t (calls ++ [c]) = step (run t calls) c := by
  simp [run]

theorem run_sound {t : Table V} (h : Sound t) (calls : List Call) : Sound (run t calls) := by
  induction calls using List.reverseRecOn with
  | nil => exact h
  | append_singleton calls c ih =>
    rw [run_append]
    exact step_sound ih c

theorem newColumns_sound (blockSize : ℕ) (columns : List (String × DataType)) :
    Sound (newColumns blockSize columns : Table V) := by
  refine ⟨fun x c hc hnull => ?_, List.nodup_nil⟩
  obtain ⟨type, -, rfl⟩ := Option.map_eq_some_iff.1 hc
  cases hnull

theorem newColumns_enforced (blockSize : ℕ) (columns : List (String × DataType)) :
    Enforced (newColumns blockSize columns : Table V) := fun _ _ _ h => by cases h

/-- **The constraints of a table are enforced in every state of a run of calls on an empty table exactly when no call
takes back what another constraint promises.** -/
theorem run_enforced (blockSize : ℕ) (columns : List (String × DataType)) (calls : List Call) :
    (∀ done, done <+: calls → Enforced (run (newColumns blockSize columns : Table V) done)) ↔
      ∀ done c, done ++ [c] <+: calls → Respects (run (newColumns blockSize columns : Table V) done) c := by
  have hsound := newColumns_sound (V := V) blockSize columns
  constructor
  · intro h done c hpre
    have henf := h done ((List.prefix_append done [c]).trans hpre)
    have henf' := h _ hpre
    rw [run_append] at henf'
    exact (step_enforced (run_sound hsound done) henf c).1 henf'
  · intro h done
    induction done using List.reverseRecOn with
    | nil => exact fun _ => newColumns_enforced blockSize columns
    | append_singleton done c ih =>
      intro hpre
      have henf := ih ((List.prefix_append done [c]).trans hpre)
      rw [run_append]
      exact (step_enforced (run_sound hsound done) henf c).2 (h done c hpre)

/-- **Dropping one of two NOT NULL constraints on a column makes it nullable**, with the other one still there. -/
theorem dropped_not_null :
    ¬ ∀ done, done <+: [Call.add "p" .notNull ["a"], .add "q" .notNull ["a"], .drop "p"] →
      Enforced (run (newColumns 4 [("a", .int)] : Table ℕ) done) := by
  intro h
  obtain ⟨c, hc, hnull⟩ := h _ (List.prefix_refl _) "q" .notNull ["a"] (by decide) "a" (by simp)
  have hcolumn : (run (newColumns 4 [("a", .int)] : Table ℕ) [Call.add "p" .notNull ["a"], .add "q" .notNull ["a"],
      .drop "p"]).columns "a" = some ⟨.int, true, false, []⟩ := by decide
  rw [hcolumn] at hc
  obtain rfl := Option.some.inj hc
  cases hnull

end QikkDB.OverlappingConstraints

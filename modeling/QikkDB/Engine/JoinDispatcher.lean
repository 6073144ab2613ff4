/-
Join index lists of a chain of INNER JOIN clauses (GpuSqlParser/GpuSqlJoinDispatcher.cu, GpuSqlJoinFunctions.h,
`GpuSqlJoinDispatcher::JoinCol`, QueryEngine/CPUJoinReorderer.cuh, `reorderByJI`).

Each clause joins its two columns on its own and stores one list of row numbers for each of its two tables; a list that
a table already has stays. `MergeJoin::JoinUnique` numbers the rows of a column with the block size of its table,
`GPUJoin::JoinTableRonS` with the block size of the database, and `LoadCol` reads every number with the block size of
the database. The two algorithms are parameters; they return exactly the matching pairs, first column first. Names of
tables and columns hold no dot, so `SplitColumnName` gives them back.

Results:
- `execute_kept`, `execute_listed`: over a whole chain, the first list of a table stays and every table gets one.
- `joined_iff`: the pairs of row numbers a clause stores, with the sides exchanged when only the left column is unique.
- `aligned_of_follows`: chains whose lists are aligned for any contents of the tables.
- `joinIndices_aligned`: exactly these chains, by contents that break every other one.
- `unique_left_misaligned`: a unique left column joined with a column that is not unique.
-/
import Mathlib.Tactic
import QikkDB.Lib.BlockIndex

namespace QikkDB.JoinDispatcher

open BlockIndex

/-! ## Model -/

/-- a column as the join algorithms read it; a NULL row is none -/
structure KeyColumn where
  isUnique : Bool
  blockSize : ℕ
  blocks : List (List (Option ℤ))

/-- lists of row numbers of one table -/
abbrev JoinIndices := List (List ℕ)

/-- lists of one shape that hold exactly the pairs of matching rows, the rows of A numbered with blocks of n rows and
those of B with blocks of m rows -/
structure Returned (r : JoinIndices × JoinIndices) (n m : ℕ) (A B : KeyColumn) : Prop where
  sameShape : shape r.1 = shape r.2
  pairs : (zipPositions r.1 r.2).Perm ((equalPairs A.blocks B.blocks).map (Prod.map (number n) (number m)))

/-- `MergeJoin::JoinUnique` and `GPUJoin::JoinTableRonS` -/
structure Joins where
  joinUnique : KeyColumn → KeyColumn → JoinIndices × JoinIndices
  joinTableRonS : KeyColumn → KeyColumn → ℕ → JoinIndices × JoinIndices
  joinUnique_returned : ∀ A B, B.isUnique = true → Returned (joinUnique A B) A.blockSize B.blockSize A B
  joinTableRonS_returned : ∀ R S n, 0 < n → Returned (joinTableRonS R S n) n n R S

structure ColumnName where
  table : String
  column : String
deriving DecidableEq, Repr

/-- the condition left = right of a JOIN clause -/
structure Clause where
  left : ColumnName
  right : ColumnName
deriving DecidableEq, Repr

/-- block sizes and uniqueness constraints of a database -/
structure Schema where
  blockSize : ℕ
  tableBlockSize : String → ℕ
  isUnique : ColumnName → Bool
  blockSize_pos : 0 < blockSize
  tableBlockSize_pos : ∀ t, 0 < tableBlockSize t

/-- a row of a table, its values by column -/
abbrev Row := String → Option ℤ

/-- the rows of the tables, in blocks; a unique column has no NULL and no value twice -/
structure Contents (S : Schema) where
  rows : String → List (List Row)
  fits : ∀ t, ∀ block ∈ rows t, block.length ≤ S.tableBlockSize t
  notNull : ∀ n, S.isUnique n = true → ∀ p r, cell (rows n.table) p = some r → (r n.column).isSome = true
  notTwice : ∀ n, S.isUnique n = true → ∀ p q r r', cell (rows n.table) p = some r → cell (rows n.table) q = some r' →
    r n.column = r' n.column → p = q

variable {S : Schema}

def Contents.column (D : Contents S) (n : ColumnName) : KeyColumn :=
  ⟨S.isUnique n, S.tableBlockSize n.table, (D.rows n.table).map (List.map fun r => r n.column)⟩

/-- the value `reorderByJI` reads for a join index -/
def Contents.load (D : Contents S) (n : ColumnName) (k : ℕ) : Option (Option ℤ) :=
  cell (D.column n).blocks (split S.blockSize k)

inductive JoinType where
  | innerJoin
  | leftJoin
  | rightJoin
  | fullOuterJoin
deriving DecidableEq, Repr

/-- joinIndices_ of the dispatcher -/
abbrev IndexMap := String → Option JoinIndices

/-- `emplace`: a key that is there keeps its value -/
def emplace (m : IndexMap) (t : String) (l : JoinIndices) : IndexMap :=
  if (m t).isSome then m else Function.update m t (some l)

/-- leftJoinIndices and rightJoinIndices of an INNER JOIN -/
def joined (J : Joins) (D : Contents S) (c : Clause) : JoinIndices × JoinIndices :=
  let colBaseLeft := D.column c.left
  let colBaseRight := D.column c.right
  match colBaseLeft.isUnique, colBaseRight.isUnique with
  | true, true => J.joinUnique colBaseLeft colBaseRight
  -- the lists are filled in the order of the arguments, which is the other way round here
  | true, false => J.joinUnique colBaseRight colBaseLeft
  | false, true => J.joinUnique colBaseLeft colBaseRight
  | false, false => J.joinTableRonS colBaseLeft colBaseRight S.blockSize

def joinCol (J : Joins) (D : Contents S) (c : Clause) (joinType : JoinType) (m : IndexMap) : IndexMap :=
  match joinType with
  | .innerJoin => emplace (emplace m c.left.table (joined J D c).1) c.right.table (joined J D c).2
  | .leftJoin => m
  | .rightJoin => m
  | .fullOuterJoin => m

inductive Instruction where
  | joinCol (c : Clause) (joinType : JoinType)
  | joinDone

/-- the loop of `Execute`; JoinDone ends it -/
def execute (J : Joins) (D : Contents S) : List Instruction → IndexMap → IndexMap
  | [], m => m
  | .joinDone :: _, m => m
  | .joinCol c joinType :: rest, m => execute J D rest (joinCol J D c joinType m)

/-- what the listener adds for a chain of INNER JOIN clauses -/
def innerJoins (clauses : List Clause) : List Instruction :=
  clauses.map (fun c => Instruction.joinCol c .innerJoin) ++ [.joinDone]

/-- the join index lists of a chain -/
def joinIndices (J : Joins) (D : Contents S) (clauses : List Clause) : IndexMap :=
  execute J D (innerJoins clauses) fun _ => none

/-- the rows with join indices k and k' satisfy the condition of a clause -/
def Matches (D : Contents S) (c : Clause) (k k' : ℕ) : Prop :=
  ∃ x, D.load c.left k = some (some x) ∧ D.load c.right k' = some (some x)

def Named (clauses : List Clause) (t : String) : Prop := ∃ c ∈ clauses, t = c.left.table ∨ t = c.right.table

/-- every table of the chain has a list, the lists have one shape, and the rows at each position satisfy every clause -/
structure Aligned (D : Contents S) (m : IndexMap) (clauses : List Clause) : Prop where
  listed : ∀ t, Named clauses t → ∃ l, m t = some l
  sameShape : ∀ t u l l', Named clauses t → Named clauses u → m t = some l → m u = some l' → shape l = shape l'
  matching : ∀ c ∈ clauses, ∀ l l', m c.left.table = some l → m c.right.table = some l' →
    ∀ p k k', cell l p = some k → cell l' p = some k' → Matches D c k k'

/-! ## Chains that are aligned -/

/-- the first clause: two tables (or a column with itself), no exchange of the sides, and block sizes with which the
numbers of rows are read as they were written -/
def Sound (S : Schema) (c : Clause) : Prop :=
  (c.left.table ≠ c.right.table ∨ c.left = c.right) ∧ (S.isUnique c.left = true → S.isUnique c.right = true) ∧
    if S.isUnique c.left = true ∨ S.isUnique c.right = true then
      S.tableBlockSize c.left.table = S.blockSize ∧ S.tableBlockSize c.right.table = S.blockSize
    else S.tableBlockSize c.left.table ≤ S.blockSize ∧ S.tableBlockSize c.right.table ≤ S.blockSize

/-- a later clause that every match of the first one satisfies -/
def Follows (S : Schema) (first c : Clause) : Prop :=
  (c.left = first.left ∧ c.right = first.right) ∨ (c.left = first.right ∧ c.right = first.left) ∨
    (c.left = c.right ∧ (c.left = first.left ∨ c.left = first.right ∨
      (c.left.table = first.left.table ∨ c.left.table = first.right.table) ∧ S.isUnique c.left = true))

/-! ## The lists over a whole chain -/

variable {J : Joins} {D : Contents S}

theorem emplace_kept {m : IndexMap} {t u : String} {l l' : JoinIndices} (h : m u = some l') :
    emplace m t l u = some l' := by
  unfold emplace
  split
  · exact h
  · rename_i hnone
    have hne : u ≠ t := by
      rintro rfl
      exact hnone (by rw [h]; rfl)
    rw [Function.update_of_ne hne, h]

theorem emplace_self (m : IndexMap) (t : String) (l : JoinIndices) : ∃ l', emplace m t l t = some l' := by
  unfold emplace
  split
  · rename_i hsome
    exact Option.isSome_iff_exists.1 hsome
  · exact ⟨l, Function.update_self ..⟩

/-- a list that was not there before is the emplaced one -/
theorem emplace_inv {m : IndexMap} {t u : String} {l l' : JoinIndices} (h : emplace m t l u = some l') :
    m u = some l' ∨ u = t ∧ l' = l := by
  unfold emplace at h
  split at h
  · exact Or.inl h
  · by_cases hut : u = t
    · subst hut
      rw [Function.update_self] at h
      exact Or.inr ⟨rfl, (Option.some.inj h).symm⟩
    · rw [Function.update_of_ne hut] at h
      exact Or.inl h

theorem joinCol_kept {c : Clause} {m : IndexMap} {t : String} {l : JoinIndices} (h : m t = some l) :
    joinCol J D c .innerJoin m t = some l := emplace_kept (emplace_kept h)

theorem joinCol_listed (c : Clause) (m : IndexMap) {t : String} (ht : t = c.left.table ∨ t = c.right.table) :
    ∃ l, joinCol J D c .innerJoin m t = some l := by
  rcases ht with rfl | rfl
  · obtain ⟨l, hl⟩ := emplace_self m c.left.table (joined J D c).1
    exact ⟨l, emplace_kept hl⟩
  · exact emplace_self _ _ _

theorem joinCol_inv {c : Clause} {m : IndexMap} {t : String} {l : JoinIndices}
    (h : joinCol J D c .innerJoin m t = some l) :
    m t = some l ∨ (t = c.left.table ∧ l = (joined J D c).1) ∨ (t = c.right.table ∧ l = (joined J D c).2) := by
  rcases emplace_inv h with h | h
  · rcases emplace_inv h with h | h
    · exact Or.inl h
    · exact Or.inr (Or.inl h)
  · exact Or.inr (Or.inr h)

theorem execute_cons (c : Clause) (rest : List Clause) (m : IndexMap) :
    execute J D (innerJoins (c :: rest)) m = execute J D (innerJoins rest) (joinCol J D c .innerJoin m) := rfl

theorem execute_kept {clauses : List Clause} {m : IndexMap} {t : String} {l : JoinIndices} (h : m t = some l) :
    execute J D (innerJoins clauses) m t = some l := by
  induction clauses generalizing m with
  | nil => exact h
  | cons c rest ih => exact ih (joinCol_kept h)

theorem execute_listed {clauses : List Clause} (m : IndexMap) {t : String} (ht : Named clauses t) :
    ∃ l, execute J D (innerJoins clauses) m t = some l := by
  induction clauses generalizing m with
  | nil =>
    obtain ⟨c, hc, -⟩ := ht
    exact absurd hc List.not_mem_nil
  | cons c rest ih =>
    obtain ⟨c', hc', hname⟩ := ht
    rcases List.mem_cons.1 hc' with rfl | hrest
    · obtain ⟨l, hl⟩ := joinCol_listed (J := J) (D := D) c' m hname
      refine ⟨l, ?_⟩
      rw [execute_cons]
      exact execute_kept hl
    · exact ih _ ⟨c', hrest, hname⟩

/-- every list of the chain is one that a clause stored for its table -/
theorem execute_inv {clauses : List Clause} {m : IndexMap} {t : String} {l : JoinIndices}
    (h : execute J D (innerJoins clauses) m t = some l) :
    m t = some l ∨ ∃ c ∈ clauses,
      (t = c.left.table ∧ l = (joined J D c).1) ∨ (t = c.right.table ∧ l = (joined J D c).2) := by
  induction clauses generalizing m with
  | nil => exact Or.inl h
  | cons c rest ih =>
    rcases ih h with h | ⟨c', hc', h⟩
    · rcases joinCol_inv h with h | h
      · exact Or.inl h
      · exact Or.inr ⟨c, List.mem_cons_self, h⟩
    · exact Or.inr ⟨c', List.mem_cons_of_mem _ hc', h⟩

theorem joinIndices_listed {clauses : List Clause} {t : String} (ht : Named clauses t) :
    ∃ l, joinIndices J D clauses t = some l := execute_listed _ ht

theorem joinIndices_left (first : Clause) (rest : List Clause) :
    joinIndices J D (first :: rest) first.left.table = some (joined J D first).1 := by
  rw [joinIndices, execute_cons]
  refine execute_kept (emplace_kept ?_)
  simp [emplace]

theorem joinIndices_right {first : Clause} (rest : List Clause) (hne : first.left.table ≠ first.right.table) :
    joinIndices J D (first :: rest) first.right.table = some (joined J D first).2 := by
  rw [joinIndices, execute_cons]
  refine execute_kept ?_
  simp [joinCol, emplace, Function.update_of_ne hne.symm]

/-! ## The pairs of row numbers of a clause -/

theorem mem_returned {r : JoinIndices × JoinIndices} {n m : ℕ} {A B : KeyColumn} (h : Returned r n m A B) {k k' : ℕ} :
    (k, k') ∈ zipPositions r.1 r.2 ↔
      ∃ p q, (p, q) ∈ equalPairs A.blocks B.blocks ∧ k = number n p ∧ k' = number m q := by
  rw [h.pairs.mem_iff, List.mem_map]
  constructor
  · rintro ⟨⟨p, q⟩, hpq, heq⟩
    obtain ⟨rfl, rfl⟩ := Prod.mk.inj heq
    exact ⟨p, q, hpq, rfl, rfl⟩
  · rintro ⟨p, q, hpq, rfl, rfl⟩
    exact ⟨(p, q), hpq, rfl⟩

/-- rows p and q of the two columns of a clause hold the same value -/
def Equal (D : Contents S) (c : Clause) (p q : ℕ × ℕ) : Prop :=
  ∃ x, cell (D.column c.left).blocks p = some (some x) ∧ cell (D.column c.right).blocks q = some (some x)

/-- the join indices that the left and the right table get for rows p and q -/
def stored (S : Schema) (c : Clause) (p q : ℕ × ℕ) : ℕ × ℕ :=
  match S.isUnique c.left, S.isUnique c.right with
  | true, true => (number (S.tableBlockSize c.left.table) p, number (S.tableBlockSize c.right.table) q)
  | true, false => (number (S.tableBlockSize c.right.table) q, number (S.tableBlockSize c.left.table) p)
  | false, true => (number (S.tableBlockSize c.left.table) p, number (S.tableBlockSize c.right.table) q)
  | false, false => (number S.blockSize p, number S.blockSize q)

theorem joined_sameShape (c : Clause) : shape (joined J D c).1 = shape (joined J D c).2 := by
  cases hl : S.isUnique c.left <;> cases hr : S.isUnique c.right <;> simp only [joined, Contents.column, hl, hr]
  · exact (J.joinTableRonS_returned _ _ _ S.blockSize_pos).sameShape
  · exact (J.joinUnique_returned _ _ rfl).sameShape
  · exact (J.joinUnique_returned _ _ rfl).sameShape
  · exact (J.joinUnique_returned _ _ rfl).sameShape

theorem joined_iff (c : Clause) {k k' : ℕ} :
    (k, k') ∈ zipPositions (joined J D c).1 (joined J D c).2 ↔ ∃ p q, Equal D c p q ∧ (k, k') = stored S c p q := by
  have hequal : ∀ p q, (p, q) ∈ equalPairs (D.column c.left).blocks (D.column c.right).blocks ↔ Equal D c p q :=
    fun p q => mem_equalPairs
  have hswap : ∀ p q, (q, p) ∈ equalPairs (D.column c.right).blocks (D.column c.left).blocks ↔ Equal D c p q := by
    intro p q
    rw [mem_equalPairs, Equal]
    exact exists_congr fun x => and_comm
  cases hl : S.isUnique c.left <;> cases hr : S.isUnique c.right
  · have hret := J.joinTableRonS_returned (D.column c.left) (D.column c.right) S.blockSize S.blockSize_pos
    have hjoin : joined J D c = J.joinTableRonS (D.column c.left) (D.column c.right) S.blockSize := by
      simp only [joined, Contents.column, hl, hr]
    simp only [hjoin, mem_returned hret, hequal, stored, hl, hr, Prod.mk.injEq]
  · have hret := J.joinUnique_returned (D.column c.left) (D.column c.right) hr
    have hjoin : joined J D c = J.joinUnique (D.column c.left) (D.column c.right) := by
      simp only [joined, Contents.column, hl, hr]
    simp only [hjoin, mem_returned hret, hequal, stored, hl, hr, Prod.mk.injEq]
    rfl
  · have hret := J.joinUnique_returned (D.column c.right) (D.column c.left) hl
    have hjoin : joined J D c = J.joinUnique (D.column c.right) (D.column c.left) := by
      simp only [joined, Contents.column, hl, hr]
    simp only [hjoin, mem_returned hret, stored, hl, hr, Prod.mk.injEq]
    constructor
    · rintro ⟨q, p, hpq, hk, hk'⟩
      exact ⟨p, q, (hswap p q).1 hpq, hk, hk'⟩
    · rintro ⟨p, q, hpq, hk, hk'⟩
      exact ⟨q, p, (hswap p q).2 hpq, hk, hk'⟩
  · have hret := J.joinUnique_returned (D.column c.left) (D.column c.right) hr
    have hjoin : joined J D c = J.joinUnique (D.column c.left) (D.column c.right) := by
      simp only [joined, Contents.column, hl, hr]
    simp only [hjoin, mem_returned hret, hequal, stored, hl, hr, Prod.mk.injEq]
    rfl

/-! ## Chains over the two tables of the first clause -/

/-- the part of a pair (left, right) that belongs to a table of the first clause; a table joined with itself keeps the
left one -/
def side {α : Type} (first : Clause) (t : String) (r : α × α) : α := if t = first.left.table then r.1 else r.2

def Clause.Has (c : Clause) (t : String) : Prop := t = c.left.table ∨ t = c.right.table

theorem joinIndices_side {first : Clause} (rest : List Clause) {t : String} (ht : first.Has t) :
    joinIndices J D (first :: rest) t = some (side first t (joined J D first)) := by
  unfold side
  split
  · rename_i hleft
    rw [hleft, joinIndices_left]
  · rename_i hleft
    rcases ht with rfl | rfl
    · exact absurd rfl hleft
    · exact joinIndices_right rest (Ne.symm hleft)

theorem shape_side (first : Clause) (t : String) :
    shape (side first t (joined J D first)) = shape (joined J D first).1 := by
  unfold side
  split
  · rfl
  · exact (joined_sameShape first).symm

theorem cell_side {first : Clause} {p : ℕ × ℕ} {k k' : ℕ} (h : cell (joined J D first).1 p = some k)
    (h' : cell (joined J D first).2 p = some k') (t : String) :
    cell (side first t (joined J D first)) p = some (side first t (k, k')) := by
  unfold side
  split
  · exact h
  · exact h'

/-- a position of the lists is a pair of matching rows -/
theorem exists_equal {first : Clause} {p : ℕ × ℕ} {t : String} {k : ℕ}
    (h : cell (side first t (joined J D first)) p = some k) :
    ∃ a b, Equal D first a b ∧
      ∀ u, cell (side first u (joined J D first)) p = some (side first u (stored S first a b)) := by
  obtain ⟨x, hx⟩ := cell_isSome_of_shape (shape_side (J := J) (D := D) first t) h
  obtain ⟨y, hy⟩ := cell_isSome_of_shape (joined_sameShape (J := J) (D := D) first) hx
  obtain ⟨a, b, hab, heq⟩ := (joined_iff (J := J) first).1 (mem_zipPositions.2 ⟨p, hx, hy⟩)
  refine ⟨a, b, hab, fun u => ?_⟩
  rw [← heq]
  exact cell_side hx hy u

/-- a pair of matching rows has a position -/
theorem exists_position {first : Clause} {a b : ℕ × ℕ} (h : Equal D first a b) :
    ∃ p, ∀ u, cell (side first u (joined J D first)) p = some (side first u (stored S first a b)) := by
  obtain ⟨p, hx, hy⟩ := mem_zipPositions.1 ((joined_iff (J := J) first).2 ⟨a, b, h, rfl⟩)
  exact ⟨p, fun u => cell_side hx hy u⟩

/-- the rows loaded for a pair of matching rows of the first clause satisfy a clause -/
theorem matches_of_aligned {first : Clause} {rest : List Clause}
    (h : Aligned D (joinIndices J D (first :: rest)) (first :: rest)) {c : Clause} (hc : c ∈ first :: rest)
    (hl : first.Has c.left.table) (hr : first.Has c.right.table) {a b : ℕ × ℕ} (hab : Equal D first a b) :
    Matches D c (side first c.left.table (stored S first a b)) (side first c.right.table (stored S first a b)) := by
  obtain ⟨p, hp⟩ := exists_position (J := J) hab
  exact h.matching c hc _ _ (joinIndices_side rest hl) (joinIndices_side rest hr) p _ _ (hp _) (hp _)

theorem aligned_of_matches {first : Clause} {rest : List Clause}
    (htables : ∀ c ∈ first :: rest, first.Has c.left.table ∧ first.Has c.right.table)
    (hmatch : ∀ c ∈ first :: rest, ∀ a b, Equal D first a b →
      Matches D c (side first c.left.table (stored S first a b)) (side first c.right.table (stored S first a b))) :
    Aligned D (joinIndices J D (first :: rest)) (first :: rest) := by
  have hhas : ∀ t, Named (first :: rest) t → first.Has t := by
    rintro t ⟨c, hc, rfl | rfl⟩
    · exact (htables c hc).1
    · exact (htables c hc).2
  refine ⟨fun t ht => joinIndices_listed ht, ?_, ?_⟩
  · intro t u l l' ht hu hl hl'
    rw [joinIndices_side rest (hhas t ht)] at hl
    rw [joinIndices_side rest (hhas u hu)] at hl'
    obtain rfl := Option.some.inj hl
    obtain rfl := Option.some.inj hl'
    rw [shape_side, shape_side]
  · intro c hc l l' hl hl' p k k' hk hk'
    rw [joinIndices_side rest (htables c hc).1] at hl
    rw [joinIndices_side rest (htables c hc).2] at hl'
    obtain rfl := Option.some.inj hl
    obtain rfl := Option.some.inj hl'
    obtain ⟨a, b, hab, hcell⟩ := exists_equal hk
    obtain rfl : side first c.left.table (stored S first a b) = k := Option.some.inj ((hcell _).symm.trans hk)
    obtain rfl : side first c.right.table (stored S first a b) = k' := Option.some.inj ((hcell _).symm.trans hk')
    exact hmatch c hc a b hab

/-! ## Sound chains -/

theorem Contents.cell_column (D : Contents S) (n : ColumnName) (p : ℕ × ℕ) :
    cell (D.column n).blocks p = (cell (D.rows n.table) p).map fun r => r n.column := cell_map _ _ _

theorem Contents.cell_column_lt (D : Contents S) {n : ColumnName} {p : ℕ × ℕ} {x : Option ℤ}
    (h : cell (D.column n).blocks p = some x) : p.2 < S.tableBlockSize n.table := by
  rw [D.cell_column] at h
  obtain ⟨r, hr, -⟩ := Option.map_eq_some_iff.1 h
  exact cell_lt (D.fits n.table) hr

/-- in a sound clause the stored numbers are read back as the rows they were taken from -/
theorem split_stored {first : Clause} (hs : Sound S first) {a b : ℕ × ℕ} (hab : Equal D first a b) :
    split S.blockSize (stored S first a b).1 = a ∧ split S.blockSize (stored S first a b).2 = b := by
  obtain ⟨x, ha, hb⟩ := hab
  have hal := D.cell_column_lt ha
  have hbl := D.cell_column_lt hb
  obtain ⟨-, himp, hsize⟩ := hs
  unfold stored
  cases hl : S.isUnique first.left <;> cases hr : S.isUnique first.right <;> simp only [hl, hr] at himp hsize ⊢
  · simp only [Bool.false_eq_true, or_self, ↓reduceIte] at hsize
    exact ⟨split_number (by omega), split_number (by omega)⟩
  · simp only [Bool.false_eq_true, or_true, ↓reduceIte] at hsize
    rw [hsize.1, hsize.2]
    rw [hsize.1] at hal
    rw [hsize.2] at hbl
    exact ⟨split_number hal, split_number hbl⟩
  · exact absurd (himp trivial) Bool.false_ne_true
  · simp only [or_self, ↓reduceIte] at hsize
    rw [hsize.1, hsize.2]
    rw [hsize.1] at hal
    rw [hsize.2] at hbl
    exact ⟨split_number hal, split_number hbl⟩

theorem Follows.tables {first c : Clause} (h : Follows S first c) :
    first.Has c.left.table ∧ first.Has c.right.table := by
  rcases h with ⟨hl, hr⟩ | ⟨hl, hr⟩ | ⟨heq, hl | hl | ⟨hl, -⟩⟩
  · exact ⟨Or.inl (by rw [hl]), Or.inr (by rw [hr])⟩
  · exact ⟨Or.inr (by rw [hl]), Or.inl (by rw [hr])⟩
  · exact ⟨Or.inl (by rw [hl]), Or.inl (by rw [← heq, hl])⟩
  · exact ⟨Or.inr (by rw [hl]), Or.inr (by rw [← heq, hl])⟩
  · exact ⟨hl, heq ▸ hl⟩

theorem follows_self (first : Clause) : Follows S first first := Or.inl ⟨rfl, rfl⟩

/-- what is loaded for a pair of matching rows: the row of the left table and, from the other table, the right one -/
theorem load_side {first : Clause} (hs : Sound S first) {a b : ℕ × ℕ} (hab : Equal D first a b) :
    (∀ n : ColumnName, n.table = first.left.table →
      D.load n (side first n.table (stored S first a b)) = cell (D.column n).blocks a) ∧
    (∀ n : ColumnName, n.table = first.right.table → n.table ≠ first.left.table →
      D.load n (side first n.table (stored S first a b)) = cell (D.column n).blocks b) := by
  obtain ⟨ha, hb⟩ := split_stored hs hab
  constructor
  · intro n hn
    rw [Contents.load, side, if_pos hn, ha]
  · intro n _ hne
    rw [Contents.load, side, if_neg hne, hb]

/-- the value both joined columns hold at a pair of matching rows is loaded for both -/
theorem load_joined {first : Clause} (hs : Sound S first) {a b : ℕ × ℕ} (hab : Equal D first a b) :
    ∃ x, D.load first.left (side first first.left.table (stored S first a b)) = some (some x) ∧
      D.load first.right (side first first.right.table (stored S first a b)) = some (some x) := by
  obtain ⟨hleft, hright⟩ := load_side hs hab
  obtain ⟨x, ha, hb⟩ := hab
  refine ⟨x, by rw [hleft _ rfl, ha], ?_⟩
  rcases hs.1 with hne | heq
  · rw [hright _ rfl (Ne.symm hne), hb]
  · rw [← heq, hleft _ rfl, ha]

/-- a unique column has a value in every row that is loaded -/
theorem load_unique {first : Clause} (hs : Sound S first) {a b : ℕ × ℕ} (hab : Equal D first a b) {n : ColumnName}
    (hn : first.Has n.table) (hu : S.isUnique n = true) :
    ∃ x, D.load n (side first n.table (stored S first a b)) = some (some x) := by
  obtain ⟨hleft, hright⟩ := load_side hs hab
  obtain ⟨x, ha, hb⟩ := hab
  rw [D.cell_column] at ha hb
  obtain ⟨ra, hra, -⟩ := Option.map_eq_some_iff.1 ha
  obtain ⟨rb, hrb, -⟩ := Option.map_eq_some_iff.1 hb
  by_cases hl : n.table = first.left.table
  · have hrow : cell (D.rows n.table) a = some ra := by rw [hl, hra]
    obtain ⟨y, hy⟩ := Option.isSome_iff_exists.1 (D.notNull n hu a ra hrow)
    refine ⟨y, ?_⟩
    rw [hleft n hl, D.cell_column, hrow, Option.map_some, hy]
  · have hr : n.table = first.right.table := hn.resolve_left hl
    have hrow : cell (D.rows n.table) b = some rb := by rw [hr, hrb]
    obtain ⟨y, hy⟩ := Option.isSome_iff_exists.1 (D.notNull n hu b rb hrow)
    refine ⟨y, ?_⟩
    rw [hright n hr hl, D.cell_column, hrow, Option.map_some, hy]

theorem matches_of_follows {first c : Clause} (hs : Sound S first) (hf : Follows S first c) {a b : ℕ × ℕ}
    (hab : Equal D first a b) :
    Matches D c (side first c.left.table (stored S first a b)) (side first c.right.table (stored S first a b)) := by
  obtain ⟨x, hx, hy⟩ := load_joined hs hab
  rcases hf with ⟨hl, hr⟩ | ⟨hl, hr⟩ | ⟨heq, hl | hl | ⟨hl, hu⟩⟩
  · rw [hl, hr]
    exact ⟨x, by rw [hl]; exact hx, by rw [hr]; exact hy⟩
  · rw [hl, hr]
    exact ⟨x, by rw [hl]; exact hy, by rw [hr]; exact hx⟩
  · rw [← heq, hl]
    exact ⟨x, by rw [hl]; exact hx, by rw [← heq, hl]; exact hx⟩
  · rw [← heq, hl]
    exact ⟨x, by rw [hl]; exact hy, by rw [← heq, hl]; exact hy⟩
  · obtain ⟨y, hload⟩ := load_unique hs hab hl hu
    rw [← heq]
    exact ⟨y, hload, by rw [← heq]; exact hload⟩

theorem aligned_of_follows {first : Clause} {rest : List Clause} (hs : Sound S first)
    (hf : ∀ c ∈ rest, Follows S first c) (D : Contents S) :
    Aligned D (joinIndices J D (first :: rest)) (first :: rest) := by
  have hall : ∀ c ∈ first :: rest, Follows S first c := by
    intro c hc
    rcases List.mem_cons.1 hc with rfl | hrest
    · exact follows_self c
    · exact hf c hrest
  exact aligned_of_matches (fun c hc => (hall c hc).tables) fun c hc a b hab => matches_of_follows hs (hall c hc) hab

/-! ## Contents that break the other chains -/

/-- how many rows the tables have and what is in them, by row number -/
structure Values (S : Schema) where
  count : String → ℕ
  value : ColumnName → ℕ → Option ℤ
  notNull : ∀ n, S.isUnique n = true → ∀ k < count n.table, (value n k).isSome = true
  notTwice : ∀ n, S.isUnique n = true → ∀ k < count n.table, ∀ k' < count n.table, value n k = value n k' → k = k'

/-- the blocks of a table, all full except possibly the last -/
def Values.rows (V : Values S) (t : String) : List (List Row) :=
  Chunks.chunks (S.tableBlockSize t) ((List.range (V.count t)).map fun k c => V.value ⟨t, c⟩ k)

theorem Values.cell_rows (V : Values S) (t : String) (p : ℕ × ℕ) (r : Row) :
    cell (V.rows t) p = some r ↔ p.2 < S.tableBlockSize t ∧ number (S.tableBlockSize t) p < V.count t ∧
      r = fun c => V.value ⟨t, c⟩ (number (S.tableBlockSize t) p) := by
  rw [Values.rows, cell_chunks (S.tableBlockSize_pos t), List.getElem?_map, Option.map_eq_some_iff]
  refine and_congr_right fun _ => ?_
  constructor
  · rintro ⟨k, hk, rfl⟩
    obtain ⟨hlt, rfl⟩ := List.getElem?_eq_some_iff.1 hk
    simp only [List.length_range, List.getElem_range] at hlt ⊢
    exact ⟨hlt, trivial⟩
  · rintro ⟨hlt, rfl⟩
    exact ⟨_, List.getElem?_range hlt, rfl⟩

/-- packed tables are contents the schema allows -/
def Values.contents (V : Values S) : Contents S where
  rows := V.rows
  fits t block hb := (Chunks.mem_chunks_length (S.tableBlockSize_pos t) _ block hb).2
  notNull n hu p r hr := by
    obtain ⟨-, hlt, rfl⟩ := (V.cell_rows n.table p r).1 hr
    exact V.notNull n hu _ hlt
  notTwice n hu p q r r' hr hr' heq := by
    obtain ⟨hp, hlt, rfl⟩ := (V.cell_rows n.table p r).1 hr
    obtain ⟨hq, hlt', rfl⟩ := (V.cell_rows n.table q r').1 hr'
    exact number_injective hp hq (V.notTwice n hu _ hlt _ hlt' heq)

theorem Values.cell_column_iff (V : Values S) (n : ColumnName) (p : ℕ × ℕ) (x : Option ℤ) :
    cell (V.contents.column n).blocks p = some x ↔ p.2 < S.tableBlockSize n.table ∧
      number (S.tableBlockSize n.table) p < V.count n.table ∧ x = V.value n (number (S.tableBlockSize n.table) p) := by
  rw [Contents.cell_column, Option.map_eq_some_iff]
  constructor
  · rintro ⟨r, hr, rfl⟩
    obtain ⟨hp, hlt, rfl⟩ := (V.cell_rows n.table p r).1 hr
    exact ⟨hp, hlt, rfl⟩
  · rintro ⟨hp, hlt, rfl⟩
    exact ⟨_, (V.cell_rows n.table p _).2 ⟨hp, hlt, rfl⟩, rfl⟩

theorem Values.load_iff (V : Values S) (n : ColumnName) (k : ℕ) (x : Option ℤ) :
    V.contents.load n k = some x ↔ (split S.blockSize k).2 < S.tableBlockSize n.table ∧
      number (S.tableBlockSize n.table) (split S.blockSize k) < V.count n.table ∧
      x = V.value n (number (S.tableBlockSize n.table) (split S.blockSize k)) := V.cell_column_iff n _ x

/-- rows i and j of the two tables -/
theorem Values.equal (V : Values S) {c : Clause} {i j : ℕ} (hi : i < V.count c.left.table)
    (hj : j < V.count c.right.table) {x : ℤ} (hx : V.value c.left i = some x) (hy : V.value c.right j = some x) :
    Equal V.contents c (split (S.tableBlockSize c.left.table) i) (split (S.tableBlockSize c.right.table) j) := by
  refine ⟨x, (V.cell_column_iff _ _ _).2 ?_, (V.cell_column_iff _ _ _).2 ?_⟩
  · rw [number_split]
    exact ⟨Nat.mod_lt _ (S.tableBlockSize_pos _), hi, hx.symm⟩
  · rw [number_split]
    exact ⟨Nat.mod_lt _ (S.tableBlockSize_pos _), hj, hy.symm⟩

/-- one row in each table of the first clause, none in the others -/
def singleRow (S : Schema) (first : Clause) (value : ColumnName → Option ℤ)
    (hvalue : ∀ n, S.isUnique n = true → (value n).isSome = true) : Values S where
  count t := if t = first.left.table ∨ t = first.right.table then 1 else 0
  value n _ := value n
  notNull n hu _ _ := hvalue n hu
  notTwice n _ k hk k' hk' _ := by
    split at hk
    · rename_i hn
      rw [if_pos hn] at hk'
      omega
    · omega

/-- m + 1 rows numbered from zero in table t, one row in every other table, that is equal to the last of t -/
def counting (S : Schema) (t : String) (m : ℕ) : Values S where
  count u := if u = t then m + 1 else 1
  value n k := some (if n.table = t then (k : ℤ) else m + k)
  notNull _ _ _ _ := rfl
  notTwice n _ k hk k' hk' h := by
    have hval := Option.some.inj h
    split at hval <;> omega

/-- two rows, in which the right column of a clause is one more than the other columns -/
def shifted (S : Schema) (c : Clause) : Values S where
  count _ := 2
  value n k := some (if n = c.right then (k : ℤ) + 1 else k)
  notNull _ _ _ _ := rfl
  notTwice n _ k hk k' hk' h := by
    have hval := Option.some.inj h
    split at hval <;> omega

section Necessary

variable {first : Clause} {rest : List Clause}
  (h : ∀ D : Contents S, Aligned D (joinIndices J D (first :: rest)) (first :: rest))

include h

/-- the rows loaded for any pair of matching rows satisfy the first clause -/
theorem first_matches {V : Values S} {i j : ℕ} (hi : i < V.count first.left.table) (hj : j < V.count first.right.table)
    {x : ℤ} (hx : V.value first.left i = some x) (hy : V.value first.right j = some x) :
    Matches V.contents first
      (side first first.left.table (stored S first
        (split (S.tableBlockSize first.left.table) i) (split (S.tableBlockSize first.right.table) j)))
      (side first first.right.table (stored S first
        (split (S.tableBlockSize first.left.table) i) (split (S.tableBlockSize first.right.table) j))) :=
  matches_of_aligned (h V.contents) List.mem_cons_self (Or.inl rfl) (Or.inr rfl) (V.equal hi hj hx hy)

/-- a table joined with itself is joined on one column -/
theorem left_eq_right_of_table (ht : first.left.table = first.right.table) : first.left = first.right := by
  by_contra hne
  have hi : 1 < (shifted S first).count first.left.table := by simp [shifted]
  have hj : 0 < (shifted S first).count first.right.table := by simp [shifted]
  obtain ⟨y, hl, hr⟩ := first_matches h hi hj (x := 1) (by simp [shifted, hne]) (by simp [shifted])
  rw [Values.load_iff] at hl hr
  -- both columns are read from one row
  obtain ⟨-, -, hyl⟩ := hl
  obtain ⟨-, -, hyr⟩ := hr
  simp only [← ht] at hyl hyr
  have hval := hyl.symm.trans hyr
  simp only [shifted, if_neg hne, ↓reduceIte, Option.some.injEq] at hval
  omega

/-- a left column that alone is unique has its list exchanged with the right one -/
theorem unique_right_of_left (hl : S.isUnique first.left = true) : S.isUnique first.right = true := by
  by_contra hr
  rw [Bool.not_eq_true] at hr
  have hne : first.left.table ≠ first.right.table := by
    intro ht
    rw [← left_eq_right_of_table h ht, hl] at hr
    exact Bool.noConfusion hr
  have hi : 0 < (counting S first.right.table 1).count first.left.table := by simp [counting, hne]
  have hj : 1 < (counting S first.right.table 1).count first.right.table := by simp [counting]
  obtain ⟨y, hload, -⟩ := first_matches h hi hj (x := 1) (by simp [counting, hne]) (by simp [counting])
  have hstored : side first first.left.table (stored S first (split (S.tableBlockSize first.left.table) 0)
      (split (S.tableBlockSize first.right.table) 1)) = 1 := by
    simp only [side, ↓reduceIte, stored, hl, hr, number_split]
  rw [hstored, Values.load_iff] at hload
  -- the left table has one row only, and index 1 is read as another one
  have hzero : number (S.tableBlockSize first.left.table) (split S.blockSize 1) = 0 := by
    have hlt := hload.2.1
    simp only [counting, if_neg hne] at hlt
    omega
  have hone : number S.blockSize (split S.blockSize 1) = 0 := by
    rw [number_eq_zero (S.tableBlockSize_pos _) hzero]
    simp [number]
  rw [number_split] at hone
  exact absurd hone one_ne_zero

omit h in
/-- the last row of a table of block size + 1 rows -/
theorem blockSize_of_load {n : ColumnName} (hload : (counting S n.table (S.tableBlockSize n.table)).contents.load n
    (S.tableBlockSize n.table) = some (some (S.tableBlockSize n.table : ℤ))) :
    S.tableBlockSize n.table = S.blockSize := by
  have hpos := S.tableBlockSize_pos n.table
  obtain ⟨hrow, -, hval⟩ := (Values.load_iff _ _ _ _).1 hload
  simp only [counting, ↓reduceIte, Option.some.injEq] at hval
  have hone : split S.blockSize (S.tableBlockSize n.table) = (1, 0) := by
    rw [← split_number hrow, ← Int.ofNat.inj hval, split, Nat.div_self hpos, Nat.mod_self]
  calc S.tableBlockSize n.table
      = number S.blockSize (split S.blockSize (S.tableBlockSize n.table)) := (number_split _ _).symm
    _ = number S.blockSize (1, 0) := by rw [hone]
    _ = S.blockSize := by simp [number]

omit h in
theorem counting_load_other {t : String} {n : ColumnName} (hne : n.table ≠ t) (m : ℕ) :
    (counting S t m).contents.load n 0 = some (some (m : ℤ)) := by
  rw [Values.load_iff]
  have hzero : split S.blockSize 0 = (0, 0) := by simp [split]
  rw [hzero]
  simp [number, counting, hne, S.tableBlockSize_pos]

/-- with a unique column, the two tables have the block size of the database -/
theorem blockSize_left (hne : first.left.table ≠ first.right.table) (hr : S.isUnique first.right = true) :
    S.tableBlockSize first.left.table = S.blockSize := by
  let V := counting S first.left.table (S.tableBlockSize first.left.table)
  have hi : S.tableBlockSize first.left.table < V.count first.left.table := by simp [V, counting]
  have hj : 0 < V.count first.right.table := by simp [V, counting, hne.symm]
  obtain ⟨y, hload, hother⟩ := first_matches h hi hj (x := S.tableBlockSize first.left.table)
    (by simp [V, counting]) (by simp [V, counting, hne.symm])
  have hstored : stored S first (split (S.tableBlockSize first.left.table) (S.tableBlockSize first.left.table))
      (split (S.tableBlockSize first.right.table) 0) = (S.tableBlockSize first.left.table, 0) := by
    cases hl : S.isUnique first.left <;> simp only [stored, hl, hr, number_split]
  rw [hstored, side, if_pos rfl] at hload
  rw [hstored, side, if_neg hne.symm, counting_load_other hne.symm] at hother
  obtain rfl := Option.some.inj (Option.some.inj hother)
  exact blockSize_of_load hload

theorem blockSize_right (hne : first.left.table ≠ first.right.table) (hr : S.isUnique first.right = true) :
    S.tableBlockSize first.right.table = S.blockSize := by
  let V := counting S first.right.table (S.tableBlockSize first.right.table)
  have hi : 0 < V.count first.left.table := by simp [V, counting, hne]
  have hj : S.tableBlockSize first.right.table < V.count first.right.table := by simp [V, counting]
  obtain ⟨y, hother, hload⟩ := first_matches h hi hj (x := S.tableBlockSize first.right.table)
    (by simp [V, counting, hne]) (by simp [V, counting])
  have hstored : stored S first (split (S.tableBlockSize first.left.table) 0)
      (split (S.tableBlockSize first.right.table) (S.tableBlockSize first.right.table)) =
        (0, S.tableBlockSize first.right.table) := by
    cases hl : S.isUnique first.left <;> simp only [stored, hl, hr, number_split]
  rw [hstored, side, if_neg hne.symm] at hload
  rw [hstored, side, if_pos rfl, counting_load_other hne] at hother
  obtain rfl := Option.some.inj (Option.some.inj hother)
  exact blockSize_of_load hload

/-- a unique column joined with itself -/
theorem blockSize_self (heq : first.left = first.right) (hr : S.isUnique first.right = true) :
    S.tableBlockSize first.left.table = S.blockSize := by
  have hpos := S.tableBlockSize_pos first.left.table
  let V := counting S first.left.table (S.tableBlockSize first.left.table)
  have hall : ∀ k ≤ S.tableBlockSize first.left.table, (split S.blockSize k).2 < S.tableBlockSize first.left.table ∧
      number (S.tableBlockSize first.left.table) (split S.blockSize k) ≤ S.tableBlockSize first.left.table := by
    intro k hk
    have hi : k < V.count first.left.table := by
      simp only [V, counting, ↓reduceIte]
      omega
    obtain ⟨y, hload, -⟩ := first_matches h hi (heq ▸ hi) (x := k) (by simp [V, counting])
      (by simp [V, counting, heq])
    have hstored : (stored S first (split (S.tableBlockSize first.left.table) k)
        (split (S.tableBlockSize first.right.table) k)).1 = k := by
      simp only [stored, heq, hr, number_split]
    rw [side, if_pos rfl, hstored, Values.load_iff] at hload
    obtain ⟨hrow, hlt, -⟩ := hload
    simp only [V, counting, ↓reduceIte] at hlt
    exact ⟨hrow, by omega⟩
  rcases Nat.lt_trichotomy (S.tableBlockSize first.left.table) S.blockSize with hlt | hsize | hlt
  · -- the last row is read in block 0
    have hrow := (hall _ le_rfl).1
    simp only [split, Nat.mod_eq_of_lt hlt] at hrow
    omega
  · exact hsize
  · -- row blockSize + 1 is read behind the last row
    have hnum := (hall (S.blockSize + 1) hlt).2
    have hdiv : 1 ≤ (split S.blockSize (S.blockSize + 1)).1 := by
      simp only [split]
      exact Nat.div_pos (by omega) S.blockSize_pos
    have hback := number_split S.blockSize (S.blockSize + 1)
    generalize split S.blockSize (S.blockSize + 1) = p at hnum hdiv hback
    simp only [number] at hnum hback
    have hp1 : p.1 = 1 := by
      by_contra hne
      have htwo : 2 * S.tableBlockSize first.left.table ≤ p.1 * S.tableBlockSize first.left.table :=
        Nat.mul_le_mul_right _ (by omega)
      omega
    rw [hp1] at hnum hback
    omega

omit h in
/-- a block of more rows than the block size of the database: its row with that number is read from block 1 -/
theorem le_blockSize_of_load {n : ColumnName} {x : Option ℤ}
    (hload : (counting S n.table S.blockSize).contents.load n S.blockSize = some x) :
    S.tableBlockSize n.table ≤ S.blockSize := by
  have hsplit : split S.blockSize S.blockSize = (1, 0) := by
    rw [split, Nat.div_self S.blockSize_pos, Nat.mod_self]
  obtain ⟨-, hlt, -⟩ := (Values.load_iff _ _ _ _).1 hload
  rw [hsplit] at hlt
  simp only [number, counting, ↓reduceIte] at hlt
  omega

omit h in
theorem number_split_of_lt {m n : ℕ} (h : n < m) : number n (split m n) = n := by
  rw [split, Nat.div_eq_of_lt h, Nat.mod_eq_of_lt h]
  simp [number]

/-- with no unique column, no block of the two tables is longer than the block size of the database -/
theorem le_blockSize_left (hl : S.isUnique first.left = false) (hr : S.isUnique first.right = false) :
    S.tableBlockSize first.left.table ≤ S.blockSize := by
  by_contra hlt
  rw [not_le] at hlt
  let V := counting S first.left.table S.blockSize
  have hi : S.blockSize < V.count first.left.table := by simp [V, counting]
  obtain ⟨j, hj, hy⟩ : ∃ j < V.count first.right.table, V.value first.right j = some (S.blockSize : ℤ) := by
    by_cases ht : first.right.table = first.left.table
    · exact ⟨S.blockSize, ht ▸ hi, by simp [V, counting, ht]⟩
    · exact ⟨0, by simp [V, counting, ht], by simp [V, counting, ht]⟩
  obtain ⟨y, hload, -⟩ := first_matches h hi hj (x := S.blockSize) (by simp [V, counting]) hy
  have hstored : (stored S first (split (S.tableBlockSize first.left.table) S.blockSize)
      (split (S.tableBlockSize first.right.table) j)).1 = S.blockSize := by
    simp only [stored, hl, hr, number_split_of_lt hlt]
  rw [side, if_pos rfl, hstored] at hload
  exact absurd (le_blockSize_of_load hload) (not_le.2 hlt)

theorem le_blockSize_right (hl : S.isUnique first.left = false) (hr : S.isUnique first.right = false) :
    S.tableBlockSize first.right.table ≤ S.blockSize := by
  by_cases ht : first.left.table = first.right.table
  · exact ht ▸ le_blockSize_left h hl hr
  by_contra hlt
  rw [not_le] at hlt
  let V := counting S first.right.table S.blockSize
  have hi : 0 < V.count first.left.table := by simp [V, counting, ht]
  have hj : S.blockSize < V.count first.right.table := by simp [V, counting]
  obtain ⟨y, -, hload⟩ := first_matches h hi hj (x := S.blockSize) (by simp [V, counting, ht]) (by simp [V, counting])
  have hstored : (stored S first (split (S.tableBlockSize first.left.table) 0)
      (split (S.tableBlockSize first.right.table) S.blockSize)).2 = S.blockSize := by
    simp only [stored, hl, hr, number_split_of_lt hlt]
  rw [side, if_neg (Ne.symm ht), hstored] at hload
  exact absurd (le_blockSize_of_load hload) (not_le.2 hlt)

theorem sound_of_aligned : Sound S first := by
  refine ⟨?_, unique_right_of_left h, ?_⟩
  · by_cases ht : first.left.table = first.right.table
    · exact Or.inr (left_eq_right_of_table h ht)
    · exact Or.inl ht
  split
  · rename_i hu
    have hr : S.isUnique first.right = true := by
      rcases hu with hl | hr
      · exact unique_right_of_left h hl
      · exact hr
    by_cases ht : first.left.table = first.right.table
    · have hsize := blockSize_self h (left_eq_right_of_table h ht) hr
      exact ⟨hsize, ht ▸ hsize⟩
    · exact ⟨blockSize_left h ht hr, blockSize_right h ht hr⟩
  · rename_i hu
    obtain ⟨hl, hr⟩ := not_or.1 hu
    rw [Bool.not_eq_true] at hl hr
    exact ⟨le_blockSize_left h hl hr, le_blockSize_right h hl hr⟩

/-! One row in each of the two tables -/

variable {value : ColumnName → Option ℤ} {hvalue : ∀ n, S.isUnique n = true → (value n).isSome = true}

omit h in
theorem singleRow_count {t : String} (ht : first.Has t) : 0 < (singleRow S first value hvalue).count t := by
  have hcount : (singleRow S first value hvalue).count t = 1 := if_pos ht
  omega

omit h in
/-- the one row has number zero in whatever way it is numbered -/
theorem singleRow_equal {x : ℤ} (hx : value first.left = some x) (hy : value first.right = some x) :
    Equal (singleRow S first value hvalue).contents first (0, 0) (0, 0) := by
  have hequal := (singleRow S first value hvalue).equal (c := first) (i := 0) (j := 0) (singleRow_count (Or.inl rfl))
    (singleRow_count (Or.inr rfl)) hx hy
  simpa [split] using hequal

omit h in
theorem singleRow_load {n : ColumnName} (hn : first.Has n.table) :
    (singleRow S first value hvalue).contents.load n (side first n.table (stored S first (0, 0) (0, 0))) =
      some (value n) := by
  have hzero : side first n.table (stored S first (0, 0) (0, 0)) = 0 := by
    simp only [side, stored]
    cases S.isUnique first.left <;> cases S.isUnique first.right <;> simp [number]
  rw [hzero, Values.load_iff]
  have hsplit : split S.blockSize 0 = (0, 0) := by simp [split]
  rw [hsplit]
  refine ⟨S.tableBlockSize_pos _, ?_, rfl⟩
  have hnum : number (S.tableBlockSize n.table) (0, 0) = 0 := by simp [number]
  rw [hnum]
  exact singleRow_count hn

/-- a clause over the two tables holds of any two rows that satisfy the first clause -/
theorem clause_of_singleRow (value : ColumnName → Option ℤ)
    (hvalue : ∀ n, S.isUnique n = true → (value n).isSome = true) {x : ℤ} (hx : value first.left = some x)
    (hy : value first.right = some x) {c : Clause} (hc : c ∈ first :: rest) (hl : first.Has c.left.table)
    (hr : first.Has c.right.table) : ∃ y, value c.left = some y ∧ value c.right = some y := by
  have hequal : Equal (singleRow S first value hvalue).contents first (0, 0) (0, 0) := singleRow_equal hx hy
  obtain ⟨y, hyl, hyr⟩ := matches_of_aligned (h (singleRow S first value hvalue).contents) hc hl hr hequal
  rw [singleRow_load hl] at hyl
  rw [singleRow_load hr] at hyr
  exact ⟨y, Option.some.inj hyl, Option.some.inj hyr⟩

/-- no clause brings in a further table: without rows there, its list is shorter than that of the first clause -/
theorem tables_of_aligned {c : Clause} (hc : c ∈ first :: rest) {t : String} (ht : c.Has t) : first.Has t := by
  by_contra hnot
  let V := singleRow S first (fun _ => some 0) fun _ _ => rfl
  have hempty : ∀ (n : ColumnName) p x, n.table = t → cell (V.contents.column n).blocks p ≠ some x := by
    rintro n p x rfl hcell
    obtain ⟨-, hlt, -⟩ := (V.cell_column_iff n p x).1 hcell
    have hcount : V.count n.table = 0 := if_neg hnot
    omega
  obtain ⟨l, hl⟩ := (h V.contents).listed t ⟨c, hc, ht⟩
  have hequal : Equal V.contents first (0, 0) (0, 0) := singleRow_equal (x := 0) rfl rfl
  obtain ⟨p, hp⟩ := exists_position (J := J) hequal
  have hshape : shape (side first first.left.table (joined J V.contents first)) = shape l :=
    (h V.contents).sameShape first.left.table t _ _ ⟨first, List.mem_cons_self, Or.inl rfl⟩ ⟨c, hc, ht⟩
      (joinIndices_side rest (Or.inl rfl)) hl
  obtain ⟨k, hk⟩ := cell_isSome_of_shape hshape (hp first.left.table)
  -- the list of t comes from a clause that names it, whose pairs all hold a row of t
  rcases execute_inv hl with hnone | ⟨c', -, ⟨htable, rfl⟩ | ⟨htable, rfl⟩⟩
  · cases hnone
  · obtain ⟨k', hk'⟩ := cell_isSome_of_shape (joined_sameShape c') hk
    obtain ⟨a, b, ⟨x, ha, -⟩, -⟩ := (joined_iff c').1 (mem_zipPositions.2 ⟨p, hk, hk'⟩)
    exact hempty c'.left a _ htable.symm ha
  · obtain ⟨k', hk'⟩ := cell_isSome_of_shape (joined_sameShape c').symm hk
    obtain ⟨a, b, ⟨x, -, hb⟩, -⟩ := (joined_iff c').1 (mem_zipPositions.2 ⟨p, hk', hk⟩)
    exact hempty c'.right b _ htable.symm hb

theorem follows_of_aligned {c : Clause} (hc : c ∈ first :: rest) : Follows S first c := by
  have hl : first.Has c.left.table := tables_of_aligned h hc (Or.inl rfl)
  have hr : first.Has c.right.table := tables_of_aligned h hc (Or.inr rfl)
  by_cases heq : c.left = c.right
  · by_contra hnot
    have hleft : c.left ≠ first.left := fun hcl => hnot (Or.inr (Or.inr ⟨heq, Or.inl hcl⟩))
    have hright : c.left ≠ first.right := fun hcr => hnot (Or.inr (Or.inr ⟨heq, Or.inr (Or.inl hcr)⟩))
    have hunique : S.isUnique c.left ≠ true := fun hu => hnot (Or.inr (Or.inr ⟨heq, Or.inr (Or.inr ⟨hl, hu⟩)⟩))
    -- the column is NULL where the first clause matches
    have hvalue : ∀ n, S.isUnique n = true → (if n = c.left then none else some (0 : ℤ)).isSome = true := by
      intro n hn
      have hne : n ≠ c.left := by
        rintro rfl
        exact hunique hn
      simp [hne]
    obtain ⟨y, hy, -⟩ := clause_of_singleRow h (fun n => if n = c.left then none else some 0) hvalue (x := 0)
      (by simp [hleft.symm]) (by simp [hright.symm]) hc hl hr
    simp at hy
  · -- columns that are not joined by the first clause differ from it and from each other
    obtain ⟨y, hy, hy'⟩ := clause_of_singleRow h
      (fun n => some (if n = first.left ∨ n = first.right then 0 else if n = c.left then 1 else 2)) (fun _ _ => rfl)
      (x := 0) (by simp) (by simp) hc hl hr
    have hval := Option.some.inj (hy.trans hy'.symm)
    simp only [Ne.symm heq, ↓reduceIte] at hval
    by_cases hcl : c.left = first.left ∨ c.left = first.right
    · by_cases hcr : c.right = first.left ∨ c.right = first.right
      · rcases hcl with hcl | hcl
        · rcases hcr with hcr | hcr
          · exact absurd (hcl.trans hcr.symm) heq
          · exact Or.inl ⟨hcl, hcr⟩
        · rcases hcr with hcr | hcr
          · exact Or.inr (Or.inl ⟨hcl, hcr⟩)
          · exact absurd (hcl.trans hcr.symm) heq
      · rw [if_pos hcl, if_neg hcr] at hval
        omega
    · rw [if_neg hcl] at hval
      split at hval <;> omega

end Necessary

/-- the lists of a chain are aligned for all contents of the tables exactly when the first clause is sound and the
others follow from it -/
theorem joinIndices_aligned (J : Joins) (S : Schema) (first : Clause) (rest : List Clause) :
    (∀ D : Contents S, Aligned D (joinIndices J D (first :: rest)) (first :: rest)) ↔
      Sound S first ∧ ∀ c ∈ rest, Follows S first c := by
  constructor
  · intro h
    exact ⟨sound_of_aligned h, fun c hc => follows_of_aligned h (List.mem_cons_of_mem _ hc)⟩
  · rintro ⟨hs, hf⟩ D
    exact aligned_of_follows hs hf D

/-! ## A unique left column -/

/-- both algorithms as one list, in the order of the rows -/
def oneList (n m : ℕ) (A B : KeyColumn) : JoinIndices × JoinIndices :=
  ([(equalPairs A.blocks B.blocks).map fun p => number n p.1],
    [(equalPairs A.blocks B.blocks).map fun p => number m p.2])

theorem oneList_returned (n m : ℕ) (A B : KeyColumn) : Returned (oneList n m A B) n m A B := by
  refine ⟨by simp [oneList, shape], ?_⟩
  have hzip : zipPositions (oneList n m A B).1 (oneList n m A B).2 =
      (equalPairs A.blocks B.blocks).map (Prod.map (number n) (number m)) := by
    simp only [zipPositions, oneList, List.zipWith_cons_cons, List.zipWith_nil_right, List.flatten_cons,
      List.flatten_nil, List.append_nil, List.zip_map']
    rfl
  rw [hzip]

def oneListJoins : Joins where
  joinUnique A B := oneList A.blockSize B.blockSize A B
  joinTableRonS R S n := oneList n n R S
  joinUnique_returned A B _ := oneList_returned _ _ A B
  joinTableRonS_returned R S n _ := oneList_returned n n R S

/-- FROM Customers JOIN Orders ON Customers.id = Orders.customer -/
def customersSchema : Schema where
  blockSize := 4
  tableBlockSize _ := 4
  isUnique n := n = ⟨"Customers", "id"⟩
  blockSize_pos := by decide
  tableBlockSize_pos _ := by decide

/-- customers 1 and 2, and two orders of customer 2 -/
def customers : Values customersSchema where
  count _ := 2
  value n k := if n = ⟨"Customers", "id"⟩ then some (k + 1) else some 2
  notNull n _ k _ := by split <;> rfl
  notTwice n hn k _ k' _ heq := by
    obtain rfl : n = ⟨"Customers", "id"⟩ := of_decide_eq_true hn
    simp only [↓reduceIte, Option.some.injEq] at heq
    omega

def customersClause : Clause := ⟨⟨"Customers", "id"⟩, ⟨"Orders", "customer"⟩⟩

/-- the first order of customer 2 gets customer 1 beside it -/
theorem unique_left_misaligned :
    ¬ Aligned customers.contents (joinIndices oneListJoins customers.contents [customersClause]) [customersClause] := by
  intro h
  have hequal : Equal customers.contents customersClause (0, 1) (0, 0) := by
    exact customers.equal (c := customersClause) (i := 1) (j := 0) (x := 2) (by decide) (by decide) rfl rfl
  obtain ⟨x, hx, hy⟩ := matches_of_aligned h List.mem_cons_self (Or.inl rfl) (Or.inr rfl) hequal
  have hleft : customers.contents.load customersClause.left 0 = some (some 1) := by
    rw [Values.load_iff]
    decide
  have hright : customers.contents.load customersClause.right 1 = some (some 2) := by
    rw [Values.load_iff]
    decide
  have hx' : some (some 1) = some (some x) := hleft.symm.trans hx
  have hy' : some (some 2) = some (some x) := hright.symm.trans hy
  simp only [Option.some.injEq] at hx' hy'
  omega

end QikkDB.JoinDispatcher

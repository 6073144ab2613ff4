/-
ResizeColumn as copying a list of (value, is-null) rows (ColumnBase.h), into a column without rows.

The blocks of the target are added before the first row is copied, ceil(n / blockSize) of them. `Copied xs` says that
the rows `xs` have been copied: the i-th block holds the i-th piece of `xs`, and the two target cursors are the quotient
and the remainder of their number by the block size. Rows that do not cross the end of a block keep that.

- `goes_insertResizing`, `goes_insertInterval`: the two ways to copy rows.
- `goes_resizeNullable`: the loop of a nullable column looks at the first row of a block before it compares with the
  block's size, so that an empty block is never left.
- `goes_resizeNotNullable`: the loop of the other columns also inserts the no rows of an empty block, for which there is
  no target block when all of them are full.
- `goes_resizeColumn`, `resizeColumn_cells_iff`: the source columns that are copied.
-/
import Mathlib.Tactic
import QikkDB.Core.Cells
import QikkDB.Core.Resize

namespace QikkDB

open NullValues

namespace Column

variable {α : Type} [Element α]

/-! ## The invariant -/

/-- block `i` of a column that holds the rows `xs` -/
structure Holds (blockSize : ℕ) (nullable : Bool) (xs : List (α × Bool)) (i : ℕ) (b : Block α) : Prop where
  valid : b.Valid blockSize nullable
  clear : b.ClearBehind
  cells : b.cells = Chunks.piece blockSize xs i

/-- the target once the rows `xs` have been copied -/
structure Copied (blockSize : ℕ) (nullable : Bool) (count : ℕ) (xs : List (α × Bool)) (d : Target α) : Prop where
  sameBlockSize : d.column.blockSize = blockSize
  size : d.column.size = xs.length
  block : d.dstBlockIndex = xs.length / blockSize
  row : d.dstRowIndex = xs.length % blockSize
  blocks : ∃ bs, d.column.blocks = [(-1, bs)] ∧ bs.length = count ∧
    ∀ i, ∀ b ∈ bs[i]?, Holds blockSize nullable xs i b

/-- a call that returns exactly when `P` holds, and then leaves a state with `Q` -/
structure Goes {σ : Type} (P : Prop) (Q : σ → Prop) (r : Outcome σ) : Prop where
  returns : r.2 = none ↔ P
  leaves : P → Q r.1

omit [Element α] in
theorem Goes.andThen {P P' : Prop} {Q Q' : Target α → Prop} {r : Outcome (Target α)}
    {next : Target α → Outcome (Target α)} (h : Goes P Q r) (hnext : P → ∀ d, Q d → Goes P' Q' (next d)) :
    Goes (P ∧ P') Q' (Column.andThen r next) := by
  unfold Column.andThen
  cases hr : r.2 with
  | none =>
    have hP := h.returns.1 hr
    have hn := hnext hP r.1 (h.leaves hP)
    exact ⟨by rw [and_iff_right hP]; exact hn.returns, fun hPP => hn.leaves hPP.2⟩
  | some e =>
    have hP : ¬ P := by
      intro hP
      rw [h.returns.2 hP] at hr
      cases hr
    exact ⟨iff_of_false nofun fun hPP => hP hPP.1, fun hPP => absurd hPP.1 hP⟩

theorem Goes.congr {σ : Type} {P P' : Prop} {Q : σ → Prop} {r : Outcome σ} (h : Goes P Q r) (hiff : P ↔ P') :
    Goes P' Q r :=
  ⟨h.returns.trans hiff, fun hP => h.leaves (hiff.2 hP)⟩

/-- the row limit admits so many rows -/
def Admits (rowsLimit : Option ℕ) (rows : ℕ) : Prop := ∀ limit ∈ rowsLimit, rows ≤ limit

theorem checkRowsLimit_ok_iff {rowsLimit : Option ℕ} {rows : ℕ} :
    checkRowsLimit rowsLimit rows = .ok () ↔ Admits rowsLimit (rows + 1) := by
  cases rowsLimit with
  | none => simp [checkRowsLimit, Admits]
  | some limit =>
    simp only [checkRowsLimit, Admits, Option.mem_some_iff, forall_eq']
    split_ifs with h
    · simp only [false_iff]
      omega
    · simp only [true_iff]
      omega

theorem Admits.mono {rowsLimit : Option ℕ} {m n : ℕ} (h : Admits rowsLimit n) (hle : m ≤ n) : Admits rowsLimit m :=
  fun limit hlimit => hle.trans (h limit hlimit)

section Step

variable {blockSize count : ℕ} {nullable : Bool} {xs : List (α × Bool)} {d : Target α}

omit [Element α] in
theorem Copied.group (h : Copied blockSize nullable count xs d) :
    (d.column.group (-1)).length = count ∧
      ∀ i, ∀ b ∈ (d.column.group (-1))[i]?, Holds blockSize nullable xs i b := by
  obtain ⟨bs, hbs, hlen, hholds⟩ := h.blocks
  have hgroup : d.column.group (-1) = bs := by simp [Column.group, hbs]
  rw [hgroup]
  exact ⟨hlen, hholds⟩

omit [Element α] in
/-- the block that the next row goes to -/
theorem Copied.target (h : Copied blockSize nullable count xs d) (hpos : 0 < blockSize)
    (hroom : xs.length < count * blockSize) :
    ∃ b, (d.column.group (-1))[d.dstBlockIndex]? = some b ∧ b.Valid blockSize nullable ∧ b.ClearBehind ∧
      b.size = d.dstRowIndex := by
  obtain ⟨hlen, hholds⟩ := h.group
  have hlt : d.dstBlockIndex < (d.column.group (-1)).length := by
    rw [h.block, hlen]
    exact Nat.div_lt_of_lt_mul (by rwa [Nat.mul_comm])
  have hblock := List.getElem?_eq_getElem hlt
  have hb := hholds _ _ hblock
  refine ⟨_, hblock, hb.valid, hb.clear, ?_⟩
  have hdiv := Nat.div_add_mod' xs.length blockSize
  have hmod := Nat.mod_lt xs.length hpos
  rw [← Block.length_cells hb.valid, hb.cells, h.block, h.row, Chunks.piece, List.length_take, List.length_drop]
  omega

omit [Element α] in
theorem Copied.no_target (h : Copied blockSize nullable count xs d) (hpos : 0 < blockSize)
    (hfull : xs.length = count * blockSize) : (d.column.group (-1))[d.dstBlockIndex]? = none := by
  rw [List.getElem?_eq_none_iff, h.group.1, h.block, hfull, Nat.mul_div_cancel _ hpos]

omit [Element α] in
/-- rows appended to the target block -/
theorem Copied.append (h : Copied blockSize nullable count xs d) (hpos : 0 < blockSize) (ys : List (α × Bool))
    (hfit : d.dstRowIndex + ys.length ≤ blockSize) {b b' : Block α}
    (hb : (d.column.group (-1))[d.dstBlockIndex]? = some b) (hvalid : b'.Valid blockSize nullable)
    (hclear : b'.ClearBehind) (hcells : b'.cells = b.cells ++ ys) {dstBlockIndex dstRowIndex : ℕ}
    (hblock : dstBlockIndex = (xs.length + ys.length) / blockSize)
    (hrow : dstRowIndex = (xs.length + ys.length) % blockSize) :
    Copied blockSize nullable count (xs ++ ys)
      ⟨{ d.column with size := d.column.size + ys.length }.setGroup (-1)
        ((d.column.group (-1)).set d.dstBlockIndex b'), dstBlockIndex, dstRowIndex⟩ := by
  obtain ⟨hlen, hholds⟩ := h.group
  obtain ⟨bs, hbs, -⟩ := h.blocks
  have hpiece : ∀ i, Chunks.piece blockSize (xs ++ ys) i =
      if i = d.dstBlockIndex then Chunks.piece blockSize xs i ++ ys else Chunks.piece blockSize xs i := by
    intro i
    rw [Chunks.piece_append hpos (by rw [← h.row]; exact hfit), h.block]
  refine ⟨h.sameBlockSize, ?_, ?_, ?_, (d.column.group (-1)).set d.dstBlockIndex b', ?_, by rw [List.length_set, hlen], ?_⟩
  · rw [List.length_append, ← h.size]
    rfl
  · rw [hblock, List.length_append]
  · rw [hrow, List.length_append]
  · simp [setGroup, hbs, putGroup]
  · intro i b₁ hb₁
    by_cases hi : i = d.dstBlockIndex
    · subst hi
      obtain ⟨hlt, -⟩ := List.getElem?_eq_some_iff.1 hb
      rw [List.getElem?_set_self hlt] at hb₁
      obtain rfl := Option.some.inj hb₁
      exact ⟨hvalid, hclear, by rw [hpiece, if_pos rfl, hcells, (hholds _ b hb).cells]⟩
    · rw [List.getElem?_set_ne (Ne.symm hi)] at hb₁
      have hold := hholds i b₁ hb₁
      exact ⟨hold.valid, hold.clear, by rw [hpiece, if_neg hi, hold.cells]⟩

end Step

/-! ## Nullable columns -/

section Nullable

variable {blockSize count : ℕ} {xs : List (α × Bool)} {d : Target α} (rowsLimit : Option ℕ)

/-- InsertDataOnSpecificPositionResizing: one row -/
theorem goes_insertResizing (h : Copied blockSize true count xs d) (hpos : 0 < blockSize)
    (hroom : xs.length ≤ count * blockSize) (row : α × Bool) :
    Goes (Admits rowsLimit (xs.length + 1) ∧ xs.length < count * blockSize) (Copied blockSize true count (xs ++ [row]))
      (insertResizing rowsLimit d row) := by
  have hcheck := @checkRowsLimit_ok_iff rowsLimit d.column.size
  rw [h.size] at hcheck
  unfold insertResizing
  rw [h.size]
  cases hlimit : checkRowsLimit rowsLimit xs.length with
  | error e =>
    rw [hlimit] at hcheck
    have hnot : ¬ Admits rowsLimit (xs.length + 1) := fun hadmits => nomatch hcheck.2 hadmits
    exact ⟨iff_of_false nofun fun hadmits => hnot hadmits.1, fun hadmits => absurd hadmits.1 hnot⟩
  | ok u =>
    rcases Nat.lt_or_eq_of_le hroom with hlt | hfull
    swap
    · simp only [h.no_target hpos hfull]
      exact ⟨iff_of_false nofun fun hboth => hfull.not_lt hboth.2, fun hboth => absurd hfull hboth.2.ne⟩
    have hadmits : Admits rowsLimit (xs.length + 1) ∧ xs.length < count * blockSize := ⟨hcheck.1 hlimit, hlt⟩
    obtain ⟨b, hb, hvalid, hclear, hsize⟩ := h.target hpos hlt
    have hrow : d.dstRowIndex < blockSize := h.row ▸ Nat.mod_lt _ hpos
    have hspace : b.isFull = false := by
      have : b.emptyBlockSpace ≠ 0 := by
        rw [Block.emptyBlockSpace, hvalid.capacity]
        omega
      simpa [Block.isFull] using this
    obtain ⟨b', hput, hvalid', hcells, hclear'⟩ :=
      Block.insertDataOnSpecificPosition_cells hvalid hspace hclear hsize.ge row.1 row.2 true
    have hlast : b'.cells = b.cells ++ [row] := by
      rw [hcells, ← hsize, ← Block.length_cells hvalid, List.insertIdx_length_self]
    simp only [hb, hput]
    have hput' : ∀ {dstBlockIndex dstRowIndex : ℕ}, dstBlockIndex = (xs.length + 1) / blockSize →
        dstRowIndex = (xs.length + 1) % blockSize → Copied blockSize true count (xs ++ [row])
          ⟨{ d.column with size := xs.length + 1 }.setGroup (-1)
            ((d.column.group (-1)).set d.dstBlockIndex b'), dstBlockIndex, dstRowIndex⟩ := by
      intro dstBlockIndex dstRowIndex hblock hrow'
      have := h.append hpos [row] (by rw [List.length_singleton]; omega) hb hvalid' hclear' hlast hblock hrow'
      rwa [h.size] at this
    split_ifs with hend
    all_goals rw [h.sameBlockSize] at hend
    · refine ⟨iff_of_true rfl hadmits, fun _ => ?_⟩
      obtain ⟨hdiv, hmod⟩ := Chunks.place_next (k := xs.length) (m := 1) hpos (by rw [← h.row]; exact hend)
      refine hput' ?_ ?_
      · rw [hdiv, h.block]
      · rw [hmod]
    · refine ⟨iff_of_true rfl hadmits, fun _ => ?_⟩
      obtain ⟨hdiv, hmod⟩ := Chunks.place_same (n := blockSize) (k := xs.length) (m := 1) (by rw [← h.row]; omega)
      refine hput' ?_ ?_
      · rw [hdiv, h.block]
      · rw [hmod, h.row]

theorem goes_resizeRows (rows : List (α × Bool)) (h : Copied blockSize true count xs d) (hpos : 0 < blockSize)
    (hadmits : Admits rowsLimit xs.length) (hroom : xs.length ≤ count * blockSize) :
    Goes (Admits rowsLimit (xs.length + rows.length) ∧ xs.length + rows.length ≤ count * blockSize)
      (Copied blockSize true count (xs ++ rows)) (resizeRows rowsLimit rows d) := by
  induction rows generalizing xs d with
  | nil => exact ⟨iff_of_true rfl ⟨hadmits, hroom⟩, fun _ => by rwa [List.append_nil]⟩
  | cons row rows ih =>
    have hstep := (goes_insertResizing rowsLimit h hpos hroom row).andThen fun hone d' hd' =>
      ih hd' (by rw [List.length_append]; exact hone.1) (by rw [List.length_append]; exact hone.2)
    simp only [List.length_append, List.length_singleton, List.append_assoc, List.singleton_append] at hstep
    rw [List.length_cons, Nat.add_comm rows.length, ← Nat.add_assoc]
    apply hstep.congr
    constructor
    · exact fun hboth => hboth.2
    · exact fun hboth => ⟨⟨hboth.1.mono (by omega), by omega⟩, hboth⟩

/-- the loop of a nullable column -/
theorem goes_resizeNullable {srcSize : ℕ} (bs : List (Block α)) (hbs : ∀ b ∈ bs, b.Valid srcSize true)
    (h : Copied blockSize true count xs d) (hpos : 0 < blockSize) (hadmits : Admits rowsLimit xs.length)
    (hroom : xs.length ≤ count * blockSize) :
    Goes ((∀ b ∈ bs, b.size ≠ 0) ∧ Admits rowsLimit (xs.length + (bs.map Block.size).sum) ∧
        xs.length + (bs.map Block.size).sum ≤ count * blockSize)
      (Copied blockSize true count (xs ++ cellsOf bs)) (resizeNullable rowsLimit bs d) := by
  induction bs generalizing xs d with
  | nil => exact ⟨iff_of_true rfl ⟨by simp, hadmits, hroom⟩, fun _ => by simpa [cellsOf, resizeNullable] using h⟩
  | cons b bs ih =>
    have hb := hbs b List.mem_cons_self
    have hlen := Block.length_cells hb
    rw [List.map_cons, List.sum_cons]
    unfold resizeNullable
    by_cases hempty : b.size = 0
    · rw [if_pos (Or.inl hempty)]
      have hnot : ¬ ∀ b' ∈ b :: bs, b'.size ≠ 0 := fun hall => hall b List.mem_cons_self hempty
      exact ⟨iff_of_false (by simp) fun hall => hnot hall.1, fun hall => absurd hall.1 hnot⟩
    · have hread : ¬ (b.size = 0 ∨ b.isNullable = false ∨ b.data.length < b.size) := by
        rw [hb.nullable]
        simpa [hempty] using hb.stored
      rw [if_neg hread]
      have hstep := (goes_resizeRows rowsLimit b.cells h hpos hadmits hroom).andThen fun hrows d' hd' =>
        ih (fun b' hb' => hbs b' (List.mem_cons_of_mem b hb')) hd' (by rw [List.length_append]; exact hrows.1)
          (by rw [List.length_append]; exact hrows.2)
      rw [List.length_append, hlen, List.append_assoc] at hstep
      apply hstep.congr
      rw [List.forall_mem_cons, ← Nat.add_assoc]
      constructor
      · rintro ⟨-, hrest, hall⟩
        exact ⟨⟨hempty, hrest⟩, hall⟩
      · rintro ⟨⟨-, hrest⟩, hall⟩
        exact ⟨⟨hall.1.mono (by omega), by omega⟩, hrest, hall⟩

end Nullable

/-! ## Columns that are not nullable -/

section NotNullable

variable {blockSize count srcSize : ℕ} {xs : List (α × Bool)} {d : Target α} {b : Block α}

omit [Element α] in
theorem isNull_of_not_nullable {size : ℕ} (h : b.Valid size false) (i : ℕ) : b.isNull i = false := by
  have hnone : b.bitMask = none := by simpa [Block.isNullable] using h.nullable
  rw [Block.isNull, hnone]

omit [Element α] in
theorem cells_of_not_nullable {size : ℕ} (h : b.Valid size false) : b.cells = b.rows.map fun x => (x, false) := by
  apply List.ext_getElem?
  intro i
  rw [Block.getElem?_cells, isNull_of_not_nullable h, List.getElem?_map]

/-- an interval of the rows of a source block -/
theorem goes_insertInterval (h : Copied blockSize false count xs d) (hpos : 0 < blockSize)
    (hroom : xs.length ≤ count * blockSize) (hb : b.Valid srcSize false) {srcRowIndex length : ℕ}
    (hsource : srcRowIndex + length ≤ b.size) (hfit : d.dstRowIndex + length ≤ blockSize) :
    Goes (xs.length < count * blockSize)
      (fun column => ∀ dstBlockIndex dstRowIndex, dstBlockIndex = (xs.length + length) / blockSize →
        dstRowIndex = (xs.length + length) % blockSize →
          Copied blockSize false count (xs ++ (b.cells.drop srcRowIndex).take length) ⟨column, dstBlockIndex, dstRowIndex⟩)
      (insertInterval d b srcRowIndex length) := by
  unfold insertInterval
  rcases Nat.lt_or_eq_of_le hroom with hlt | hfull
  · obtain ⟨target, htarget, hvalid, -, hsize⟩ := h.target hpos hlt
    have hstored := hb.stored
    have hlen : ((b.data.drop srcRowIndex).take length).length = length := by
      rw [List.length_take, List.length_drop]
      omega
    obtain ⟨target', hput, hvalid', hrows, -⟩ := Block.insertData_ok hvalid ((b.data.drop srcRowIndex).take length) true
      (by rw [hlen, hsize]; exact hfit)
    have hinterval : target.insertDataInterval b.data srcRowIndex length true = .ok target' := by
      have hspace : ¬ target.emptyBlockSpace < length := by
        rw [Block.emptyBlockSpace, hvalid.capacity]
        omega
      rw [Block.insertDataInterval, if_neg hspace, ← hput, Block.insertData, hlen, if_neg hspace]
      simp [hlen]
    have hcells : target'.cells = target.cells ++ (b.cells.drop srcRowIndex).take length := by
      have hrest : (b.rows.drop srcRowIndex).take length = (b.data.drop srcRowIndex).take length := by
        rw [Block.rows, List.drop_take, List.take_take, min_eq_left (by omega)]
      rw [cells_of_not_nullable hvalid', cells_of_not_nullable hvalid, cells_of_not_nullable hb, hrows, List.map_append,
        ← List.map_drop, ← List.map_take, hrest]
    have hcount : ((b.cells.drop srcRowIndex).take length).length = length := by
      rw [List.length_take, List.length_drop, Block.length_cells hb]
      omega
    simp only [htarget, hinterval]
    refine ⟨iff_of_true rfl hlt, fun _ dstBlockIndex dstRowIndex hblock hrow => ?_⟩
    have hcopied := h.append hpos ((b.cells.drop srcRowIndex).take length) (by rw [hcount]; exact hfit) htarget hvalid'
      (fun i _ => isNull_of_not_nullable hvalid' i) hcells (hcount.symm ▸ hblock) (hcount.symm ▸ hrow)
    rw [hcount] at hcopied
    exact hcopied
  · simp only [h.no_target hpos hfull]
    exact ⟨iff_of_false (by simp) hfull.not_lt, fun hlt => absurd hfull hlt.ne⟩

/-- the rows of a source block from `srcRowIndex` on -/
theorem goes_resizeBlock (hpos : 0 < blockSize) (hb : b.Valid srcSize false) (fuel srcRowIndex : ℕ)
    (h : Copied blockSize false count xs d) (hsource : srcRowIndex ≤ b.size) (hfuel : b.size - srcRowIndex < fuel)
    (hroom : xs.length ≤ count * blockSize) :
    Goes ((b.size = srcRowIndex → xs.length < count * blockSize) ∧
        xs.length + (b.size - srcRowIndex) ≤ count * blockSize)
      (Copied blockSize false count (xs ++ b.cells.drop srcRowIndex)) (resizeBlock b fuel srcRowIndex d) := by
  induction fuel generalizing srcRowIndex xs d with
  | zero => omega
  | succ fuel ih =>
    have hrow : d.dstRowIndex < blockSize := h.row ▸ Nat.mod_lt _ hpos
    have hcells := Block.length_cells hb
    have hend : xs.length < count * blockSize → xs.length + (blockSize - d.dstRowIndex) ≤ count * blockSize := by
      rw [h.row]
      exact Chunks.end_le hpos
    unfold resizeBlock
    simp only [h.sameBlockSize]
    -- the target filled to its end
    have hnext : blockSize - d.dstRowIndex ≤ b.size - srcRowIndex →
        Goes (xs.length < count * blockSize) (Copied blockSize false count
          (xs ++ (b.cells.drop srcRowIndex).take (blockSize - d.dstRowIndex)))
          ((⟨(insertInterval d b srcRowIndex (blockSize - d.dstRowIndex)).1, d.dstBlockIndex + 1, 0⟩,
            (insertInterval d b srcRowIndex (blockSize - d.dstRowIndex)).2) : Outcome (Target α)) := by
      intro hmuch
      have hgoes := goes_insertInterval h hpos (by omega) hb (show srcRowIndex + (blockSize - d.dstRowIndex) ≤ b.size by omega)
        (by omega)
      obtain ⟨hdiv, hmod⟩ := Chunks.place_next (k := xs.length) (m := blockSize - d.dstRowIndex) hpos
        (by rw [← h.row]; omega)
      exact ⟨hgoes.returns, fun hlt => hgoes.leaves hlt _ _ (by rw [hdiv, h.block]) hmod.symm⟩
    split_ifs with hmore hfill
    · have hlen : (xs ++ (b.cells.drop srcRowIndex).take (blockSize - d.dstRowIndex)).length =
          xs.length + (blockSize - d.dstRowIndex) := by
        rw [List.length_append, List.length_take, List.length_drop, hcells]
        omega
      have hstep := (hnext (by omega)).andThen fun hlt d' hd' =>
        ih (srcRowIndex + (blockSize - d.dstRowIndex)) hd' (by omega) (by omega) (by rw [hlen]; exact hend hlt)
      have hrest : (b.cells.drop srcRowIndex).take (blockSize - d.dstRowIndex) ++
          b.cells.drop (srcRowIndex + (blockSize - d.dstRowIndex)) = b.cells.drop srcRowIndex := by
        rw [← List.drop_drop, List.take_append_drop]
      rw [List.append_assoc, hrest, hlen] at hstep
      apply hstep.congr
      constructor
      · rintro ⟨hlt, -, hroom'⟩
        exact ⟨fun _ => hlt, by omega⟩
      · rintro ⟨-, hroom'⟩
        exact ⟨by omega, fun heq => by omega, by omega⟩
    · have hall : (b.cells.drop srcRowIndex).take (blockSize - d.dstRowIndex) = b.cells.drop srcRowIndex :=
        List.take_of_length_le (by rw [List.length_drop, hcells]; omega)
      have hstep := hnext (by omega)
      rw [hall] at hstep
      apply hstep.congr
      constructor
      · exact fun hlt => ⟨fun _ => hlt, hfill ▸ hend hlt⟩
      · rintro ⟨-, hroom'⟩
        omega
    · have hgoes := goes_insertInterval h hpos (by omega) hb (show srcRowIndex + (b.size - srcRowIndex) ≤ b.size by omega)
        (by omega)
      have hall : (b.cells.drop srcRowIndex).take (b.size - srcRowIndex) = b.cells.drop srcRowIndex :=
        List.take_of_length_le (by rw [List.length_drop, hcells])
      rw [hall] at hgoes
      obtain ⟨hdiv, hmod⟩ := Chunks.place_same (n := blockSize) (k := xs.length) (m := b.size - srcRowIndex)
        (by rw [← h.row]; omega)
      have hsame : Goes (xs.length < count * blockSize) (Copied blockSize false count (xs ++ b.cells.drop srcRowIndex))
          ((⟨(insertInterval d b srcRowIndex (b.size - srcRowIndex)).1, d.dstBlockIndex,
            d.dstRowIndex + (b.size - srcRowIndex)⟩, (insertInterval d b srcRowIndex (b.size - srcRowIndex)).2) :
              Outcome (Target α)) :=
        ⟨hgoes.returns, fun hlt => hgoes.leaves hlt _ _ (by rw [hdiv, h.block]) (by rw [hmod, h.row])⟩
      apply hsame.congr
      constructor
      · exact fun hlt => ⟨fun _ => hlt, (Nat.add_le_add_left (by omega) _).trans (hend hlt)⟩
      · rintro ⟨hempty, hroom'⟩
        by_cases heq : b.size = srcRowIndex
        · exact hempty heq
        · omega

/-- the loop of a column that is not nullable: an empty block needs a target block all the same -/
theorem goes_resizeNotNullable (hpos : 0 < blockSize) (bs : List (Block α)) (hbs : ∀ b ∈ bs, b.Valid srcSize false)
    (h : Copied blockSize false count xs d) (hroom : xs.length ≤ count * blockSize) :
    Goes ((∀ pre b post, bs = pre ++ b :: post → b.size = 0 → xs.length + (pre.map Block.size).sum < count * blockSize) ∧
        xs.length + (bs.map Block.size).sum ≤ count * blockSize)
      (Copied blockSize false count (xs ++ cellsOf bs)) (resizeNotNullable bs d) := by
  induction bs generalizing xs d with
  | nil =>
    refine ⟨iff_of_true rfl ⟨?_, hroom⟩, fun _ => by simpa [cellsOf, resizeNotNullable] using h⟩
    intro pre b post hsplit
    simp at hsplit
  | cons b bs ih =>
    have hb := hbs b List.mem_cons_self
    have hlen := Block.length_cells hb
    have hstep := (goes_resizeBlock hpos hb (b.size + 1) 0 h (Nat.zero_le _) (by omega) hroom).andThen
      fun hone d' hd' => ih (fun b' hb' => hbs b' (List.mem_cons_of_mem b hb')) hd'
        (by rw [List.drop_zero, List.length_append, hlen]; exact hone.2)
    rw [List.drop_zero, List.length_append, hlen, List.append_assoc] at hstep
    rw [List.map_cons, List.sum_cons, ← Nat.add_assoc]
    apply hstep.congr
    constructor
    · rintro ⟨⟨hfirst, -⟩, hrest, hall⟩
      refine ⟨?_, hall⟩
      intro pre b' post hsplit hempty
      cases pre with
      | nil =>
        obtain ⟨rfl, rfl⟩ := List.cons.inj hsplit
        exact hfirst hempty
      | cons b₀ pre =>
        obtain ⟨rfl, hsplit'⟩ := List.cons.inj hsplit
        have := hrest pre b' post hsplit' hempty
        rw [List.map_cons, List.sum_cons]
        omega
    · rintro ⟨hempty, hall⟩
      refine ⟨⟨fun hb => by simpa using hempty [] b bs rfl hb, by omega⟩, fun pre b' post hsplit hb' => ?_, hall⟩
      have := hempty (b :: pre) b' post (by rw [hsplit]; rfl) hb'
      rw [List.map_cons, List.sum_cons] at this
      omega

end NotNullable

/-! ## ResizeColumn -/

section Resize

variable {blockSize : ℕ}

theorem le_ceil {n : ℕ} (hpos : 0 < blockSize) :
    n ≤ (n + blockSize - 1) / blockSize * blockSize ∧
      (n + blockSize - 1) / blockSize * blockSize < n + blockSize := by
  have hdiv := Nat.div_add_mod' (n + blockSize - 1) blockSize
  have hmod := Nat.mod_lt (n + blockSize - 1) hpos
  omega

theorem lt_ceil_iff {n : ℕ} (hpos : 0 < blockSize) :
    n < (n + blockSize - 1) / blockSize * blockSize ↔ ¬ blockSize ∣ n := by
  obtain ⟨hle, hlt⟩ := le_ceil (n := n) hpos
  constructor
  · rintro hless ⟨k, rfl⟩
    have hk : (blockSize * k + blockSize - 1) / blockSize = k := by
      rw [Nat.add_sub_assoc hpos, Nat.mul_add_div hpos, Nat.div_eq_of_lt (by omega), Nat.add_zero]
    rw [hk, Nat.mul_comm] at hless
    omega
  · intro hnot
    refine lt_of_le_of_ne hle fun heq => hnot ?_
    exact ⟨_, by rw [Nat.mul_comm]; exact heq⟩

/-- the blocks that ResizeColumn adds -/
theorem addBlocks_blocks (count : ℕ) {c : Column α} {bs : List (Block α)} (hc : c.blocks = [(-1, bs)]) :
    (c.addBlocks count).blocks =
        [(-1, bs ++ List.replicate count (Block.empty c.blockSize c.isNullable true UINT32_MAX))] ∧
      (c.addBlocks count).blockSize = c.blockSize ∧ (c.addBlocks count).size = c.size ∧
      (c.addBlocks count).isNullable = c.isNullable := by
  induction count generalizing c bs with
  | zero => exact ⟨by rw [addBlocks, hc, List.replicate_zero, List.append_nil], rfl, rfl, rfl⟩
  | succ count ih =>
    have hadd : (c.addBlock (-1) true UINT32_MAX).blocks =
        [(-1, bs ++ [Block.empty c.blockSize c.isNullable true UINT32_MAX])] := by
      simp [addBlock, setGroup, putGroup, Column.group, hc]
    obtain ⟨hblocks, hsize⟩ := ih hadd
    refine ⟨?_, hsize⟩
    rw [addBlocks, hblocks, List.append_assoc, List.replicate_succ]
    rfl

/-- before the first row -/
theorem copied_nil {c : Column α} (hc : c.blocks = [(-1, [])]) (hsize : c.size = 0) (count : ℕ) :
    Copied c.blockSize c.isNullable count [] ⟨c.addBlocks count, 0, 0⟩ := by
  obtain ⟨hblocks, hblockSize, hsize', -⟩ := addBlocks_blocks count hc
  refine ⟨hblockSize, hsize'.trans hsize, by simp, by simp, _, hblocks, by simp, ?_⟩
  intro i b hb
  obtain rfl := List.eq_of_mem_replicate (List.mem_of_getElem? hb)
  refine ⟨Block.empty_valid _ _ _ _, ?_, ?_⟩
  · intro j _
    cases c.isNullable <;> simp [Block.empty, Block.isNull, getBit_zeroMask]
  · simp [Chunks.piece, Block.cells, Block.rows, Block.empty]

omit [Element α] in
/-- the column that holds exactly the rows `xs` -/
theorem Copied.cells_eq {nullable : Bool} {count : ℕ} {xs : List (α × Bool)} {d : Target α}
    (h : Copied blockSize nullable count xs d) (hle : xs.length ≤ count * blockSize) : d.column.cells = xs := by
  obtain ⟨bs, hbs, hlen, hholds⟩ := h.blocks
  have hlist : d.column.getBlocksList = bs := by simp [getBlocksList, hbs]
  have hpieces : bs.map Block.cells = (List.range count).map (Chunks.piece blockSize xs) := by
    apply List.ext_getElem?
    intro i
    rw [List.getElem?_map, List.getElem?_map, ← hlen]
    by_cases hi : i < bs.length
    · rw [List.getElem?_eq_getElem hi, List.getElem?_range hi]
      exact congrArg some (hholds i _ (List.getElem?_eq_getElem hi)).cells
    · rw [List.getElem?_eq_none (by omega), List.getElem?_eq_none (by rw [List.length_range]; omega)]
      rfl
  rw [cells, hlist, List.flatMap_def, hpieces, Chunks.flatten_pieces hle]

omit [Element α] in
/-- and has no more blocks than they need -/
theorem Copied.column {nullable : Bool} {xs : List (α × Bool)} {d : Target α} (hpos : 0 < blockSize)
    (h : Copied blockSize nullable ((xs.length + blockSize - 1) / blockSize) xs d) :
    d.column.getBlocksList.length = (xs.length + blockSize - 1) / blockSize ∧
      ∀ b ∈ d.column.getBlocksList.dropLast, b.isFull = true := by
  obtain ⟨bs, hbs, hlen, hholds⟩ := h.blocks
  have hlist : d.column.getBlocksList = bs := by simp [getBlocksList, hbs]
  obtain ⟨hle, hlt⟩ := le_ceil (n := xs.length) hpos
  refine ⟨by rw [hlist, hlen], ?_⟩
  intro b hb
  rw [hlist] at hb
  obtain ⟨i, hi, hget⟩ := List.mem_iff_getElem.1 hb
  rw [List.length_dropLast, hlen] at hi
  rw [List.getElem_dropLast] at hget
  have hblock : bs[i]? = some b := by rw [List.getElem?_eq_getElem (by omega), hget]
  have hb' := hholds i b hblock
  have hsize : b.size = blockSize := by
    rw [← Block.length_cells hb'.valid, hb'.cells]
    apply Chunks.length_piece_of_lt
    have hmul : (i + 1 + 1) * blockSize ≤ (xs.length + blockSize - 1) / blockSize * blockSize :=
      Nat.mul_le_mul_right _ (by omega)
    rw [Nat.add_mul (i + 1), one_mul] at hmul
    omega
  simp [Block.isFull, Block.emptyBlockSpace, hb'.valid.capacity, hsize]

/-- the number of blocks that ResizeColumn adds -/
def newBlocksCount (blockSize : ℕ) (src : Column α) : ℕ := (src.size + blockSize - 1) / blockSize

/-- the source columns that ResizeColumn copies into blocks of `blockSize` rows, also where their counter is wrong -/
structure Fillable (rowsLimit : Option ℕ) (blockSize : ℕ) (src : Column α) : Prop where
  positive : 0 < blockSize
  /-- newBlocksCount is an int32_t -/
  count : newBlocksCount blockSize src < 2 ^ 31
  room : (src.getBlocksList.map Block.size).sum ≤ newBlocksCount blockSize src * blockSize
  noEmpty : src.isNullable = true → ∀ b ∈ src.getBlocksList, b.size ≠ 0
  admitted : src.isNullable = true → Admits rowsLimit (src.getBlocksList.map Block.size).sum
  /-- no empty block where the rows before it fill all blocks -/
  notFull : src.isNullable = false → ∀ pre b post, src.getBlocksList = pre ++ b :: post → b.size = 0 →
    (pre.map Block.size).sum < newBlocksCount blockSize src * blockSize

/-- **ResizeColumn of any column of valid blocks**, into a column without rows of the same nullability -/
theorem goes_resizeColumn {c src : Column α} (rowsLimit : Option ℕ) (hc : c.blocks = [(-1, [])]) (hsize : c.size = 0)
    (hnullable : c.isNullable = src.isNullable) (hsrc : ∀ b ∈ src.getBlocksList, b.Valid src.blockSize src.isNullable) :
    Goes (Fillable rowsLimit c.blockSize src)
      (fun c' => ∃ d, Copied c.blockSize c.isNullable (newBlocksCount c.blockSize src) (cellsOf src.getBlocksList) d ∧
        d.column = c') (c.resizeColumn rowsLimit src) := by
  unfold resizeColumn
  simp only
  rw [← newBlocksCount]
  split_ifs with hundefined hn
  · have hnot : ¬ Fillable rowsLimit c.blockSize src := by
      intro h
      rcases hundefined with hzero | hlarge
      · exact h.positive.ne' hzero
      · exact absurd h.count (not_lt.2 hlarge)
    exact ⟨iff_of_false nofun hnot, fun h => absurd h hnot⟩
  all_goals
    obtain ⟨hzero, hlarge⟩ := not_or.1 hundefined
    have hpos : 0 < c.blockSize := Nat.pos_of_ne_zero hzero
    obtain ⟨-, -, -, hnullable'⟩ := addBlocks_blocks (newBlocksCount c.blockSize src) hc
    have hstart := copied_nil hc hsize (newBlocksCount c.blockSize src)
    rw [hnullable'] at hn
  · rw [hn] at hstart hnullable ⊢
    have hgoes := goes_resizeNullable rowsLimit src.getBlocksList (fun b hb => by rw [hnullable]; exact hsrc b hb) hstart
      hpos (fun limit _ => Nat.zero_le limit) (Nat.zero_le _)
    rw [List.nil_append, List.length_nil, Nat.zero_add] at hgoes
    have hne : ¬ src.isNullable = false := by rw [← hnullable]; decide
    refine Goes.congr ⟨hgoes.returns, fun h => ⟨_, hgoes.leaves h, rfl⟩⟩ ⟨?_, fun h => ?_⟩
    · rintro ⟨hempty, hadmits, hroom⟩
      exact ⟨hpos, not_le.1 hlarge, hroom, fun _ => hempty, fun _ => hadmits, fun hfalse => absurd hfalse hne⟩
    · exact ⟨h.noEmpty hnullable.symm, h.admitted hnullable.symm, h.room⟩
  · rw [Bool.not_eq_true] at hn
    rw [hn] at hstart hnullable ⊢
    have hgoes := goes_resizeNotNullable hpos src.getBlocksList (fun b hb => by rw [hnullable]; exact hsrc b hb) hstart
      (Nat.zero_le _)
    simp only [List.nil_append, List.length_nil, Nat.zero_add] at hgoes
    have hne : ¬ src.isNullable = true := by rw [← hnullable]; decide
    refine Goes.congr ⟨hgoes.returns, fun h => ⟨_, hgoes.leaves h, rfl⟩⟩ ⟨?_, fun h => ?_⟩
    · rintro ⟨hempty, hroom⟩
      exact ⟨hpos, not_le.1 hlarge, hroom, fun htrue => absurd htrue hne, fun htrue => absurd htrue hne, fun _ => hempty⟩
    · exact ⟨h.notFull hnullable.symm, h.room⟩

/-- the source columns that ResizeColumn copies into blocks of `blockSize` rows -/
structure Resizable (rowsLimit : Option ℕ) (blockSize : ℕ) (src : Column α) : Prop where
  /-- newBlocksCount is an int32_t -/
  count : (src.size + blockSize - 1) / blockSize < 2 ^ 31
  noEmpty : src.isNullable = true → ∀ b ∈ src.getBlocksList, b.size ≠ 0
  admitted : src.isNullable = true → Admits rowsLimit src.size
  /-- no empty block at the end when the rows fill their blocks exactly -/
  notAtEnd : src.isNullable = false → blockSize ∣ src.size → ∀ b ∈ src.getBlocksList.getLast?, b.size ≠ 0

omit [Element α] in
/-- no empty block stands behind all rows exactly when the last block is not empty -/
theorem no_empty_at_end_iff (bs : List (Block α)) :
    (∀ pre b post, bs = pre ++ b :: post → b.size = 0 → (pre.map Block.size).sum < (bs.map Block.size).sum) ↔
      ∀ b ∈ bs.getLast?, b.size ≠ 0 := by
  constructor
  · intro h b hb hempty
    have hsplit : bs = bs.dropLast ++ [b] := (List.dropLast_append_getLast? b hb).symm
    have := h bs.dropLast b [] hsplit hempty
    rw [hsplit, List.map_append, List.sum_append, ← hsplit] at this
    simp [hempty] at this
  · rintro h pre b post rfl hempty
    rw [List.map_append, List.sum_append, List.map_cons, List.sum_cons]
    rcases List.eq_nil_or_concat post with rfl | ⟨post, last, rfl⟩
    · exact absurd hempty (h b (by simp))
    · have hend : (pre ++ b :: post.concat last).getLast? = some last := by
        rw [List.concat_eq_append, ← List.cons_append, ← List.append_assoc]
        exact List.getLast?_concat
      have hlast := h last hend
      rw [List.concat_eq_append, List.map_append, List.sum_append, List.map_cons, List.sum_cons]
      omega

omit [Element α] in
theorem fillable_iff_resizable {src : Column α} (rowsLimit : Option ℕ) (hpos : 0 < blockSize)
    (hcount : src.size = (src.getBlocksList.map Block.size).sum) :
    Fillable rowsLimit blockSize src ↔ Resizable rowsLimit blockSize src := by
  obtain ⟨hle, -⟩ := le_ceil (n := src.size) hpos
  constructor
  · intro h
    refine ⟨h.count, h.noEmpty, hcount ▸ h.admitted, fun hn hdvd => ?_⟩
    refine (no_empty_at_end_iff _).1 fun pre b post hsplit hempty => ?_
    have hlt := h.notFull hn pre b post hsplit hempty
    have hfull := le_antisymm hle (not_lt.1 fun hlt => (lt_ceil_iff hpos).1 hlt hdvd)
    rwa [newBlocksCount, ← hfull, hcount] at hlt
  · intro h
    refine ⟨hpos, h.count, hcount ▸ hle, h.noEmpty, hcount ▸ h.admitted, fun hn pre b post hsplit hempty => ?_⟩
    by_cases hdvd : blockSize ∣ src.size
    · have := (no_empty_at_end_iff _).2 (h.notAtEnd hn hdvd) pre b post hsplit hempty
      exact this.trans_le (hcount ▸ hle)
    · have hpre : (pre.map Block.size).sum ≤ src.size := by
        rw [hcount, hsplit, List.map_append, List.sum_append]
        omega
      exact hpre.trans_lt ((lt_ceil_iff hpos).2 hdvd)

/-- **ResizeColumn copies the column exactly when it is `Resizable`.** The source has any sequence of blocks, the target
has no rows and the same nullability. -/
theorem resizeColumn_cells_iff {c src : Column α} (rowsLimit : Option ℕ) (hc : c.blocks = [(-1, [])]) (hsize : c.size = 0)
    (hpos : 0 < c.blockSize) (hnullable : c.isNullable = src.isNullable)
    (hsrc : ∀ b ∈ src.getBlocksList, b.Valid src.blockSize src.isNullable)
    (hcount : src.size = (src.getBlocksList.map Block.size).sum) :
    (∃ c', c.resizeColumn rowsLimit src = (c', none) ∧ c'.cells = src.cells ∧
      c'.getBlocksList.length = (src.size + c.blockSize - 1) / c.blockSize ∧
      ∀ b ∈ c'.getBlocksList.dropLast, b.isFull = true) ↔
      Resizable rowsLimit c.blockSize src := by
  have hrows : (cellsOf src.getBlocksList).length = src.size := by
    rw [cellsOf, List.length_flatMap, hcount]
    exact congrArg List.sum (List.map_congr_left fun b hb => Block.length_cells (hsrc b hb))
  have hgoes := goes_resizeColumn rowsLimit hc hsize hnullable hsrc
  rw [← fillable_iff_resizable rowsLimit hpos hcount, ← hgoes.returns]
  constructor
  · rintro ⟨c', hok, -⟩
    rw [hok]
  · intro hnone
    obtain ⟨d, hcopied, hd⟩ := hgoes.leaves (hgoes.returns.1 hnone)
    have hcells := hcopied.cells_eq (by rw [hrows]; exact (le_ceil hpos).1)
    rw [newBlocksCount, ← hrows] at hcopied
    obtain ⟨hlen, hfull⟩ := hcopied.column hpos
    rw [hrows] at hlen
    exact ⟨d.column, Prod.ext hd.symm hnone, hcells, hlen, hfull⟩

end Resize

/-- a block of one row and a block of two, in blocks of three -/
theorem resizeColumn_cells_partly_filled :
    ∃ src c' : Column Int32T, src.getBlocksList.map Block.size = [1, 2] ∧
      (Column.fresh "a" 3).resizeColumn communityRowsLimit src = (c', none) ∧
      c'.cells = [(5, false), (6, false), (7, false)] ∧ c'.getBlocksList.length = 1 := by
  obtain ⟨src, hcells, hsizes, hcount, hvalid, hnullable⟩ : ∃ src : Column Int32T,
      src.cells = [(5, false), (6, false), (7, false)] ∧ src.getBlocksList.map Block.size = [1, 2] ∧ src.size = 3 ∧
      (∀ b ∈ src.getBlocksList, b.Valid src.blockSize src.isNullable) ∧ src.isNullable = false := by
    refine ⟨(((Column.fresh "s" 2 : Column Int32T).addBlockData [5] (-1) true true 0).1.addBlockData [6, 7] (-1) true
      true 0).1, rfl, rfl, rfl, ?_, rfl⟩
    intro b hb
    rcases List.mem_cons.1 hb with rfl | hb
    · exact ⟨rfl, by decide, by decide, rfl, nofun⟩
    · obtain rfl := List.mem_singleton.1 hb
      exact ⟨rfl, by decide, by decide, rfl, nofun⟩
  have hlast : ∀ b ∈ src.getBlocksList.getLast?, b.size ≠ 0 := by
    intro b hb
    have hlast : (src.getBlocksList.map Block.size).getLast? = some b.size := by
      rw [List.getLast?_map]
      exact congrArg (Option.map Block.size) hb
    rw [hsizes] at hlast
    rw [← Option.some.inj hlast]
    decide
  obtain ⟨c', hok, hcopied, hblocks, -⟩ := (resizeColumn_cells_iff (c := (Column.fresh "a" 3 : Column Int32T))
    communityRowsLimit rfl rfl (by decide) hnullable.symm hvalid (by rw [hsizes, hcount]; rfl)).2
    ⟨by rw [hcount]; decide, fun htrue => absurd (hnullable.symm.trans htrue) (by decide),
      fun htrue => absurd (hnullable.symm.trans htrue) (by decide), fun _ _ => hlast⟩
  rw [hcount] at hblocks
  exact ⟨src, c', hsizes, hok, hcopied.trans hcells, hblocks⟩

/-- A nullable column with an empty block; and two rows with an empty block behind them, copied into blocks of two. -/
theorem resizeColumn_empty_block :
    (∃ src : Column Int32T, src.isNullable = true ∧ (∀ b ∈ src.getBlocksList, b.Valid src.blockSize src.isNullable) ∧
      src.size = (src.getBlocksList.map Block.size).sum ∧
      ¬ ∃ c', ({ Column.fresh "a" 2 with isNullable := true }).resizeColumn none src = (c', none)) ∧
    ∃ src : Column Int32T, src.isNullable = false ∧ (∀ b ∈ src.getBlocksList, b.Valid src.blockSize src.isNullable) ∧
      src.size = (src.getBlocksList.map Block.size).sum ∧
      ¬ ∃ c', (Column.fresh "a" 2).resizeColumn none src = (c', none) := by
  constructor
  · refine ⟨({ Column.fresh "s" 2 with isNullable := true } : Column Int32T).addBlock (-1) true 0, rfl, ?_, rfl, ?_⟩
    · intro b hb
      obtain rfl := List.mem_singleton.1 hb
      exact Block.empty_valid _ _ _ _
    · rintro ⟨c', hok⟩
      exact nomatch (Prod.mk.inj hok).2
  · refine ⟨((Column.fresh "s" 2 : Column Int32T).addBlockData [5, 6] (-1) true true 0).1.addBlock (-1) true 0, rfl, ?_,
      rfl, ?_⟩
    · intro b hb
      rcases List.mem_cons.1 hb with rfl | hb
      · exact ⟨rfl, by decide, by decide, rfl, nofun⟩
      · obtain rfl := List.mem_singleton.1 hb
        exact Block.empty_valid _ _ _ _
    · rintro ⟨c', hok⟩
      exact nomatch (Prod.mk.inj hok).2

end Column

end QikkDB

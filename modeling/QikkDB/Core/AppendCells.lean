/-
InsertData with a null mask as appending to a list of (value, is-null) rows (ColumnBase.h), with the arguments every
caller leaves at their defaults.

A group of blocks is `Packed` when every block but the last is full and the null bits behind the rows of every block are
zero. The null bits of the batch are only ever set, never cleared, so they come out right because of the latter.

- `newChunk_cells`, `fillWhole_cells`, `fillUp_cells`: the three places where rows of a batch go to.
- `packed_appendRows`: the blocks of the group afterwards.
- `insertDataMasked_cells`: the column afterwards. Refused are batches that would exceed the row limit; the loops count
  in int32_t.
-/
import Mathlib.Tactic
import QikkDB.Core.Append
import QikkDB.Core.Cells

namespace QikkDB

open NullValues

namespace Column

variable {α : Type} {blockSize : ℕ} {b b' : Block α}

/-! ## Packed groups -/

/-- blocks of a nullable column, all but the last full, without null bits behind their rows -/
structure Packed (blockSize : ℕ) (bs : List (Block α)) : Prop where
  valid : ∀ b ∈ bs, b.Valid blockSize true
  clear : ∀ b ∈ bs, b.ClearBehind
  full : ∀ b ∈ bs.dropLast, b.isFull = true

theorem packed_nil : Packed blockSize ([] : List (Block α)) := by
  constructor <;> simp

/-- full blocks in front -/
theorem packed_append {bs new : List (Block α)} (hvalid : ∀ b ∈ bs, b.Valid blockSize true)
    (hclear : ∀ b ∈ bs, b.ClearBehind) (hfull : ∀ b ∈ bs, b.isFull = true) (hnew : Packed blockSize new) :
    Packed blockSize (bs ++ new) := by
  refine ⟨?_, ?_, ?_⟩
  · intro b hb
    rcases List.mem_append.1 hb with hb | hb
    · exact hvalid b hb
    · exact hnew.valid b hb
  · intro b hb
    rcases List.mem_append.1 hb with hb | hb
    · exact hclear b hb
    · exact hnew.clear b hb
  · intro b hb
    rw [List.dropLast_append] at hb
    split_ifs at hb with hempty
    · exact hfull b (List.dropLast_subset bs hb)
    · rcases List.mem_append.1 hb with hb | hb
      · exact hfull b hb
      · exact hnew.full b hb

theorem packed_cons {new : List (Block α)} (hvalid : b.Valid blockSize true) (hclear : b.ClearBehind)
    (hfull : new = [] ∨ b.isFull = true) (hnew : Packed blockSize new) : Packed blockSize (b :: new) := by
  refine ⟨List.forall_mem_cons.2 ⟨hvalid, hnew.valid⟩, List.forall_mem_cons.2 ⟨hclear, hnew.clear⟩, ?_⟩
  cases new with
  | nil => simp
  | cons b' new =>
    rw [List.dropLast_cons_cons]
    exact List.forall_mem_cons.2 ⟨hfull.resolve_left (List.cons_ne_nil b' new), hnew.full⟩

/-! ## Null bits of a batch -/

/-- the bits of a batch are ORed into the mask from `start` on -/
theorem setNullBits_bits (start : ℕ) (bits : List Bool) (h : b.Valid blockSize true)
    (hfit : start + bits.length ≤ blockSize) :
    ∃ b', setNullBits b start bits = .ok b' ∧
      ∀ i, b'.isNull i = (b.isNull i || (decide (start ≤ i) && bits.getD (i - start) false)) := by
  induction bits generalizing b start with
  | nil => exact ⟨b, rfl, fun i => by simp⟩
  | cons bit bits ih =>
    rw [List.length_cons] at hfit
    -- the bit of row `start`
    obtain ⟨b₁, h₁, hvalid₁, hbit⟩ : ∃ b₁, (if bit then b.setNullBit start else .ok b) = .ok b₁ ∧
        b₁.Valid blockSize true ∧ ∀ i, b₁.isNull i = (b.isNull i || (decide (i = start) && bit)) := by
      cases bit with
      | false => exact ⟨b, rfl, h, fun i => by simp⟩
      | true =>
        obtain ⟨mask, hmask⟩ : ∃ mask, b.bitMask = some mask := Option.isSome_iff_exists.1 h.nullable
        have hlen := h.mask mask hmask
        refine ⟨{ b with bitMask := some (setBit mask start true) }, by simp [Block.setNullBit, hmask], ?_, ?_⟩
        · refine ⟨h.capacity, h.stored, h.room, rfl, ?_⟩
          intro m hm
          obtain rfl := Option.some.inj hm
          rw [length_setBit, hlen]
        · intro i
          have hword : start / 64 < mask.length := hlen ▸ div_lt_getNullBitMaskSize (by omega)
          simp only [Block.isNull, hmask, getBit_setBit mask start i true hword]
          by_cases hi : i = start <;> simp [hi]
    obtain ⟨b', hok, hbits⟩ := ih (start + 1) hvalid₁ (by omega)
    have hstep : setNullBits b start (bit :: bits) = .ok b' := by
      cases bit with
      | false =>
        obtain rfl := Except.ok.inj h₁
        exact hok
      | true =>
        simp only [setNullBits, ↓reduceIte]
        exact bind_eq_ok.2 ⟨b₁, h₁, hok⟩
    refine ⟨b', hstep, fun i => ?_⟩
    rw [hbits, hbit]
    rcases lt_trichotomy i start with hlt | rfl | hgt
    · simp [hlt.ne, not_le.2 hlt, not_le.2 (Nat.lt_succ_of_lt hlt)]
    · simp
    · obtain ⟨k, hk⟩ : ∃ k, i - start = k + 1 := ⟨i - start - 1, by omega⟩
      have hk' : i - (start + 1) = k := by omega
      simp [hgt.ne', hgt.le, Nat.succ_le_of_lt hgt, hk, hk']

/-- rows and null bits of a batch behind those of a block -/
theorem cells_appended {batch : List (α × Bool)} (h : b.Valid blockSize true) (h' : b'.Valid blockSize true)
    (hclear : b.ClearBehind) (hrows : b'.rows = b.rows ++ batch.map Prod.fst)
    (hbits : ∀ i, b'.isNull i = (b.isNull i || (decide (b.size ≤ i) && (batch.map Prod.snd).getD (i - b.size) false))) :
    b'.cells = b.cells ++ batch ∧ b'.ClearBehind ∧ b'.size = b.size + batch.length := by
  have hlen := Block.length_cells h
  have hsize : b'.size = b.size + batch.length := by
    rw [← h'.rows_length, hrows, List.length_append, h.rows_length, List.length_map]
  refine ⟨?_, ?_, hsize⟩
  · refine (Block.cells_eq_iff (by rw [h'.rows_length, hsize, List.length_append, hlen])).2 ⟨?_, fun i hi => ?_⟩
    · have hvalues : b.cells.map Prod.fst = b.rows := by
        rw [Block.cells, List.map_map]
        exact List.zipIdx_map_fst 0 b.rows
      rw [List.map_append, hvalues, hrows]
    · rw [List.length_append, hlen] at hi
      rw [hbits i, List.getElem_append]
      split_ifs with hold
      · rw [hlen] at hold
        simp [not_le.2 hold, Block.cells]
      · rw [hlen] at hold
        rw [hclear i (not_lt.1 hold)]
        simp only [hlen, not_lt.1 hold, decide_true, Bool.true_and, Bool.false_or]
        rw [List.getD_eq_getElem _ _ (by rw [List.length_map]; omega), List.getElem_map]
  · intro i hi
    rw [hsize] at hi
    rw [hbits i, hclear i (by omega), List.getD_eq_default _ _ (by rw [List.length_map]; omega)]
    simp

/-! ## Where the rows go -/

variable [Element α]

theorem newChunk_cells {chunk : List (α × Bool)} (hlen : chunk.length ≤ blockSize) :
    ∃ b, newChunk blockSize true true UINT32_MAX chunk = .ok b ∧ b.Valid blockSize true ∧ b.ClearBehind ∧
      b.cells = chunk ∧ b.size = chunk.length := by
  obtain ⟨e, hofData, hvalid, hrows, hsize, hnull, -⟩ := @Block.ofData_ok _ _ blockSize true
    (chunk.map Prod.fst) (decide (UINT32_MAX ≠ 0)) UINT32_MAX (by rw [List.length_map]; exact hlen)
  obtain ⟨b, hok, hbits⟩ := setNullBits_bits 0 (chunk.map Prod.snd) hvalid
    (by rw [List.length_map]; omega)
  obtain ⟨hvalid', hrows', hsize', -⟩ := setNullBits_ok hvalid hok
  rw [hsize, List.length_map] at hsize'
  refine ⟨b, bind_eq_ok.2 ⟨e, hofData, hok⟩, hvalid', ?_, ?_, hsize'⟩
  · intro i hi
    rw [hbits i, hnull i, List.getD_eq_default _ _ (by rw [List.length_map]; omega)]
    simp
  · refine (Block.cells_eq_iff (by rw [hvalid'.rows_length, hsize'])).2 ⟨hrows'.trans hrows, fun i hi => ?_⟩
    rw [hbits i, hnull i, Nat.sub_zero, List.getD_eq_getElem _ _ (by rw [List.length_map]; exact hi)]
    simp

theorem fillWhole_cells (h : b.Valid blockSize true) (hclear : b.ClearBehind) {batch : List (α × Bool)}
    (hfit : b.size + batch.length ≤ blockSize) :
    ∃ b', fillWhole b batch = .ok b' ∧ b'.Valid blockSize true ∧ b'.cells = b.cells ++ batch ∧ b'.ClearBehind ∧
      b'.size = b.size + batch.length := by
  obtain ⟨b₁, h₁, hbits⟩ := setNullBits_bits b.size (batch.map Prod.snd) h
    (by rw [List.length_map]; exact hfit)
  obtain ⟨hvalid₁, hrows₁, hsize₁, -⟩ := setNullBits_ok h h₁
  obtain ⟨b₂, h₂, hvalid₂, hrows₂, -, hmask₂, -⟩ := Block.insertData_ok hvalid₁ (batch.map Prod.fst) true
    (by rw [hsize₁, List.length_map]; exact hfit)
  have hnull : ∀ i, b₂.isNull i = b₁.isNull i := fun i => by rw [Block.isNull, hmask₂, Block.isNull]
  exact ⟨b₂, bind_eq_ok.2 ⟨b₁, h₁, h₂⟩, hvalid₂,
    cells_appended h hvalid₂ hclear (by rw [hrows₂, hrows₁]) fun i => by rw [hnull, hbits]⟩

theorem fillUp_cells (h : b.Valid blockSize true) (hclear : b.ClearBehind) {batch : List (α × Bool)}
    (hfit : b.size + batch.length ≤ blockSize) :
    ∃ b', fillUp b batch = .ok b' ∧ b'.Valid blockSize true ∧ b'.cells = b.cells ++ batch ∧ b'.ClearBehind ∧
      b'.size = b.size + batch.length := by
  obtain ⟨b₁, h₁, hvalid₁, hrows₁, -, hmask₁, -⟩ := Block.insertData_ok h (batch.map Prod.fst) true
    (by rw [List.length_map]; exact hfit)
  obtain ⟨b₂, h₂, hbits⟩ := setNullBits_bits b.size (batch.map Prod.snd) hvalid₁
    (by rw [List.length_map]; exact hfit)
  obtain ⟨hvalid₂, hrows₂, -⟩ := setNullBits_ok hvalid₁ h₂
  have hnull : ∀ i, b₁.isNull i = b.isNull i := fun i => by rw [Block.isNull, hmask₁, Block.isNull]
  exact ⟨b₂, bind_eq_ok.2 ⟨b₁, h₁, h₂⟩, hvalid₂,
    cells_appended h hvalid₂ hclear (by rw [hrows₂, hrows₁]) fun i => by rw [hbits, hnull]⟩

/-- the rest of a batch in new blocks -/
theorem newBlocks_cells (hpos : 0 < blockSize) (batch : List (α × Bool)) :
    ∃ new, (Chunks.chunks blockSize batch).mapM (newChunk blockSize true true UINT32_MAX) = .ok new ∧
      Packed blockSize new ∧ cellsOf new = batch ∧ (batch = [] → new = []) := by
  induction batch using Chunks.chunks_induction hpos with
  | hnil => exact ⟨[], rfl, packed_nil, rfl, fun _ => rfl⟩
  | hstep batch hne ih =>
    obtain ⟨new, hnew, hpacked, hcells, hnil⟩ := ih
    obtain ⟨b, hb, hvalid, hclear, hrows, hsize⟩ := newChunk_cells (List.length_take_le blockSize batch)
    refine ⟨b :: new, ?_, packed_cons hvalid hclear ?_ hpacked, ?_, fun h => absurd h hne⟩
    · rw [Chunks.chunks_eq hpos hne, List.mapM_cons, hb, hnew]
      rfl
    · -- a shorter chunk is the last one
      by_cases hlong : blockSize ≤ batch.length
      · right
        rw [List.length_take] at hsize
        simp only [Block.isFull, Block.emptyBlockSpace, hvalid.capacity, hsize, decide_eq_true_eq]
        omega
      · exact Or.inl (hnil (List.drop_eq_nil_of_le (by omega)))
    · rw [cellsOf] at hcells
      rw [cellsOf, List.flatMap_cons, hrows, hcells, List.take_append_drop]

/-- **InsertData appends to a packed group.** -/
theorem packed_appendRows (hpos : 0 < blockSize) {bs : List (Block α)} (h : Packed blockSize bs)
    (batch : List (α × Bool)) :
    ∃ bs', appendRows blockSize true true UINT32_MAX bs batch = .ok bs' ∧ Packed blockSize bs' ∧
      cellsOf bs' = cellsOf bs ++ batch := by
  unfold appendRows
  cases hlast : bs.getLast? with
  | none =>
    obtain rfl : bs = [] := List.getLast?_eq_none_iff.1 hlast
    obtain ⟨new, hnew, hpacked, hcells, -⟩ := newBlocks_cells hpos batch
    exact ⟨new, hnew, hpacked, hcells⟩
  | some last =>
    have hsplit : bs = bs.dropLast ++ [last] := (List.dropLast_append_getLast? last hlast).symm
    have hmem : last ∈ bs := List.mem_of_getLast? hlast
    have hvalid := h.valid last hmem
    have hclear := h.clear last hmem
    have hle := hvalid.size_le
    have hspace : last.emptyBlockSpace = blockSize - last.size := by rw [Block.emptyBlockSpace, hvalid.capacity]
    have hinit : ∀ {new : List (Block α)}, Packed blockSize new → Packed blockSize (bs.dropLast ++ new) :=
      packed_append (fun b hb => h.valid b (List.dropLast_subset bs hb))
        (fun b hb => h.clear b (List.dropLast_subset bs hb)) h.full
    have hcells : cellsOf bs = cellsOf bs.dropLast ++ last.cells := by
      rw [hsplit, cellsOf_append, ← hsplit]
      simp [cellsOf]
    simp only
    split_ifs with hfull hfit
    · obtain ⟨new, hnew, hpacked, hrows, -⟩ := newBlocks_cells hpos batch
      refine ⟨bs ++ new, bind_eq_ok.2 ⟨new, hnew, rfl⟩, ?_, by rw [cellsOf_append, hrows]⟩
      have hfilled := hinit (packed_cons hvalid hclear (Or.inr hfull) hpacked)
      rwa [← List.singleton_append, ← List.append_assoc, ← hsplit] at hfilled
    · obtain ⟨last', hfill, hvalid', hrows, hclear', -⟩ := fillWhole_cells hvalid hclear
        (show last.size + batch.length ≤ blockSize by omega)
      refine ⟨bs.dropLast ++ [last'], bind_eq_ok.2 ⟨last', hfill, rfl⟩,
        hinit (packed_cons hvalid' hclear' (Or.inl rfl) packed_nil), ?_⟩
      rw [cellsOf_append, hcells, List.append_assoc, ← hrows]
      simp [cellsOf]
    · have htake : (batch.take last.emptyBlockSpace).length = blockSize - last.size := by
        rw [List.length_take]
        omega
      obtain ⟨last', hfill, hvalid', hrows, hclear', hsize'⟩ := fillUp_cells hvalid hclear
        (show last.size + (batch.take last.emptyBlockSpace).length ≤ blockSize by omega)
      obtain ⟨new, hnew, hpacked, hrest, -⟩ := newBlocks_cells hpos (batch.drop last.emptyBlockSpace)
      have hfull' : last'.isFull = true := by
        simp only [Block.isFull, Block.emptyBlockSpace, hvalid'.capacity, decide_eq_true_eq]
        omega
      refine ⟨bs.dropLast ++ last' :: new, bind_eq_ok.2 ⟨last', hfill, bind_eq_ok.2 ⟨new, hnew, rfl⟩⟩,
        hinit (packed_cons hvalid' hclear' (Or.inr hfull') hpacked), ?_⟩
      have hcons : cellsOf (last' :: new) = last'.cells ++ cellsOf new := by simp [cellsOf]
      rw [cellsOf_append, hcons, hcells, hrows, hrest, List.append_assoc, List.append_assoc, List.take_append_drop]

/-! ## The column -/

omit [Element α] in
theorem length_maskedBatch (columnData : List α) (nullMask : Mask) :
    (maskedBatch columnData nullMask).length = columnData.length := by
  simp [maskedBatch]

/-- **InsertData with a null mask appends.** A nullable column whose blocks are packed in one group, and a batch of fewer
than 2^31 rows that the row limit admits. -/
theorem insertDataMasked_cells {c : Column α} {groupId : ℤ} {bs : List (Block α)} {rowsLimit : Option ℕ}
    (hblocks : c.blocks = [(groupId, bs)]) (hpos : 0 < c.blockSize) (hnullable : c.isNullable = true)
    (h : Packed c.blockSize bs) (columnData : List α) (nullMask : Mask)
    (hcover : getNullBitMaskSize columnData.length ≤ nullMask.length)
    (hlimit : checkRowsLimit rowsLimit (c.size + columnData.length - 1) = .ok ()) (hint : columnData.length < 2 ^ 31) :
    ∃ c' bs', c.insertDataMasked rowsLimit columnData nullMask groupId true UINT32_MAX = .ok c' ∧
      c'.blocks = [(groupId, bs')] ∧ c'.cells = c.cells ++ maskedBatch columnData nullMask ∧ Packed c.blockSize bs' ∧
      c'.size = c.size + columnData.length := by
  have hgroup : c.group groupId = bs := by simp [group, hblocks]
  obtain ⟨bs', hok, hpacked, hcells⟩ := packed_appendRows hpos h (maskedBatch columnData nullMask)
  have hset : (c.setGroup groupId bs').blocks = [(groupId, bs')] := by simp [setGroup, hblocks, putGroup]
  have hlen := length_maskedBatch columnData nullMask
  refine ⟨{ c.setGroup groupId bs' with size := c.size + columnData.length }, bs', ?_, hset, ?_, hpacked, rfl⟩
  · rw [insertDataMasked, if_neg (not_lt.2 hcover), insertBatch]
    refine bind_eq_ok.2 ⟨(), by rw [hlen]; exact hlimit, ?_⟩
    rw [if_neg (by rw [hlen]; omega)]
    refine bind_eq_ok.2 ⟨bs', by rw [hgroup, hnullable]; exact hok, ?_⟩
    rw [hlen]
  · have hold : c.cells = cellsOf bs := by simp [cells, getBlocksList, hblocks, cellsOf]
    have hnew : ({ c.setGroup groupId bs' with size := c.size + columnData.length } : Column α).cells = cellsOf bs' := by
      simp [cells, getBlocksList, hset, cellsOf]
    rw [hold, hnew, hcells]

/-- three rows, the second NULL, in blocks of two -/
theorem insertDataMasked_cells_three :
    ∃ (c c' : Column Int32T) (bs' : List (Block Int32T)), c.cells = [] ∧
      c.insertDataMasked communityRowsLimit [5, 6, 7] [2#64] (-1) true UINT32_MAX = .ok c' ∧ c'.blocks = [(-1, bs')] ∧
      c'.cells = [(5, false), (6, true), (7, false)] ∧ Packed 2 bs' := by
  obtain ⟨c', bs', hok, hblocks, hcells, hpacked, -⟩ := insertDataMasked_cells
    (c := ({ Column.fresh "a" 2 with isNullable := true } : Column Int32T)) rfl (by decide) rfl packed_nil [5, 6, 7]
    [2#64] (by decide) (show checkRowsLimit communityRowsLimit 2 = .ok () from rfl) (by decide)
  exact ⟨_, c', bs', rfl, hok, hblocks, hcells, hpacked⟩

/-- One row more than the limit of the community build is not appended to an empty column. -/
theorem insertDataMasked_over_limit :
    ∃ (c : Column Int32T) (columnData : List Int32T) (nullMask : Mask), c.blocks = [(-1, [])] ∧ 0 < c.blockSize ∧
      c.isNullable = true ∧ c.size = 0 ∧ getNullBitMaskSize columnData.length ≤ nullMask.length ∧
      ¬ ∃ c', c.insertDataMasked communityRowsLimit columnData nullMask (-1) true UINT32_MAX = .ok c' := by
  refine ⟨{ Column.fresh "a" 2 with isNullable := true }, List.replicate 1000000001 0,
    List.replicate (getNullBitMaskSize 1000000001) 0, rfl, by decide, rfl, rfl, ?_, ?_⟩
  · rw [List.length_replicate, List.length_replicate]
  · rintro ⟨c', hok⟩
    unfold insertDataMasked at hok
    split_ifs at hok
    obtain ⟨u, hlimit, -⟩ := bind_eq_ok.1 hok
    rw [length_maskedBatch, List.length_replicate] at hlimit
    simp [checkRowsLimit, communityRowsLimit, fresh] at hlimit

end Column

end QikkDB

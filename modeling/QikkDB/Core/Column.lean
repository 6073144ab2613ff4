/-
Columns (ColumnBase.h), uncompressed: a map from group id to a vector of blocks, a row counter kept beside it, and for
UNIQUE columns a hash set that shadows the stored values.

Every group of blocks has id -1 in practice (no caller passes another one), but the functions take it as a parameter.
The row limit is a parameter: the community build refuses rows past its limit, the other build has none.

- `insertData`, `insertDataMasked`: the two overloads of InsertData, over one function on the blocks of a group.
- `insertDataOnSpecificPosition`: the clustered insert with its block split; it counts the row before the block may
  refuse it, so it returns the column as it is when the exception leaves.
-/
import Mathlib.Tactic
import QikkDB.Core.Block
import QikkDB.Lib.Chunks

namespace QikkDB

open NullValues

/-! ## Model -/

structure Column (α : Type) where
  name : String
  blockSize : ℕ
  /-- row counter, kept beside the blocks -/
  size : ℕ
  /-- blocks by group id, in the order of the map -/
  blocks : List (ℤ × List (Block α))
  isNullable : Bool
  isUnique : Bool
  uniqueHashmap : List α
deriving DecidableEq, Repr

/-- a state and the exception, if any, that left the call -/
abbrev Outcome (σ : Type) := σ × Option Fault

/-- Context::CheckRowsLimit; the community build has a limit, the other build none -/
def checkRowsLimit (rowsLimit : Option ℕ) (rowsCount : ℤ) : Except Fault Unit :=
  match rowsLimit with
  | none => .ok ()
  | some limit =>
    if rowsCount ≥ limit then
      .error (.runtimeError ("Unable to insert new data. Community version supports only up to " ++ toString limit ++
        " rows."))
    else .ok ()

/-- rowsLimit_ of the community build -/
def communityRowsLimit : Option ℕ := some 1000000000

namespace Column

variable {α : Type}

/-! ### The map of blocks -/

/-- blocks of a group, none if the map has no such key -/
def group (c : Column α) (groupId : ℤ) : List (Block α) :=
  match c.blocks.find? fun g => g.1 = groupId with
  | none => []
  | some g => g.2

/-- store the blocks of a group, entering the key in order if it is new -/
def putGroup (groupId : ℤ) (bs : List (Block α)) : List (ℤ × List (Block α)) → List (ℤ × List (Block α))
  | [] => [(groupId, bs)]
  | g :: gs =>
    if g.1 = groupId then (groupId, bs) :: gs
    else if groupId < g.1 then (groupId, bs) :: g :: gs
    else g :: putGroup groupId bs gs

def setGroup (c : Column α) (groupId : ℤ) (bs : List (Block α)) : Column α :=
  { c with blocks := putGroup groupId bs c.blocks }

def getBlocksList (c : Column α) : List (Block α) := c.blocks.flatMap Prod.snd

/-- a column without rows -/
def fresh (name : String) (blockSize : ℕ) : Column α := ⟨name, blockSize, 0, [(-1, [])], false, false, []⟩

/-- UpdateSize -/
def updateSize (c : Column α) : Column α := { c with size := (c.getBlocksList.map Block.size).sum }

section Map

/-- the keys of a map are in strictly increasing order -/
def Sorted (c : Column α) : Prop := (c.blocks.map Prod.fst).Pairwise (· < ·)

theorem mem_putGroup {groupId : ℤ} {bs : List (Block α)} {gs : List (ℤ × List (Block α))} {g : ℤ × List (Block α)}
    (h : g ∈ putGroup groupId bs gs) : g = (groupId, bs) ∨ g ∈ gs := by
  induction gs with
  | nil => exact Or.inl (by simpa [putGroup] using h)
  | cons g' gs ih =>
    simp only [putGroup] at h
    split_ifs at h
    · rcases List.mem_cons.1 h with h | h
      · exact Or.inl h
      · exact Or.inr (List.mem_cons_of_mem g' h)
    · rcases List.mem_cons.1 h with h | h
      · exact Or.inl h
      · exact Or.inr h
    · rcases List.mem_cons.1 h with rfl | h
      · exact Or.inr List.mem_cons_self
      · exact (ih h).imp id (List.mem_cons_of_mem g')

theorem sorted_setGroup {c : Column α} (h : c.Sorted) (groupId : ℤ) (bs : List (Block α)) :
    (c.setGroup groupId bs).Sorted := by
  have key : ∀ gs : List (ℤ × List (Block α)), (gs.map Prod.fst).Pairwise (· < ·) →
      ((putGroup groupId bs gs).map Prod.fst).Pairwise (· < ·) := by
    intro gs
    induction gs with
    | nil => simp [putGroup]
    | cons g gs ih =>
      intro hs
      obtain ⟨hhead, htail⟩ := List.pairwise_cons.1 hs
      simp only [putGroup]
      split_ifs with heq hlt
      · subst heq
        exact hs
      · refine List.pairwise_cons.2 ⟨?_, hs⟩
        intro k hk
        rcases List.mem_cons.1 hk with rfl | hk
        · exact hlt
        · exact hlt.trans (hhead k hk)
      · refine List.pairwise_cons.2 ⟨?_, ih htail⟩
        intro k hk
        obtain ⟨g', hg', rfl⟩ := List.mem_map.1 hk
        rcases mem_putGroup hg' with rfl | hg'
        · exact lt_of_le_of_ne (not_lt.1 hlt) heq
        · exact hhead g'.1 (List.mem_map_of_mem hg')
  exact key c.blocks h

@[simp] theorem group_setGroup (c : Column α) (groupId : ℤ) (bs : List (Block α)) :
    (c.setGroup groupId bs).group groupId = bs := by
  have key : ∀ gs : List (ℤ × List (Block α)), (putGroup groupId bs gs).find? (fun g => g.1 = groupId) =
      some (groupId, bs) := by
    intro gs
    induction gs with
    | nil => simp [putGroup]
    | cons g gs ih =>
      simp only [putGroup]
      split_ifs with heq hlt
      · simp
      · simp
      · simp [heq, ih]
  simp [group, setGroup, key c.blocks]

theorem group_setGroup_of_ne (c : Column α) {groupId other : ℤ} (h : other ≠ groupId) (bs : List (Block α)) :
    (c.setGroup groupId bs).group other = c.group other := by
  have key : ∀ gs : List (ℤ × List (Block α)), (putGroup groupId bs gs).find? (fun g => g.1 = other) =
      gs.find? fun g => g.1 = other := by
    intro gs
    induction gs with
    | nil => simp [putGroup, h.symm]
    | cons g gs ih =>
      simp only [putGroup]
      split_ifs with heq hlt
      · have : g.1 ≠ other := heq.trans_ne h.symm
        simp [this, h.symm]
      · rw [List.find?_cons_of_neg (by simpa using h.symm)]
      · by_cases hg : g.1 = other
        · simp [hg]
        · simp [hg, ih]
  simp only [group, setGroup, key c.blocks]

theorem mem_group {c : Column α} {groupId : ℤ} {b : Block α} (h : b ∈ c.group groupId) : b ∈ c.getBlocksList := by
  unfold group at h
  split at h
  · simp at h
  · rename_i g hg
    exact List.mem_flatMap.2 ⟨g, List.mem_of_find?_eq_some hg, h⟩

theorem group_of_mem {c : Column α} (hs : c.Sorted) {g : ℤ × List (Block α)} (hg : g ∈ c.blocks) : c.group g.1 = g.2 := by
  have key : ∀ gs : List (ℤ × List (Block α)), (gs.map Prod.fst).Pairwise (· < ·) → g ∈ gs →
      gs.find? (fun g' => g'.1 = g.1) = some g := by
    intro gs
    induction gs with
    | nil => exact fun _ hg => nomatch hg
    | cons g' gs ih =>
      intro hs hg
      obtain ⟨hlt, hs⟩ := List.pairwise_cons.1 hs
      rcases List.mem_cons.1 hg with rfl | hg
      · simp
      · have hne : g'.1 ≠ g.1 := (hlt _ (List.mem_map_of_mem hg)).ne
        rw [List.find?_cons_of_neg (by simpa using hne), ih hs hg]
  simp only [group, key c.blocks hs hg]

theorem group_of_notMem {c : Column α} {groupId : ℤ} (h : groupId ∉ c.blocks.map Prod.fst) : c.group groupId = [] := by
  have hnone : c.blocks.find? (fun g => g.1 = groupId) = none := by
    rw [List.find?_eq_none]
    intro g hg heq
    exact h (List.mem_map.2 ⟨g, hg, by simpa using heq⟩)
  simp only [group, hnone]

/-- the map by its keys -/
theorem blocks_eq_map {c : Column α} (hs : c.Sorted) :
    c.blocks = (c.blocks.map Prod.fst).map fun groupId => (groupId, c.group groupId) := by
  rw [List.map_map]
  refine (List.map_id'' (fun _ => rfl) _).symm.trans (List.map_congr_left fun g hg => ?_)
  exact Prod.ext rfl (group_of_mem hs hg).symm

/-- maps with the same keys and the same groups -/
theorem blocks_ext {c c' : Column α} (hs : c.Sorted) (hkeys : c'.blocks.map Prod.fst = c.blocks.map Prod.fst)
    (h : ∀ groupId, c'.group groupId = c.group groupId) : c'.blocks = c.blocks := by
  have hs' : c'.Sorted := by rwa [Sorted, hkeys]
  rw [blocks_eq_map hs, blocks_eq_map hs', hkeys]
  exact List.map_congr_left fun groupId _ => by rw [h]

theorem mem_setGroup {c : Column α} {groupId : ℤ} {bs : List (Block α)} {b : Block α}
    (h : b ∈ (c.setGroup groupId bs).getBlocksList) : b ∈ bs ∨ b ∈ c.getBlocksList := by
  obtain ⟨g, hg, hb⟩ := List.mem_flatMap.1 h
  rcases mem_putGroup hg with rfl | hg
  · exact Or.inl hb
  · exact Or.inr (List.mem_flatMap.2 ⟨g, hg, hb⟩)

/-- a total over the blocks after a group is stored: the old blocks of the group go, the new ones come -/
theorem sum_setGroup {c : Column α} (hs : c.Sorted) (f : Block α → ℕ) (groupId : ℤ) (bs : List (Block α)) :
    ((c.setGroup groupId bs).getBlocksList.map f).sum + ((c.group groupId).map f).sum =
      (c.getBlocksList.map f).sum + (bs.map f).sum := by
  have key : ∀ gs : List (ℤ × List (Block α)), (gs.map Prod.fst).Pairwise (· < ·) →
      (((putGroup groupId bs gs).flatMap Prod.snd).map f).sum +
        (({ c with blocks := gs }.group groupId).map f).sum =
      ((gs.flatMap Prod.snd).map f).sum + (bs.map f).sum := by
    intro gs
    induction gs with
    | nil => simp [putGroup, group]
    | cons g gs ih =>
      intro hs
      obtain ⟨hhead, htail⟩ := List.pairwise_cons.1 hs
      simp only [putGroup]
      split_ifs with heq hlt
      · have hgroup : { c with blocks := g :: gs }.group groupId = g.2 := by simp [group, heq]
        simp only [hgroup, List.flatMap_cons, List.map_append, List.sum_append]
        omega
      · -- the key is new: it stands before every key of the map
        have hnone : (g :: gs).find? (fun g => g.1 = groupId) = none := by
          rw [List.find?_eq_none]
          intro g' hg' hkey
          have hkey' : g'.1 = groupId := by simpa using hkey
          rcases List.mem_cons.1 hg' with rfl | hg'
          · omega
          · have := hhead g'.1 (List.mem_map_of_mem hg')
            omega
        have hgroup : { c with blocks := g :: gs }.group groupId = [] := by simp only [group, hnone]
        simp only [hgroup, List.flatMap_cons, List.map_append, List.sum_append, List.map_nil, List.sum_nil]
        omega
      · have hgroup : { c with blocks := g :: gs }.group groupId = { c with blocks := gs }.group groupId := by
          simp [group, heq]
        have := ih htail
        simp only [hgroup, List.flatMap_cons, List.map_append, List.sum_append] at this ⊢
        omega
  exact key c.blocks hs

end Map

/-- (value, is-null) of every row of the column -/
def cells (c : Column α) : List (α × Bool) := c.getBlocksList.flatMap Block.cells

/-- a column whose blocks are as it keeps them -/
structure Valid (c : Column α) : Prop where
  /-- blockSize_ is an int32_t -/
  small : c.blockSize < 2 ^ 31
  blocks : ∀ b ∈ c.getBlocksList, b.Valid c.blockSize c.isNullable
  /-- a UNIQUE column has the NOT NULL constraint -/
  notNull : c.isUnique = true → c.isNullable = false

/-! ### Constraints -/

section Constraints

variable [Element α]

/-- SetIsNullable -/
def setIsNullable (c : Column α) (isNullable : Bool) : Except Fault (Column α) :=
  if c.isNullable = isNullable then .ok c
  else
    let inBlocks := c.blocks.map fun g => (g.1, g.2.map fun b => b.setIsNullable isNullable)
    if isNullable then
      if c.isUnique then
        .error (.constraintViolation ("Could not drop NOT NULL constraint on column: " ++ c.name ++
          ", column has UNIQUE constraint (drop this constraint first)"))
      else .ok { c with isNullable := true, blocks := inBlocks }
    else if c.getBlocksList.any fun b => (List.range b.size).any b.isNull then
      .error (.constraintViolation ("Could not add NOT NULL constraint on column: " ++ c.name ++
        ", column contains null values"))
    else .ok { c with isNullable := false, blocks := inBlocks }

variable [DecidableEq α]

/-- the scan of SetIsUnique: the hash set of the values, or the first duplicate -/
def collectUnique : List α → List α → Except α (List α)
  | [], seen => .ok seen
  | x :: xs, seen => if x ∈ seen then .error x else collectUnique xs (x :: seen)

/-- SetIsUnique; the hash set is cleared before anything is checked -/
def setIsUnique (c : Column α) (isUnique : Bool) (toString : α → String) : Outcome (Column α) :=
  if c.isUnique = isUnique then (c, none)
  else
    let cleared := { c with uniqueHashmap := [] }
    if isUnique then
      if c.isNullable then
        (cleared, some (.constraintViolation ("Could not add UNIQUE constraint on column: " ++ c.name ++
          ", column need to have NOT NULL constraint")))
      else
        match collectUnique (c.getBlocksList.flatMap Block.rows) [] with
        | .ok seen => ({ c with isUnique := true, uniqueHashmap := seen }, none)
        | .error duplicate =>
          (cleared, some (.constraintViolation ("Could not add UNIQUE constraint on column: " ++ c.name ++
            ", column contains duplicate value: " ++ toString duplicate)))
    else ({ cleared with isUnique := false }, none)

end Constraints

/-! ### Adding blocks -/

section Insert

variable [Element α]

/-- AddBlock without data -/
def addBlock (c : Column α) (groupId : ℤ) (saveNecessary : Bool) (index : ℕ) : Column α :=
  c.setGroup groupId (c.group groupId ++ [Block.empty c.blockSize c.isNullable saveNecessary index])

/-- AddBlock from a vector; `blocks_[groupId]` enters the key before the constructor may throw -/
def addBlockData (c : Column α) (data : List α) (groupId : ℤ) (countBlockStatistics saveNecessary : Bool) (index : ℕ) :
    Outcome (Column α) :=
  match Block.ofData c.blockSize data c.isNullable countBlockStatistics saveNecessary index with
  | .error e => (c.setGroup groupId (c.group groupId), some e)
  | .ok b => ({ c.setGroup groupId (c.group groupId ++ [b]) with size := c.size + data.length }, none)

/-- AddBlock from an array -/
def addBlockArray (c : Column α) (data : List α) (dataSize allocationSize : ℕ) (groupId : ℤ)
    (countBlockStatistics saveNecessary : Bool) (index : ℕ) : Outcome (Column α) :=
  match Block.ofArray c.blockSize data dataSize allocationSize c.isNullable countBlockStatistics saveNecessary index with
  | .error e => (c.setGroup groupId (c.group groupId), some e)
  | .ok b => ({ c.setGroup groupId (c.group groupId ++ [b]) with size := c.size + dataSize }, none)

/-! ### Appending rows -/

/-- write the null bits of rows `start`, `start + 1`, … that are set -/
def setNullBits (b : Block α) (start : ℕ) : List Bool → Except Fault (Block α)
  | [] => .ok b
  | bit :: bits => do
    let b ← if bit then b.setNullBit start else .ok b
    setNullBits b (start + 1) bits

/-- a new block for one chunk of a batch; InsertData passes its saveNecessary as AddBlock's countBlockStatistics and
its index as AddBlock's saveNecessary -/
def newChunk (blockSize : ℕ) (isNullable saveNecessary : Bool) (index : ℕ) (chunk : List (α × Bool)) :
    Except Fault (Block α) := do
  let b ← Block.ofData blockSize (chunk.map Prod.fst) isNullable saveNecessary (index ≠ 0) UINT32_MAX
  setNullBits b 0 (chunk.map Prod.snd)

/-- the rows of a batch that fit into the last block, bits first -/
def fillWhole (last : Block α) (batch : List (α × Bool)) : Except Fault (Block α) := do
  let b ← setNullBits last last.size (batch.map Prod.snd)
  b.insertData (batch.map Prod.fst) true

/-- the rows of a batch that fill up the last block, bits last -/
def fillUp (last : Block α) (batch : List (α × Bool)) : Except Fault (Block α) := do
  let b ← last.insertData (batch.map Prod.fst) true
  setNullBits b last.size (batch.map Prod.snd)

/-- the blocks of a group after a batch of (value, is-null) rows is appended -/
def appendRows (blockSize : ℕ) (isNullable saveNecessary : Bool) (index : ℕ) (bs : List (Block α))
    (batch : List (α × Bool)) : Except Fault (List (Block α)) :=
  match bs.getLast? with
  | none => (Chunks.chunks blockSize batch).mapM (newChunk blockSize isNullable saveNecessary index)
  | some last =>
    if last.isFull then do
      let new ← (Chunks.chunks blockSize batch).mapM (newChunk blockSize isNullable saveNecessary index)
      .ok (bs ++ new)
    else if batch.length ≤ last.emptyBlockSpace then do
      let b ← fillWhole last batch
      .ok (bs.dropLast ++ [b])
    else do
      let b ← fillUp last (batch.take last.emptyBlockSpace)
      let new ← (Chunks.chunks blockSize (batch.drop last.emptyBlockSpace)).mapM
        (newChunk blockSize isNullable saveNecessary index)
      .ok (bs.dropLast ++ b :: new)

/-- InsertData of a batch of (value, is-null) rows: an exception leaves the column unchanged. The loop variables are
int32_t, and a block size of 0 never gets through the batch. -/
def insertBatch (rowsLimit : Option ℕ) (c : Column α) (batch : List (α × Bool)) (groupId : ℤ) (saveNecessary : Bool)
    (index : ℕ) : Except Fault (Column α) := do
  checkRowsLimit rowsLimit (c.size + batch.length - 1)
  if 2 ^ 31 ≤ batch.length ∨ c.blockSize = 0 then .error .undefined
  else do
    let bs ← appendRows c.blockSize c.isNullable saveNecessary index (c.group groupId) batch
    .ok { c.setGroup groupId bs with size := c.size + batch.length }

/-- InsertData -/
def insertData (rowsLimit : Option ℕ) (c : Column α) (columnData : List α) (groupId : ℤ) (saveNecessary : Bool)
    (index : ℕ) : Except Fault (Column α) :=
  insertBatch rowsLimit c (columnData.map fun x => (x, false)) groupId saveNecessary index

/-- the rows of a batch with the null bits of its mask -/
def maskedBatch (columnData : List α) (nullMask : Mask) : List (α × Bool) :=
  columnData.zipIdx.map fun p => (p.1, getBit nullMask p.2)

/-- InsertData with a null mask, which must have a word for every 64 rows -/
def insertDataMasked (rowsLimit : Option ℕ) (c : Column α) (columnData : List α) (nullMask : Mask) (groupId : ℤ)
    (saveNecessary : Bool) (index : ℕ) : Except Fault (Column α) :=
  if nullMask.length < getNullBitMaskSize columnData.length then .error .undefined
  else insertBatch rowsLimit c (maskedBatch columnData nullMask) groupId saveNecessary index

/-! ### Inserting at a position -/

/-- null mask of the first half of a split block -/
def splitMaskLow (mask : Mask) (size : ℕ) : Mask :=
  let bitMaskIdx := getBitMaskIdx ((size - 1) / 2)
  let shiftIdx := getShiftMaskIdx ((size - 1) / 2)
  mask.take bitMaskIdx ++ getPartOfBitmaskByte mask shiftIdx bitMaskIdx ::
    List.replicate (mask.length - bitMaskIdx - 1) 0

/-- null mask of the second half of a split block; the target takes the shift count modulo 64 -/
def splitMaskHigh (mask : Mask) (size : ℕ) : Mask :=
  let bitMaskIdx := getBitMaskIdx ((size - 1) / 2)
  let shiftIdx := getShiftMaskIdx ((size - 1) / 2)
  ((List.range (mask.length - bitMaskIdx)).map fun k =>
    let tmp := mask.getD (bitMaskIdx + k) 0 >>> ((shiftIdx + 1) % 64)
    if bitMaskIdx + 1 < mask.length then tmp ||| getPartOfBitmaskByte mask shiftIdx (bitMaskIdx + 1) else tmp) ++
    List.replicate bitMaskIdx 0

/-- BlockSplit: the two blocks that replace a full one -/
def blockSplit (c : Column α) (block : Block α) : Except Fault (Block α × Block α) := do
  let data1 := block.rows.take (block.size / 2)
  let data2 := block.rows.drop (block.size / 2)
  let block1 ← Block.ofData c.blockSize data1 block.isNullable true true UINT32_MAX
  let block2 ← Block.ofData c.blockSize data2 block.isNullable true true UINT32_MAX
  match c.isNullable, block.bitMask with
  | true, some mask =>
    .ok ({ block1 with bitMask := some (splitMaskLow mask block.size) },
      { block2 with bitMask := some (splitMaskHigh mask block.size) })
  | true, none => .error .undefined
  | false, _ => .ok (block1, block2)

/-- the blocks of a group after the value is put at a position; a full block is split, which the source looks up in
group -1 whatever the group is -/
def insertIntoBlocks (c : Column α) (bs : List (Block α)) (indexBlock indexInBlock : ℕ) (columnData : α) (groupId : ℤ)
    (isNullValue : Bool) : Except Fault (List (Block α)) :=
  match bs[indexBlock]? with
  | none => .error .undefined
  | some block => do
    let block ← block.insertDataOnSpecificPosition indexInBlock columnData isNullValue true
    if block.isFull then
      if groupId = -1 then do
        let halves ← blockSplit c block
        .ok (bs.take indexBlock ++ halves.1 :: halves.2 :: bs.drop (indexBlock + 1))
      else .error .undefined
    else .ok (bs.take indexBlock ++ block :: bs.drop (indexBlock + 1))

/-- InsertDataOnSpecificPosition: the row is counted, and a first block added to group -1, before the block may throw -/
def insertDataOnSpecificPosition (rowsLimit : Option ℕ) (c : Column α) (indexBlock indexInBlock : ℕ) (columnData : α)
    (groupId : ℤ) (isNullValue : Bool) : Outcome (Column α) :=
  match checkRowsLimit rowsLimit c.size with
  | .error e => (c, some e)
  | .ok () =>
    let c := { c with size := c.size + 1 }
    let c := c.setGroup groupId (c.group groupId)
    let c := if (c.group groupId).isEmpty then c.addBlock (-1) true UINT32_MAX else c
    match insertIntoBlocks c (c.group groupId) indexBlock indexInBlock columnData groupId isNullValue with
    | .error e => (c, some e)
    | .ok bs => (c.setGroup groupId bs, none)

end Insert

end Column

end QikkDB

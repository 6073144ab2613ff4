/-
The two operations that copy the rows of one column into another (ColumnBase.h, ColumnBase.cpp): ResizeColumn, which
fills blocks of another size, and CopyDataToColumn, which casts the rows to another type and takes the blocks out of
the source as it goes.

Both may be left by an exception with part of the rows copied, so they return the columns as they are then.
-/
import Mathlib.Tactic
import QikkDB.Core.Column

namespace QikkDB

open NullValues

namespace Column

variable {α : Type} [Element α]

/-! ## ResizeColumn -/

/-- where the next row goes: the column, dstBlockIndex and dstRowIndex -/
structure Target (α : Type) where
  column : Column α
  dstBlockIndex : ℕ
  dstRowIndex : ℕ

/-- a step of the copy, which goes on unless an exception left it -/
def andThen {σ : Type} (r : Outcome σ) (next : σ → Outcome σ) : Outcome σ :=
  match r.2 with
  | none => next r.1
  | some e => (r.1, some e)

/-- InsertDataOnSpecificPositionResizing and the step to the next position; the row is counted before the block may
refuse it -/
def insertResizing (rowsLimit : Option ℕ) (d : Target α) (row : α × Bool) : Outcome (Target α) :=
  match checkRowsLimit rowsLimit d.column.size with
  | .error e => (d, some e)
  | .ok () =>
    match (d.column.group (-1))[d.dstBlockIndex]? with
    | none => (d, some .undefined)
    | some block =>
      let counted := { d.column with size := d.column.size + 1 }
      match block.insertDataOnSpecificPosition d.dstRowIndex row.1 row.2 true with
      | .error e => ({ d with column := counted }, some e)
      | .ok block =>
        let column := counted.setGroup (-1) ((d.column.group (-1)).set d.dstBlockIndex block)
        if d.dstRowIndex + 1 = d.column.blockSize then (⟨column, d.dstBlockIndex + 1, 0⟩, none)
        else (⟨column, d.dstBlockIndex, d.dstRowIndex + 1⟩, none)

/-- the rows of one source block, one after the other -/
def resizeRows (rowsLimit : Option ℕ) : List (α × Bool) → Target α → Outcome (Target α)
  | [], d => (d, none)
  | row :: rows, d => andThen (insertResizing rowsLimit d row) (resizeRows rowsLimit rows)

/-- the source blocks of a nullable column; the loop looks at a row before it compares with the block's size, and at a
mask that a block may not have -/
def resizeNullable (rowsLimit : Option ℕ) : List (Block α) → Target α → Outcome (Target α)
  | [], d => (d, none)
  | b :: bs, d =>
    if b.size = 0 ∨ b.isNullable = false ∨ b.data.length < b.size then (d, some .undefined)
    else andThen (resizeRows rowsLimit b.cells d) (resizeNullable rowsLimit bs)

/-- InsertDataInterval of `length` rows of a source block from `srcRowIndex` on, counted first -/
def insertInterval (d : Target α) (b : Block α) (srcRowIndex length : ℕ) : Outcome (Column α) :=
  let counted := { d.column with size := d.column.size + length }
  match (d.column.group (-1))[d.dstBlockIndex]? with
  | none => (counted, some .undefined)
  | some block =>
    match block.insertDataInterval b.data srcRowIndex length true with
    | .error e => (counted, some e)
    | .ok block => (counted.setGroup (-1) ((d.column.group (-1)).set d.dstBlockIndex block), none)

/-- one source block of a column that is not nullable, from `srcRowIndex` on -/
def resizeBlock (b : Block α) : ℕ → ℕ → Target α → Outcome (Target α)
  | 0, _, d => (d, some .undefined)
  | fuel + 1, srcRowIndex, d =>
    let free := d.column.blockSize - d.dstRowIndex
    let left := b.size - srcRowIndex
    if free < left then
      let r := insertInterval d b srcRowIndex free
      andThen (⟨r.1, d.dstBlockIndex + 1, 0⟩, r.2) (resizeBlock b fuel (srcRowIndex + free))
    else if left = free then
      let r := insertInterval d b srcRowIndex free
      (⟨r.1, d.dstBlockIndex + 1, 0⟩, r.2)
    else
      let r := insertInterval d b srcRowIndex left
      (⟨r.1, d.dstBlockIndex, d.dstRowIndex + left⟩, r.2)

/-- the source blocks of a column that is not nullable; each turn copies a row at least -/
def resizeNotNullable : List (Block α) → Target α → Outcome (Target α)
  | [], d => (d, none)
  | b :: bs, d => andThen (resizeBlock b (b.size + 1) 0 d) (resizeNotNullable bs)

/-- AddBlock, count times -/
def addBlocks (c : Column α) : ℕ → Column α
  | 0 => c
  | count + 1 => addBlocks (c.addBlock (-1) true UINT32_MAX) count

/-- ResizeColumn -/
def resizeColumn (rowsLimit : Option ℕ) (c src : Column α) : Outcome (Column α) :=
  let newBlocksCount := (src.size + c.blockSize - 1) / c.blockSize
  if c.blockSize = 0 ∨ 2 ^ 31 ≤ newBlocksCount then (c, some .undefined)
  else
    let c := c.addBlocks newBlocksCount
    let r :=
      if c.isNullable then resizeNullable rowsLimit src.getBlocksList ⟨c, 0, 0⟩
      else resizeNotNullable src.getBlocksList ⟨c, 0, 0⟩
    (r.1.column, r.2)

/-! ## CopyDataToColumn -/

/-- how rows are cast: `none` where the text is not a number, which becomes a NULL -/
structure Conversion (α β : Type) where
  cast : α → Except Fault (Option β)
  /-- GetNullConstant of the target type -/
  nullConstant : β
  /-- numeric sources copy the words of their mask, the others build a new mask row by row -/
  copiesMask : Bool

variable {β : Type} [Element β]

/-- one row and its null bit; the source's mask is read once the row is cast -/
def castRow (conv : Conversion α β) (b : Block α) (row : α × ℕ) : Except Fault (β × Bool) := do
  match ← conv.cast row.1 with
  | none => .ok (conv.nullConstant, true)
  | some y =>
    match b.bitMask with
    | none => if conv.copiesMask then .ok (y, false) else .error .undefined
    | some mask => .ok (y, getBit mask row.2)

/-- the null mask set on the new block -/
def castMask (conv : Conversion α β) (b : Block α) (rows : List (β × Bool)) (new : Block β) : Except Fault (Block β) :=
  if conv.copiesMask then
    match b.bitMask with
    | none => if b.size = 0 then new.setNullBitmask [] else .error .undefined
    | some mask => new.setNullBitmask (mask.take (getNullBitMaskSize b.size))
  else
    .ok (new.moveNullBitmask (rows.zipIdx.foldl (fun m r => setBit m r.2 r.1.2) (zeroMask b.size)))

/-- one block of the source, appended to the other column -/
def copyBlock (conv : Conversion α β) (groupId : ℤ) (b : Block α) (dst : Column β) : Outcome (Column β) :=
  match b.rows.zipIdx.mapM (castRow conv b) with
  | .error e => (dst, some e)
  | .ok rows =>
    match Block.ofData dst.blockSize (rows.map Prod.fst) dst.isNullable true true UINT32_MAX with
    | .error e => (dst.setGroup groupId (dst.group groupId), some e)
    | .ok new =>
      let added := { dst.setGroup groupId (dst.group groupId ++ [new]) with size := dst.size + rows.length }
      match castMask conv b rows new with
      | .error e => (added, some e)
      | .ok new => (added.setGroup groupId (dst.group groupId ++ [new]), none)

/-- the blocks of one group: what is left of them and the other column -/
def copyBlocks (conv : Conversion α β) (groupId : ℤ) :
    List (Block α) → Column β → List (Block α) × Outcome (Column β)
  | [], dst => ([], (dst, none))
  | b :: bs, dst =>
    match copyBlock conv groupId b dst with
    | (dst, none) => copyBlocks conv groupId bs dst
    | (dst, some e) => (b :: bs, (dst, some e))

def copyGroups (conv : Conversion α β) :
    List (ℤ × List (Block α)) → Column β → List (ℤ × List (Block α)) × Outcome (Column β)
  | [], dst => ([], (dst, none))
  | g :: gs, dst =>
    match copyBlocks conv g.1 g.2 dst with
    | (bs, (dst, none)) =>
      let r := copyGroups conv gs dst
      ((g.1, bs) :: r.1, r.2)
    | (bs, (dst, some e)) => ((g.1, bs) :: gs, (dst, some e))

/-- CopyDataToColumn: both columns afterwards. The blocks leave the source, whose row counter stays. -/
def copyDataToColumn (conv : Option (Conversion α β)) (src : Column α) (dst : Column β) :
    Column α × Outcome (Column β) :=
  match conv with
  | none => (src, (dst, some (.runtimeError "Attempt to execute unsupported column type conversion.")))
  | some conv =>
    let r := copyGroups conv src.blocks dst
    ({ src with blocks := r.1 }, r.2)

end Column

end QikkDB

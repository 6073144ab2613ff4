/-
The two save paths of a numeric column over its files (Database.cpp, Database.h): Persist writes both files anew and
numbers the records itself, PersistOnlyModified goes by the blocks' own flags and indices, rewriting a block in place
or appending it. A restart reads the files back.

The state is a column with its files, if it has any. `OnDisk` is what every run keeps: the .data file is a list of
records, one for each of the first blocks of the column, of which only the last may be behind its block; the blocks
without a record are marked new. `Numbered` says in addition that block i has index i, which Persist does not see to.

- `incremental_save_agrees`: after every PersistOnlyModified of a run without Persist the files are the column.
- `mixed_save_agrees`: with Persist in the run, as long as no modified block is taken for another or for a new one.
-/
import Mathlib.Tactic
import QikkDB.Lib.Run
import QikkDB.Lib.Bytes
import QikkDB.Core.Append
import QikkDB.Storage.NumericFormat

namespace QikkDB.Incremental

open NullValues Bytes Storage NumericFormat

variable {t : NumericType}

/-! ## Model -/

/-- a column and its files, once they exist -/
structure State (t : NumericType) where
  column : Column t.Elem
  files : Option ColumnFiles

/-- a changed list of blocks, back in the groups it came from -/
def regroup : List (ℤ × List (Block t.Elem)) → List (Block t.Elem) → List (ℤ × List (Block t.Elem))
  | [], _ => []
  | g :: gs, bs => (g.1, bs.take g.2.length) :: regroup gs (bs.drop g.2.length)

/-- Persist: WriteColumn creates the files anew and leaves the blocks' indices as they are -/
def persist (junk : ℕ → ℕ → UInt8) (s : State t) : State t :=
  let r := writeBlocks s.column.blockSize s.column.isNullable junk 0 0 s.column.getBlocksList
  ⟨{ s.column with blocks := regroup s.column.blocks r.2 }, some r.1⟩

/-- GetNumberOfPersistedBlocks -/
def getNumberOfPersistedBlocks (bs : List (Block t.Elem)) : ℕ :=
  (bs.filter fun b => b.index ≠ UINT32_MAX).length % 2 ^ 32

/-- WriteBlockNumericTypes: the record goes over what stands at its position. With the reserved index the block stays
marked, but it is written all the same. -/
def writeBlockNumericTypes (blockSize : ℕ) (isNullable : Bool) (junk : ℕ → UInt8) (data : List UInt8)
    (blockPosition : ℕ) (b : Block t.Elem) : List UInt8 × Block t.Elem :=
  (overwrite data blockPosition (record blockSize (maskBytes isNullable junk b) b.index b),
    { b with saveNecessary := decide (b.index = UINT32_MAX) })

/-- one turn of the loop of PersistOnlyModified; `persisted` is GetNumberOfPersistedBlocks at that moment -/
def persistBlock (blockSize : ℕ) (isNullable : Bool) (junk : ℕ → UInt8) (persisted : ℕ) (files : ColumnFiles)
    (b : Block t.Elem) : Except Fault (ColumnFiles × Block t.Elem) :=
  if b.saveNecessary = false then .ok (files, b)
  else if b.index = UINT32_MAX then
    let blockPosition := files.data.length
    let w := writeBlockNumericTypes blockSize isNullable junk files.data blockPosition { b with index := persisted }
    .ok (⟨w.1, files.adrs ++ encodeLE 8 blockPosition⟩, w.2)
  else if files.adrs.length < b.index * 8 + 8 then .error .undefined
  else
    let blockPosition := decodeLE (entry 8 b.index files.adrs)
    let w := writeBlockNumericTypes blockSize isNullable junk files.data blockPosition b
    .ok (⟨w.1, files.adrs⟩, w.2)

/-- the loop over the blocks -/
def persistBlocks (blockSize : ℕ) (isNullable : Bool) (junk : ℕ → ℕ → UInt8) :
    List (Block t.Elem) → List (Block t.Elem) → ColumnFiles → Except Fault (ColumnFiles × List (Block t.Elem))
  | done, [], files => .ok (files, done)
  | done, b :: bs, files => do
    let r ← persistBlock blockSize isNullable (junk done.length) (getNumberOfPersistedBlocks (done ++ b :: bs)) files b
    persistBlocks blockSize isNullable junk (done ++ [r.2]) bs r.1

/-- PersistOnlyModified; the files are created if they do not exist -/
def persistOnlyModified (junk : ℕ → ℕ → UInt8) (s : State t) : Except Fault (State t) := do
  let r ← persistBlocks s.column.blockSize s.column.isNullable junk [] s.column.getBlocksList (s.files.getD ⟨[], []⟩)
  .ok ⟨{ s.column with blocks := regroup s.column.blocks r.2 }, some r.1⟩

/-- the files, before they exist without bytes -/
def State.onDisk (s : State t) : ColumnFiles := s.files.getD ⟨[], []⟩

/-- what a run is made of -/
inductive Op (t : NumericType) where
  | insertData (columnData : List t.Elem)
  | insertDataMasked (columnData : List t.Elem) (nullMask : Mask)
  | persist (junk : ℕ → ℕ → UInt8)
  | persistOnlyModified (junk : ℕ → ℕ → UInt8)
  /-- a new process loads the files; `fill` is what its mask buffers held -/
  | restart (path : String) (fill : ℕ → ℕ → BitVec 64)

def step (rowsLimit : Option ℕ) (s : State t) : Op t → Option (State t)
  | .insertData columnData =>
    (s.column.insertData rowsLimit columnData (-1) true UINT32_MAX).toOption.map fun c => ⟨c, s.files⟩
  | .insertDataMasked columnData nullMask =>
    (s.column.insertDataMasked rowsLimit columnData nullMask (-1) true UINT32_MAX).toOption.map fun c => ⟨c, s.files⟩
  | .persist junk => some (persist junk s)
  | .persistOnlyModified junk => (persistOnlyModified junk s).toOption
  | .restart path fill => do
    let files ← s.files
    let c ← (loadColumn path fill s.column.name s.column.blockSize s.column.isNullable s.column.isUnique
      files).toOption
    some ⟨c, some files⟩

/-! ## The .data file and its addresses -/

theorem dataFile_append (blockSize : ℕ) (es es' : List (Entry t)) :
    dataFile blockSize (es ++ es') = dataFile blockSize es ++ dataFile blockSize es' := by
  simp [dataFile]

theorem offsets_append (blockSize p : ℕ) (es es' : List (Entry t)) :
    offsets blockSize p (es ++ es') =
      offsets blockSize p es ++ offsets blockSize (p + (dataFile blockSize es).length) es' := by
  induction es generalizing p with
  | nil => simp [offsets, dataFile]
  | cons e es ih =>
    simp only [List.cons_append, offsets, ih, dataFile, List.flatMap_cons, List.length_append, Nat.add_assoc]

theorem length_offsets (blockSize p : ℕ) (es : List (Entry t)) : (offsets blockSize p es).length = es.length := by
  induction es generalizing p with
  | nil => rfl
  | cons e es ih => simp [offsets, ih]

/-- the two files of a list of records -/
def filesOf (blockSize : ℕ) (es : List (Entry t)) : ColumnFiles :=
  ⟨dataFile blockSize es, (offsets blockSize 0 es).flatMap (encodeLE 8)⟩

theorem length_adrs (blockSize : ℕ) (es : List (Entry t)) : (filesOf blockSize es).adrs.length = 8 * es.length := by
  have hsum : ∀ l : List ℕ, (l.flatMap (encodeLE 8)).length = 8 * l.length := by
    intro l
    simp [List.length_flatMap, Nat.mul_comm]
  rw [filesOf, hsum, length_offsets]

/-- a record appended with its address -/
theorem filesOf_append (blockSize : ℕ) (es : List (Entry t)) (e : Entry t) :
    filesOf blockSize (es ++ [e]) =
      ⟨(filesOf blockSize es).data ++ record blockSize e.mask e.index e.block,
        (filesOf blockSize es).adrs ++ encodeLE 8 (filesOf blockSize es).data.length⟩ := by
  simp [filesOf, offsets_append, dataFile, offsets]

theorem getElem?_offsets (blockSize p : ℕ) (es : List (Entry t)) (k : ℕ) (hk : k < es.length) :
    (offsets blockSize p es)[k]? = some (p + (dataFile blockSize (es.take k)).length) := by
  induction es generalizing p k with
  | nil => simp at hk
  | cons e es ih =>
    cases k with
    | zero => simp [offsets, dataFile]
    | succ k =>
      have hrest := ih (p + (record blockSize e.mask e.index e.block).length) k (by simpa using hk)
      simp only [offsets, List.getElem?_cons_succ, hrest, List.take_succ_cons, dataFile, List.flatMap_cons,
        List.length_append, Nat.add_assoc]

/-- address k is the offset of record k -/
theorem entry_adrs (blockSize : ℕ) (es : List (Entry t)) (k : ℕ) (hk : k < es.length) :
    entry 8 k (filesOf blockSize es).adrs = encodeLE 8 (dataFile blockSize (es.take k)).length := by
  have hlt : k < (offsets blockSize 0 es).length := by
    rw [length_offsets]
    exact hk
  have hentry := entry_flatMap (encodeLE 8) (fun n => length_encodeLE 8 n) (offsets blockSize 0 es) [] k hlt
  have hoffset := getElem?_offsets blockSize 0 es k hk
  rw [List.getElem?_eq_getElem hlt, Nat.zero_add] at hoffset
  rw [List.append_nil] at hentry
  rw [filesOf, hentry, List.get_eq_getElem, Option.some.inj hoffset]

/-! ## The loop of PersistOnlyModified -/

section Loop

variable {blockSize : ℕ} {isNullable : Bool} (junk : ℕ → ℕ → UInt8)

/-- blocks that are not marked are passed over -/
theorem persistBlocks_clean (done bs rest : List (Block t.Elem)) (files : ColumnFiles)
    (hclean : ∀ b ∈ bs, b.saveNecessary = false) :
    persistBlocks blockSize isNullable junk done (bs ++ rest) files =
      persistBlocks blockSize isNullable junk (done ++ bs) rest files := by
  induction bs generalizing done with
  | nil => simp
  | cons b bs ih =>
    have hb : b.saveNecessary = false := hclean b List.mem_cons_self
    rw [List.cons_append, persistBlocks, persistBlock, if_pos hb]
    change persistBlocks blockSize isNullable junk (done ++ [b]) (bs ++ rest) files = _
    rw [ih (done ++ [b]) fun b' hb' => hclean b' (List.mem_cons_of_mem b hb'), List.append_assoc, List.singleton_append]

/-- new blocks after the save, numbered from p on -/
def numbered : ℕ → List (Block t.Elem) → List (Block t.Elem)
  | _, [] => []
  | p, b :: bs => { b with index := p, saveNecessary := false } :: numbered (p + 1) bs

/-- the records of new blocks, the first of them block k of the column -/
def newEntries (isNullable : Bool) (junk : ℕ → ℕ → UInt8) : ℕ → ℕ → List (Block t.Elem) → List (Entry t)
  | _, _, [] => []
  | k, p, b :: bs => ⟨p, maskBytes isNullable (junk k) b, { b with index := p }⟩ ::
      newEntries isNullable junk (k + 1) (p + 1) bs

/-- a block that has no record yet -/
def Unsaved (b : Block t.Elem) : Prop := b.index = UINT32_MAX ∧ b.saveNecessary = true

/-- blocks with an index -/
def indexed (bs : List (Block t.Elem)) : ℕ := (bs.filter fun b => b.index ≠ UINT32_MAX).length

theorem indexed_le (bs : List (Block t.Elem)) : indexed bs ≤ bs.length := List.length_filter_le _ _

theorem indexed_append (bs bs' : List (Block t.Elem)) : indexed (bs ++ bs') = indexed bs + indexed bs' := by
  simp [indexed]

theorem indexed_unsaved {bs : List (Block t.Elem)} (h : ∀ b ∈ bs, Unsaved b) : indexed bs = 0 := by
  rw [indexed, List.length_eq_zero_iff, List.filter_eq_nil_iff]
  intro b hb
  simp [(h b hb).1]

theorem getNumberOfPersistedBlocks_eq {done bs : List (Block t.Elem)} (h : ∀ b ∈ bs, Unsaved b)
    (hcount : indexed done < 2 ^ 32) : getNumberOfPersistedBlocks (done ++ bs) = indexed done := by
  have : (List.filter (fun b => b.index ≠ UINT32_MAX) (done ++ bs)).length = indexed done := by
    rw [← Nat.add_zero (indexed done), ← indexed_unsaved h, ← indexed_append]
    rfl
  rw [getNumberOfPersistedBlocks, this, Nat.mod_eq_of_lt hcount]

/-- a block without a record is appended, with the next number -/
theorem persistBlock_unsaved (junk : ℕ → UInt8) (es : List (Entry t)) {b : Block t.Elem} (hb : Unsaved b) {p : ℕ}
    (hp : p < UINT32_MAX) :
    persistBlock blockSize isNullable junk p (filesOf blockSize es) b =
      .ok (filesOf blockSize (es ++ [⟨p, maskBytes isNullable junk b, { b with index := p }⟩]),
        { b with index := p, saveNecessary := false }) := by
  have hfresh : decide (p = UINT32_MAX) = false := decide_eq_false hp.ne
  rw [persistBlock, if_neg (by simp [hb.2]), if_pos hb.1, filesOf_append]
  simp only [writeBlockNumericTypes, overwrite_end, hfresh]
  rfl

theorem persistBlocks_unsaved (new : List (Block t.Elem)) (done : List (Block t.Elem)) (es : List (Entry t))
    (hnew : ∀ b ∈ new, Unsaved b) (hcount : indexed done + new.length ≤ UINT32_MAX) :
    persistBlocks blockSize isNullable junk done new (filesOf blockSize es) =
      .ok (filesOf blockSize (es ++ newEntries isNullable junk done.length (indexed done) new),
        done ++ numbered (indexed done) new) := by
  induction new generalizing done es with
  | nil => simp [persistBlocks, newEntries, numbered]
  | cons b new ih =>
    have hb := hnew b List.mem_cons_self
    have hrest : ∀ b' ∈ new, Unsaved b' := fun b' hb' => hnew b' (List.mem_cons_of_mem b hb')
    rw [List.length_cons] at hcount
    have hp : indexed done < UINT32_MAX := by omega
    have hpersisted : getNumberOfPersistedBlocks (done ++ b :: new) = indexed done :=
      getNumberOfPersistedBlocks_eq hnew (hp.trans (by decide))
    have hnext : indexed (done ++ [{ b with index := indexed done, saveNecessary := false }]) = indexed done + 1 := by
      have hone : ∀ (b : Block t.Elem), b.index ≠ UINT32_MAX → indexed [b] = 1 := by
        intro b hb
        simp [indexed, hb]
      rw [indexed_append, hone _ hp.ne]
    rw [persistBlocks, hpersisted, persistBlock_unsaved (junk done.length) es hb hp]
    change persistBlocks blockSize isNullable junk (done ++ [_]) new (filesOf blockSize (es ++ [_])) = _
    rw [ih _ _ hrest (by rw [hnext]; omega), hnext]
    simp [newEntries, numbered]

theorem length_record_mono {e : Entry t} {b : Block t.Elem} (he : e.Stored blockSize isNullable)
    (hb : b.Valid blockSize isNullable) (hsize : e.block.size ≤ b.size) (junk : ℕ → UInt8) (index : ℕ) :
    (record blockSize e.mask e.index e.block).length ≤
      (record blockSize (maskBytes isNullable junk b) index b).length := by
  rw [length_record _ _ he.block, length_record _ _ hb, he.length, length_maskBytes junk hb]
  have hmask : nullBitMaskLength e.block.size ≤ nullBitMaskLength b.size := by
    rw [nullBitMaskLength, nullBitMaskLength, getNullBitMaskSize, getNullBitMaskSize]
    omega
  cases t <;> simp only [blockPositionStep] <;> omega

/-- the last block with a record is rewritten in place, where its address says -/
theorem persistBlock_last (junk : ℕ → UInt8) (persisted : ℕ) (es : List (Entry t)) {e : Entry t} {b : Block t.Elem}
    (he : e.Stored blockSize isNullable) (hb : b.Valid blockSize isNullable) (hsize : e.block.size ≤ b.size)
    (hsave : b.saveNecessary = true) (hindex : b.index = es.length) (hcount : es.length < UINT32_MAX)
    (hfile : (dataFile blockSize es).length < 2 ^ 64) :
    persistBlock blockSize isNullable junk persisted (filesOf blockSize (es ++ [e])) b =
      .ok (filesOf blockSize (es ++ [⟨b.index, maskBytes isNullable junk b, b⟩]),
        { b with saveNecessary := false }) := by
  have hnotNew : b.index ≠ UINT32_MAX := by omega
  have hposition : decodeLE (entry 8 b.index (filesOf blockSize (es ++ [e])).adrs) = (dataFile blockSize es).length := by
    rw [hindex, entry_adrs _ _ _ (by simp), List.take_left, decodeLE_encodeLE_of_lt]
    exact hfile
  have hadrs : ¬ (filesOf blockSize (es ++ [e])).adrs.length < b.index * 8 + 8 := by
    rw [length_adrs, List.length_append, List.length_singleton]
    omega
  have hdata : (filesOf blockSize (es ++ [e])).data =
      dataFile blockSize es ++ record blockSize e.mask e.index e.block := by
    simp [filesOf, dataFile]
  have hold : decide (b.index = UINT32_MAX) = false := decide_eq_false hnotNew
  rw [persistBlock, if_neg (by simp [hsave]), if_neg hnotNew, if_neg hadrs]
  simp only [writeBlockNumericTypes, hposition, hdata,
    overwrite_append _ _ _ (length_record_mono he hb hsize junk b.index), hold]
  rw [filesOf_append, filesOf_append]
  rfl

end Loop

/-! ## Invariant -/

/-- a record and its block: the block has the record's rows, and others only if it is marked -/
structure Belongs (e : Entry t) (b : Block t.Elem) : Prop where
  size : e.block.size ≤ b.size
  cells : b.saveNecessary = false → e.block.cells = b.cells

/-- the files hold a record of each of the blocks `old`, the last of which may be marked, and none of `new` -/
structure OnDisk (c : Column t.Elem) (files : ColumnFiles) (es : List (Entry t)) (old new : List (Block t.Elem)) :
    Prop where
  blocks : c.blocks = [(-1, old ++ new)]
  valid : c.Valid
  files : files = filesOf c.blockSize es
  stored : ∀ e ∈ es, e.Stored c.blockSize c.isNullable
  records : List.Forall₂ Belongs es old
  clean : ∀ b ∈ old.dropLast, b.saveNecessary = false
  unsaved : ∀ b ∈ new, Unsaved b

/-- block i and its record have index i -/
structure Numbered (es : List (Entry t)) (old : List (Block t.Elem)) : Prop where
  records : es.map Entry.index = List.range' 0 es.length
  blocks : old.map Block.index = List.range' 0 old.length
  count : old.length ≤ UINT32_MAX

/-- a block as PersistOnlyModified leaves it -/
def cleared (b : Block t.Elem) : Block t.Elem := { b with saveNecessary := false }

theorem cleared_of_clean {b : Block t.Elem} (h : b.saveNecessary = false) : cleared b = b := by
  cases b
  simp_all [cleared]

theorem map_cleared {bs : List (Block t.Elem)} (h : ∀ b ∈ bs, b.saveNecessary = false) : bs.map cleared = bs := by
  rw [List.map_congr_left fun b hb => cleared_of_clean (h b hb), List.map_id']

theorem indexed_cleared (bs : List (Block t.Elem)) : indexed (bs.map cleared) = indexed bs := by
  rw [indexed, List.filter_map, List.length_map]
  rfl

theorem regroup_single (old bs : List (Block t.Elem)) (h : bs.length = old.length) :
    regroup [(-1, old)] bs = [(-1, bs)] := by
  simp [regroup, ← h]

theorem length_numbered (p : ℕ) (bs : List (Block t.Elem)) : (numbered p bs).length = bs.length := by
  induction bs generalizing p with
  | nil => rfl
  | cons b bs ih => simp [numbered, ih]

/-- numbering keeps everything but the index and the mark -/
theorem mem_numbered {p : ℕ} {bs : List (Block t.Elem)} {b : Block t.Elem} (h : b ∈ numbered p bs) :
    ∃ b' ∈ bs, ∃ i, b = { b' with index := i, saveNecessary := false } := by
  induction bs generalizing p with
  | nil => simp [numbered] at h
  | cons b' bs ih =>
    rcases List.mem_cons.1 h with rfl | h
    · exact ⟨b', List.mem_cons_self, p, rfl⟩
    · obtain ⟨b'', hb'', i, rfl⟩ := ih h
      exact ⟨b'', List.mem_cons_of_mem b' hb'', i, rfl⟩

theorem map_index_numbered (p : ℕ) (bs : List (Block t.Elem)) :
    (numbered p bs).map Block.index = List.range' p bs.length := by
  induction bs generalizing p with
  | nil => rfl
  | cons b bs ih => simp [numbered, ih, List.range'_succ]

theorem map_cells_numbered (p : ℕ) (bs : List (Block t.Elem)) :
    (numbered p bs).map Block.cells = bs.map Block.cells := by
  induction bs generalizing p with
  | nil => rfl
  | cons b bs ih =>
    simp only [numbered, List.map_cons, ih]
    rfl

theorem map_index_newEntries (isNullable : Bool) (junk : ℕ → ℕ → UInt8) (k p : ℕ) (bs : List (Block t.Elem)) :
    (newEntries isNullable junk k p bs).map Entry.index = List.range' p bs.length := by
  induction bs generalizing k p with
  | nil => rfl
  | cons b bs ih => simp [newEntries, ih, List.range'_succ]

section Records

variable {blockSize : ℕ} {isNullable : Bool} (junk : ℕ → ℕ → UInt8)

/-- what the writer makes of a valid block is a stored record -/
theorem stored_entry {junk : ℕ → UInt8} {b : Block t.Elem} (h : b.Valid blockSize isNullable) {index : ℕ}
    (hindex : index < 2 ^ 32) : Entry.Stored blockSize isNullable ⟨index, maskBytes isNullable junk b, b⟩ := by
  refine ⟨hindex, h, length_maskBytes junk h, ?_⟩
  rintro rfl
  exact maskBytes_junk junk (fun _ => 0) b

theorem Valid.renumber {b : Block t.Elem} (h : b.Valid blockSize isNullable) (index : ℕ) (saveNecessary : Bool) :
    ({ b with index := index, saveNecessary := saveNecessary } : Block t.Elem).Valid blockSize isNullable :=
  ⟨h.capacity, h.stored, h.room, h.nullable, h.mask⟩

theorem newEntries_stored (k p : ℕ) (bs : List (Block t.Elem)) (hbs : ∀ b ∈ bs, b.Valid blockSize isNullable)
    (hcount : p + bs.length ≤ UINT32_MAX) :
    ∀ e ∈ newEntries isNullable junk k p bs, e.Stored blockSize isNullable := by
  induction bs generalizing k p with
  | nil => simp [newEntries]
  | cons b bs ih =>
    rw [List.length_cons] at hcount
    intro e he
    rcases List.mem_cons.1 he with rfl | he
    · exact stored_entry (Valid.renumber (hbs b List.mem_cons_self) p b.saveNecessary)
        (lt_of_lt_of_le (by omega : p < UINT32_MAX) (by decide))
    · exact ih (k + 1) (p + 1) (fun b' hb' => hbs b' (List.mem_cons_of_mem b hb')) (by omega) e he

theorem belongs_newEntries (isNullable : Bool) (k p : ℕ) (bs : List (Block t.Elem)) :
    List.Forall₂ Belongs (newEntries isNullable junk k p bs) (numbered p bs) := by
  induction bs generalizing k p with
  | nil => exact .nil
  | cons b bs ih => exact .cons ⟨le_rfl, fun _ => rfl⟩ (ih (k + 1) (p + 1))

end Records

/-! ## PersistOnlyModified -/

/-- the modified block that has a record has the index of that record -/
def Placed (old : List (Block t.Elem)) : Prop :=
  ∀ last ∈ old.getLast?, last.saveNecessary = true → last.index + 1 = old.length

theorem forall₂_concat {es : List (Entry t)} {init : List (Block t.Elem)} {last : Block t.Elem}
    (h : List.Forall₂ Belongs es (init ++ [last])) :
    ∃ es₀ e, es = es₀ ++ [e] ∧ List.Forall₂ Belongs es₀ init ∧ Belongs e last := by
  have hinit := List.forall₂_take_append es init [last] h
  cases hlast : es.drop init.length with
  | nil =>
    have := List.forall₂_drop_append es init [last] h
    rw [hlast] at this
    cases this
  | cons e rest =>
    have hdrop := List.forall₂_drop_append es init [last] h
    rw [hlast] at hdrop
    cases hdrop with
    | cons hbelongs hnil =>
      obtain rfl := List.forall₂_nil_right_iff.1 hnil
      exact ⟨es.take init.length, e, by rw [← hlast, List.take_append_drop], hinit, hbelongs⟩

/-- what the loop makes of the blocks with a record -/
theorem persistBlocks_old {c : Column t.Elem} {files : ColumnFiles} {es : List (Entry t)}
    {old new : List (Block t.Elem)} (h : OnDisk c files es old new) (junk : ℕ → ℕ → UInt8)
    (hcount : old.length ≤ UINT32_MAX) (hfile : files.data.length < 2 ^ 63) (hplaced : Placed old) :
    ∃ es', persistBlocks c.blockSize c.isNullable junk [] (old ++ new) files =
        persistBlocks c.blockSize c.isNullable junk (old.map cleared) new (filesOf c.blockSize es') ∧
      (∀ e ∈ es', e.Stored c.blockSize c.isNullable) ∧ List.Forall₂ Belongs es' (old.map cleared) ∧
      (Numbered es old → es'.map Entry.index = List.range' 0 es'.length) := by
  have hlen : es.length = old.length := h.records.length_eq
  by_cases hlast : ∀ b ∈ old, b.saveNecessary = false
  · refine ⟨es, ?_, h.stored, ?_, fun hn => hn.records⟩
    · rw [persistBlocks_clean junk [] old new files hlast, h.files, map_cleared hlast, List.nil_append]
    · rw [map_cleared hlast]
      exact h.records
  · -- the last block is the marked one: it is rewritten in place
    obtain ⟨init, last, hold⟩ : ∃ init last, old = init ++ [last] := by
      rcases List.eq_nil_or_concat old with hnil | ⟨init, last, hold⟩
      · simp [hnil] at hlast
      · exact ⟨init, last, by simpa using hold⟩
    subst hold
    have hclean : ∀ b ∈ init, b.saveNecessary = false := by simpa using h.clean
    have hsave : last.saveNecessary = true := by
      by_contra hsave
      apply hlast
      intro b hb
      rcases List.mem_append.1 hb with hb | hb
      · exact hclean b hb
      · obtain rfl := List.mem_singleton.1 hb
        simpa using hsave
    obtain ⟨es₀, e, rfl, hinit, he⟩ := forall₂_concat h.records
    have hlen₀ : es₀.length = init.length := hinit.length_eq
    have hindex : last.index = es₀.length := by
      have := hplaced last (by simp) hsave
      rw [List.length_append, List.length_singleton] at this
      omega
    rw [List.length_append, List.length_singleton] at hcount
    have hvalid : last.Valid c.blockSize c.isNullable := h.valid.blocks last (by simp [Column.getBlocksList, h.blocks])
    have hbytes : (dataFile c.blockSize es₀).length < 2 ^ 64 := by
      rw [h.files, filesOf, dataFile_append, List.length_append] at hfile
      omega
    have hstep := persistBlock_last (junk init.length) (getNumberOfPersistedBlocks (init ++ last :: new)) es₀
      (h.stored e (by simp)) hvalid he.size hsave hindex (by omega) hbytes
    refine ⟨es₀ ++ [⟨last.index, maskBytes c.isNullable (junk init.length) last, last⟩], ?_, ?_, ?_, ?_⟩
    · rw [List.append_assoc, List.singleton_append, persistBlocks_clean junk [] init (last :: new) files hclean,
        List.nil_append, persistBlocks, h.files, hstep, List.map_append, map_cleared hclean]
      rfl
    · intro e' he'
      rcases List.mem_append.1 he' with he' | he'
      · exact h.stored e' (by simp [he'])
      · obtain rfl := List.mem_singleton.1 he'
        exact stored_entry hvalid (lt_of_lt_of_le (by omega : last.index < UINT32_MAX) (by decide))
    · rw [List.map_append, map_cleared hclean]
      exact List.rel_append hinit (.cons ⟨le_rfl, fun _ => rfl⟩ .nil)
    · intro hn
      have hnum := hn.records
      rw [List.map_append, List.length_append, List.length_singleton, List.range'_concat] at hnum
      rw [List.map_append, List.length_append, List.length_singleton, List.range'_concat,
        (List.append_inj hnum (by simp)).1]
      simp [hindex]

/-- every block with a record has an index -/
theorem Numbered.indexed {es : List (Entry t)} {old : List (Block t.Elem)} (h : Numbered es old) :
    indexed old = old.length := by
  rw [Incremental.indexed, List.filter_eq_self.2]
  intro b hb
  have hindex : b.index ∈ old.map Block.index := List.mem_map_of_mem hb
  rw [h.blocks, List.mem_range'_1] at hindex
  have := h.count
  simp only [ne_eq, decide_not, Bool.not_eq_eq_eq_not, Bool.not_true, decide_eq_false_iff_not]
  omega

/-- PersistOnlyModified brings the files up to date -/
theorem persistOnlyModified_ok {s : State t} {files : ColumnFiles} {es : List (Entry t)}
    {old new : List (Block t.Elem)} (hfiles : s.files.getD ⟨[], []⟩ = files)
    (h : OnDisk s.column files es old new) (junk : ℕ → ℕ → UInt8)
    (hcount : (old ++ new).length ≤ UINT32_MAX) (hfile : files.data.length < 2 ^ 63) (hplaced : Placed old) :
    ∃ es', persistOnlyModified junk s =
        .ok ⟨{ s.column with blocks := [(-1, old.map cleared ++ numbered (indexed old) new)] },
          some (filesOf s.column.blockSize es')⟩ ∧
      OnDisk { s.column with blocks := [(-1, old.map cleared ++ numbered (indexed old) new)] }
        (filesOf s.column.blockSize es') es' (old.map cleared ++ numbered (indexed old) new) [] ∧
      (Numbered es old → Numbered es' (old.map cleared ++ numbered (indexed old) new)) := by
  rw [List.length_append] at hcount
  obtain ⟨es₁, hloop, hstored, hbelongs, hnum⟩ := persistBlocks_old h junk (by omega) hfile hplaced
  have hindexed := indexed_cleared old
  have hle := indexed_le old
  have hnewLoop := @persistBlocks_unsaved t s.column.blockSize s.column.isNullable junk new
    (old.map cleared) es₁ h.unsaved (by rw [hindexed]; omega)
  rw [hindexed, List.length_map] at hnewLoop
  set bs := old.map cleared ++ numbered (indexed old) new with hbs
  set es' := es₁ ++ newEntries s.column.isNullable junk old.length (indexed old) new with hes'
  have hvalidOld : ∀ b ∈ old ++ new, b.Valid s.column.blockSize s.column.isNullable := by
    intro b hb
    exact h.valid.blocks b (by simpa [Column.getBlocksList, h.blocks] using hb)
  have hmem : ∀ b ∈ bs, b.Valid s.column.blockSize s.column.isNullable ∧ b.saveNecessary = false := by
    intro b hb
    rcases List.mem_append.1 hb with hb | hb
    · obtain ⟨b', hb', rfl⟩ := List.mem_map.1 hb
      exact ⟨Valid.renumber (hvalidOld b' (List.mem_append_left new hb')) b'.index false, rfl⟩
    · obtain ⟨b', hb', i, rfl⟩ := mem_numbered hb
      exact ⟨Valid.renumber (hvalidOld b' (List.mem_append_right old hb')) i false, rfl⟩
  have hlength : bs.length = (old ++ new).length := by simp [hbs, length_numbered]
  refine ⟨es', ?_, ?_, ?_⟩
  · have hlist : s.column.getBlocksList = old ++ new := by simp [Column.getBlocksList, h.blocks]
    refine bind_eq_ok.2 ⟨(filesOf s.column.blockSize es', bs), ?_, ?_⟩
    · rw [hfiles, hlist, hloop, hnewLoop]
    · rw [h.blocks, regroup_single _ _ hlength]
  · refine ⟨by simp, ⟨h.valid.small, ?_, h.valid.notNull⟩, rfl, ?_, ?_, ?_, by simp⟩
    · intro b hb
      exact (hmem b (by simpa [Column.getBlocksList] using hb)).1
    · intro e he
      rcases List.mem_append.1 he with he | he
      · exact hstored e he
      · exact newEntries_stored junk old.length (indexed old) new
          (fun b hb => hvalidOld b (List.mem_append_right old hb)) (by omega) e he
    · exact List.rel_append hbelongs (belongs_newEntries junk s.column.isNullable old.length (indexed old) new)
    · exact fun b hb => (hmem b (List.dropLast_subset bs hb)).2
  · intro hn
    have hall := hn.indexed
    have hlen₁ : es₁.length = old.length := by rw [hbelongs.length_eq, List.length_map]
    have hnewLength : (newEntries s.column.isNullable junk old.length (indexed old) new).length = new.length := by
      have := congrArg List.length (map_index_newEntries s.column.isNullable junk old.length (indexed old) new)
      simpa using this
    have hrange : List.range' 0 old.length ++ List.range' old.length new.length =
        List.range' 0 (old.length + new.length) := by
      have := @List.range'_append_1 0 old.length new.length
      rwa [Nat.zero_add] at this
    refine ⟨?_, ?_, by rw [hlength, List.length_append]; exact hcount⟩
    · rw [hes', List.map_append, map_index_newEntries, hnum hn, List.length_append, hnewLength, hall, hlen₁]
      exact hrange
    · have hcleared : (old.map cleared).map Block.index = old.map Block.index := by
        rw [List.map_map]
        rfl
      rw [hlength, hbs, List.map_append, map_index_numbered, hcleared, hn.blocks, hall, List.length_append]
      exact hrange

/-! ## InsertData -/

/-- appended rows leave the files behind: the last block with a record is marked, or the rows are in new blocks -/
theorem OnDisk.appended {c : Column t.Elem} {files : ColumnFiles} {es : List (Entry t)}
    {old new bs : List (Block t.Elem)} (h : OnDisk c files es old new) (size : ℕ)
    (happ : Column.Appended c.blockSize c.isNullable (old ++ new) bs) :
    ∃ old' new', OnDisk { c.setGroup (-1) bs with size := size } files es old' new' ∧
      old'.map Block.index = old.map Block.index ∧ bs = old' ++ new' ∧
      (old' = old ∨ ∃ last ∈ old.getLast?, last.isFull = false) := by
  have hblocks : (c.setGroup (-1) bs).blocks = [(-1, bs)] := by
    simp [Column.setGroup, h.blocks, Column.putGroup]
  have hvalid : ∀ b ∈ old ++ new, b.Valid c.blockSize c.isNullable := by
    intro b hb
    exact h.valid.blocks b (by simpa [Column.getBlocksList, h.blocks] using hb)
  -- the column, once its blocks are known to be valid
  have hcolumn : (∀ b ∈ bs, b.Valid c.blockSize c.isNullable) →
      ({ c.setGroup (-1) bs with size := size } : Column t.Elem).Valid := by
    intro hbs
    refine ⟨h.valid.small, ?_, h.valid.notNull⟩
    intro b hb
    exact hbs b (by simpa [Column.getBlocksList, hblocks] using hb)
  have hunsaved : ∀ {add : List (Block t.Elem)}, (∀ b ∈ add, Column.New c.blockSize c.isNullable b) →
      ∀ b ∈ add, Unsaved b := fun hadd b hb => ⟨(hadd b hb).index, (hadd b hb).saveNecessary⟩
  generalize hall : old ++ new = all at happ
  cases happ with
  | @behind _ add hfull hadd =>
    subst hall
    refine ⟨old, new ++ add, ⟨by rw [hblocks, List.append_assoc], hcolumn ?_, h.files, h.stored, h.records, h.clean, ?_⟩,
      rfl, by rw [List.append_assoc], Or.inl rfl⟩
    · intro b hb
      rcases List.mem_append.1 hb with hb | hb
      · exact hvalid b hb
      · exact (hadd b hb).valid
    · intro b hb
      rcases List.mem_append.1 hb with hb | hb
      · exact h.unsaved b hb
      · exact hunsaved hadd b hb
  | @filled init add last last' hroom hgrown hadd =>
    have hcolumn' : ({ c.setGroup (-1) (init ++ last' :: add) with size := size } : Column t.Elem).Valid := by
      apply hcolumn
      intro b hb
      rcases List.mem_append.1 hb with hb | hb
      · exact hvalid b (by rw [hall]; exact List.mem_append_left _ hb)
      · rcases List.mem_cons.1 hb with rfl | hb
        · exact hgrown.valid
        · exact (hadd b hb).valid
    rcases List.eq_nil_or_concat new with rfl | ⟨new₀, last₀, hnew⟩
    · -- the block that took rows has a record
      obtain rfl : old = init ++ [last] := by simpa using hall
      refine ⟨init ++ [last'], add, ⟨?_, hcolumn', h.files, h.stored, ?_, ?_, hunsaved hadd⟩, ?_, by simp,
        Or.inr ⟨last, by simp, hroom⟩⟩
      · rw [hblocks, List.append_assoc, List.singleton_append]
      · obtain ⟨es₀, e, rfl, hinit, he⟩ := forall₂_concat h.records
        refine List.rel_append hinit (.cons ⟨he.size.trans hgrown.size, fun hclean => ?_⟩ .nil)
        rw [hgrown.saveNecessary] at hclean
        cases hclean
      · simpa using h.clean
      · simp [hgrown.index]
    · -- it has none
      have hconcat : new = new₀ ++ [last₀] := by simpa using hnew
      subst hconcat
      obtain ⟨rfl, hlast⟩ := List.append_inj' ((List.append_assoc old new₀ [last₀]).trans hall) rfl
      obtain rfl : last₀ = last := by simpa using hlast
      refine ⟨old, new₀ ++ last' :: add, ⟨?_, hcolumn', h.files, h.stored, h.records, h.clean, ?_⟩, rfl, by simp,
        Or.inl rfl⟩
      · rw [hblocks, List.append_assoc]
      · intro b hb
        have hsave := h.unsaved last₀ (by simp)
        rcases List.mem_append.1 hb with hb | hb
        · exact h.unsaved b (List.mem_append_left _ hb)
        · rcases List.mem_cons.1 hb with rfl | hb
          · exact ⟨hgrown.index.trans hsave.1, hgrown.saveNecessary⟩
          · exact hunsaved hadd b hb

theorem insertBatch_appended {rowsLimit : Option ℕ} {c c' : Column t.Elem} {batch : List (t.Elem × Bool)}
    {bs : List (Block t.Elem)} (hblocks : c.blocks = [(-1, bs)]) (hvalid : c.Valid)
    (hok : c.insertBatch rowsLimit batch (-1) true UINT32_MAX = .ok c') :
    ∃ bs', Column.Appended c.blockSize c.isNullable bs bs' ∧
      Column.values bs' = Column.values bs ++ batch.map Prod.fst ∧
      c' = { c.setGroup (-1) bs' with size := c.size + batch.length } := by
  obtain ⟨-, -, hok⟩ := bind_eq_ok.1 hok
  split_ifs at hok with hundefined
  obtain ⟨bs', hbs', hok⟩ := bind_eq_ok.1 hok
  rw [not_or] at hundefined
  have hgroup : c.group (-1) = bs := by simp [Column.group, hblocks]
  rw [hgroup] at hbs'
  obtain ⟨happ, hvalues⟩ := Column.appended_appendRows (Nat.pos_of_ne_zero hundefined.2)
    (fun b hb => hvalid.blocks b (by simpa [Column.getBlocksList, hblocks] using hb)) hbs'
  exact ⟨bs', happ, hvalues, (Except.ok.inj hok).symm⟩

/-! ## Restart -/

theorem mem_reloadAll {blockSize : ℕ} {isNullable : Bool} {fill : ℕ → ℕ → BitVec 64} {k : ℕ} {es : List (Entry t)}
    {b : Block t.Elem} (h : b ∈ reloadAll blockSize isNullable fill k es) :
    ∃ e ∈ es, ∃ fill, b = e.reload blockSize isNullable fill := by
  induction es generalizing k with
  | nil => simp [reloadAll] at h
  | cons e es ih =>
    rcases List.mem_cons.1 h with rfl | h
    · exact ⟨e, List.mem_cons_self, fill k, rfl⟩
    · obtain ⟨e', he', hb⟩ := ih h
      exact ⟨e', List.mem_cons_of_mem e he', hb⟩

theorem map_index_reloadAll (blockSize : ℕ) (isNullable : Bool) (fill : ℕ → ℕ → BitVec 64) (k : ℕ)
    (es : List (Entry t)) : (reloadAll blockSize isNullable fill k es).map Block.index = es.map Entry.index := by
  induction es generalizing k with
  | nil => rfl
  | cons e es ih =>
    obtain ⟨-, -, -, hindex, -⟩ := reload_fields blockSize isNullable (fill k) e
    simp [reloadAll, ih, hindex]

theorem belongs_reloadAll {blockSize : ℕ} {isNullable : Bool} (fill : ℕ → ℕ → BitVec 64) (k : ℕ) (es : List (Entry t))
    (hes : ∀ e ∈ es, e.Stored blockSize isNullable) :
    List.Forall₂ Belongs es (reloadAll blockSize isNullable fill k es) := by
  induction es generalizing k with
  | nil => exact .nil
  | cons e es ih =>
    have he := hes e List.mem_cons_self
    obtain ⟨-, hsize, -⟩ := reload_fields blockSize isNullable (fill k) e
    refine .cons ⟨hsize.ge, fun _ => (reload_cells (fill k) he).symm⟩ ?_
    exact ih (k + 1) fun e' he' => hes e' (List.mem_cons_of_mem e he')

theorem OnDisk.load {c c' : Column t.Elem} {files : ColumnFiles} {es : List (Entry t)} {old new : List (Block t.Elem)}
    (h : OnDisk c files es old new) {path : String} {fill : ℕ → ℕ → BitVec 64}
    (hload : loadColumn path fill c.name c.blockSize c.isNullable c.isUnique files = .ok c') :
    ∃ old', OnDisk c' files es old' [] ∧ old'.map Block.index = es.map Entry.index := by
  have huniq : c.isUnique = true → (storedValues es).Nodup := by
    intro hu
    have hnull := h.valid.notNull hu
    have hload' := hload
    have hstored := h.stored
    rw [h.files, filesOf, loadColumn_dataFile path fill c.name h.valid.notNull, hu, hnull] at hload'
    rw [hnull] at hstored
    have hnodup := loadBlocks_nodup path fill c.name h.valid.small es _ 0 0 [] [] c'
      (Nat.lt_succ_of_le (length_le_dataFile c.blockSize es)) hstored List.nodup_nil hload'
    simpa using hnodup
  have hcanonical := load_dataFile path fill c.name c.isUnique h.valid.small h.valid.notNull es files.adrs h.stored huniq
  have hfiles : (⟨dataFile c.blockSize es, files.adrs⟩ : ColumnFiles) = files := by rw [h.files]; rfl
  rw [hfiles] at hcanonical
  obtain rfl := Except.ok.inj (hload.symm.trans hcanonical)
  have hmem : ∀ b ∈ reloadAll c.blockSize c.isNullable fill 0 es,
      b.Valid c.blockSize c.isNullable ∧ b.saveNecessary = false := by
    intro b hb
    obtain ⟨e, he, fill', rfl⟩ := mem_reloadAll hb
    obtain ⟨-, -, -, -, hsave, -⟩ := reload_fields c.blockSize c.isNullable fill' e
    exact ⟨reload_valid fill' (h.stored e he), hsave⟩
  refine ⟨reloadAll c.blockSize c.isNullable fill 0 es, ⟨by simp, ⟨h.valid.small, ?_, h.valid.notNull⟩, h.files,
    h.stored, belongs_reloadAll fill 0 es h.stored, ?_, by simp⟩, map_index_reloadAll _ _ fill 0 es⟩
  · intro b hb
    exact (hmem b (by simpa [Column.getBlocksList] using hb)).1
  · exact fun b hb => (hmem b (List.dropLast_subset _ hb)).2

/-! ## Persist -/

section Persist

variable {blockSize : ℕ} {isNullable : Bool} (junk : ℕ → ℕ → UInt8)

/-- Persist changes nothing of a block but its mark -/
theorem mem_writeBlocks {k p : ℕ} {bs : List (Block t.Elem)} {b : Block t.Elem}
    (h : b ∈ (writeBlocks blockSize isNullable junk k p bs).2) :
    ∃ b' ∈ bs, b = { b' with index := b'.index, saveNecessary := b.saveNecessary } := by
  induction bs generalizing k p with
  | nil => simp [writeBlocks] at h
  | cons b' bs ih =>
    simp only [writeBlocks] at h
    split_ifs at h
    · rcases List.mem_cons.1 h with rfl | h
      · exact ⟨b', List.mem_cons_self, rfl⟩
      · exact ⟨b, List.mem_cons_of_mem b' h, rfl⟩
    · rcases List.mem_cons.1 h with rfl | h
      · exact ⟨b', List.mem_cons_self, rfl⟩
      · obtain ⟨b'', hb'', heq⟩ := ih h
        exact ⟨b'', List.mem_cons_of_mem b' hb'', heq⟩

/-- what does not depend on the mark stays -/
theorem map_writeBlocks {β : Type} (f : Block t.Elem → β)
    (hf : ∀ (b : Block t.Elem) (saveNecessary : Bool), f { b with saveNecessary := saveNecessary } = f b) (k p : ℕ)
    (bs : List (Block t.Elem)) : (writeBlocks blockSize isNullable junk k p bs).2.map f = bs.map f := by
  induction bs generalizing k p with
  | nil => simp [writeBlocks]
  | cons b bs ih =>
    simp only [writeBlocks]
    split_ifs
    · simp [hf]
    · simp [hf, ih]

theorem length_writeBlocks (k p : ℕ) (bs : List (Block t.Elem)) :
    (writeBlocks blockSize isNullable junk k p bs).2.length = bs.length := by
  have hlength := congrArg List.length (@map_writeBlocks t blockSize isNullable junk _ Block.index (fun _ _ => rfl) k p bs)
  simpa using hlength

theorem belongs_writeBlocks (k p : ℕ) (bs : List (Block t.Elem)) :
    List.Forall₂ Belongs (entriesFrom isNullable junk k bs) (writeBlocks blockSize isNullable junk k p bs).2 := by
  have hsame : ∀ (k : ℕ) (bs : List (Block t.Elem)), List.Forall₂ Belongs (entriesFrom isNullable junk k bs) bs := by
    intro k bs
    induction bs generalizing k with
    | nil => exact .nil
    | cons b bs ih => exact .cons ⟨le_rfl, fun _ => rfl⟩ (ih (k + 1))
  induction bs generalizing k p with
  | nil =>
    simp only [writeBlocks, entriesFrom]
    exact .nil
  | cons b bs ih =>
    simp only [writeBlocks, entriesFrom]
    split_ifs
    · exact .cons ⟨le_rfl, fun _ => rfl⟩ (hsame (k + 1) bs)
    · exact .cons ⟨le_rfl, fun _ => rfl⟩ (ih (k + 1) _)

/-- below the reserved index no block stays marked -/
theorem writeBlocks_clean (k p : ℕ) (bs : List (Block t.Elem)) (hk : k + bs.length < UINT32_MAX) :
    ∀ b ∈ (writeBlocks blockSize isNullable junk k p bs).2, b.saveNecessary = false := by
  induction bs generalizing k p with
  | nil => simp [writeBlocks]
  | cons b bs ih =>
    rw [List.length_cons] at hk
    have hlast : k + 1 ≠ UINT32_MAX := by omega
    intro b' hb'
    simp only [writeBlocks, if_neg hlast] at hb'
    rcases List.mem_cons.1 hb' with rfl | hb'
    · rfl
    · exact ih (k + 1) _ (by omega) b' hb'

/-- with as many blocks as there are indices, only the last one stays marked -/
theorem writeBlocks_dropLast (k p : ℕ) (bs : List (Block t.Elem)) (hk : k + bs.length ≤ UINT32_MAX) :
    ∀ b ∈ (writeBlocks blockSize isNullable junk k p bs).2.dropLast, b.saveNecessary = false := by
  induction bs generalizing k p with
  | nil => simp [writeBlocks]
  | cons b bs ih =>
    rw [List.length_cons] at hk
    simp only [writeBlocks]
    split_ifs with hlast
    · obtain rfl : bs = [] := List.length_eq_zero_iff.1 (by omega)
      simp
    · intro b' hb'
      have hrest := ih (k + 1) ((p + blockPositionStep t (nullBitMaskLength b.size) blockSize) % 2 ^ 64) (by omega)
      generalize (writeBlocks blockSize isNullable junk (k + 1)
        ((p + blockPositionStep t (nullBitMaskLength b.size) blockSize) % 2 ^ 64) bs).2 = rest at hb' hrest
      cases rest with
      | nil => simp at hb'
      | cons b₁ rest =>
        rw [List.dropLast_cons_cons] at hb'
        rcases List.mem_cons.1 hb' with rfl | hb'
        · rfl
        · exact hrest b' hb'

end Persist

theorem persist_column {s : State t} {bs : List (Block t.Elem)} (hblocks : s.column.blocks = [(-1, bs)])
    (hvalid : s.column.Valid) (junk : ℕ → ℕ → UInt8) :
    (persist junk s).column.blocks = [(-1, (writeBlocks s.column.blockSize s.column.isNullable junk 0 0 bs).2)] ∧
      (persist junk s).column.Valid := by
  have hlist : s.column.getBlocksList = bs := by simp [Column.getBlocksList, hblocks]
  have hcolumn : (persist junk s).column.blocks =
      [(-1, (writeBlocks s.column.blockSize s.column.isNullable junk 0 0 bs).2)] := by
    rw [persist, hlist, hblocks]
    exact regroup_single _ _ (length_writeBlocks junk 0 0 bs)
  refine ⟨hcolumn, hvalid.small, ?_, hvalid.notNull⟩
  intro b hb
  rw [Column.getBlocksList, hcolumn] at hb
  obtain ⟨b', hb', heq⟩ := mem_writeBlocks junk (by simpa using hb)
  rw [heq]
  exact Valid.renumber (hvalid.blocks b' (by rw [hlist]; exact hb')) b'.index b.saveNecessary

/-- Persist writes a record of every block, and the blocks keep their indices -/
theorem persist_ok {s : State t} {bs : List (Block t.Elem)} (hblocks : s.column.blocks = [(-1, bs)])
    (hvalid : s.column.Valid) (junk : ℕ → ℕ → UInt8) (hcount : bs.length ≤ UINT32_MAX) :
    ∃ bs', (persist junk s).column = { s.column with blocks := [(-1, bs')] } ∧
      (persist junk s).files = some (filesOf s.column.blockSize (entriesFrom s.column.isNullable junk 0 bs)) ∧
      OnDisk (persist junk s).column (persist junk s).onDisk (entriesFrom s.column.isNullable junk 0 bs) bs' [] ∧
      bs'.map Block.index = bs.map Block.index ∧ bs'.map Block.isFull = bs.map Block.isFull ∧
      (bs.length < UINT32_MAX → ∀ b ∈ bs', b.saveNecessary = false) := by
  have hlist : s.column.getBlocksList = bs := by simp [Column.getBlocksList, hblocks]
  have hvalids : ∀ b ∈ bs, b.Valid s.column.blockSize s.column.isNullable := by
    intro b hb
    exact hvalid.blocks b (by rw [hlist]; exact hb)
  obtain ⟨hcolumn, hvalid'⟩ := persist_column hblocks hvalid junk
  have hfiles := writeBlocks_files junk 0 0 bs hvalids (by decide)
  rw [Nat.sub_zero, List.take_of_length_le hcount, Nat.zero_mod] at hfiles
  have hsome : (persist junk s).files =
      some (filesOf s.column.blockSize (entriesFrom s.column.isNullable junk 0 bs)) := by
    rw [persist, hlist]
    exact congrArg some hfiles
  refine ⟨_, ?_, hsome, ⟨by rw [hcolumn, List.append_nil], hvalid', by rw [State.onDisk, hsome]; rfl, ?_,
    belongs_writeBlocks junk 0 0 bs, writeBlocks_dropLast junk 0 0 bs (by omega), by simp⟩,
    map_writeBlocks junk Block.index (fun _ _ => rfl) 0 0 bs, map_writeBlocks junk Block.isFull (fun _ _ => rfl) 0 0 bs,
    fun hlt => writeBlocks_clean junk 0 0 bs (by omega)⟩
  · rw [← hcolumn]
    rfl
  · exact entriesFrom_stored junk 0 bs hvalids (by simp only [UINT32_MAX] at hcount; omega)

/-! ## What is loaded -/

theorem cells_fst (b : Block t.Elem) : b.cells.map Prod.fst = b.rows := by
  rw [Block.cells, List.map_map]
  exact List.zipIdx_map_fst 0 b.rows

theorem cells_reloadAll {blockSize : ℕ} {isNullable : Bool} (fill : ℕ → ℕ → BitVec 64) (k : ℕ) (es : List (Entry t))
    (hes : ∀ e ∈ es, e.Stored blockSize isNullable) :
    (reloadAll blockSize isNullable fill k es).map Block.cells = es.map fun e => e.block.cells := by
  induction es generalizing k with
  | nil => rfl
  | cons e es ih =>
    rw [reloadAll, List.map_cons, List.map_cons, reload_cells (fill k) (hes e List.mem_cons_self),
      ih (k + 1) fun e' he' => hes e' (List.mem_cons_of_mem e he')]

theorem cells_of_belongs {es : List (Entry t)} {bs : List (Block t.Elem)} (h : List.Forall₂ Belongs es bs)
    (hclean : ∀ b ∈ bs, b.saveNecessary = false) : (es.map fun e => e.block.cells) = bs.map Block.cells := by
  induction h with
  | nil => rfl
  | cons hb _ ih =>
    rw [List.map_cons, List.map_cons, hb.cells (hclean _ List.mem_cons_self),
      ih fun b' hb' => hclean b' (List.mem_cons_of_mem _ hb')]

/-- the values of blocks, from their cells -/
theorem values_eq_cells (bs : List (Block t.Elem)) :
    Column.values bs = ((bs.map Block.cells).flatten).map Prod.fst := by
  induction bs with
  | nil => rfl
  | cons b bs ih =>
    rw [Column.values] at ih ⊢
    rw [List.flatMap_cons, ih, List.map_cons, List.flatten_cons, List.map_append, cells_fst]

theorem storedValues_eq_cells (es : List (Entry t)) :
    storedValues es = ((es.map fun e => e.block.cells).flatten).map Prod.fst := by
  induction es with
  | nil => rfl
  | cons e es ih =>
    rw [storedValues] at ih ⊢
    rw [List.flatMap_cons, ih, List.map_cons, List.flatten_cons, List.map_append, cells_fst]

/-- the rows of the column come back from files that are up to date -/
theorem OnDisk.load_cells {c : Column t.Elem} {files : ColumnFiles} {es : List (Entry t)} {bs : List (Block t.Elem)}
    (h : OnDisk c files es bs []) (hclean : ∀ b ∈ bs, b.saveNecessary = false)
    (huniq : c.isUnique = true → (Column.values bs).Nodup) (path : String) (fill : ℕ → ℕ → BitVec 64) :
    ∃ c', loadColumn path fill c.name c.blockSize c.isNullable c.isUnique files = .ok c' ∧ c'.cells = c.cells := by
  have hcells := cells_of_belongs h.records hclean
  have hstored : c.isUnique = true → (storedValues es).Nodup := by
    intro hu
    rw [storedValues_eq_cells, hcells, ← values_eq_cells]
    exact huniq hu
  have hload := load_dataFile path fill c.name c.isUnique h.valid.small h.valid.notNull es files.adrs h.stored hstored
  have hfiles : (⟨dataFile c.blockSize es, files.adrs⟩ : ColumnFiles) = files := by rw [h.files]; rfl
  rw [hfiles] at hload
  refine ⟨_, hload, ?_⟩
  simp only [Column.cells, Column.getBlocksList, h.blocks, List.flatMap_cons, List.flatMap_nil, List.append_nil]
  rw [List.flatMap_def, List.flatMap_def, cells_reloadAll fill 0 es h.stored, hcells]

/-! ## Runs without Persist -/

/-- what the files can take: an index for every block, and positions that std::streamoff can express -/
structure Savable (s : State t) : Prop where
  count : s.column.getBlocksList.length ≤ UINT32_MAX
  bytes : ∀ files ∈ s.files, files.data.length < 2 ^ 63

/-- the steps of incremental persistence; `checked` asks that the files can take each save -/
def WithoutPersist (checked : Prop) (s : State t) : Op t → Prop
  | .persist _ => False
  | .persistOnlyModified _ => checked → Savable s
  | _ => True

/-- the files are the column: record k is block k and its offset is address k, and the rows are loaded from them -/
def Agrees (s : State t) : Prop :=
  ∃ files es, s.files = some files ∧ files.data = dataFile s.column.blockSize es ∧
    es.length = s.column.getBlocksList.length ∧
    (∀ (k : ℕ) (b : Block t.Elem), s.column.getBlocksList[k]? = some b →
      b.index = k ∧ (∃ e : Entry t, es[k]? = some e ∧ e.index = k ∧ e.block.cells = b.cells) ∧
        entry 8 k files.adrs = encodeLE 8 (dataFile s.column.blockSize (es.take k)).length) ∧
    ∀ (path : String) (fill : ℕ → ℕ → BitVec 64), ∃ c', loadColumn path fill s.column.name s.column.blockSize
      s.column.isNullable s.column.isUnique files = .ok c' ∧ c'.cells = s.column.cells

theorem Savable.onDisk {s : State t} (h : Savable s) : s.onDisk.data.length < 2 ^ 63 := by
  unfold State.onDisk
  cases hfiles : s.files with
  | none => norm_num
  | some files => exact h.bytes files hfiles

theorem Numbered.placed {es : List (Entry t)} {old : List (Block t.Elem)} (h : Numbered es old) : Placed old := by
  intro last hlast _
  have hsplit : old = old.dropLast ++ [last] := (List.dropLast_append_getLast? last hlast).symm
  have hblocks := h.blocks
  rw [hsplit, List.map_append, List.length_append, List.length_singleton, List.range'_concat] at hblocks
  have hindex := (List.append_inj' hblocks (by simp)).2
  have : last.index = old.dropLast.length := by simpa using hindex
  rw [hsplit, List.length_append, List.length_singleton, this]

/-- what runs without Persist keep -/
def Inv (s : State t) : Prop := ∃ es old new, OnDisk s.column s.onDisk es old new ∧ Numbered es old

theorem inv_insertBatch {rowsLimit : Option ℕ} {s : State t} (h : Inv s) {batch : List (t.Elem × Bool)}
    {c' : Column t.Elem} (hok : s.column.insertBatch rowsLimit batch (-1) true UINT32_MAX = .ok c') :
    Inv ⟨c', s.files⟩ := by
  obtain ⟨es, old, new, hdisk, hnum⟩ := h
  obtain ⟨bs, happ, -, rfl⟩ := insertBatch_appended hdisk.blocks hdisk.valid hok
  obtain ⟨old', new', hdisk', hindex, -⟩ := hdisk.appended (s.column.size + batch.length) happ
  have hlength : old'.length = old.length := by
    have := congrArg List.length hindex
    simpa using this
  exact ⟨es, old', new', hdisk', hnum.records, by rw [hindex, hlength]; exact hnum.blocks, hlength ▸ hnum.count⟩

theorem inv_step {rowsLimit : Option ℕ} {s s' : State t} (o : Op t) (h : Inv s) (hok : WithoutPersist True s o)
    (hs : step rowsLimit s o = some s') : Inv s' := by
  cases o with
  | insertData columnData =>
    obtain ⟨c', hc', rfl⟩ := Option.map_eq_some_iff.1 hs
    exact inv_insertBatch h (toOption_eq_some.1 hc')
  | insertDataMasked columnData nullMask =>
    obtain ⟨c', hc', rfl⟩ := Option.map_eq_some_iff.1 hs
    have hc' := toOption_eq_some.1 hc'
    unfold Column.insertDataMasked at hc'
    split_ifs at hc'
    exact inv_insertBatch h hc'
  | persist junk => exact absurd hok id
  | persistOnlyModified junk =>
    obtain ⟨es, old, new, hdisk, hnum⟩ := h
    have hcount : (old ++ new).length ≤ UINT32_MAX := by
      have := (hok trivial).count
      rwa [Column.getBlocksList, hdisk.blocks, List.flatMap_cons, List.flatMap_nil, List.append_nil] at this
    obtain ⟨es', hpersist, hdisk', hnum'⟩ := persistOnlyModified_ok rfl hdisk junk hcount (hok trivial).onDisk
      hnum.placed
    obtain rfl := Except.ok.inj (hpersist.symm.trans (toOption_eq_some.1 hs))
    exact ⟨es', _, [], hdisk', hnum' hnum⟩
  | restart path fill =>
    obtain ⟨es, old, new, hdisk, hnum⟩ := h
    obtain ⟨files, hfiles, hs⟩ := Option.bind_eq_some_iff.1 hs
    obtain ⟨c', hload, hs⟩ := Option.bind_eq_some_iff.1 hs
    obtain rfl := Option.some.inj hs
    have honDisk : s.onDisk = files := by rw [State.onDisk, hfiles]; rfl
    rw [honDisk] at hdisk
    obtain ⟨old', hdisk', hindex⟩ := hdisk.load (toOption_eq_some.1 hload)
    have hlength : old'.length = es.length := by
      have := congrArg List.length hindex
      simpa using this
    refine ⟨es, old', [], hdisk', hnum.records, by rw [hindex, hlength]; exact hnum.records, ?_⟩
    rw [hlength, hdisk.records.length_eq]
    exact hnum.count

theorem inv_start {name : String} {blockSize : ℕ} {isNullable isUnique : Bool} {c : Column t.Elem}
    (hsmall : blockSize < 2 ^ 31) (hc : created name blockSize isNullable isUnique = .ok c) :
    OnDisk c ⟨[], []⟩ [] [] [] ∧ c.blockSize = blockSize ∧ c.isUnique = isUnique := by
  unfold created at hc
  split_ifs at hc with hnull
  obtain rfl := Except.ok.inj hc
  refine ⟨⟨rfl, ⟨hsmall, ?_, ?_⟩, rfl, by simp, .nil, by simp, by simp⟩, rfl, rfl⟩
  · intro b hb
    simp [Column.getBlocksList, Column.fresh] at hb
  · intro hu
    rw [not_and] at hnull
    simpa using hnull hu

theorem saved_clean {old new : List (Block t.Elem)} {p : ℕ} :
    ∀ b ∈ old.map cleared ++ numbered p new, b.saveNecessary = false := by
  intro b hb
  rcases List.mem_append.1 hb with hb | hb
  · obtain ⟨b', -, rfl⟩ := List.mem_map.1 hb
    rfl
  · obtain ⟨b', -, i, rfl⟩ := mem_numbered hb
    rfl

theorem saved_cells (old new : List (Block t.Elem)) (p : ℕ) :
    (old.map cleared ++ numbered p new).map Block.cells = (old ++ new).map Block.cells := by
  rw [List.map_append, List.map_append, map_cells_numbered, List.map_map]
  rfl

/-- files that are up to date, with numbered records -/
theorem OnDisk.agrees {s : State t} {files : ColumnFiles} {es : List (Entry t)} {bs : List (Block t.Elem)}
    (hfiles : s.files = some files) (h : OnDisk s.column files es bs []) (hnum : Numbered es bs)
    (hclean : ∀ b ∈ bs, b.saveNecessary = false) (huniq : s.column.isUnique = true → (Column.values bs).Nodup) :
    Agrees s := by
  have hlist : s.column.getBlocksList = bs := by simp [Column.getBlocksList, h.blocks]
  have hlength : es.length = bs.length := h.records.length_eq
  refine ⟨files, es, hfiles, by rw [h.files]; rfl, by rw [hlist, hlength], ?_, h.load_cells hclean huniq⟩
  intro k b hb
  rw [hlist] at hb
  obtain ⟨hlt, hget⟩ := List.getElem?_eq_some_iff.1 hb
  have hlt' : k < es.length := hlength ▸ hlt
  have hcells := cells_of_belongs h.records hclean
  refine ⟨?_, ⟨es.get ⟨k, hlt'⟩, by simp, ?_, ?_⟩, ?_⟩
  · have : (bs.map Block.index)[k]? = (List.range' 0 bs.length)[k]? := by rw [hnum.blocks]
    simpa [hb, List.getElem?_range' hlt] using this
  · have : (es.map Entry.index)[k]? = (List.range' 0 es.length)[k]? := by rw [hnum.records]
    simpa [List.getElem?_range' hlt', List.getElem?_eq_getElem hlt'] using this
  · have : (es.map fun e => e.block.cells)[k]? = (bs.map Block.cells)[k]? := by rw [hcells]
    simpa [hb, List.getElem?_eq_getElem hlt'] using this
  · rw [h.files]
    exact entry_adrs s.column.blockSize es k hlt'

/-- After every PersistOnlyModified of a run without Persist the files are the column. -/
theorem incremental_save_agrees (t : NumericType) (rowsLimit : Option ℕ) {name : String} {blockSize : ℕ}
    {isNullable isUnique : Bool} {c₀ : Column t.Elem} (hsmall : blockSize < 2 ^ 31)
    (hc : created name blockSize isNullable isUnique = .ok c₀) {s : State t}
    (h : Run.Reach (step rowsLimit) (WithoutPersist True) ⟨c₀, none⟩ s) (hs : Savable s)
    (huniq : s.column.isUnique = true → (Column.values s.column.getBlocksList).Nodup) (junk : ℕ → ℕ → UInt8) :
    ∃ s', persistOnlyModified junk s = .ok s' ∧ Agrees s' := by
  have hinv : Inv s := Run.reach_inv Inv ⟨[], [], [], (inv_start hsmall hc).1, rfl, rfl, Nat.zero_le _⟩
    (fun _ o _ hinv hok hs => inv_step o hinv hok hs) h
  obtain ⟨es, old, new, hdisk, hnum⟩ := hinv
  have hlist : s.column.getBlocksList = old ++ new := by simp [Column.getBlocksList, hdisk.blocks]
  obtain ⟨es', hpersist, hdisk', hnum'⟩ := persistOnlyModified_ok rfl hdisk junk (hlist ▸ hs.count) hs.onDisk hnum.placed
  refine ⟨_, hpersist, hdisk'.agrees rfl (hnum' hnum) saved_clean ?_⟩
  intro hu
  rw [values_eq_cells, saved_cells, ← values_eq_cells, ← hlist]
  exact huniq hu

/-- two saves of a nullable column, with rows appended between them -/
theorem incremental_save_agrees_twice :
    ∃ s s' : State .int32, Run.Reach (step none) (WithoutPersist True) ⟨⟨"a", 2, 0, [(-1, [])], true, false, []⟩, none⟩ s ∧
      s.column.cells = [(7, false), (8, true), (9, false), (5, false)] ∧ persistOnlyModified (fun _ _ => 0) s = .ok s' ∧
      Agrees s' := by
  obtain ⟨s₁, s₂, s₃, h₁, h₂, h₃, hcount₁, hfiles₁, hcount₃, hbytes₃, huniq, hcells⟩ : ∃ s₁ s₂ s₃ : State .int32,
      step none ⟨⟨"a", 2, 0, [(-1, [])], true, false, []⟩, none⟩ (.insertDataMasked [7, 8, 9] [2]) = some s₁ ∧
      step none s₁ (.persistOnlyModified fun _ _ => 0) = some s₂ ∧ step none s₂ (.insertData [5]) = some s₃ ∧
      s₁.column.getBlocksList.length ≤ UINT32_MAX ∧ s₁.files = none ∧ s₃.column.getBlocksList.length ≤ UINT32_MAX ∧
      s₃.files.map (fun files => files.data.length) = some 106 ∧ s₃.column.isUnique = false ∧
      s₃.column.cells = [(7, false), (8, true), (9, false), (5, false)] :=
    ⟨_, _, _, rfl, rfl, rfl, by decide, rfl, by decide, rfl, rfl, by decide⟩
  have hreach₁ : Run.Reach (step none) (WithoutPersist True) ⟨⟨"a", 2, 0, [(-1, [])], true, false, []⟩, none⟩ s₁ :=
    .tail (.insertDataMasked [7, 8, 9] [2]) .refl trivial h₁
  have hsavable : Savable s₁ := ⟨hcount₁, by simp [hfiles₁]⟩
  have hreach := (hreach₁.tail (Op.persistOnlyModified fun _ _ => 0) (fun _ : True => hsavable) h₂).tail
    (Op.insertData [5]) trivial h₃
  have hbytes : ∀ files ∈ s₃.files, files.data.length < 2 ^ 63 := by
    intro files hfiles
    rw [Option.mem_def.1 hfiles] at hbytes₃
    have : files.data.length = 106 := by simpa using hbytes₃
    omega
  obtain ⟨s', hpersist, hagrees⟩ := incremental_save_agrees .int32 none (by norm_num) (created_ok "a" 2 (by simp)) hreach
    ⟨hcount₃, hbytes⟩ (by simp [huniq]) fun _ _ => 0
  exact ⟨s₃, s', hreach, hcells, hpersist, hagrees⟩

/-! ### Past the reserved index -/

/-- with all indices taken, a new block gets the reserved one: it is written, and stays marked as new -/
theorem persistOnlyModified_reserved {s : State t} {es : List (Entry t)} {bs : List (Block t.Elem)} {b : Block t.Elem}
    (hblocks : s.column.blocks = [(-1, bs ++ [b])]) (hfiles : s.onDisk = filesOf s.column.blockSize es)
    (hclean : ∀ b ∈ bs, b.saveNecessary = false) (hcount : indexed bs = UINT32_MAX) (hb : Unsaved b)
    (junk : ℕ → ℕ → UInt8) :
    persistOnlyModified junk s = .ok ⟨s.column, some (filesOf s.column.blockSize
      (es ++ [⟨UINT32_MAX, maskBytes s.column.isNullable (junk bs.length) b, b⟩]))⟩ := by
  have hpersisted : getNumberOfPersistedBlocks (bs ++ [b]) = UINT32_MAX := by
    rw [getNumberOfPersistedBlocks_eq (by simpa using hb) (by rw [hcount]; decide), hcount]
  have hsame : ({ b with index := UINT32_MAX } : Block t.Elem) = b := by rw [← hb.1]
  have hmarked : ({ b with index := UINT32_MAX, saveNecessary := true } : Block t.Elem) = b := by rw [← hb.1, ← hb.2]
  have hstep : persistBlock s.column.blockSize s.column.isNullable (junk bs.length) UINT32_MAX
      (filesOf s.column.blockSize es) b = .ok (filesOf s.column.blockSize
        (es ++ [⟨UINT32_MAX, maskBytes s.column.isNullable (junk bs.length) b, b⟩]), b) := by
    rw [persistBlock, if_neg (by simp [hb.2]), if_pos hb.1, filesOf_append]
    simp only [writeBlockNumericTypes, overwrite_end, decide_true, hmarked]
    rw [hsame]
  refine bind_eq_ok.2 ⟨(filesOf s.column.blockSize
    (es ++ [⟨UINT32_MAX, maskBytes s.column.isNullable (junk bs.length) b, b⟩]), bs ++ [b]), ?_, ?_⟩
  · have hlist : s.column.getBlocksList = bs ++ [b] := by simp [Column.getBlocksList, hblocks]
    change persistBlocks _ _ junk [] s.column.getBlocksList s.onDisk = _
    rw [hlist, hfiles, persistBlocks_clean junk [] bs [b] _ hclean, List.nil_append, persistBlocks, hpersisted, hstep]
    rfl
  · rw [hblocks, regroup_single _ _ rfl, ← hblocks]

/-- rows appended to blocks of one row each -/
theorem insert_ones {s : State t} {bs : List (Block t.Elem)} (hblocks : s.column.blocks = [(-1, bs)])
    (hvalid : s.column.Valid) (hsize : s.column.blockSize = 1) (hone : ∀ b ∈ bs, b.size = 1) (x : t.Elem) {n : ℕ}
    (hn : n < 2 ^ 31) :
    ∃ new size, step none s (.insertData (List.replicate n x)) =
        some ⟨{ s.column with blocks := [(-1, bs ++ new)], size := size }, s.files⟩ ∧
      ({ s.column with blocks := [(-1, bs ++ new)], size := size } : Column t.Elem).Valid ∧
      (∀ b ∈ bs ++ new, b.size = 1) ∧ (∀ b ∈ new, Unsaved b) ∧ new.length = n := by
  have hvalids : ∀ b ∈ bs, b.Valid s.column.blockSize s.column.isNullable := by
    intro b hb
    exact hvalid.blocks b (by simpa [Column.getBlocksList, hblocks] using hb)
  have hgroup : s.column.group (-1) = bs := by simp [Column.group, hblocks]
  obtain ⟨bs', hbs'⟩ := Column.appendRows_total (by rw [hsize]; norm_num) hvalids
    (by simp : ∀ row ∈ (List.replicate n x).map fun x => (x, false), row.2 = false)
  obtain ⟨happ, hvalues⟩ := Column.appended_appendRows (by rw [hsize]; norm_num) hvalids hbs'
  obtain ⟨new, rfl, hnew⟩ : ∃ new, bs' = bs ++ new ∧ ∀ b ∈ new, Column.New s.column.blockSize s.column.isNullable b := by
    cases happ with
    | @behind _ new hfull hnew => exact ⟨new, rfl, hnew⟩
    | @filled init new last last' hroom hgrown hnew =>
      -- a block of one row is full
      have h₁ := hone last (by simp)
      have h₂ := (hvalids last (by simp)).capacity
      simp [Block.isFull, Block.emptyBlockSpace, h₁, h₂, hsize] at hroom
  have hones : ∀ b ∈ bs ++ new, b.size = 1 := by
    intro b hb
    rcases List.mem_append.1 hb with hb | hb
    · exact hone b hb
    · have h₁ := (hnew b hb).rows
      have h₂ := (hnew b hb).valid.size_le
      omega
  refine ⟨new, s.column.size + n, ?_, ⟨hvalid.small, ?_, hvalid.notNull⟩, hones,
    fun b hb => ⟨(hnew b hb).index, (hnew b hb).saveNecessary⟩, ?_⟩
  · have hinsert : s.column.insertData none (List.replicate n x) (-1) true UINT32_MAX =
        .ok { s.column with blocks := [(-1, bs ++ new)], size := s.column.size + n } := by
      have hdefined : ¬ (2 ^ 31 ≤ ((List.replicate n x).map fun x => (x, false)).length ∨ s.column.blockSize = 0) := by
        rw [List.length_map, List.length_replicate, hsize]
        omega
      rw [Column.insertData, Column.insertBatch]
      refine bind_eq_ok.2 ⟨(), rfl, ?_⟩
      rw [if_neg hdefined, hgroup]
      refine bind_eq_ok.2 ⟨bs ++ new, hbs', ?_⟩
      rw [List.length_map, List.length_replicate, Column.setGroup, hblocks]
      simp [Column.putGroup]
    rw [step, hinsert]
    rfl
  · intro b hb
    have hb' : b ∈ bs ++ new := by simpa [Column.getBlocksList] using hb
    rcases List.mem_append.1 hb' with hb' | hb'
    · exact hvalids b hb'
    · exact (hnew b hb').valid
  · have hlen : (Column.values new).length = new.length := by
      have hrows : ∀ b ∈ new, b.rows.length = 1 := by
        intro b hb
        rw [(hnew b hb).valid.rows_length, hones b (List.mem_append_right bs hb)]
      rw [Column.values, List.length_flatMap, List.map_congr_left hrows]
      simp
    have hall := congrArg List.length hvalues
    rw [Column.values_append, List.length_append, List.length_append, hlen] at hall
    simpa using hall

/-- a state reached with blocks of one row each -/
structure Ones (c₀ : Column t.Elem) (s : State t) (bs : List (Block t.Elem)) : Prop where
  reach : Run.Reach (step none) (WithoutPersist False) ⟨c₀, none⟩ s
  blocks : s.column.blocks = [(-1, bs)]
  valid : s.column.Valid
  blockSize : s.column.blockSize = 1
  unique : s.column.isUnique = false
  one : ∀ b ∈ bs, b.size = 1

theorem Ones.insert {c₀ : Column t.Elem} {s : State t} {bs : List (Block t.Elem)} (h : Ones c₀ s bs) (x : t.Elem)
    {n : ℕ} (hn : n < 2 ^ 31) :
    ∃ s' new, Ones c₀ s' (bs ++ new) ∧ s'.files = s.files ∧ s'.column.isNullable = s.column.isNullable ∧
      (∀ b ∈ new, Unsaved b) ∧ new.length = n := by
  obtain ⟨new, size, hs, hvalid, hone, hunsaved, hlength⟩ := insert_ones h.blocks h.valid h.blockSize h.one x hn
  exact ⟨_, new, ⟨h.reach.tail (Op.insertData (List.replicate n x)) trivial hs, rfl, hvalid, h.blockSize, h.unique, hone⟩, rfl, rfl, hunsaved, hlength⟩

/-- a save with the last index taken: the new block is written once more at every save -/
theorem Ones.save_reserved {c₀ : Column t.Elem} {s : State t} {es : List (Entry t)} {bs : List (Block t.Elem)}
    {b : Block t.Elem} (h : Ones c₀ s (bs ++ [b])) (hfiles : s.onDisk = filesOf s.column.blockSize es)
    (hstored : ∀ e ∈ es, e.Stored s.column.blockSize s.column.isNullable)
    (hcells : (es.map fun e => e.block.cells) = bs.map Block.cells) (hclean : ∀ b ∈ bs, b.saveNecessary = false)
    (hcount : indexed bs = UINT32_MAX) (hb : Unsaved b) :
    ∃ s s', Run.Reach (step none) (WithoutPersist False) ⟨c₀, none⟩ s ∧
      persistOnlyModified (fun _ _ => 0) s = .ok s' ∧ ¬ Agrees s' := by
  have hvalid : b.Valid s.column.blockSize s.column.isNullable :=
    h.valid.blocks b (by simp [Column.getBlocksList, h.blocks])
  set e : Entry t := ⟨UINT32_MAX, maskBytes s.column.isNullable (fun _ => 0) b, b⟩ with he
  have hfirst := persistOnlyModified_reserved h.blocks hfiles hclean hcount hb fun _ _ => 0
  have hsecond := @persistOnlyModified_reserved t ⟨s.column, some (filesOf s.column.blockSize (es ++ [e]))⟩ (es ++ [e])
    bs b h.blocks rfl hclean hcount hb fun _ _ => 0
  refine ⟨_, _, h.reach.tail (.persistOnlyModified fun _ _ => 0) False.elim (toOption_eq_some.2 hfirst), hsecond, ?_⟩
  rintro ⟨files, es', hsome, -, -, -, hload⟩
  obtain rfl := Option.some.inj hsome
  obtain ⟨c', hc', hcells'⟩ := hload "a.data" fun _ _ => 0
  have hstored' : ∀ e' ∈ es ++ [e] ++ [e], e'.Stored s.column.blockSize s.column.isNullable := by
    intro e' he'
    simp only [List.append_assoc, List.mem_append, List.mem_singleton] at he'
    rcases he' with he' | rfl | rfl
    · exact hstored e' he'
    all_goals exact stored_entry hvalid (by decide)
  have hcanonical := load_dataFile "a.data" (fun _ _ => 0) s.column.name s.column.isUnique h.valid.small h.valid.notNull
    (es ++ [e] ++ [e]) (filesOf s.column.blockSize (es ++ [e] ++ [e])).adrs hstored' (by simp [h.unique])
  obtain rfl := Except.ok.inj (hc'.symm.trans hcanonical)
  -- the rows of the new block are loaded twice
  simp only [Column.cells, Column.getBlocksList, h.blocks, List.flatMap_cons, List.flatMap_nil, List.append_nil] at hcells'
  rw [List.flatMap_def, List.flatMap_def, cells_reloadAll _ 0 _ hstored', List.map_append, List.map_append, hcells,
    List.map_append, List.flatten_append, List.flatten_append, List.flatten_append] at hcells'
  have hlength := congrArg List.length hcells'
  have hrow : b.cells.length = 1 := by
    rw [Block.cells, List.length_map, List.length_zipIdx, hvalid.rows_length, h.one b (by simp)]
  simp [he, hrow] at hlength

/-- as many blocks as there are indices, and one more -/
theorem save_past_reserved {c₀ : Column t.Elem} (hdisk : OnDisk c₀ ⟨[], []⟩ [] [] []) (hone : c₀.blockSize = 1)
    (hunique : c₀.isUnique = false) (x : t.Elem) {n₁ n₂ n₃ : ℕ} (h₁ : n₁ < 2 ^ 31)
    (h₂ : n₂ < 2 ^ 31) (h₃ : n₃ < 2 ^ 31) (hsum : n₁ + n₂ + n₃ = UINT32_MAX) :
    ∃ s s', Run.Reach (step none) (WithoutPersist False) ⟨c₀, none⟩ s ∧
      persistOnlyModified (fun _ _ => 0) s = .ok s' ∧ ¬ Agrees s' := by
  have hones : Ones c₀ ⟨c₀, none⟩ [] := ⟨.refl, hdisk.blocks, hdisk.valid, hone, hunique, by simp⟩
  obtain ⟨s₁, new₁, hones₁, hf₁, -, hu₁, hl₁⟩ := hones.insert x h₁
  obtain ⟨s₂, new₂, hones₂, hf₂, -, hu₂, hl₂⟩ := hones₁.insert x h₂
  obtain ⟨s₃, new₃, hones₃, hf₃, -, hu₃, hl₃⟩ := hones₂.insert x h₃
  set bs := [] ++ new₁ ++ new₂ ++ new₃ with hbs
  have hunsaved : ∀ b ∈ bs, Unsaved b := by
    intro b hb
    simp only [hbs, List.nil_append, List.append_assoc, List.mem_append] at hb
    rcases hb with hb | hb | hb
    · exact hu₁ b hb
    · exact hu₂ b hb
    · exact hu₃ b hb
  have hlength : bs.length = UINT32_MAX := by
    simp only [hbs, List.nil_append, List.length_append]
    omega
  have hempty : s₃.files.getD ⟨[], []⟩ = ⟨[], []⟩ := by rw [hf₃, hf₂, hf₁]; rfl
  have hdisk₃ : OnDisk s₃.column ⟨[], []⟩ [] [] bs :=
    ⟨hones₃.blocks, hones₃.valid, rfl, by simp, .nil, by simp, hunsaved⟩
  obtain ⟨es, hpersist, hdisk₄, hnum⟩ := persistOnlyModified_ok hempty hdisk₃ (fun _ _ => 0)
    (by rw [List.nil_append]; exact hlength.le) (by norm_num) (by simp [Placed])
  have hnum := hnum ⟨rfl, rfl, Nat.zero_le _⟩
  set bs' := ([] : List (Block t.Elem)).map cleared ++ numbered (indexed []) bs with hbs'
  have hones₄ : Ones c₀ ⟨{ s₃.column with blocks := [(-1, bs')] }, some (filesOf s₃.column.blockSize es)⟩ bs' := by
    refine ⟨hones₃.reach.tail (.persistOnlyModified fun _ _ => 0) False.elim (toOption_eq_some.2 hpersist), rfl,
      hdisk₄.valid, hones₃.blockSize, hones₃.unique, ?_⟩
    intro b hb
    obtain ⟨b', hb', i, rfl⟩ := mem_numbered (by simpa [hbs'] using hb)
    exact hones₃.one b' hb'
  obtain ⟨s₅, new, hones₅, hf₅, hn₅, hu₅, hl₅⟩ := hones₄.insert x (by norm_num : 1 < 2 ^ 31)
  obtain ⟨b, rfl⟩ := List.length_eq_one_iff.1 hl₅
  have hcells := cells_of_belongs hdisk₄.records saved_clean
  refine hones₅.save_reserved ?_ ?_ hcells saved_clean ?_ (hu₅ b (by simp))
  · rw [State.onDisk, hf₅, hones₅.blockSize, hones₃.blockSize]
    rfl
  · rw [hones₅.blockSize, hn₅]
    have := hdisk₄.stored
    rwa [show ({ s₃.column with blocks := [(-1, bs')] } : Column t.Elem).blockSize = 1 from hones₃.blockSize] at this
  · rw [hnum.indexed, hbs', List.map_nil, List.nil_append, length_numbered, hlength]

/-- Without the conditions the files do not stay the column: LoadColumn refuses a UNIQUE column that holds a value
twice, and a block past the reserved index is written anew at every save. -/
theorem incremental_save_disagrees :
    (∃ s s' : State .int32, Run.Reach (step none) (WithoutPersist False)
        ⟨⟨"a", 2, 0, [(-1, [])], false, true, []⟩, none⟩ s ∧
      persistOnlyModified (fun _ _ => 0) s = .ok s' ∧ ¬ Agrees s') ∧
    ∃ s s' : State .int32, Run.Reach (step none) (WithoutPersist False)
        ⟨⟨"a", 1, 0, [(-1, [])], false, false, []⟩, none⟩ s ∧
      persistOnlyModified (fun _ _ => 0) s = .ok s' ∧ ¬ Agrees s' := by
  refine ⟨?_, ?_⟩
  · obtain ⟨s, s', files, hs, hs', hfiles, hload⟩ : ∃ (s s' : State .int32) (files : ColumnFiles),
        step none ⟨⟨"a", 2, 0, [(-1, [])], false, true, []⟩, none⟩ (.insertData [7, 7]) = some s ∧
        persistOnlyModified (fun _ _ => 0) s = .ok s' ∧ s'.files = some files ∧
        loadColumn (t := .int32) "a.data" (fun _ _ => 0) s'.column.name s'.column.blockSize s'.column.isNullable
          s'.column.isUnique files =
          .error (.runtimeError "Loaded column: a.data has UNIQUE constraint and duplicate values: 7") :=
      ⟨_, _, _, rfl, rfl, rfl, rfl⟩
    refine ⟨s, s', .tail (.insertData [7, 7]) .refl trivial hs, hs', ?_⟩
    rintro ⟨files', -, hfiles', -, -, -, hloads⟩
    obtain rfl : files = files' := Option.some.inj (hfiles.symm.trans hfiles')
    obtain ⟨c', hc', -⟩ := hloads "a.data" fun _ _ => 0
    rw [hload] at hc'
    cases hc'
  · have hc : created "a" 1 false false = .ok (⟨"a", 1, 0, [(-1, [])], false, false, []⟩ : Column Int32T) := rfl
    exact save_past_reserved (t := .int32) (inv_start (t := .int32) (by norm_num) hc).1 rfl rfl 7
      (by norm_num : 2 ^ 31 - 1 < 2 ^ 31) (by norm_num : 2 ^ 31 - 1 < 2 ^ 31) (by norm_num : 1 < 2 ^ 31) (by decide)

/-! ## Runs with Persist -/

/-- the blocks that have a record -/
def State.recorded (s : State t) : List (Block t.Elem) := s.column.getBlocksList.take (s.onDisk.adrs.length / 8)

/-- the steps of runs that mix the two saves: a modified block that has a record is found by its index -/
def Mixed (s : State t) : Op t → Prop
  | .persist _ => s.column.getBlocksList.length ≤ UINT32_MAX
  | .persistOnlyModified _ => Savable s ∧ Placed s.recorded
  | _ => True

/-- what all these runs keep -/
def MixedInv (s : State t) : Prop := ∃ es old new, OnDisk s.column s.onDisk es old new

theorem OnDisk.recorded {s : State t} {es : List (Entry t)} {old new : List (Block t.Elem)}
    (h : OnDisk s.column s.onDisk es old new) : s.recorded = old := by
  have hlist : s.column.getBlocksList = old ++ new := by simp [Column.getBlocksList, h.blocks]
  have hcount : s.onDisk.adrs.length / 8 = old.length := by
    rw [h.files, length_adrs, h.records.length_eq]
    omega
  rw [State.recorded, hlist, hcount, List.take_left]

theorem mixedInv_insertBatch {rowsLimit : Option ℕ} {s : State t} (h : MixedInv s) {batch : List (t.Elem × Bool)}
    {c' : Column t.Elem} (hok : s.column.insertBatch rowsLimit batch (-1) true UINT32_MAX = .ok c') :
    MixedInv ⟨c', s.files⟩ := by
  obtain ⟨es, old, new, hdisk⟩ := h
  obtain ⟨bs, happ, -, rfl⟩ := insertBatch_appended hdisk.blocks hdisk.valid hok
  obtain ⟨old', new', hdisk', -⟩ := hdisk.appended (s.column.size + batch.length) happ
  exact ⟨es, old', new', hdisk'⟩

theorem mixedInv_step {rowsLimit : Option ℕ} {s s' : State t} (o : Op t) (h : MixedInv s) (hok : Mixed s o)
    (hs : step rowsLimit s o = some s') : MixedInv s' := by
  cases o with
  | insertData columnData =>
    obtain ⟨c', hc', rfl⟩ := Option.map_eq_some_iff.1 hs
    exact mixedInv_insertBatch h (toOption_eq_some.1 hc')
  | insertDataMasked columnData nullMask =>
    obtain ⟨c', hc', rfl⟩ := Option.map_eq_some_iff.1 hs
    have hc' := toOption_eq_some.1 hc'
    unfold Column.insertDataMasked at hc'
    split_ifs at hc'
    exact mixedInv_insertBatch h hc'
  | persist junk =>
    obtain ⟨es, old, new, hdisk⟩ := h
    obtain rfl := Option.some.inj hs
    have hcount : (old ++ new).length ≤ UINT32_MAX := by
      have : s.column.getBlocksList.length ≤ UINT32_MAX := hok
      rwa [Column.getBlocksList, hdisk.blocks, List.flatMap_cons, List.flatMap_nil, List.append_nil] at this
    obtain ⟨bs, -, -, hdisk', -⟩ := persist_ok hdisk.blocks hdisk.valid junk hcount
    exact ⟨_, bs, [], hdisk'⟩
  | persistOnlyModified junk =>
    obtain ⟨es, old, new, hdisk⟩ := h
    obtain ⟨hsavable, hplaced⟩ := hok
    rw [hdisk.recorded] at hplaced
    have hcount : (old ++ new).length ≤ UINT32_MAX := by
      have := hsavable.count
      rwa [Column.getBlocksList, hdisk.blocks, List.flatMap_cons, List.flatMap_nil, List.append_nil] at this
    obtain ⟨es', hpersist, hdisk', -⟩ := persistOnlyModified_ok rfl hdisk junk hcount hsavable.onDisk hplaced
    obtain rfl := Except.ok.inj (hpersist.symm.trans (toOption_eq_some.1 hs))
    exact ⟨es', _, [], hdisk'⟩
  | restart path fill =>
    obtain ⟨es, old, new, hdisk⟩ := h
    obtain ⟨files, hfiles, hs⟩ := Option.bind_eq_some_iff.1 hs
    obtain ⟨c', hload, hs⟩ := Option.bind_eq_some_iff.1 hs
    obtain rfl := Option.some.inj hs
    have honDisk : s.onDisk = files := by rw [State.onDisk, hfiles]; rfl
    rw [honDisk] at hdisk
    obtain ⟨old', hdisk', -⟩ := hdisk.load (toOption_eq_some.1 hload)
    exact ⟨es, old', [], hdisk'⟩

/-- the last block takes no more rows, or its index is the place of its record -/
def Continued (bs : List (Block t.Elem)) : Prop :=
  ∀ last ∈ bs.getLast?, last.isFull = true ∧ bs.length < UINT32_MAX ∨ last.index + 1 = bs.length

/-- the steps that append rows -/
def Op.isAppend : Op t → Prop
  | .insertData _ => True
  | .insertDataMasked _ _ => True
  | _ => False

theorem append_insertBatch {rowsLimit : Option ℕ} {s s' : State t} {o : Op t} (ho : o.isAppend)
    (hs : step rowsLimit s o = some s') :
    ∃ batch c', s.column.insertBatch rowsLimit batch (-1) true UINT32_MAX = .ok c' ∧ s' = ⟨c', s.files⟩ := by
  cases o with
  | insertData columnData =>
    obtain ⟨c', hc', rfl⟩ := Option.map_eq_some_iff.1 hs
    exact ⟨_, c', toOption_eq_some.1 hc', rfl⟩
  | insertDataMasked columnData nullMask =>
    obtain ⟨c', hc', rfl⟩ := Option.map_eq_some_iff.1 hs
    have hc' := toOption_eq_some.1 hc'
    unfold Column.insertDataMasked at hc'
    split_ifs at hc'
    exact ⟨_, c', hc', rfl⟩
  | persist junk => exact absurd ho id
  | persistOnlyModified junk => exact absurd ho id
  | restart path fill => exact absurd ho id

/-- after Persist and an append, a modified block that has a record is found by its index -/
theorem placed_append {bs old : List (Block t.Elem)} (hcontinued : Continued bs)
    (hindex : old.map Block.index = bs.map Block.index) {bs' : List (Block t.Elem)}
    (hindex' : bs'.map Block.index = bs.map Block.index)
    (hclean : bs.length < UINT32_MAX → ∀ b ∈ bs', b.saveNecessary = false)
    (hfull : bs'.map Block.isFull = bs.map Block.isFull)
    (hold : old = bs' ∨ ∃ last ∈ bs'.getLast?, last.isFull = false) : Placed old := by
  intro last' hlast' hsave
  have hlength : old.length = bs.length := by
    have := congrArg List.length hindex
    simpa using this
  have hlastIndex : (bs.map Block.index).getLast? = some last'.index := by
    rw [← hindex, List.getLast?_map, Option.mem_def.1 hlast']
    rfl
  rw [List.getLast?_map] at hlastIndex
  obtain ⟨last, hlast, hsame⟩ := Option.map_eq_some_iff.1 hlastIndex
  rcases hcontinued last hlast with ⟨hlastFull, hcount⟩ | hplaced
  · -- a full last block was not touched and is not marked
    rcases hold with rfl | ⟨last₁, hlast₁, hroom⟩
    · rw [hclean hcount last' (List.mem_of_getLast? hlast')] at hsave
      cases hsave
    · have hfull₁ : (bs.map Block.isFull).getLast? = some last₁.isFull := by
        rw [← hfull, List.getLast?_map, Option.mem_def.1 hlast₁]
        rfl
      rw [List.getLast?_map, hlast] at hfull₁
      have : last.isFull = last₁.isFull := Option.some.inj hfull₁
      rw [hlastFull, hroom] at this
      cases this
  · rw [← hsame, hplaced, hlength]

theorem cells_entriesFrom (isNullable : Bool) (junk : ℕ → ℕ → UInt8) (k : ℕ) (bs : List (Block t.Elem)) :
    ((entriesFrom isNullable junk k bs).map fun e => e.block.cells) = bs.map Block.cells := by
  induction bs generalizing k with
  | nil => rfl
  | cons b bs ih => simp [entriesFrom, ih]

/-- the rows of a column come back after Persist -/
theorem load_persist {s : State t} (hvalid : s.column.Valid) (hcount : s.column.getBlocksList.length ≤ UINT32_MAX)
    (huniq : s.column.isUnique = true → (Column.values s.column.getBlocksList).Nodup) (junk : ℕ → ℕ → UInt8)
    (path : String) (fill : ℕ → ℕ → BitVec 64) :
    ∃ c', loadColumn path fill s.column.name s.column.blockSize s.column.isNullable s.column.isUnique
      (writeColumn junk s.column) = .ok c' ∧ c'.cells = s.column.cells := by
  have htake : s.column.getBlocksList.take UINT32_MAX = s.column.getBlocksList := List.take_of_length_le hcount
  obtain ⟨c', hload, hblocks⟩ := load_write path fill junk s.column hvalid (by rw [htake]; exact huniq)
  refine ⟨c', hload, ?_⟩
  rw [htake] at hblocks
  have hstored := entriesFrom_stored junk 0 s.column.getBlocksList hvalid.blocks
    (by simp only [UINT32_MAX] at hcount; omega)
  rw [Column.cells, Column.cells, hblocks, List.flatMap_def, List.flatMap_def, cells_reloadAll fill 0 _ hstored,
    cells_entriesFrom]

/-- the number of blocks never shrinks -/
theorem length_appended {blockSize : ℕ} {isNullable : Bool} {bs bs' : List (Block t.Elem)}
    (h : Column.Appended blockSize isNullable bs bs') : bs.length ≤ bs'.length := by
  cases h with
  | behind => simp
  | filled => simp

/-- Persist, append, PersistOnlyModified, load and Persist, append, Persist, load both give the rows in memory, if the
last block takes no more rows or has the index of its place. -/
theorem mixed_save_agrees (t : NumericType) (rowsLimit : Option ℕ) {name : String} {blockSize : ℕ}
    {isNullable isUnique : Bool} {c₀ : Column t.Elem} (hsmall : blockSize < 2 ^ 31)
    (hc : created name blockSize isNullable isUnique = .ok c₀) {s s₂ : State t}
    (h : Run.Reach (step rowsLimit) Mixed ⟨c₀, none⟩ s) (hcontinued : Continued s.column.getBlocksList)
    (junk junk₂ junk₃ : ℕ → ℕ → UInt8) {o : Op t} (ho : o.isAppend)
    (happend : step rowsLimit (persist junk s) o = some s₂)
    (hcount : s₂.column.getBlocksList.length ≤ UINT32_MAX)
    (hbytes : ∀ files ∈ (persist junk s).files, files.data.length < 2 ^ 63)
    (huniq : s₂.column.isUnique = true → (Column.values s₂.column.getBlocksList).Nodup) :
    ∃ s₃ files₃ files₄, persistOnlyModified junk₂ s₂ = .ok s₃ ∧ s₃.files = some files₃ ∧
      (persist junk₃ s₂).files = some files₄ ∧
      ∀ (path : String) (fill : ℕ → ℕ → BitVec 64), ∃ c₃ c₄,
        loadColumn path fill s₂.column.name s₂.column.blockSize s₂.column.isNullable s₂.column.isUnique files₃ = .ok c₃ ∧
        loadColumn path fill s₂.column.name s₂.column.blockSize s₂.column.isNullable s₂.column.isUnique files₄ = .ok c₄ ∧
        c₃.cells = s₂.column.cells ∧ c₄.cells = s₂.column.cells := by
  have hinv : MixedInv s := Run.reach_inv MixedInv ⟨[], [], [], (inv_start hsmall hc).1⟩
    (fun _ o _ hinv hok hs => mixedInv_step o hinv hok hs) h
  obtain ⟨es, old, new, hdisk⟩ := hinv
  have hlist : s.column.getBlocksList = old ++ new := by simp [Column.getBlocksList, hdisk.blocks]
  rw [hlist] at hcontinued
  obtain ⟨batch, c₂, hinsert, rfl⟩ := append_insertBatch ho happend
  -- the append leaves as many blocks at least, so Persist wrote all of them
  obtain ⟨hblocks₁, hvalid₁⟩ := persist_column hdisk.blocks hdisk.valid junk
  obtain ⟨bs₂, happ, -, hc₂⟩ := insertBatch_appended hblocks₁ hvalid₁ hinsert
  have hlist₂ : c₂.getBlocksList = bs₂ := by
    simp [hc₂, Column.getBlocksList, Column.setGroup, hblocks₁, Column.putGroup]
  have hcount₁ : (old ++ new).length ≤ UINT32_MAX := by
    have hle := length_appended happ
    rw [length_writeBlocks, ← hlist₂] at hle
    exact hle.trans hcount
  obtain ⟨bs₁, -, -, hdisk₁, hindex₁, hfull₁, hclean₁⟩ := persist_ok hdisk.blocks hdisk.valid junk hcount₁
  obtain rfl : bs₁ = (writeBlocks s.column.blockSize s.column.isNullable junk 0 0 (old ++ new)).2 := by
    simpa using hdisk₁.blocks.symm.trans hblocks₁
  obtain ⟨old₂, new₂, hdisk₂, hindex₂, rfl, hold⟩ := hdisk₁.appended ((persist junk s).column.size + batch.length)
    (by rw [List.append_nil]; exact happ)
  rw [← hc₂] at hdisk₂
  have hplaced := placed_append hcontinued (hindex₂.trans hindex₁) hindex₁ hclean₁ hfull₁ hold
  have hfile : (persist junk s).onDisk.data.length < 2 ^ 63 := hbytes _ rfl
  obtain ⟨es₃, hpersist, hdisk₃, -⟩ := @persistOnlyModified_ok t ⟨c₂, (persist junk s).files⟩ _ _ _ _ rfl hdisk₂ junk₂
    (by rw [← hlist₂]; exact hcount) hfile hplaced
  refine ⟨_, _, writeColumn junk₃ c₂, hpersist, rfl, rfl, ?_⟩
  intro path fill
  have huniq₃ : c₂.isUnique = true →
      (Column.values (old₂.map cleared ++ numbered (indexed old₂) new₂)).Nodup := by
    intro hu
    rw [values_eq_cells, saved_cells, ← values_eq_cells, ← hlist₂]
    exact huniq hu
  obtain ⟨c₃, hload₃, hcells₃⟩ := hdisk₃.load_cells saved_clean huniq₃ path fill
  obtain ⟨c₄, hload₄, hcells₄⟩ := @load_persist t ⟨c₂, none⟩ hdisk₂.valid hcount huniq junk₃ path fill
  refine ⟨c₃, c₄, hload₃, hload₄, hcells₃.trans ?_, hcells₄⟩
  rw [Column.cells, Column.cells, hlist₂]
  simp only [Column.getBlocksList, List.flatMap_cons, List.flatMap_nil, List.append_nil]
  rw [List.flatMap_def, List.flatMap_def, saved_cells]

/-- a partly filled block that PersistOnlyModified has numbered -/
theorem mixed_save_agrees_numbered :
    ∃ (s s₂ s₃ : State .int32) (files₃ : ColumnFiles) (c₃ : Column NumericType.int32.Elem),
      Run.Reach (step none) Mixed ⟨⟨"a", 2, 0, [(-1, [])], false, false, []⟩, none⟩ s ∧
      step none (persist (fun _ _ => 0) s) (.insertData [8]) = some s₂ ∧
      persistOnlyModified (fun _ _ => 0) s₂ = .ok s₃ ∧ s₃.files = some files₃ ∧
      loadColumn (t := .int32) "a.data" (fun _ _ => 0) s₂.column.name s₂.column.blockSize s₂.column.isNullable
        s₂.column.isUnique files₃ = .ok c₃ ∧ c₃.cells = [(7, false), (8, false)] := by
  obtain ⟨s₀, s, s₂, h₀, h₁, h₂, hcount, hfiles, hplaced, hlast, hcount₂, hbytes, hunique, hcells⟩ :
      ∃ s₀ s s₂ : State .int32,
        step none ⟨⟨"a", 2, 0, [(-1, [])], false, false, []⟩, none⟩ (.insertData [7]) = some s₀ ∧
        step none s₀ (.persistOnlyModified fun _ _ => 0) = some s ∧
        step none (persist (fun _ _ => 0) s) (.insertData [8]) = some s₂ ∧
        s₀.column.getBlocksList.length ≤ UINT32_MAX ∧ s₀.files = none ∧ s₀.recorded = [] ∧
        s.column.getBlocksList.map Block.index = [0] ∧ s₂.column.getBlocksList.length ≤ UINT32_MAX ∧
        (persist (fun _ _ => 0) s).files.map (fun files => files.data.length) = some 53 ∧ s₂.column.isUnique = false ∧
        s₂.column.cells = [(7, false), (8, false)] :=
    ⟨_, _, _, rfl, rfl, rfl, by decide, rfl, rfl, rfl, by decide, rfl, rfl, by decide⟩
  have hsavable : Savable s₀ ∧ Placed s₀.recorded := ⟨⟨hcount, by simp [hfiles]⟩, by simp [hplaced, Placed]⟩
  have hreach₀ : Run.Reach (step none) Mixed ⟨⟨"a", 2, 0, [(-1, [])], false, false, []⟩, none⟩ s₀ :=
    .tail (.insertData [7]) .refl trivial h₀
  have hreach := hreach₀.tail (Op.persistOnlyModified fun _ _ => 0) hsavable h₁
  have hcontinued : Continued s.column.getBlocksList := by
    intro last hmem
    right
    have hindex : (s.column.getBlocksList.map Block.index).getLast? = some last.index := by
      rw [List.getLast?_map, Option.mem_def.1 hmem]
      rfl
    have hlength := congrArg List.length hlast
    rw [hlast] at hindex
    have hzero : last.index = 0 := by simpa using hindex.symm
    rw [hzero]
    simpa using hlength.symm
  have hfile : ∀ files ∈ (persist (fun _ _ => 0) s).files, files.data.length < 2 ^ 63 := by
    intro files hmem
    rw [Option.mem_def.1 hmem] at hbytes
    have : files.data.length = 53 := by simpa using hbytes
    omega
  have happend : (Op.insertData [8] : Op .int32).isAppend := trivial
  obtain ⟨s₃, files₃, files₄, hpersist, hfiles₃, -, hload⟩ := mixed_save_agrees .int32 none (by norm_num)
    (created_ok "a" 2 (by simp)) hreach hcontinued (fun _ _ => 0) (fun _ _ => 0) (fun _ _ => 0)
    happend h₂ hcount₂ hfile (by simp [hunique])
  obtain ⟨c₃, -, hc₃, -, hcells₃, -⟩ := hload "a.data" fun _ _ => 0
  exact ⟨s, s₂, s₃, files₃, c₃, hreach, h₂, hpersist, hfiles₃, hc₃, hcells₃.trans hcells⟩

set_option maxRecDepth 4000 in
/-- Persist leaves the index of a new block reserved, so its next rows are saved as another block. -/
theorem mixed_save_duplicates :
    ∃ (s s₂ s₃ : State .int32) (files₃ : ColumnFiles) (c₃ : Column NumericType.int32.Elem),
      Run.Reach (step none) Mixed ⟨⟨"a", 2, 0, [(-1, [])], false, false, []⟩, none⟩ s ∧
      step none (persist (fun _ _ => 0) s) (.insertData [8]) = some s₂ ∧
      s₂.column.cells = [(7, false), (8, false)] ∧
      persistOnlyModified (fun _ _ => 0) s₂ = .ok s₃ ∧ s₃.files = some files₃ ∧
      loadColumn (t := .int32) "a.data" (fun _ _ => 0) "a" 2 false false files₃ = .ok c₃ ∧
      c₃.cells = [(7, false), (7, false), (8, false)] := by
  obtain ⟨s, s₂, s₃, files₃, c₃, h₁, h₂, hcells, hpersist, hfiles, hload, hcells₃⟩ : ∃ (s s₂ s₃ : State .int32)
      (files₃ : ColumnFiles) (c₃ : Column NumericType.int32.Elem),
      step none ⟨⟨"a", 2, 0, [(-1, [])], false, false, []⟩, none⟩ (.insertData [7]) = some s ∧
      step none (persist (fun _ _ => 0) s) (.insertData [8]) = some s₂ ∧
      s₂.column.cells = [(7, false), (8, false)] ∧
      persistOnlyModified (fun _ _ => 0) s₂ = .ok s₃ ∧ s₃.files = some files₃ ∧
      loadColumn (t := .int32) "a.data" (fun _ _ => 0) "a" 2 false false files₃ = .ok c₃ ∧
      c₃.cells = [(7, false), (7, false), (8, false)] :=
    ⟨_, _, _, _, _, rfl, rfl, by decide, rfl, rfl, rfl, by decide +kernel⟩
  exact ⟨s, s₂, s₃, files₃, c₃, .tail (.insertData [7]) .refl trivial h₁, h₂, hcells, hpersist, hfiles, hload, hcells₃⟩

end QikkDB.Incremental

/-
The row counter of a column and the row counters of its blocks (ColumnBase.h, Database::LoadColumn), for columns of
every element type. The column counts rows in the functions that take them, the blocks in setBlockStatistics, and some
paths do only one of the two:
- AddBlock and InsertData with a false flag leave the statistics of new blocks, and with them their counter, to a later
  call (InsertData passes its saveNecessary there by mistake);
- InsertDataOnSpecificPosition and ResizeColumn count a row that a full block then refuses;
- CopyDataToColumn takes the blocks out of its source and leaves the source's counter;
- LoadColumn of string, point and polygon columns fills blocks without counting.

`Reached checked` are the columns reached by these functions, with the conditions that avoid the cases above if
`checked`. LoadColumn is taken from its records on; `loadColumn_records` and `loadStrings_records` connect that to the
readers of the numeric and string files.

- `row_counts_agree`: under the conditions the counters agree in every column reached.
-/
import Mathlib.Tactic
import QikkDB.Core.Column
import QikkDB.Core.Resize
import QikkDB.Storage.Record
import QikkDB.Storage.NumericFormat
import QikkDB.Storage.StringFormat

namespace QikkDB.RowCount

open NullValues Storage

/-! ## Blocks -/

section Blocks

variable {α : Type} [Element α]

/-- the rows of a block are in its array and the array within the block size -/
structure Fits (blockSize : ℕ) (b : Block α) : Prop where
  capacity : b.capacity = blockSize
  stored : b.size ≤ b.data.length
  room : b.data.length ≤ blockSize

variable {blockSize : ℕ} {b b' : Block α}

omit [Element α] in
theorem Fits.of_store (h : Fits blockSize b) (hs : Block.SameStore b' b) (hsize : b'.size ≤ b'.data.length) :
    Fits blockSize b' :=
  ⟨hs.capacity.trans h.capacity, hsize, hs.data ▸ h.room⟩

theorem fits_empty (isNullable saveNecessary : Bool) (index : ℕ) :
    Fits blockSize (Block.empty blockSize isNullable saveNecessary index : Block α) :=
  ⟨rfl, Nat.zero_le _, Block.length_newArray_le blockSize⟩

/-- rows counted behind the old ones -/
theorem fits_setBlockStatistics (h : Fits blockSize b) (n : ℕ) (hn : b.size + n ≤ b.data.length) :
    Fits blockSize (b.setBlockStatistics n b.size) ∧ (b.setBlockStatistics n b.size).size = b.size + n := by
  have hs := Block.setBlockStatistics_store b n b.size
  have hsize := Block.setBlockStatistics_size b n b.size hn
  exact ⟨h.of_store hs (by rw [hsize, hs.data]; exact hn), hsize⟩

theorem fits_ofData {data : List α} {isNullable count saveNecessary : Bool} {index : ℕ}
    (h : Block.ofData blockSize data isNullable count saveNecessary index = .ok b) :
    Fits blockSize b ∧ b.size = if count then data.length else 0 := by
  simp only [Block.ofData] at h
  by_cases hfit : blockSize < data.length
  · simp [hfit] at h
  rw [if_neg hfit] at h
  have hroom : (data ++ (Block.newArray α blockSize).drop data.length).length ≤ blockSize := by
    have := Block.length_newArray_le (α := α) blockSize
    rw [List.length_append, List.length_drop]
    omega
  have hfits : Fits blockSize { (Block.empty blockSize isNullable saveNecessary index : Block α) with
      data := data ++ (Block.newArray α blockSize).drop data.length } := ⟨rfl, Nat.zero_le _, hroom⟩
  cases count with
  | false =>
    obtain rfl := Except.ok.inj h
    exact ⟨hfits, rfl⟩
  | true =>
    obtain rfl := Except.ok.inj h
    obtain ⟨hf, hs⟩ := fits_setBlockStatistics hfits data.length (by simp [Block.empty])
    exact ⟨hf, hs.trans (by simp [Block.empty])⟩

theorem fits_ofArray {data : List α} {dataSize allocationSize index : ℕ} {isNullable count saveNecessary : Bool}
    (hroom : data.length ≤ allocationSize)
    (h : Block.ofArray blockSize data dataSize allocationSize isNullable count saveNecessary index = .ok b) :
    Fits blockSize b ∧ b.size = if count then dataSize else 0 := by
  simp only [Block.ofArray] at h
  by_cases halloc : allocationSize = blockSize
  swap
  · simp [halloc] at h
  by_cases hdata : blockSize < dataSize ∨ data.length < dataSize
  · rcases hdata with hdata | hdata <;> simp [halloc, hdata] at h
    split_ifs at h
  rw [not_or] at hdata
  rw [if_neg (not_not.2 halloc), if_neg hdata.1, if_neg hdata.2] at h
  have hfits : Fits blockSize { (Block.empty blockSize isNullable saveNecessary index : Block α) with data := data } :=
    ⟨rfl, Nat.zero_le _, halloc ▸ hroom⟩
  cases count with
  | false =>
    obtain rfl := Except.ok.inj h
    exact ⟨hfits, rfl⟩
  | true =>
    obtain rfl := Except.ok.inj h
    obtain ⟨hf, hs⟩ := fits_setBlockStatistics hfits dataSize (by simp only [Block.empty]; omega)
    exact ⟨hf, hs.trans (by simp [Block.empty])⟩

/-- a block that takes an array over and does not count it -/
theorem ofArray_data {data : List α} {dataSize allocationSize index : ℕ} {isNullable saveNecessary : Bool}
    (h : Block.ofArray blockSize data dataSize allocationSize isNullable false saveNecessary index = .ok b) :
    b.data = data := by
  simp only [Block.ofArray, Bool.false_eq_true, ↓reduceIte] at h
  split_ifs at h
  obtain rfl := Except.ok.inj h
  rfl

theorem fits_insertData (h : Fits blockSize b) {data : List α} {saveNecessary : Bool}
    (hok : b.insertData data saveNecessary = .ok b') : Fits blockSize b' ∧ b'.size = b.size + data.length := by
  unfold Block.insertData at hok
  split_ifs at hok with hfit
  obtain rfl := Except.ok.inj hok
  have hstored := h.stored
  have hroom := h.room
  have hcapacity := h.capacity
  have hrows : b.rows.length = b.size := by
    rw [Block.rows, List.length_take]
    omega
  rw [Block.emptyBlockSpace] at hfit
  have hwritten : Fits blockSize { b with data := b.rows ++ data ++ b.data.drop (b.size + data.length) } := by
    refine ⟨h.capacity, ?_, ?_⟩
    · simp only [List.length_append, hrows]
      omega
    · simp only [List.length_append, hrows, List.length_drop]
      omega
  obtain ⟨hf, hs⟩ := fits_setBlockStatistics hwritten data.length (by simp only [List.length_append, hrows]; omega)
  exact ⟨⟨hf.capacity, hf.stored, hf.room⟩, hs⟩

theorem fits_insertDataInterval (h : Fits blockSize b) {newData : List α} {offset length : ℕ} {saveNecessary : Bool}
    (hok : b.insertDataInterval newData offset length saveNecessary = .ok b') :
    Fits blockSize b' ∧ b'.size = b.size + length := by
  have hlen : ((newData.drop offset).take length).length = length := by
    simp only [Block.insertDataInterval] at hok
    split_ifs at hok with hfit hshort
    have : ((newData.drop offset).take length).length ≤ length := List.length_take_le ..
    omega
  obtain ⟨hf, hs⟩ := fits_insertData h (Block.insertDataInterval_eq hok)
  exact ⟨hf, by rw [hs, hlen]⟩

/-- a value put at any position that the array reaches -/
theorem fits_insertDataOnSpecificPosition (h : Fits blockSize b) {index : ℕ} {data : α}
    {isNullValue saveNecessary : Bool}
    (hok : b.insertDataOnSpecificPosition index data isNullValue saveNecessary = .ok b') :
    Fits blockSize b' ∧ b'.size = b.size + 1 := by
  unfold Block.insertDataOnSpecificPosition at hok
  split_ifs at hok with hfull hdefined
  obtain ⟨m, -, hok⟩ := bind_eq_ok.1 hok
  obtain rfl := Except.ok.inj hok
  rw [not_or] at hdefined
  have hstored := h.stored
  have hroom := h.room
  have hcapacity := h.capacity
  have hspace : b.size < b.capacity := by
    rw [Block.emptyBlockSpace] at hfull
    omega
  set w : Block α := { b with data := b.putData index data, bitMask := m } with hw
  have hs := Block.updateBlockStatistics_store w data isNullValue
  have hsize : (w.updateBlockStatistics data isNullValue).size = b.size + 1 := Block.updateBlockStatistics_size w data _
  have hlen : b.size + 1 ≤ w.data.length ∧ w.data.length ≤ blockSize := by
    simp only [hw, Block.putData]
    split_ifs
    all_goals
      simp only [List.length_append, List.length_cons, List.length_take, List.length_drop]
      omega
  exact ⟨⟨hs.capacity.trans h.capacity, by simpa only [hsize, hs.data] using hlen.1,
    by simpa only [hs.data] using hlen.2⟩, hsize⟩

theorem fits_moveNullBitmask (h : Fits blockSize b) (m : Mask) :
    Fits blockSize (b.moveNullBitmask m) ∧ (b.moveNullBitmask m).size = b.size := by
  obtain ⟨hdata, hsize, hcapacity, -⟩ := Block.moveNullBitmask_store b m
  exact ⟨⟨hcapacity.trans h.capacity, by rw [hdata, hsize]; exact h.stored, hdata ▸ h.room⟩, hsize⟩

theorem fits_setNullBitmask (h : Fits blockSize b) {m : Mask} (hok : b.setNullBitmask m = .ok b') :
    Fits blockSize b' ∧ b'.size = b.size := by
  unfold Block.setNullBitmask at hok
  split at hok
  · obtain rfl := Except.ok.inj hok
    exact ⟨h, rfl⟩
  · split_ifs at hok
    obtain rfl := Except.ok.inj hok
    rename_i mask _ _
    set w : Block α := { b with bitMask := some (m ++ mask.drop m.length) } with hw
    have hs := Block.setBlockStatistics_store w 0 0
    have hsize : (w.setBlockStatistics 0 0).size = b.size := Block.setBlockStatistics_size w 0 0 (Nat.zero_le _)
    exact ⟨⟨hs.capacity.trans h.capacity, by rw [hsize, hs.data]; exact h.stored, hs.data ▸ h.room⟩, hsize⟩

omit [Element α] in
theorem fits_setNullBits (h : Fits blockSize b) {start : ℕ} {bits : List Bool}
    (hok : Column.setNullBits b start bits = .ok b') : Fits blockSize b' ∧ b'.size = b.size ∧ b'.data = b.data := by
  induction bits generalizing b start with
  | nil =>
    obtain rfl := Except.ok.inj hok
    exact ⟨h, rfl, rfl⟩
  | cons bit bits ih =>
    cases bit with
    | false => exact ih h hok
    | true =>
      simp only [Column.setNullBits, ↓reduceIte] at hok
      obtain ⟨b₁, h₁, hok⟩ := bind_eq_ok.1 hok
      unfold Block.setNullBit at h₁
      split at h₁
      · exact absurd h₁ (by simp)
      · rename_i mask _
        obtain rfl := Except.ok.inj h₁
        exact ih (b := { b with bitMask := some (setBit mask start true) }) ⟨h.capacity, h.stored, h.room⟩ hok

end Blocks

/-! ## Columns -/

section Columns

variable {α : Type}

/-- the row counter of a column agrees with those of its blocks -/
structure Counted (c : Column α) : Prop where
  sorted : c.Sorted
  fits : ∀ b ∈ c.getBlocksList, Fits c.blockSize b
  size : c.size = (c.getBlocksList.map Block.size).sum

/-- rows in a list of blocks -/
def rowsIn (bs : List (Block α)) : ℕ := (bs.map Block.size).sum

theorem rowsIn_append (bs bs' : List (Block α)) : rowsIn (bs ++ bs') = rowsIn bs + rowsIn bs' := by
  simp [rowsIn]

variable {c : Column α}

/-- a group stored anew, with the column's counter moved by as much as the group's rows -/
theorem Counted.setGroup (h : Counted c) (groupId : ℤ) (size : ℕ) {bs : List (Block α)}
    (hfits : ∀ b ∈ bs, Fits c.blockSize b) (hsize : size + rowsIn (c.group groupId) = c.size + rowsIn bs) :
    Counted { c.setGroup groupId bs with size := size } := by
  refine ⟨Column.sorted_setGroup h.sorted groupId bs, ?_, ?_⟩
  · intro b hb
    rcases Column.mem_setGroup hb with hb | hb
    · exact hfits b hb
    · exact h.fits b hb
  · have hsum := Column.sum_setGroup h.sorted Block.size groupId bs
    have hold := h.size
    simp only [rowsIn] at hsize
    change size = ((c.setGroup groupId bs).getBlocksList.map Block.size).sum
    omega

theorem Counted.group (h : Counted c) (groupId : ℤ) : ∀ b ∈ c.group groupId, Fits c.blockSize b :=
  fun b hb => h.fits b (Column.mem_group hb)

/-- a block appended to a group, its rows counted -/
theorem Counted.append (h : Counted c) (groupId : ℤ) (size : ℕ) {b : Block α} (hb : Fits c.blockSize b)
    (hsize : size = c.size + b.size) : Counted { c.setGroup groupId (c.group groupId ++ [b]) with size := size } := by
  apply h.setGroup
  · intro b' hb'
    rcases List.mem_append.1 hb' with hb' | hb'
    · exact h.group groupId b' hb'
    · obtain rfl := List.mem_singleton.1 hb'
      exact hb
  · simp only [rowsIn, List.map_append, List.sum_append, List.map_cons, List.map_nil, List.sum_cons, List.sum_nil]
    omega

/-- entering a key without blocks -/
theorem Counted.enterKey (h : Counted c) (groupId : ℤ) : Counted (c.setGroup groupId (c.group groupId)) :=
  h.setGroup groupId _ (h.group groupId) rfl

variable [Element α]

theorem counted_addBlock (h : Counted c) (groupId : ℤ) (saveNecessary : Bool) (index : ℕ) :
    Counted (c.addBlock groupId saveNecessary index) :=
  h.append groupId _ (fits_empty c.isNullable saveNecessary index) rfl

theorem counted_addBlockData (h : Counted c) {data : List α} {groupId : ℤ} {count saveNecessary : Bool} {index : ℕ}
    (hcount : count = true ∨ data = []) : Counted (c.addBlockData data groupId count saveNecessary index).1 := by
  unfold Column.addBlockData
  split
  · exact h.enterKey groupId
  · rename_i b hb
    obtain ⟨hfits, hsize⟩ := fits_ofData hb
    apply h.append groupId _ hfits
    rcases hcount with rfl | rfl
    · rw [hsize, if_pos rfl]
    · simp [hsize]

theorem counted_addBlockArray (h : Counted c) {data : List α} {dataSize allocationSize : ℕ} {groupId : ℤ}
    {count saveNecessary : Bool} {index : ℕ} (hroom : data.length ≤ allocationSize)
    (hcount : count = true ∨ dataSize = 0) :
    Counted (c.addBlockArray data dataSize allocationSize groupId count saveNecessary index).1 := by
  unfold Column.addBlockArray
  split
  · exact h.enterKey groupId
  · rename_i b hb
    obtain ⟨hfits, hsize⟩ := fits_ofArray hroom hb
    apply h.append groupId _ hfits
    rcases hcount with rfl | rfl
    · rw [hsize, if_pos rfl]
    · simp [hsize]

/-! ### InsertData -/

variable {blockSize : ℕ} {isNullable saveNecessary : Bool} {index : ℕ}

theorem fits_newChunk {chunk : List (α × Bool)} {b : Block α}
    (hok : Column.newChunk blockSize isNullable true index chunk = .ok b) : Fits blockSize b ∧ b.size = chunk.length := by
  obtain ⟨b₁, h₁, hok⟩ := bind_eq_ok.1 hok
  obtain ⟨hfits, hsize⟩ := fits_ofData h₁
  obtain ⟨hf, hs, -⟩ := fits_setNullBits hfits hok
  exact ⟨hf, by rw [hs, hsize]; simp⟩

/-- the new blocks of a batch hold its rows -/
theorem fits_newChunks {chunks : List (List (α × Bool))} {bs : List (Block α)}
    (hok : chunks.mapM (Column.newChunk blockSize isNullable true index) = .ok bs) :
    (∀ b ∈ bs, Fits blockSize b) ∧ rowsIn bs = chunks.flatten.length := by
  induction chunks generalizing bs with
  | nil =>
    obtain rfl : bs = [] := by simpa [pure, Except.pure, eq_comm] using hok
    simp [rowsIn]
  | cons chunk chunks ih =>
    rw [List.mapM_cons] at hok
    obtain ⟨b, hb, hok⟩ := bind_eq_ok.1 hok
    obtain ⟨bs', hbs', hok⟩ := bind_eq_ok.1 hok
    obtain rfl := Except.ok.inj hok
    obtain ⟨hfits, hsize⟩ := fits_newChunk hb
    obtain ⟨hrest, hrows⟩ := ih hbs'
    simp only [rowsIn] at hrows
    refine ⟨?_, by simp [rowsIn, hsize, hrows]⟩
    intro b' hb'
    rcases List.mem_cons.1 hb' with rfl | hb'
    · exact hfits
    · exact hrest b' hb'

/-- no new block is needed, or new blocks are counted -/
def Counts (saveNecessary : Bool) (bs : List (Block α)) (count : ℕ) : Prop :=
  saveNecessary = true ∨ count = 0 ∨ ∃ last ∈ bs.getLast?, count ≤ last.emptyBlockSpace

/-- the chunks of a batch as new blocks -/
theorem fits_chunks (hpos : 0 < blockSize) {batch : List (α × Bool)} {bs : List (Block α)}
    (hsave : saveNecessary = true ∨ batch = [])
    (hok : (Chunks.chunks blockSize batch).mapM (Column.newChunk blockSize isNullable saveNecessary index) = .ok bs) :
    (∀ b ∈ bs, Fits blockSize b) ∧ rowsIn bs = batch.length := by
  rcases hsave with rfl | rfl
  · obtain ⟨hfits, hrows⟩ := fits_newChunks hok
    exact ⟨hfits, by rw [hrows, Chunks.flatten_chunks hpos]⟩
  · obtain rfl : bs = [] := by simpa [Chunks.chunks_nil, pure, Except.pure, eq_comm] using hok
    simp [rowsIn]

/-- the blocks of a group after InsertData -/
theorem fits_appendRows (hpos : 0 < blockSize) {bs bs' : List (Block α)} (hbs : ∀ b ∈ bs, Fits blockSize b)
    {batch : List (α × Bool)} (hsave : Counts saveNecessary bs batch.length)
    (hok : Column.appendRows blockSize isNullable saveNecessary index bs batch = .ok bs') :
    (∀ b ∈ bs', Fits blockSize b) ∧ rowsIn bs' = rowsIn bs + batch.length := by
  unfold Column.appendRows at hok
  split at hok
  · rename_i hlast
    obtain rfl : bs = [] := List.getLast?_eq_none_iff.1 hlast
    have hsave' : saveNecessary = true ∨ batch = [] := by
      rcases hsave with h | h | ⟨last, h, -⟩
      · exact Or.inl h
      · exact Or.inr (List.length_eq_zero_iff.1 h)
      · simp at h
    obtain ⟨hfits, hrows⟩ := fits_chunks hpos hsave' hok
    exact ⟨hfits, by rw [hrows]; simp [rowsIn]⟩
  · rename_i last hlast
    have hsplit : bs = bs.dropLast ++ [last] := (List.dropLast_append_getLast? last hlast).symm
    have hlastFits : Fits blockSize last := hbs last (List.mem_of_getLast? hlast)
    have hinit : ∀ b ∈ bs.dropLast, Fits blockSize b := fun b hb => hbs b (List.dropLast_subset bs hb)
    have hrowsIn : rowsIn bs = rowsIn bs.dropLast + last.size := by
      rw [hsplit, rowsIn_append, ← hsplit]
      simp [rowsIn]
    split_ifs at hok with hfull hfit
    · obtain ⟨new, hnew, hok⟩ := bind_eq_ok.1 hok
      obtain rfl := Except.ok.inj hok
      have hsave' : saveNecessary = true ∨ batch = [] := by
        rcases hsave with h | h | ⟨last', h, hle⟩
        · exact Or.inl h
        · exact Or.inr (List.length_eq_zero_iff.1 h)
        · obtain rfl : last = last' := Option.some.inj (hlast.symm.trans h)
          have : last.emptyBlockSpace = 0 := by simpa [Block.isFull] using hfull
          exact Or.inr (List.length_eq_zero_iff.1 (by omega))
      obtain ⟨hfits, hrows⟩ := fits_chunks hpos hsave' hnew
      refine ⟨?_, by rw [rowsIn_append, hrows]⟩
      intro b hb
      rcases List.mem_append.1 hb with hb | hb
      · exact hbs b hb
      · exact hfits b hb
    · obtain ⟨b, hb, hok⟩ := bind_eq_ok.1 hok
      obtain rfl := Except.ok.inj hok
      obtain ⟨b₁, h₁, hb⟩ := bind_eq_ok.1 hb
      obtain ⟨hf₁, hs₁, -⟩ := fits_setNullBits hlastFits h₁
      obtain ⟨hf, hs⟩ := fits_insertData hf₁ hb
      refine ⟨?_, ?_⟩
      · intro b' hb'
        rcases List.mem_append.1 hb' with hb' | hb'
        · exact hinit b' hb'
        · obtain rfl := List.mem_singleton.1 hb'
          exact hf
      · rw [rowsIn_append, hrowsIn]
        simp [rowsIn, hs, hs₁]
        omega
    · obtain ⟨b, hb, hok⟩ := bind_eq_ok.1 hok
      obtain ⟨new, hnew, hok⟩ := bind_eq_ok.1 hok
      obtain rfl := Except.ok.inj hok
      obtain ⟨b₁, h₁, hb⟩ := bind_eq_ok.1 hb
      obtain ⟨hf₁, hs₁⟩ := fits_insertData hlastFits h₁
      obtain ⟨hf, hs, -⟩ := fits_setNullBits hf₁ hb
      have hsave' : saveNecessary = true := by
        rcases hsave with h | h | ⟨last', h, hle⟩
        · exact h
        · omega
        · obtain rfl : last = last' := Option.some.inj (hlast.symm.trans h)
          omega
      obtain ⟨hfits, hrows⟩ := fits_chunks hpos (Or.inl hsave') hnew
      refine ⟨?_, ?_⟩
      · intro b' hb'
        rcases List.mem_append.1 hb' with hb' | hb'
        · exact hinit b' hb'
        · rcases List.mem_cons.1 hb' with rfl | hb'
          · exact hf
          · exact hfits b' hb'
      · have hcons : rowsIn (b :: new) = b.size + rowsIn new := by simp [rowsIn]
        rw [rowsIn_append, hcons, hrows, hrowsIn, hs, hs₁, List.length_map, List.length_take, List.length_drop]
        omega

theorem counted_insertBatch (h : Counted c) {rowsLimit : Option ℕ} {batch : List (α × Bool)} {groupId : ℤ}
    {c' : Column α} (hsave : Counts saveNecessary (c.group groupId) batch.length)
    (hok : c.insertBatch rowsLimit batch groupId saveNecessary index = .ok c') : Counted c' := by
  obtain ⟨-, -, hok⟩ := bind_eq_ok.1 hok
  split_ifs at hok with hundefined
  obtain ⟨bs, hbs, hok⟩ := bind_eq_ok.1 hok
  obtain rfl := Except.ok.inj hok
  rw [not_or] at hundefined
  obtain ⟨hfits, hrows⟩ := fits_appendRows (Nat.pos_of_ne_zero hundefined.2) (h.group groupId) hsave hbs
  exact h.setGroup groupId _ hfits (by rw [hrows]; omega)

/-! ### InsertDataOnSpecificPosition -/

theorem fits_blockSplit {b : Block α} (hb : Fits c.blockSize b) {halves : Block α × Block α}
    (hok : c.blockSplit b = .ok halves) :
    Fits c.blockSize halves.1 ∧ Fits c.blockSize halves.2 ∧ halves.1.size + halves.2.size = b.size := by
  obtain ⟨block1, h₁, hok⟩ := bind_eq_ok.1 hok
  obtain ⟨block2, h₂, hok⟩ := bind_eq_ok.1 hok
  obtain ⟨hf₁, hs₁⟩ := fits_ofData h₁
  obtain ⟨hf₂, hs₂⟩ := fits_ofData h₂
  have hlen : b.rows.length = b.size := by
    have := hb.stored
    rw [Block.rows, List.length_take]
    omega
  rw [if_pos rfl, List.length_take] at hs₁
  rw [if_pos rfl, List.length_drop] at hs₂
  have hsum : block1.size + block2.size = b.size := by omega
  split at hok
  · obtain rfl := Except.ok.inj hok
    exact ⟨⟨hf₁.capacity, hf₁.stored, hf₁.room⟩, ⟨hf₂.capacity, hf₂.stored, hf₂.room⟩, hsum⟩
  · exact absurd hok (by simp)
  · obtain rfl := Except.ok.inj hok
    exact ⟨hf₁, hf₂, hsum⟩

theorem fits_insertIntoBlocks {bs bs' : List (Block α)} (hbs : ∀ b ∈ bs, Fits c.blockSize b)
    {indexBlock indexInBlock : ℕ} {columnData : α} {groupId : ℤ} {isNullValue : Bool}
    (hok : c.insertIntoBlocks bs indexBlock indexInBlock columnData groupId isNullValue = .ok bs') :
    (∀ b ∈ bs', Fits c.blockSize b) ∧ rowsIn bs' = rowsIn bs + 1 := by
  unfold Column.insertIntoBlocks at hok
  split at hok
  · exact absurd hok (by simp)
  · rename_i block hblock
    obtain ⟨block', hins, hok⟩ := bind_eq_ok.1 hok
    obtain ⟨hlt, hget⟩ := List.getElem?_eq_some_iff.1 hblock
    have hsplit : bs = bs.take indexBlock ++ block :: bs.drop (indexBlock + 1) := by
      rw [← hget]
      simp
    have hrows : rowsIn bs = rowsIn (bs.take indexBlock) + (block.size + rowsIn (bs.drop (indexBlock + 1))) := by
      have hcons : rowsIn (block :: bs.drop (indexBlock + 1)) = block.size + rowsIn (bs.drop (indexBlock + 1)) := by
        simp [rowsIn]
      rw [← hcons, ← rowsIn_append, ← hsplit]
    obtain ⟨hfits, hsize⟩ := fits_insertDataOnSpecificPosition (hbs block (List.mem_of_getElem? hblock)) hins
    have hothers : ∀ b, b ∈ bs.take indexBlock ∨ b ∈ bs.drop (indexBlock + 1) → Fits c.blockSize b := by
      rintro b (hb | hb)
      · exact hbs b (List.mem_of_mem_take hb)
      · exact hbs b (List.mem_of_mem_drop hb)
    split_ifs at hok with hfull hgroup
    · obtain ⟨halves, hhalves, hok⟩ := bind_eq_ok.1 hok
      obtain rfl := Except.ok.inj hok
      obtain ⟨hf₁, hf₂, hsum⟩ := fits_blockSplit hfits hhalves
      refine ⟨?_, ?_⟩
      · intro b hb
        simp only [List.mem_append, List.mem_cons] at hb
        rcases hb with hb | rfl | rfl | hb
        · exact hothers b (Or.inl hb)
        · exact hf₁
        · exact hf₂
        · exact hothers b (Or.inr hb)
      · rw [hrows, rowsIn_append]
        simp only [rowsIn, List.map_cons, List.sum_cons]
        omega
    · obtain rfl := Except.ok.inj hok
      refine ⟨?_, ?_⟩
      · intro b hb
        simp only [List.mem_append, List.mem_cons] at hb
        rcases hb with hb | rfl | hb
        · exact hothers b (Or.inl hb)
        · exact hfits
        · exact hothers b (Or.inr hb)
      · rw [hrows, rowsIn_append]
        simp only [rowsIn, List.map_cons, List.sum_cons]
        omega

/-- a block with room refuses a value only where the position is not defined -/
theorem insertDataOnSpecificPosition_error {b : Block α} {indexInBlock : ℕ} {data : α} {isNullValue : Bool} {e : Fault}
    (hroom : b.isFull = false)
    (herror : b.insertDataOnSpecificPosition indexInBlock data isNullValue true = .error e) : e = .undefined := by
  have hspace : b.emptyBlockSpace ≠ 0 := by simpa [Block.isFull] using hroom
  rw [Block.insertDataOnSpecificPosition, if_neg hspace] at herror
  split_ifs at herror with hdefined
  · exact (Except.error.inj herror).symm
  · cases hput : b.putBit indexInBlock isNullValue with
    | ok m => simp [hput, bind, Except.bind] at herror
    | error e' =>
      obtain rfl : e' = e := by simpa [hput, bind, Except.bind] using herror
      unfold Block.putBit at hput
      split at hput
      · split_ifs at hput
        exact (Except.error.inj hput).symm
      · split_ifs at hput

theorem insertIntoBlocks_error {bs : List (Block α)} (hbs : ∀ b ∈ bs, Fits c.blockSize b) {indexBlock indexInBlock : ℕ}
    {columnData : α} {groupId : ℤ} {isNullValue : Bool} {e : Fault}
    (hroom : ∀ b ∈ bs[indexBlock]?, b.isFull = false)
    (herror : c.insertIntoBlocks bs indexBlock indexInBlock columnData groupId isNullValue = .error e) :
    e = .undefined := by
  unfold Column.insertIntoBlocks at herror
  split at herror
  · exact (Except.error.inj herror).symm
  · rename_i block hblock
    cases hins : block.insertDataOnSpecificPosition indexInBlock columnData isNullValue true with
    | error e' =>
      rw [hins] at herror
      obtain rfl : e' = e := Except.error.inj herror
      exact insertDataOnSpecificPosition_error (hroom block hblock) hins
    | ok block' =>
      obtain ⟨hfits, -⟩ := fits_insertDataOnSpecificPosition (hbs block (List.mem_of_getElem? hblock)) hins
      simp only [hins, bind, Except.bind] at herror
      split_ifs at herror
      · -- the halves fit, so a split fails only for want of a mask
        have hlen : block'.rows.length ≤ c.blockSize := by
          have := hfits.stored.trans hfits.room
          rw [Block.rows, List.length_take]
          omega
        obtain ⟨block1, h₁, -⟩ := @Block.ofData_ok _ _ c.blockSize block'.isNullable
          (block'.rows.take (block'.size / 2)) true UINT32_MAX (by rw [List.length_take]; omega)
        obtain ⟨block2, h₂, -⟩ := @Block.ofData_ok _ _ c.blockSize block'.isNullable
          (block'.rows.drop (block'.size / 2)) true UINT32_MAX (by rw [List.length_drop]; omega)
        simp only [Column.blockSplit, h₁, h₂, bind, Except.bind] at herror
        split at herror
        · rename_i herror'
          obtain rfl := Except.error.inj herror
          split at herror' <;> simp_all
        · exact absurd herror (by simp)
      · exact (Except.error.inj herror).symm

/-- the column with the group, and a first block if it has none -/
def prepared (c : Column α) (groupId : ℤ) : Column α :=
  let c := c.setGroup groupId (c.group groupId)
  if (c.group groupId).isEmpty then c.addBlock (-1) true UINT32_MAX else c

theorem counted_prepared (h : Counted c) (groupId : ℤ) : Counted (prepared c groupId) := by
  simp only [prepared]
  split_ifs
  · exact counted_addBlock (h.enterKey groupId) (-1) true UINT32_MAX
  · exact h.enterKey groupId

/-- the block that takes the value has room if the group's has, or is the first one -/
theorem prepared_room {groupId : ℤ} {indexBlock : ℕ} (hpos : 0 < c.blockSize)
    (hroom : ∀ b ∈ (c.group groupId)[indexBlock]?, b.isFull = false) :
    ∀ b ∈ ((prepared c groupId).group groupId)[indexBlock]?, b.isFull = false := by
  intro b hb
  simp only [prepared, Column.group_setGroup] at hb
  split_ifs at hb with hempty
  · have hnil : c.group groupId = [] := by simpa using hempty
    by_cases hg : groupId = -1
    · subst hg
      simp only [Column.addBlock, Column.group_setGroup, hnil, List.nil_append] at hb
      obtain rfl := List.mem_singleton.1 (List.mem_of_getElem? hb)
      have : c.blockSize ≠ 0 := hpos.ne'
      simpa [Block.isFull, Block.emptyBlockSpace, Block.empty, Column.setGroup] using this
    · rw [Column.addBlock, Column.group_setGroup_of_ne _ hg, Column.group_setGroup, hnil] at hb
      simp at hb
  · rw [Column.group_setGroup] at hb
    exact hroom b hb

/-- InsertDataOnSpecificPosition past the row limit, the counter apart -/
theorem insertDataOnSpecificPosition_eq {rowsLimit : Option ℕ} {indexBlock indexInBlock : ℕ} {columnData : α}
    {groupId : ℤ} {isNullValue : Bool} (hlimit : checkRowsLimit rowsLimit c.size = .ok ()) :
    c.insertDataOnSpecificPosition rowsLimit indexBlock indexInBlock columnData groupId isNullValue =
      match (prepared c groupId).insertIntoBlocks ((prepared c groupId).group groupId) indexBlock indexInBlock columnData
        groupId isNullValue with
      | .error e => ({ prepared c groupId with size := c.size + 1 }, some e)
      | .ok bs => ({ (prepared c groupId).setGroup groupId bs with size := c.size + 1 }, none) := by
  unfold Column.insertDataOnSpecificPosition prepared
  simp only [hlimit, Column.group_setGroup]
  by_cases hempty : (c.group groupId).isEmpty = true
  · have hempty' : ({ c with size := c.size + 1 }.group groupId).isEmpty = true := hempty
    simp only [hempty, hempty', ↓reduceIte]
    rfl
  · have hempty' : ¬ ({ c with size := c.size + 1 }.group groupId).isEmpty = true := hempty
    simp only [hempty, hempty']
    rfl

theorem prepared_size (c : Column α) (groupId : ℤ) : (prepared c groupId).size = c.size := by
  simp only [prepared]
  split_ifs <;> rfl

theorem counted_insertDataOnSpecificPosition (h : Counted c) {rowsLimit : Option ℕ} {indexBlock indexInBlock : ℕ}
    {columnData : α} {groupId : ℤ} {isNullValue : Bool} (hpos : 0 < c.blockSize)
    (hroom : ∀ b ∈ (c.group groupId)[indexBlock]?, b.isFull = false)
    (hdefined : (c.insertDataOnSpecificPosition rowsLimit indexBlock indexInBlock columnData groupId isNullValue).2 ≠
      some .undefined) :
    Counted (c.insertDataOnSpecificPosition rowsLimit indexBlock indexInBlock columnData groupId isNullValue).1 := by
  cases hlimit : checkRowsLimit rowsLimit c.size with
  | error e => simpa [Column.insertDataOnSpecificPosition, hlimit] using h
  | ok _ =>
    have hprep := counted_prepared h groupId
    have hgroup := hprep.group groupId
    rw [insertDataOnSpecificPosition_eq hlimit] at hdefined ⊢
    cases hins : (prepared c groupId).insertIntoBlocks ((prepared c groupId).group groupId) indexBlock indexInBlock
      columnData groupId isNullValue with
    | error e =>
      obtain rfl := insertIntoBlocks_error hgroup (prepared_room hpos hroom) hins
      simp [hins] at hdefined
    | ok bs =>
      obtain ⟨hfits, hrows⟩ := fits_insertIntoBlocks hgroup hins
      exact hprep.setGroup groupId _ hfits (by rw [hrows, prepared_size]; omega)

/-! ### ResizeColumn -/

/-- the blocks before the target are done, the target holds the rows before the next one, the others none -/
structure Filling (d : Column.Target α) : Prop where
  counted : Counted d.column
  row : d.dstRowIndex < d.column.blockSize
  target : ∀ b ∈ (d.column.group (-1))[d.dstBlockIndex]?, b.size = d.dstRowIndex
  later : ∀ i, d.dstBlockIndex < i → ∀ b ∈ (d.column.group (-1))[i]?, b.size = 0

/-- a step of the copy leaves the counters right unless its behaviour is undefined -/
def Goes (r : Outcome (Column.Target α)) : Prop :=
  r.2 ≠ some .undefined → Counted r.1.column ∧ (r.2 = none → Filling r.1)

omit [Element α] in
theorem Goes.andThen {r : Outcome (Column.Target α)} {next : Column.Target α → Outcome (Column.Target α)}
    (hr : Goes r) (hnext : ∀ d, Filling d → Goes (next d)) : Goes (Column.andThen r next) := by
  intro hdefined
  unfold Column.andThen at hdefined ⊢
  cases hfault : r.2 with
  | none =>
    rw [hfault] at hdefined
    obtain ⟨-, hfilling⟩ := hr (by simp [hfault])
    exact hnext r.1 (hfilling hfault) hdefined
  | some e =>
    rw [hfault] at hdefined
    exact ⟨(hr (by rw [hfault]; exact hdefined)).1, fun h => absurd h (by simp)⟩

section Write

variable {d : Column.Target α} {block block' : Block α} {n : ℕ}

/-- the target block with more rows, counted -/
def written (d : Column.Target α) (block : Block α) (n : ℕ) : Column α :=
  { d.column with size := d.column.size + n }.setGroup (-1) ((d.column.group (-1)).set d.dstBlockIndex block)

variable (h : Filling d) (hblock : (d.column.group (-1))[d.dstBlockIndex]? = some block)
  (hfits : Fits d.column.blockSize block') (hsize : block'.size = block.size + n)

include h hblock hfits hsize

omit [Element α] in
theorem counted_written : Counted (written d block' n) := by
  obtain ⟨hlt, hget⟩ := List.getElem?_eq_some_iff.1 hblock
  apply h.counted.setGroup
  · intro b hb
    rcases List.mem_or_eq_of_mem_set hb with hb | rfl
    · exact h.counted.group (-1) b hb
    · exact hfits
  · have hsplit : d.column.group (-1) = (d.column.group (-1)).take d.dstBlockIndex ++
        block :: (d.column.group (-1)).drop (d.dstBlockIndex + 1) := by
      rw [← hget]
      simp
    have hrows : rowsIn ((d.column.group (-1)).set d.dstBlockIndex block') =
        rowsIn (d.column.group (-1)) + n := by
      rw [List.set_eq_take_append_cons_drop, if_pos hlt]
      nth_rewrite 3 [hsplit]
      rw [rowsIn_append, rowsIn_append]
      simp only [rowsIn, List.map_cons, List.sum_cons, hsize]
      omega
    change d.column.size + n + _ = _
    rw [hrows]
    omega

omit [Element α] in
theorem filling_next : Filling ⟨written d block' n, d.dstBlockIndex + 1, 0⟩ := by
  refine ⟨counted_written h hblock hfits hsize, Nat.zero_lt_of_lt h.row, ?_, ?_⟩
  · intro b hb
    simp only [written, Column.group_setGroup] at hb
    rw [List.getElem?_set_ne (by omega)] at hb
    exact h.later _ (by omega) b hb
  · intro i hi b hb
    simp only [written, Column.group_setGroup] at hb hi
    rw [List.getElem?_set_ne (by omega)] at hb
    exact h.later i (by omega) b hb

omit [Element α] in
theorem filling_same (hroom : d.dstRowIndex + n < d.column.blockSize) :
    Filling ⟨written d block' n, d.dstBlockIndex, d.dstRowIndex + n⟩ := by
  refine ⟨counted_written h hblock hfits hsize, hroom, ?_, ?_⟩
  · intro b hb
    obtain ⟨hlt, -⟩ := List.getElem?_eq_some_iff.1 hblock
    simp only [written, Column.group_setGroup] at hb
    rw [List.getElem?_set_self hlt] at hb
    obtain rfl := Option.some.inj hb
    rw [hsize, h.target block hblock]
  · intro i hi b hb
    simp only [written, Column.group_setGroup] at hb hi
    rw [List.getElem?_set_ne (by omega)] at hb
    exact h.later i hi b hb

end Write

theorem goes_insertResizing {d : Column.Target α} (h : Filling d) (rowsLimit : Option ℕ) (row : α × Bool) :
    Goes (Column.insertResizing rowsLimit d row) := by
  intro hdefined
  unfold Column.insertResizing at hdefined ⊢
  cases hlimit : checkRowsLimit rowsLimit d.column.size with
  | error e => exact ⟨h.counted, fun he => absurd he (by simp)⟩
  | ok _ =>
    rw [hlimit] at hdefined
    cases hblock : (d.column.group (-1))[d.dstBlockIndex]? with
    | none => simp [hblock] at hdefined
    | some block =>
      rw [hblock] at hdefined
      have hfits := h.counted.group (-1) block (List.mem_of_getElem? hblock)
      have hroom : block.isFull = false := by
        have hrow := h.row
        have htarget := h.target block hblock
        have hcapacity := hfits.capacity
        have : block.emptyBlockSpace ≠ 0 := by
          rw [Block.emptyBlockSpace]
          omega
        simpa [Block.isFull] using this
      cases hins : block.insertDataOnSpecificPosition d.dstRowIndex row.1 row.2 true with
      | error e =>
        obtain rfl := insertDataOnSpecificPosition_error hroom hins
        simp [hins] at hdefined
      | ok block' =>
        obtain ⟨hfits', hsize⟩ := fits_insertDataOnSpecificPosition hfits hins
        have hrow := h.row
        simp only [hins]
        split_ifs with hend
        · exact ⟨counted_written h hblock hfits' hsize, fun _ => filling_next h hblock hfits' hsize⟩
        · exact ⟨counted_written h hblock hfits' hsize,
            fun _ => filling_same h hblock hfits' hsize (by omega)⟩

theorem goes_resizeRows (rowsLimit : Option ℕ) (rows : List (α × Bool)) {d : Column.Target α} (h : Filling d) :
    Goes (Column.resizeRows rowsLimit rows d) := by
  induction rows generalizing d with
  | nil => exact fun _ => ⟨h.counted, fun _ => h⟩
  | cons row rows ih => exact (goes_insertResizing h rowsLimit row).andThen fun d hd => ih hd

theorem goes_resizeNullable (rowsLimit : Option ℕ) (bs : List (Block α)) {d : Column.Target α} (h : Filling d) :
    Goes (Column.resizeNullable rowsLimit bs d) := by
  induction bs generalizing d with
  | nil => exact fun _ => ⟨h.counted, fun _ => h⟩
  | cons b bs ih =>
    unfold Column.resizeNullable
    split_ifs
    · exact fun hdefined => absurd rfl hdefined
    · exact (goes_resizeRows rowsLimit b.cells h).andThen fun d hd => ih hd

/-- an interval no longer than the room in the target block -/
theorem insertInterval_ok {d : Column.Target α} (h : Filling d) {b : Block α} {srcRowIndex length : ℕ}
    (hroom : d.dstRowIndex + length ≤ d.column.blockSize)
    (hdefined : (Column.insertInterval d b srcRowIndex length).2 ≠ some .undefined) :
    ∃ block block', (d.column.group (-1))[d.dstBlockIndex]? = some block ∧ Fits d.column.blockSize block' ∧
      block'.size = block.size + length ∧
      Column.insertInterval d b srcRowIndex length = (written d block' length, none) := by
  unfold Column.insertInterval at hdefined ⊢
  cases hblock : (d.column.group (-1))[d.dstBlockIndex]? with
  | none => simp [hblock] at hdefined
  | some block =>
    have hfits := h.counted.group (-1) block (List.mem_of_getElem? hblock)
    have htarget := h.target block hblock
    have hcapacity := hfits.capacity
    cases hins : block.insertDataInterval b.data srcRowIndex length true with
    | error e =>
      have hspace : ¬ block.emptyBlockSpace < length := by
        rw [Block.emptyBlockSpace]
        omega
      have hundefined : e = .undefined := by
        have hins' := hins
        simp only [Block.insertDataInterval, if_neg hspace] at hins'
        split_ifs at hins'
        exact (Except.error.inj hins').symm
      simp [hblock, hins, hundefined] at hdefined
    | ok block' =>
      obtain ⟨hfits', hsize⟩ := fits_insertDataInterval hfits hins
      exact ⟨block, block', rfl, hfits', hsize, by simp only [hins]; rfl⟩

theorem goes_resizeBlock (b : Block α) (fuel srcRowIndex : ℕ) {d : Column.Target α} (h : Filling d) :
    Goes (Column.resizeBlock b fuel srcRowIndex d) := by
  induction fuel generalizing srcRowIndex d with
  | zero => exact fun hdefined => absurd rfl hdefined
  | succ fuel ih =>
    -- the target filled to its end
    have hnext : Goes ((⟨(Column.insertInterval d b srcRowIndex (d.column.blockSize - d.dstRowIndex)).1,
        d.dstBlockIndex + 1, 0⟩, (Column.insertInterval d b srcRowIndex (d.column.blockSize - d.dstRowIndex)).2) :
          Outcome (Column.Target α)) := by
      intro hdefined
      have hrow := h.row
      obtain ⟨block, block', hblock, hfits, hsize, heq⟩ := insertInterval_ok h (by omega) hdefined
      rw [heq]
      exact ⟨counted_written h hblock hfits hsize, fun _ => filling_next h hblock hfits hsize⟩
    simp only [Column.resizeBlock]
    split_ifs with hmore hfill
    · exact hnext.andThen fun d hd => ih _ hd
    · exact hnext
    · intro hdefined
      have hrow := h.row
      obtain ⟨block, block', hblock, hfits, hsize, heq⟩ := insertInterval_ok h (by omega) hdefined
      rw [heq]
      exact ⟨counted_written h hblock hfits hsize, fun _ => filling_same h hblock hfits hsize (by omega)⟩

theorem goes_resizeNotNullable (bs : List (Block α)) {d : Column.Target α} (h : Filling d) :
    Goes (Column.resizeNotNullable bs d) := by
  induction bs generalizing d with
  | nil => exact fun _ => ⟨h.counted, fun _ => h⟩
  | cons b bs ih => exact (goes_resizeBlock b (b.size + 1) 0 h).andThen fun d hd => ih hd

theorem counted_addBlocks (h : Counted c) (hempty : ∀ b ∈ c.group (-1), b.size = 0) (count : ℕ) :
    Counted (c.addBlocks count) ∧ (∀ b ∈ (c.addBlocks count).group (-1), b.size = 0) ∧
      (c.addBlocks count).blockSize = c.blockSize := by
  induction count generalizing c with
  | zero => exact ⟨h, hempty, rfl⟩
  | succ count ih =>
    obtain ⟨hc, he, hb⟩ := ih (c := c.addBlock (-1) true UINT32_MAX) (counted_addBlock h _ _ _) (by
      intro b hb
      rw [Column.addBlock, Column.group_setGroup] at hb
      rcases List.mem_append.1 hb with hb | hb
      · exact hempty b hb
      · obtain rfl := List.mem_singleton.1 hb
        rfl)
    exact ⟨hc, he, hb⟩

/-- ResizeColumn into a column without rows -/
theorem counted_resizeColumn (h : Counted c) (hempty : ∀ b ∈ c.group (-1), b.size = 0) (rowsLimit : Option ℕ)
    (src : Column α) (hdefined : (c.resizeColumn rowsLimit src).2 ≠ some .undefined) :
    Counted (c.resizeColumn rowsLimit src).1 := by
  simp only [Column.resizeColumn] at hdefined ⊢
  split_ifs at hdefined ⊢ with hundefined hnullable
  · exact h
  all_goals
    rw [not_or] at hundefined
    obtain ⟨hc, he, hb⟩ := counted_addBlocks h hempty ((src.size + c.blockSize - 1) / c.blockSize)
    have hfilling : Filling ⟨c.addBlocks ((src.size + c.blockSize - 1) / c.blockSize), 0, 0⟩ := by
      refine ⟨hc, ?_, ?_, ?_⟩
      · rw [hb]
        exact Nat.pos_of_ne_zero hundefined.1
      · exact fun b hb => he b (List.mem_of_getElem? hb)
      · exact fun i _ b hb => he b (List.mem_of_getElem? hb)
  · exact (goes_resizeNullable rowsLimit src.getBlocksList hfilling hdefined).1
  · exact (goes_resizeNotNullable src.getBlocksList hfilling hdefined).1

end Columns

/-! ## CopyDataToColumn -/

section Copy

variable {α β : Type} [Element β] {blockSize : ℕ} (conv : Column.Conversion α β)

theorem fits_castMask {b : Block α} {rows : List (β × Bool)} {new new' : Block β} (hfits : Fits blockSize new)
    (hok : Column.castMask conv b rows new = .ok new') : Fits blockSize new' ∧ new'.size = new.size := by
  unfold Column.castMask at hok
  cases hcopies : conv.copiesMask with
  | false =>
    rw [hcopies] at hok
    obtain rfl := Except.ok.inj hok
    exact fits_moveNullBitmask hfits _
  | true =>
    rw [hcopies, if_pos rfl] at hok
    cases hmask : b.bitMask with
    | none =>
      simp only [hmask] at hok
      split_ifs at hok
      exact fits_setNullBitmask hfits hok
    | some mask =>
      simp only [hmask] at hok
      exact fits_setNullBitmask hfits hok

theorem counted_copyBlock {dst : Column β} (h : Counted dst) (groupId : ℤ) (b : Block α) :
    Counted (Column.copyBlock conv groupId b dst).1 := by
  unfold Column.copyBlock
  split
  · exact h
  · rename_i rows _
    split
    · exact h.enterKey groupId
    · rename_i new hnew
      obtain ⟨hfits, hsize⟩ := fits_ofData hnew
      rw [if_pos rfl, List.length_map] at hsize
      have hadded := h.append groupId (dst.size + rows.length) hfits (by rw [hsize])
      split
      · exact hadded
      · rename_i new' hmask
        obtain ⟨hfits', hsize'⟩ := fits_castMask conv hfits hmask
        apply hadded.setGroup groupId (dst.size + rows.length)
        · intro b' hb'
          rcases List.mem_append.1 hb' with hb' | hb'
          · exact h.group groupId b' hb'
          · obtain rfl := List.mem_singleton.1 hb'
            exact hfits'
        · change dst.size + rows.length + rowsIn ((dst.setGroup groupId _).group groupId) = dst.size + rows.length + _
          rw [Column.group_setGroup, rowsIn_append, rowsIn_append]
          simp [rowsIn, hsize']

theorem counted_copyBlocks (groupId : ℤ) (bs : List (Block α)) {dst : Column β} (h : Counted dst) :
    Counted (Column.copyBlocks conv groupId bs dst).2.1 := by
  induction bs generalizing dst with
  | nil => exact h
  | cons b bs ih =>
    have hstep := counted_copyBlock conv h groupId b
    unfold Column.copyBlocks
    split
    · rename_i dst' hcopy
      rw [hcopy] at hstep
      exact ih hstep
    · rename_i dst' e hcopy
      rw [hcopy] at hstep
      exact hstep

theorem counted_copyGroups (gs : List (ℤ × List (Block α))) {dst : Column β} (h : Counted dst) :
    Counted (Column.copyGroups conv gs dst).2.1 := by
  induction gs generalizing dst with
  | nil => exact h
  | cons g gs ih =>
    have hstep := counted_copyBlocks conv g.1 g.2 h
    unfold Column.copyGroups
    split
    · rename_i bs dst' hcopy
      rw [hcopy] at hstep
      exact ih hstep
    · rename_i bs dst' e hcopy
      rw [hcopy] at hstep
      exact hstep

/-- the target of a copy, also of one that an exception left -/
theorem counted_copyTo (conv : Option (Column.Conversion α β)) (src : Column α) {dst : Column β} (h : Counted dst) :
    Counted (src.copyDataToColumn conv dst).2.1 := by
  cases conv with
  | none => exact h
  | some conv => exact counted_copyGroups conv src.blocks h

theorem copyBlocks_subset (groupId : ℤ) (bs : List (Block α)) (dst : Column β) :
    (Column.copyBlocks conv groupId bs dst).1 ⊆ bs := by
  induction bs generalizing dst with
  | nil => exact List.Subset.refl _
  | cons b bs ih =>
    unfold Column.copyBlocks
    split
    · exact List.Subset.trans (ih _) (List.subset_cons_self b bs)
    · exact List.Subset.refl _

/-- the keys stay in the source, and of the blocks those that were not copied -/
theorem copyGroups_source (gs : List (ℤ × List (Block α))) (dst : Column β) :
    (Column.copyGroups conv gs dst).1.map Prod.fst = gs.map Prod.fst ∧
      (Column.copyGroups conv gs dst).1.flatMap Prod.snd ⊆ gs.flatMap Prod.snd := by
  induction gs generalizing dst with
  | nil => exact ⟨rfl, List.Subset.refl _⟩
  | cons g gs ih =>
    have hsub := copyBlocks_subset conv g.1 g.2 dst
    unfold Column.copyGroups
    split
    · rename_i bs dst' hcopy
      rw [hcopy] at hsub
      obtain ⟨hkeys, hrest⟩ := ih dst'
      refine ⟨by simp [hkeys], ?_⟩
      rw [List.flatMap_cons, List.flatMap_cons]
      exact List.append_subset.2 ⟨List.Subset.trans hsub (List.subset_append_left _ _),
        List.Subset.trans hrest (List.subset_append_right _ _)⟩
    · rename_i bs dst' e hcopy
      rw [hcopy] at hsub
      refine ⟨by simp, ?_⟩
      rw [List.flatMap_cons, List.flatMap_cons]
      exact List.append_subset.2 ⟨List.Subset.trans hsub (List.subset_append_left _ _), List.subset_append_right _ _⟩

/-- the source of a copy, as long as no row could leave it -/
theorem counted_copyFrom (conv : Option (Column.Conversion α β)) {src : Column α} (h : Counted src) (dst : Column β)
    (hempty : conv = none ∨ ∀ b ∈ src.getBlocksList, b.size = 0) : Counted (src.copyDataToColumn conv dst).1 := by
  cases conv with
  | none => exact h
  | some conv =>
    obtain ⟨hkeys, hsub⟩ := copyGroups_source conv src.blocks dst
    have hempty' : ∀ b ∈ src.getBlocksList, b.size = 0 := hempty.resolve_left (by simp)
    have hzero : ∀ {bs : List (Block α)}, bs ⊆ src.getBlocksList → (bs.map Block.size).sum = 0 := by
      intro bs hbs
      rw [List.sum_eq_zero_iff]
      intro n hn
      obtain ⟨b, hb, rfl⟩ := List.mem_map.1 hn
      exact hempty' b (hbs hb)
    refine ⟨?_, fun b hb => h.fits b (hsub hb), ?_⟩
    · have hsorted := h.sorted
      rw [Column.Sorted] at hsorted ⊢
      exact hkeys ▸ hsorted
    · calc src.size = (src.getBlocksList.map Block.size).sum := h.size
        _ = 0 := hzero (List.Subset.refl _)
        _ = _ := (hzero hsub).symm

end Copy

/-! ## LoadColumn -/

section Load

variable {α : Type} [Element α] [DecidableEq α]

/-- one record of a column's files; those of string, point and polygon columns have no statistics -/
structure LoadedRecord (α : Type) where
  /-- index, group id and mask bytes -/
  head : ℕ × ℤ × List UInt8
  /-- what the reader's mask buffer holds behind these bytes -/
  fill : ℕ → BitVec 64
  isCompressed : Bool
  rows : List α
  min : α
  max : α
  avg : UInt32
  sum : α

/-- one turn of the loop of LoadColumn -/
def enterLoaded (path : String) (toString : α → String) (c : Column α) (r : LoadedRecord α) : Except Fault (Column α) :=
  if Element.classType α then enterRows path toString c r.fill r.head r.rows
  else enterArray path toString c r.fill r.head r.isCompressed r.rows.length r.rows r.min r.max r.avg r.sum

/-- LoadColumn from its records on; `recount` is the call of UpdateSize in the case of double columns -/
def loadRecords (path : String) (toString : α → String) (recount : Bool) (name : String) (blockSize : ℕ)
    (isNullable isUnique : Bool) (records : List (LoadedRecord α)) : Except Fault (Column α) := do
  let c ← created name blockSize isNullable isUnique
  let c ← records.foldlM (enterLoaded path toString) c
  .ok (if recount then c.updateSize else c)

variable {c c' : Column α} {path : String} {toString : α → String}

omit [Element α] [DecidableEq α] in
theorem counted_fresh (name : String) (blockSize : ℕ) (isNullable isUnique : Bool) :
    Counted { (Column.fresh name blockSize : Column α) with isNullable := isNullable, isUnique := isUnique } := by
  refine ⟨?_, ?_, rfl⟩
  · simp [Column.Sorted, Column.fresh]
  · intro b hb
    simp [Column.getBlocksList, Column.fresh] at hb

omit [DecidableEq α] in
/-- a block that takes over the array, the mask and the statistics of a record -/
theorem fits_loaded {blockSize index : ℕ} {data : List α} {isNullable saveNecessary : Bool} {b : Block α}
    (hlong : data.length ≤ blockSize)
    (hb : Block.ofArray blockSize data data.length blockSize isNullable false saveNecessary index = .ok b) (m : Mask)
    (min max sum : α) (avg : UInt32) :
    Fits blockSize ((b.moveNullBitmask m).loadBlockStatistics min max avg sum data.length) ∧
      ((b.moveNullBitmask m).loadBlockStatistics min max avg sum data.length).size = data.length := by
  obtain ⟨hfits, hsize⟩ := fits_ofArray hlong hb
  obtain ⟨hmoved, hsize'⟩ := fits_moveNullBitmask hfits m
  have hzero : (b.moveNullBitmask m).size = 0 := by rw [hsize', hsize]; rfl
  have hdata : (b.moveNullBitmask m).data = data := by
    rw [(Block.moveNullBitmask_store b m).1]
    exact ofArray_data hb
  exact ⟨⟨hmoved.capacity, by simp [Block.loadBlockStatistics, hzero, hdata], hmoved.room⟩,
    by simp [Block.loadBlockStatistics, hzero]⟩

/-- a numeric record, which the block and the column count -/
theorem counted_enterArray (h : Counted c) {fill : ℕ → BitVec 64} {head : ℕ × ℤ × List UInt8} {isCompressed : Bool}
    {data : List α} {min max sum : α} {avg : UInt32}
    (hok : enterArray path toString c fill head isCompressed data.length data min max avg sum = .ok c') :
    Counted c' := by
  unfold enterArray at hok
  split_ifs at hok with hlong hundefined
  obtain ⟨seen, -, hok⟩ := bind_eq_ok.1 hok
  obtain ⟨b, hb, hok⟩ := bind_eq_ok.1 hok
  obtain rfl := Except.ok.inj hok
  obtain ⟨hloaded, hsize⟩ := fits_loaded (not_lt.1 hlong) hb (maskBuffer (getNullBitMaskSize c.blockSize) fill head.2.2)
    min max sum avg
  have hcounted := h.append head.2.1 (c.size + data.length) hloaded (by rw [hsize])
  exact ⟨hcounted.sorted, hcounted.fits, hcounted.size⟩

/-- a string, point or polygon record, which only the block counts -/
theorem counted_enterRows (h : Counted c) {fill : ℕ → BitVec 64} {head : ℕ × ℤ × List UInt8}
    (hok : enterRows path toString c fill head [] = .ok c') : Counted c' := by
  unfold enterRows at hok
  split_ifs at hok
  obtain ⟨seen, -, hok⟩ := bind_eq_ok.1 hok
  obtain ⟨b, hb, hok⟩ := bind_eq_ok.1 hok
  obtain rfl := Except.ok.inj hok
  obtain ⟨b₁, h₁, hb⟩ := bind_eq_ok.1 hb
  obtain rfl := Except.ok.inj hb
  obtain ⟨hfits, hsize⟩ := fits_insertData (fits_empty c.isNullable false head.1) h₁
  obtain ⟨hmoved, hsize'⟩ := fits_moveNullBitmask hfits (maskBuffer (getNullBitMaskSize c.blockSize) fill head.2.2)
  have hcounted := h.append head.2.1 c.size hmoved (by rw [hsize', hsize]; rfl)
  exact ⟨hcounted.sorted, hcounted.fits, hcounted.size⟩

theorem counted_enterLoaded (h : Counted c) {r : LoadedRecord α} (hrows : Element.classType α = false ∨ r.rows = [])
    (hok : enterLoaded path toString c r = .ok c') : Counted c' := by
  unfold enterLoaded at hok
  split_ifs at hok with hclass
  · rw [hrows.resolve_left (by simp [hclass])] at hok
    exact counted_enterRows h hok
  · exact counted_enterArray h hok

theorem counted_enterAll {records : List (LoadedRecord α)} (h : Counted c)
    (hrows : Element.classType α = false ∨ ∀ r ∈ records, r.rows = [])
    (hok : records.foldlM (enterLoaded path toString) c = .ok c') : Counted c' := by
  induction records generalizing c with
  | nil =>
    obtain rfl : c = c' := Except.ok.inj hok
    exact h
  | cons r records ih =>
    rw [List.foldlM_cons] at hok
    obtain ⟨c₁, h₁, hok⟩ := bind_eq_ok.1 hok
    refine ih (counted_enterLoaded h (hrows.imp id fun hr => hr r List.mem_cons_self) h₁) ?_ hok
    exact hrows.imp id fun hr r' hr' => hr r' (List.mem_cons_of_mem r hr')

theorem counted_loadRecords {recount : Bool} {name : String} {blockSize : ℕ} {isNullable isUnique : Bool}
    {records : List (LoadedRecord α)} (hrows : Element.classType α = false ∨ ∀ r ∈ records, r.rows = [])
    (hok : loadRecords path toString recount name blockSize isNullable isUnique records = .ok c) : Counted c := by
  obtain ⟨c₀, h₀, hok⟩ := bind_eq_ok.1 hok
  obtain ⟨c₁, h₁, hok⟩ := bind_eq_ok.1 hok
  have hcreated : Counted c₀ := by
    unfold created at h₀
    split_ifs at h₀
    obtain rfl := Except.ok.inj h₀
    exact counted_fresh name blockSize isNullable isUnique
  have hentered := counted_enterAll hcreated hrows h₁
  obtain rfl := Except.ok.inj hok
  cases recount with
  | false => exact hentered
  | true => exact ⟨hentered.sorted, hentered.fits, rfl⟩

end Load

/-! ### The files of numeric and string columns -/

theorem loadBlocks_records {t : NumericFormat.NumericType} {path : String} {fill : ℕ → ℕ → BitVec 64} {fuel k : ℕ}
    {c c' : Column t.Elem} {file : List UInt8} (h : NumericFormat.loadBlocks path fill fuel k c file = .ok c') :
    ∃ records : List (LoadedRecord t.Elem), records.foldlM (enterLoaded path NumericFormat.showInt) c = .ok c' := by
  induction fuel generalizing k c file with
  | zero => exact absurd h (by simp [NumericFormat.loadBlocks])
  | succ fuel ih =>
    unfold NumericFormat.loadBlocks at h
    split at h
    · exact ⟨[], h⟩
    · rename_i head file' _
      split at h
      · exact absurd h (by simp)
      · rename_i body file'' hbody
        obtain ⟨c₁, h₁, h⟩ := bind_eq_ok.1 h
        obtain ⟨records, hrecords⟩ := ih h
        have hlength : body.data.length = body.dataLength := by
          simp only [NumericFormat.readBody, Option.bind_eq_bind, Option.bind_eq_some_iff] at hbody
          obtain ⟨_, _, _, _, _, _, _, _, _, _, _, _, r, hr, _, _, hbody⟩ := hbody
          obtain rfl := (Prod.mk.inj (Option.some.inj hbody)).1
          exact Bytes.length_readMany hr
        refine ⟨⟨head, fill k, body.isCompressed, body.data, body.min, body.max, body.avg, body.sum⟩ :: records, ?_⟩
        rw [List.foldlM_cons, bind_eq_ok]
        refine ⟨c₁, ?_, hrecords⟩
        rw [NumericFormat.enterRecord, ← hlength] at h₁
        exact h₁

/-- what the reader of numeric files loads are records -/
theorem loadColumn_records {t : NumericFormat.NumericType} {path : String} {fill : ℕ → ℕ → BitVec 64} {name : String}
    {blockSize : ℕ} {isNullable isUnique : Bool} {files : NumericFormat.ColumnFiles} {c : Column t.Elem}
    (h : NumericFormat.loadColumn path fill name blockSize isNullable isUnique files = .ok c) :
    ∃ records, loadRecords path NumericFormat.showInt false name blockSize isNullable isUnique records = .ok c := by
  obtain ⟨c₀, h₀, h⟩ := bind_eq_ok.1 h
  have hrecords : ∃ records : List (LoadedRecord t.Elem),
      records.foldlM (enterLoaded path NumericFormat.showInt) c₀ = .ok c := by
    split_ifs at h
    · exact ⟨[], h⟩
    · exact loadBlocks_records h
  obtain ⟨records, hrecords⟩ := hrecords
  exact ⟨records, bind_eq_ok.2 ⟨c₀, h₀, bind_eq_ok.2 ⟨c, hrecords, rfl⟩⟩⟩

theorem loadBlocks_strings {fragmentSize : ℕ} {path : String} {fill : ℕ → ℕ → BitVec 64} {indices : List ℕ}
    {fragdata : List UInt8} {fuel k : ℕ} {c c' : Column Str} {file : List UInt8}
    (h : StringFormat.loadBlocks fragmentSize path fill indices fragdata fuel k c file = .ok c') :
    ∃ records : List (LoadedRecord Str), records.foldlM (enterLoaded path StringFormat.showStr) c = .ok c' := by
  induction fuel generalizing k c file with
  | zero => exact absurd h (by simp [StringFormat.loadBlocks])
  | succ fuel ih =>
    unfold StringFormat.loadBlocks at h
    split at h
    · exact ⟨[], h⟩
    · rename_i head file' _
      obtain ⟨dataString, -, h⟩ := bind_eq_ok.1 h
      obtain ⟨c₁, h₁, h⟩ := bind_eq_ok.1 h
      obtain ⟨records, hrecords⟩ := ih h
      refine ⟨⟨head, fill k, false, dataString, [], [], 0, []⟩ :: records, ?_⟩
      rw [List.foldlM_cons, bind_eq_ok]
      exact ⟨c₁, h₁, hrecords⟩

/-- what the reader of string files loads are records -/
theorem loadStrings_records {fragmentSize : ℕ} {path : String} {fill : ℕ → ℕ → BitVec 64} {name : String}
    {blockSize : ℕ} {isNullable isUnique : Bool} {files : StringFormat.StringFiles} {c : Column Str}
    (h : StringFormat.loadColumn fragmentSize path fill name blockSize isNullable isUnique files = .ok c) :
    ∃ records, loadRecords path StringFormat.showStr false name blockSize isNullable isUnique records = .ok c := by
  obtain ⟨c₀, h₀, h⟩ := bind_eq_ok.1 h
  have hrecords : ∃ records : List (LoadedRecord Str),
      records.foldlM (enterLoaded path StringFormat.showStr) c₀ = .ok c := by
    split_ifs at h
    · exact ⟨[], h⟩
    · exact loadBlocks_strings h
  obtain ⟨records, hrecords⟩ := hrecords
  exact ⟨records, bind_eq_ok.2 ⟨c₀, h₀, bind_eq_ok.2 ⟨c, hrecords, rfl⟩⟩⟩

/-! ## Runs -/

/-- the columns of a process that no step left in an undefined state; `checked` asks of every step what keeps it from
counting on one side only -/
inductive Reached (rowsLimit : Option ℕ) (checked : Prop) : (α : Type) → [Element α] → [DecidableEq α] → Column α → Prop
  | create {α : Type} [Element α] [DecidableEq α] (name : String) (blockSize : ℕ) (isNullable isUnique : Bool) :
    Reached rowsLimit checked α { Column.fresh name blockSize with isNullable := isNullable, isUnique := isUnique }
  | addBlock {α : Type} [Element α] [DecidableEq α] {c : Column α} (h : Reached rowsLimit checked α c) (groupId : ℤ)
    (saveNecessary : Bool) (index : ℕ) : Reached rowsLimit checked α (c.addBlock groupId saveNecessary index)
  | addBlockData {α : Type} [Element α] [DecidableEq α] {c : Column α} (h : Reached rowsLimit checked α c)
    (data : List α) (groupId : ℤ) (countBlockStatistics saveNecessary : Bool) (index : ℕ)
    (hcount : checked → countBlockStatistics = true ∨ data = []) :
    Reached rowsLimit checked α (c.addBlockData data groupId countBlockStatistics saveNecessary index).1
  | addBlockArray {α : Type} [Element α] [DecidableEq α] {c : Column α} (h : Reached rowsLimit checked α c)
    (data : List α) (dataSize allocationSize : ℕ) (groupId : ℤ) (countBlockStatistics saveNecessary : Bool) (index : ℕ)
    (hroom : data.length ≤ allocationSize) (hcount : checked → countBlockStatistics = true ∨ dataSize = 0) :
    Reached rowsLimit checked α
      (c.addBlockArray data dataSize allocationSize groupId countBlockStatistics saveNecessary index).1
  | insertData {α : Type} [Element α] [DecidableEq α] {c c' : Column α} (h : Reached rowsLimit checked α c)
    (columnData : List α) (groupId : ℤ) (saveNecessary : Bool) (index : ℕ)
    (hcount : checked → Counts saveNecessary (c.group groupId) columnData.length)
    (hok : c.insertData rowsLimit columnData groupId saveNecessary index = .ok c') : Reached rowsLimit checked α c'
  | insertDataMasked {α : Type} [Element α] [DecidableEq α] {c c' : Column α} (h : Reached rowsLimit checked α c)
    (columnData : List α) (nullMask : Mask) (groupId : ℤ) (saveNecessary : Bool) (index : ℕ)
    (hcount : checked → Counts saveNecessary (c.group groupId) columnData.length)
    (hok : c.insertDataMasked rowsLimit columnData nullMask groupId saveNecessary index = .ok c') :
    Reached rowsLimit checked α c'
  | insertDataOnSpecificPosition {α : Type} [Element α] [DecidableEq α] {c : Column α}
    (h : Reached rowsLimit checked α c) (indexBlock indexInBlock : ℕ) (columnData : α) (groupId : ℤ) (isNullValue : Bool)
    (hroom : checked → 0 < c.blockSize ∧ ∀ b ∈ (c.group groupId)[indexBlock]?, b.isFull = false)
    (hdefined : (c.insertDataOnSpecificPosition rowsLimit indexBlock indexInBlock columnData groupId isNullValue).2 ≠
      some .undefined) :
    Reached rowsLimit checked α
      (c.insertDataOnSpecificPosition rowsLimit indexBlock indexInBlock columnData groupId isNullValue).1
  | resizeColumn {α : Type} [Element α] [DecidableEq α] {c src : Column α} (h : Reached rowsLimit checked α c)
    (hsrc : Reached rowsLimit checked α src) (hempty : checked → ∀ b ∈ c.group (-1), b.size = 0)
    (hdefined : (c.resizeColumn rowsLimit src).2 ≠ some .undefined) :
    Reached rowsLimit checked α (c.resizeColumn rowsLimit src).1
  | copyTo {α β : Type} [Element α] [DecidableEq α] [Element β] [DecidableEq β] {src : Column α} {dst : Column β}
    (hsrc : Reached rowsLimit checked α src) (h : Reached rowsLimit checked β dst)
    (conv : Option (Column.Conversion α β)) (hdefined : (src.copyDataToColumn conv dst).2.2 ≠ some .undefined) :
    Reached rowsLimit checked β (src.copyDataToColumn conv dst).2.1
  | copyFrom {α β : Type} [Element α] [DecidableEq α] [Element β] [DecidableEq β] {src : Column α} {dst : Column β}
    (h : Reached rowsLimit checked α src) (hdst : Reached rowsLimit checked β dst)
    (conv : Option (Column.Conversion α β)) (hempty : checked → conv = none ∨ ∀ b ∈ src.getBlocksList, b.size = 0)
    (hdefined : (src.copyDataToColumn conv dst).2.2 ≠ some .undefined) :
    Reached rowsLimit checked α (src.copyDataToColumn conv dst).1
  | loadColumn {α : Type} [Element α] [DecidableEq α] (path : String) (toString : α → String) (recount : Bool)
    (name : String) (blockSize : ℕ) (isNullable isUnique : Bool) (records : List (LoadedRecord α)) {c : Column α}
    (hrecount : recount = true → Element.classType α = false)
    (hrows : checked → Element.classType α = false ∨ ∀ r ∈ records, r.rows = [])
    (hok : loadRecords path toString recount name blockSize isNullable isUnique records = .ok c) :
    Reached rowsLimit checked α c

section Runs

variable {rowsLimit : Option ℕ}

theorem counted_reached {α : Type} [Element α] [DecidableEq α] {c : Column α} (h : Reached rowsLimit True α c) :
    Counted c := by
  induction h with
  | create name blockSize isNullable isUnique => exact counted_fresh name blockSize isNullable isUnique
  | addBlock _ groupId saveNecessary index ih => exact counted_addBlock ih groupId saveNecessary index
  | addBlockData _ data groupId count saveNecessary index hcount ih =>
    exact counted_addBlockData ih (hcount trivial)
  | addBlockArray _ data dataSize allocationSize groupId count saveNecessary index hroom hcount ih =>
    exact counted_addBlockArray ih hroom (hcount trivial)
  | insertData _ columnData groupId saveNecessary index hcount hok ih =>
    exact counted_insertBatch ih (by simpa using hcount trivial) hok
  | insertDataMasked _ columnData nullMask groupId saveNecessary index hcount hok ih =>
    unfold Column.insertDataMasked at hok
    split_ifs at hok
    exact counted_insertBatch ih (by simpa [Column.maskedBatch] using hcount trivial) hok
  | insertDataOnSpecificPosition _ indexBlock indexInBlock columnData groupId isNullValue hroom hdefined ih =>
    exact counted_insertDataOnSpecificPosition ih (hroom trivial).1 (hroom trivial).2 hdefined
  | resizeColumn _ _ hempty hdefined ih _ => exact counted_resizeColumn ih (hempty trivial) rowsLimit _ hdefined
  | copyTo _ _ conv _ _ ih => exact counted_copyTo conv _ ih
  | copyFrom _ _ conv hempty _ ih _ => exact counted_copyFrom conv ih _ (hempty trivial)
  | loadColumn path toString recount name blockSize isNullable isUnique records _ hrows hok =>
    exact counted_loadRecords (hrows trivial) hok

/-- The row counter of a column is the sum of those of its blocks in every column reached by checked steps. -/
theorem row_counts_agree {α : Type} [Element α] [DecidableEq α] {c : Column α} (h : Reached rowsLimit True α c) :
    c.size = (c.getBlocksList.map Block.size).sum :=
  (counted_reached h).size

end Runs

/-- a column of three rows appended to blocks of two -/
theorem row_counts_agree_appended :
    ∃ c : Column Int32T, Reached none True Int32T c ∧ c.size = 3 ∧ c.size = (c.getBlocksList.map Block.size).sum := by
  have h : Reached none True Int32T (Column.fresh "a" 2) := .create "a" 2 false false
  obtain ⟨c, hc, hsize⟩ : ∃ c, (Column.fresh "a" 2 : Column Int32T).insertData none [7, 8, 9] (-1) true UINT32_MAX =
    .ok c ∧ c.size = 3 := ⟨_, rfl, rfl⟩
  have hreached := Reached.insertData h [7, 8, 9] (-1) true UINT32_MAX (fun _ => Or.inl rfl) hc
  exact ⟨c, hreached, hsize, row_counts_agree hreached⟩

/-- InsertData without saveNecessary, and LoadColumn of a string -/
theorem row_counts_differ :
    (∃ c : Column Int32T, Reached none False Int32T c ∧ c.size = 1 ∧ (c.getBlocksList.map Block.size).sum = 0) ∧
      ∃ c : Column Str, Reached none False Str c ∧ c.size = 0 ∧ (c.getBlocksList.map Block.size).sum = 1 := by
  refine ⟨?_, ?_⟩
  · have h : Reached none False Int32T (Column.fresh "a" 2) := .create "a" 2 false false
    obtain ⟨c, hc, hsize⟩ : ∃ c, (Column.fresh "a" 2 : Column Int32T).insertData none [7] (-1) false UINT32_MAX =
      .ok c ∧ c.size = 1 ∧ (c.getBlocksList.map Block.size).sum = 0 := ⟨_, rfl, rfl, rfl⟩
    exact ⟨c, Reached.insertData h [7] (-1) false UINT32_MAX False.elim hc, hsize⟩
  · obtain ⟨c, hc, hsize⟩ : ∃ c, loadRecords "a.data" StringFormat.showStr false "a" 2 false false
      [⟨(0, -1, List.replicate 8 0), fun _ => 0, false, [[65]], [], [], 0, []⟩] = .ok c ∧ c.size = 0 ∧
        (c.getBlocksList.map Block.size).sum = 1 := ⟨_, rfl, rfl, rfl⟩
    exact ⟨c, Reached.loadColumn "a.data" StringFormat.showStr false "a" 2 false false _ (by simp) False.elim hc, hsize⟩

end QikkDB.RowCount

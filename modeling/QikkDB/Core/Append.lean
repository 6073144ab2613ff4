/-
What InsertData makes of the blocks of a group (ColumnBase.h), with the arguments every caller leaves at their
defaults: a last block with room is filled up, and the rest of the batch stands in new blocks behind it.

- `mem_appendRows`, `mem_insertIntoBlocks`: where the blocks come from that InsertData and InsertDataOnSpecificPosition
  leave behind.
- `appended_appendRows`: every successful call does exactly that, and the rows of the batch come last.
- `appendRows_total`: a batch without NULLs always succeeds.
-/
import Mathlib.Tactic
import QikkDB.Core.Column

namespace QikkDB

open NullValues

namespace Column

variable {α : Type}

/-! ## Model -/

/-- a block that InsertData added -/
structure New (blockSize : ℕ) (isNullable : Bool) (b : Block α) : Prop where
  valid : b.Valid blockSize isNullable
  index : b.index = UINT32_MAX
  saveNecessary : b.saveNecessary = true
  rows : 0 < b.size

/-- a block that InsertData filled up -/
structure Grown (blockSize : ℕ) (isNullable : Bool) (last last' : Block α) : Prop where
  valid : last'.Valid blockSize isNullable
  index : last'.index = last.index
  saveNecessary : last'.saveNecessary = true
  size : last.size ≤ last'.size

/-- the blocks of a group before and after InsertData -/
inductive Appended (blockSize : ℕ) (isNullable : Bool) : List (Block α) → List (Block α) → Prop
  | behind {bs new : List (Block α)} (hfull : ∀ last ∈ bs.getLast?, last.isFull = true)
    (hnew : ∀ b ∈ new, New blockSize isNullable b) : Appended blockSize isNullable bs (bs ++ new)
  | filled {init new : List (Block α)} {last last' : Block α} (hroom : last.isFull = false)
    (hgrown : Grown blockSize isNullable last last') (hnew : ∀ b ∈ new, New blockSize isNullable b) :
    Appended blockSize isNullable (init ++ [last]) (init ++ last' :: new)

/-- values of all rows of a list of blocks -/
def values (bs : List (Block α)) : List α := bs.flatMap Block.rows

theorem values_append (bs bs' : List (Block α)) : values (bs ++ bs') = values bs ++ values bs' := by
  simp [values]

/-! ## Null bits -/

variable {blockSize : ℕ} {isNullable : Bool} {b b' : Block α}

/-- null bits change nothing but the mask -/
theorem setNullBits_ok {start : ℕ} {bits : List Bool} (h : b.Valid blockSize isNullable)
    (hok : setNullBits b start bits = .ok b') :
    b'.Valid blockSize isNullable ∧ b'.rows = b.rows ∧ b'.size = b.size ∧ b'.index = b.index ∧
      b'.saveNecessary = b.saveNecessary := by
  induction bits generalizing b start with
  | nil =>
    obtain rfl := Except.ok.inj hok
    exact ⟨h, rfl, rfl, rfl, rfl⟩
  | cons bit bits ih =>
    cases bit with
    | false => exact ih h hok
    | true =>
      simp only [setNullBits, ↓reduceIte] at hok
      obtain ⟨b₁, h₁, hok⟩ := bind_eq_ok.1 hok
      unfold Block.setNullBit at h₁
      split at h₁
      · exact absurd h₁ (by simp)
      · rename_i mask hmask
        obtain rfl := Except.ok.inj h₁
        have hvalid : ({ b with bitMask := some (setBit mask start true) } : Block α).Valid blockSize isNullable := by
          refine ⟨h.capacity, h.stored, h.room, ?_, ?_⟩
          · rw [← h.nullable, Block.isNullable, Block.isNullable, hmask]
            rfl
          · intro m hm
            obtain rfl := Option.some.inj hm
            rw [length_setBit]
            exact h.mask mask hmask
        obtain ⟨hvalid', hrows, hsize, hindex, hsave⟩ := ih hvalid hok
        exact ⟨hvalid', hrows, hsize, hindex, hsave⟩

theorem setNullBits_false (b : Block α) (start n : ℕ) : setNullBits b start (List.replicate n false) = .ok b := by
  induction n generalizing start with
  | zero => rfl
  | succ n ih =>
    rw [List.replicate_succ, setNullBits]
    exact ih (start + 1)

/-! ## New blocks -/

variable [Element α]

theorem newChunk_ok {chunk : List (α × Bool)} (hlen : 0 < chunk.length ∧ chunk.length ≤ blockSize)
    (hok : newChunk blockSize isNullable true UINT32_MAX chunk = .ok b) :
    New blockSize isNullable b ∧ b.rows = chunk.map Prod.fst := by
  obtain ⟨b₁, h₁, hok⟩ := bind_eq_ok.1 hok
  obtain ⟨b₂, h₂, hvalid, hrows, hsize, -, hsave, hindex⟩ := @Block.ofData_ok _ _ blockSize isNullable
    (chunk.map Prod.fst) (decide (UINT32_MAX ≠ 0)) UINT32_MAX (by rw [List.length_map]; exact hlen.2)
  obtain rfl : b₁ = b₂ := Except.ok.inj (h₁.symm.trans h₂)
  obtain ⟨hvalid', hrows', hsize', hindex', hsave'⟩ := setNullBits_ok hvalid hok
  refine ⟨⟨hvalid', hindex'.trans hindex, hsave'.trans hsave, ?_⟩, hrows'.trans hrows⟩
  rw [hsize', hsize, List.length_map]
  exact hlen.1

theorem newChunks_ok {chunks : List (List (α × Bool))} {new : List (Block α)}
    (hlen : ∀ chunk ∈ chunks, 0 < chunk.length ∧ chunk.length ≤ blockSize)
    (hok : chunks.mapM (newChunk blockSize isNullable true UINT32_MAX) = .ok new) :
    (∀ b ∈ new, New blockSize isNullable b) ∧ values new = chunks.flatten.map Prod.fst := by
  induction chunks generalizing new with
  | nil =>
    obtain rfl : new = [] := by simpa [pure, Except.pure, eq_comm] using hok
    simp [values]
  | cons chunk chunks ih =>
    rw [List.mapM_cons] at hok
    obtain ⟨b, hb, hok⟩ := bind_eq_ok.1 hok
    obtain ⟨bs, hbs, hok⟩ := bind_eq_ok.1 hok
    obtain rfl := Except.ok.inj hok
    obtain ⟨hnew, hrows⟩ := newChunk_ok (hlen chunk List.mem_cons_self) hb
    obtain ⟨hrest, hvalues⟩ := ih (fun c hc => hlen c (List.mem_cons_of_mem chunk hc)) hbs
    refine ⟨?_, ?_⟩
    · intro b' hb'
      rcases List.mem_cons.1 hb' with rfl | hb'
      · exact hnew
      · exact hrest b' hb'
    · rw [values] at hvalues
      simp [values, hrows, hvalues]

/-- the rest of a batch in new blocks -/
theorem newBlocks_ok (hpos : 0 < blockSize) {batch : List (α × Bool)} {new : List (Block α)}
    (hok : (Chunks.chunks blockSize batch).mapM (newChunk blockSize isNullable true UINT32_MAX) = .ok new) :
    (∀ b ∈ new, New blockSize isNullable b) ∧ values new = batch.map Prod.fst := by
  obtain ⟨hnew, hvalues⟩ := newChunks_ok (Chunks.mem_chunks_length hpos batch) hok
  exact ⟨hnew, by rw [hvalues, Chunks.flatten_chunks hpos]⟩

/-! ## The last block -/

theorem fillWhole_ok {last last' : Block α} {batch : List (α × Bool)} (h : last.Valid blockSize isNullable)
    (hfit : batch.length ≤ last.emptyBlockSpace) (hok : fillWhole last batch = .ok last') :
    Grown blockSize isNullable last last' ∧ last'.rows = last.rows ++ batch.map Prod.fst := by
  obtain ⟨b₁, h₁, hok⟩ := bind_eq_ok.1 hok
  obtain ⟨hvalid, hrows, hsize, hindex, -⟩ := setNullBits_ok h h₁
  have hroom : b₁.size + (batch.map Prod.fst).length ≤ blockSize := by
    have hle := h.size_le
    have hcapacity := h.capacity
    rw [Block.emptyBlockSpace] at hfit
    rw [hsize, List.length_map]
    omega
  obtain ⟨b₂, h₂, hvalid', hrows', hsize', -, hsave', hindex'⟩ := Block.insertData_ok hvalid (batch.map Prod.fst) true hroom
  obtain rfl : last' = b₂ := Except.ok.inj (hok.symm.trans h₂)
  exact ⟨⟨hvalid', hindex'.trans hindex, hsave', by omega⟩, by rw [hrows', hrows]⟩

theorem fillUp_ok {last last' : Block α} {batch : List (α × Bool)} (h : last.Valid blockSize isNullable)
    (hfit : batch.length ≤ last.emptyBlockSpace) (hok : fillUp last batch = .ok last') :
    Grown blockSize isNullable last last' ∧ last'.rows = last.rows ++ batch.map Prod.fst := by
  obtain ⟨b₁, h₁, hok⟩ := bind_eq_ok.1 hok
  have hroom : last.size + (batch.map Prod.fst).length ≤ blockSize := by
    have hle := h.size_le
    have hcapacity := h.capacity
    rw [Block.emptyBlockSpace] at hfit
    rw [List.length_map]
    omega
  obtain ⟨b₂, h₂, hvalid, hrows, hsize, -, hsave, hindex⟩ := Block.insertData_ok h (batch.map Prod.fst) true hroom
  obtain rfl : b₁ = b₂ := Except.ok.inj (h₁.symm.trans h₂)
  obtain ⟨hvalid', hrows', hsize', hindex', hsave'⟩ := setNullBits_ok hvalid hok
  exact ⟨⟨hvalid', hindex'.trans hindex, hsave'.trans hsave, by omega⟩, hrows'.trans hrows⟩

/-! ## Where blocks come from -/

theorem mem_mapM {β γ : Type} {f : β → Except Fault γ} {l : List β} {ys : List γ} (h : l.mapM f = .ok ys) {y : γ}
    (hy : y ∈ ys) : ∃ x ∈ l, f x = .ok y := by
  induction l generalizing ys with
  | nil =>
    obtain rfl : ys = [] := by simpa [pure, Except.pure, eq_comm] using h
    exact absurd hy List.not_mem_nil
  | cons x l ih =>
    rw [List.mapM_cons] at h
    obtain ⟨y', hy', h⟩ := bind_eq_ok.1 h
    obtain ⟨ys', hys', h⟩ := bind_eq_ok.1 h
    obtain rfl := Except.ok.inj h
    rcases List.mem_cons.1 hy with rfl | hy
    · exact ⟨x, List.mem_cons_self, hy'⟩
    · obtain ⟨x', hx', hfx'⟩ := ih hys' hy
      exact ⟨x', List.mem_cons_of_mem x hx', hfx'⟩

/-- rows that fit into the last block of a group -/
def room (bs : List (Block α)) : ℕ :=
  match bs.getLast? with
  | none => 0
  | some last => last.emptyBlockSpace

/-- a block of a group after InsertData: an old one, the last one filled, or a new one with rows of the batch -/
theorem mem_appendRows {saveNecessary : Bool} {index : ℕ} {bs bs' : List (Block α)} {batch : List (α × Bool)}
    (hok : appendRows blockSize isNullable saveNecessary index bs batch = .ok bs') (hb : b ∈ bs') :
    b ∈ bs ∨ (∃ last ∈ bs, ∃ rows, fillWhole last rows = .ok b ∨ fillUp last rows = .ok b) ∨
      ∃ chunk, chunk ⊆ batch.drop (room bs) ∧ newChunk blockSize isNullable saveNecessary index chunk = .ok b := by
  have hnew : ∀ {rows : List (α × Bool)} {new : List (Block α)} {b : Block α},
      (Chunks.chunks blockSize rows).mapM (newChunk blockSize isNullable saveNecessary index) = .ok new → b ∈ new →
        ∃ chunk, chunk ⊆ rows ∧ newChunk blockSize isNullable saveNecessary index chunk = .ok b := by
    intro rows new b hnew hb
    obtain ⟨chunk, hchunk, hok⟩ := mem_mapM hnew hb
    exact ⟨chunk, fun row hrow => Chunks.mem_of_mem_chunksAux (List.mem_flatten.2 ⟨chunk, hchunk, hrow⟩), hok⟩
  unfold appendRows at hok
  cases hlast : bs.getLast? with
  | none =>
    simp only [hlast] at hok
    simp only [room, hlast, List.drop_zero]
    exact Or.inr (Or.inr (hnew hok hb))
  | some last =>
    have hmem : last ∈ bs := List.mem_of_getLast? hlast
    simp only [hlast] at hok
    simp only [room, hlast]
    split_ifs at hok with hfull hfit
    · obtain ⟨new, hnew', hok⟩ := bind_eq_ok.1 hok
      obtain rfl := Except.ok.inj hok
      have hzero : last.emptyBlockSpace = 0 := of_decide_eq_true hfull
      rw [hzero, List.drop_zero]
      rcases List.mem_append.1 hb with hb | hb
      · exact Or.inl hb
      · exact Or.inr (Or.inr (hnew hnew' hb))
    · obtain ⟨last', hfill, hok⟩ := bind_eq_ok.1 hok
      obtain rfl := Except.ok.inj hok
      rcases List.mem_append.1 hb with hb | hb
      · exact Or.inl (List.dropLast_subset bs hb)
      · obtain rfl := List.mem_singleton.1 hb
        exact Or.inr (Or.inl ⟨last, hmem, batch, Or.inl hfill⟩)
    · obtain ⟨last', hfill, hok⟩ := bind_eq_ok.1 hok
      obtain ⟨new, hnew', hok⟩ := bind_eq_ok.1 hok
      obtain rfl := Except.ok.inj hok
      rcases List.mem_append.1 hb with hb | hb
      · exact Or.inl (List.dropLast_subset bs hb)
      · rcases List.mem_cons.1 hb with rfl | hb
        · exact Or.inr (Or.inl ⟨last, hmem, _, Or.inr hfill⟩)
        · exact Or.inr (Or.inr (hnew hnew' hb))

/-- the block that InsertDataOnSpecificPosition puts a row into; an empty group gets a first block -/
def targetBlock (c : Column α) (groupId : ℤ) (indexBlock : ℕ) : Option (Block α) :=
  if (c.group groupId).isEmpty then [Block.empty c.blockSize c.isNullable true UINT32_MAX][indexBlock]?
  else (c.group groupId)[indexBlock]?

/-- a block of a group after a row is put at a position: an old one, the one with the row, or a half of that -/
theorem mem_insertIntoBlocks {c : Column α} {bs bs' : List (Block α)} {indexBlock indexInBlock : ℕ} {columnData : α}
    {groupId : ℤ} {isNullValue : Bool}
    (hok : insertIntoBlocks c bs indexBlock indexInBlock columnData groupId isNullValue = .ok bs') (hb : b ∈ bs') :
    b ∈ bs ∨ ∃ block ∈ bs[indexBlock]?, ∃ block',
      block.insertDataOnSpecificPosition indexInBlock columnData isNullValue true = .ok block' ∧
        (b = block' ∨ (block'.isFull = true ∧ ∃ halves, blockSplit c block' = .ok halves ∧
          (b = halves.1 ∨ b = halves.2))) := by
  unfold Column.insertIntoBlocks at hok
  split at hok
  · exact absurd hok (by simp)
  · rename_i block hblock
    obtain ⟨block', hput, hok⟩ := bind_eq_ok.1 hok
    split_ifs at hok with hfull hgroup
    · obtain ⟨halves, hhalves, hok⟩ := bind_eq_ok.1 hok
      obtain rfl := Except.ok.inj hok
      simp only [List.mem_append, List.mem_cons] at hb
      rcases hb with hb | rfl | rfl | hb
      · exact Or.inl (List.mem_of_mem_take hb)
      · exact Or.inr ⟨block, hblock, block', hput, Or.inr ⟨hfull, halves, hhalves, Or.inl rfl⟩⟩
      · exact Or.inr ⟨block, hblock, block', hput, Or.inr ⟨hfull, halves, hhalves, Or.inr rfl⟩⟩
      · exact Or.inl (List.mem_of_mem_drop hb)
    · obtain rfl := Except.ok.inj hok
      simp only [List.mem_append, List.mem_cons] at hb
      rcases hb with hb | rfl | hb
      · exact Or.inl (List.mem_of_mem_take hb)
      · exact Or.inr ⟨block, hblock, _, hput, Or.inl rfl⟩
      · exact Or.inl (List.mem_of_mem_drop hb)

theorem insertDataOnSpecificPosition_shape (c : Column α) (rowsLimit : Option ℕ) (indexBlock indexInBlock : ℕ)
    (columnData : α) (groupId : ℤ) (isNullValue : Bool) :
    let c' := (c.insertDataOnSpecificPosition rowsLimit indexBlock indexInBlock columnData groupId isNullValue).1
    c'.blockSize = c.blockSize ∧ c'.isNullable = c.isNullable := by
  unfold Column.insertDataOnSpecificPosition
  split
  · exact ⟨rfl, rfl⟩
  · simp only
    split
    · split_ifs <;> exact ⟨rfl, rfl⟩
    · split_ifs <;> exact ⟨rfl, rfl⟩

/-- a block of a column after InsertDataOnSpecificPosition, also when an exception left it -/
theorem mem_insertDataOnSpecificPosition (c : Column α) (rowsLimit : Option ℕ) {indexBlock indexInBlock : ℕ}
    {columnData : α} {groupId : ℤ} {isNullValue : Bool}
    (hb : b ∈ (c.insertDataOnSpecificPosition rowsLimit indexBlock indexInBlock columnData groupId
      isNullValue).1.getBlocksList) :
    b ∈ c.getBlocksList ∨ b = Block.empty c.blockSize c.isNullable true UINT32_MAX ∨
      ∃ block ∈ targetBlock c groupId indexBlock, ∃ block',
        block.insertDataOnSpecificPosition indexInBlock columnData isNullValue true = .ok block' ∧
          (b = block' ∨ (block'.isFull = true ∧ ∃ d : Column α, d.blockSize = c.blockSize ∧ d.isNullable = c.isNullable ∧
            ∃ halves, blockSplit d block' = .ok halves ∧ (b = halves.1 ∨ b = halves.2))) := by
  unfold Column.insertDataOnSpecificPosition at hb
  split at hb
  · exact Or.inl hb
  · simp only at hb
    set counted : Column α := { c with size := c.size + 1 }.setGroup groupId ({ c with size := c.size + 1 }.group groupId)
      with hcounted
    have hgroup : counted.group groupId = c.group groupId := Column.group_setGroup _ _ _
    have hold : ∀ {b : Block α}, b ∈ counted.getBlocksList → b ∈ c.getBlocksList := by
      intro b hb
      rcases Column.mem_setGroup hb with hb | hb
      · exact mem_group (c := { c with size := c.size + 1 }) hb
      · exact hb
    set d : Column α := if (counted.group groupId).isEmpty then counted.addBlock (-1) true UINT32_MAX else counted with hd
    have hshape : d.blockSize = c.blockSize ∧ d.isNullable = c.isNullable := by
      rw [hd]
      split_ifs <;> exact ⟨rfl, rfl⟩
    have hblocks : ∀ {b : Block α}, b ∈ d.getBlocksList →
        b ∈ c.getBlocksList ∨ b = Block.empty c.blockSize c.isNullable true UINT32_MAX := by
      intro b hb
      rw [hd] at hb
      split_ifs at hb
      · rcases Column.mem_setGroup hb with hb | hb
        · rcases List.mem_append.1 hb with hb | hb
          · exact Or.inl (hold (mem_group hb))
          · exact Or.inr (List.mem_singleton.1 hb)
        · exact Or.inl (hold hb)
      · exact Or.inl (hold hb)
    -- the block that is looked up
    have htarget : ∀ {block : Block α}, block ∈ (d.group groupId)[indexBlock]? → block ∈ targetBlock c groupId indexBlock := by
      intro block hblock
      rw [targetBlock]
      by_cases hempty : (c.group groupId).isEmpty
      · have hd' : d = counted.addBlock (-1) true UINT32_MAX := by rw [hd, hgroup, if_pos hempty]
        have hnil : c.group groupId = [] := List.isEmpty_iff.1 hempty
        rw [if_pos hempty]
        by_cases hminus : groupId = -1
        · subst hminus
          rw [hd', Column.addBlock, Column.group_setGroup, hgroup, hnil] at hblock
          exact hblock
        · rw [hd', Column.addBlock, Column.group_setGroup_of_ne _ hminus, hgroup, hnil] at hblock
          simp at hblock
      · rw [if_neg hempty]
        have hd' : d = counted := by rw [hd, hgroup, if_neg hempty]
        rw [hd', hgroup] at hblock
        exact hblock
    split at hb
    · exact (hblocks hb).imp id Or.inl
    · rename_i bs hbs
      rcases Column.mem_setGroup hb with hb | hb
      · rcases mem_insertIntoBlocks hbs hb with hb | ⟨block, hblock, block', hput, hhalf⟩
        · exact (hblocks (mem_group hb)).imp id Or.inl
        · refine Or.inr (Or.inr ⟨block, htarget hblock, block', hput, hhalf.imp id ?_⟩)
          rintro ⟨hfull, halves, hhalves, heq⟩
          exact ⟨hfull, d, hshape.1, hshape.2, halves, hhalves, heq⟩
      · exact (hblocks hb).imp id Or.inl

/-! ## InsertData -/

theorem appended_appendRows (hpos : 0 < blockSize) {bs bs' : List (Block α)}
    (hbs : ∀ b ∈ bs, b.Valid blockSize isNullable) {batch : List (α × Bool)}
    (hok : appendRows blockSize isNullable true UINT32_MAX bs batch = .ok bs') :
    Appended blockSize isNullable bs bs' ∧ values bs' = values bs ++ batch.map Prod.fst := by
  unfold appendRows at hok
  cases hlast : bs.getLast? with
  | none =>
    rw [hlast] at hok
    obtain rfl : bs = [] := List.getLast?_eq_none_iff.1 hlast
    obtain ⟨hnew, hvalues⟩ := newBlocks_ok hpos hok
    exact ⟨(Appended.behind (by simp) hnew : Appended blockSize isNullable [] ([] ++ bs')), hvalues⟩
  | some last =>
    rw [hlast] at hok
    have hsplit : bs = bs.dropLast ++ [last] := (List.dropLast_append_getLast? last hlast).symm
    have hvalid : last.Valid blockSize isNullable := hbs last (List.mem_of_getLast? hlast)
    have hvalues : values bs = values bs.dropLast ++ last.rows := by
      rw [hsplit, values_append, ← hsplit]
      simp [values]
    simp only at hok
    split_ifs at hok with hfull hfit
    · obtain ⟨new, hnew, hok⟩ := bind_eq_ok.1 hok
      obtain rfl := Except.ok.inj hok
      obtain ⟨hnew, hrows⟩ := newBlocks_ok hpos hnew
      refine ⟨Appended.behind ?_ hnew, by rw [values_append, hrows]⟩
      intro last' hlast'
      obtain rfl : last = last' := Option.some.inj (hlast.symm.trans hlast')
      exact hfull
    · obtain ⟨last', hlast', hok⟩ := bind_eq_ok.1 hok
      obtain rfl := Except.ok.inj hok
      obtain ⟨hgrown, hrows⟩ := fillWhole_ok hvalid hfit hlast'
      refine ⟨?_, ?_⟩
      · have hfilled : Appended blockSize isNullable (bs.dropLast ++ [last]) (bs.dropLast ++ [last']) :=
          .filled (by simpa using hfull) hgrown (by simp)
        rwa [← hsplit] at hfilled
      · rw [values_append, hvalues, List.append_assoc, ← hrows]
        simp [values]
    · obtain ⟨last', hlast', hok⟩ := bind_eq_ok.1 hok
      obtain ⟨new, hnew, hok⟩ := bind_eq_ok.1 hok
      obtain rfl := Except.ok.inj hok
      obtain ⟨hgrown, hrows⟩ := fillUp_ok hvalid (List.length_take_le _ _) hlast'
      obtain ⟨hnew, hnewRows⟩ := newBlocks_ok hpos hnew
      refine ⟨?_, ?_⟩
      · have hfilled : Appended blockSize isNullable (bs.dropLast ++ [last]) (bs.dropLast ++ last' :: new) :=
          .filled (by simpa using hfull) hgrown hnew
        rwa [← hsplit] at hfilled
      · have hcons : values (last' :: new) = last'.rows ++ values new := by simp [values]
        rw [values_append, hcons, hvalues, hrows, hnewRows, List.append_assoc, List.append_assoc, ← List.map_append,
          List.take_append_drop]

/-- a step that always succeeds, over a list -/
theorem mapM_total {β γ : Type} {f : β → Except Fault γ} {l : List β} (h : ∀ a ∈ l, ∃ b, f a = .ok b) :
    ∃ bs, l.mapM f = .ok bs := by
  induction l with
  | nil => exact ⟨[], rfl⟩
  | cons a l ih =>
    obtain ⟨b, hb⟩ := h a List.mem_cons_self
    obtain ⟨bs, hbs⟩ := ih fun a' ha' => h a' (List.mem_cons_of_mem a ha')
    exact ⟨b :: bs, by rw [List.mapM_cons, hb, hbs]; rfl⟩

omit [Element α] in
theorem bits_false {rows : List (α × Bool)} (h : ∀ row ∈ rows, row.2 = false) :
    rows.map Prod.snd = List.replicate rows.length false := by
  rw [List.eq_replicate_iff]
  refine ⟨List.length_map _, ?_⟩
  intro bit hbit
  obtain ⟨row, hrow, rfl⟩ := List.mem_map.1 hbit
  exact h row hrow

theorem newBlocks_total (isNullable : Bool) (hpos : 0 < blockSize) {batch : List (α × Bool)}
    (hnull : ∀ row ∈ batch, row.2 = false) :
    ∃ new, (Chunks.chunks blockSize batch).mapM (newChunk blockSize isNullable true UINT32_MAX) = .ok new := by
  apply mapM_total
  intro chunk hchunk
  obtain ⟨b, hb, -⟩ := @Block.ofData_ok _ _ blockSize isNullable (chunk.map Prod.fst) (decide (UINT32_MAX ≠ 0))
    UINT32_MAX (by rw [List.length_map]; exact (Chunks.mem_chunks_length hpos batch chunk hchunk).2)
  have hbits : ∀ row ∈ chunk, row.2 = false := by
    intro row hrow
    apply hnull
    rw [← Chunks.flatten_chunks hpos batch]
    exact List.mem_flatten.2 ⟨chunk, hchunk, hrow⟩
  exact ⟨b, bind_eq_ok.2 ⟨b, hb, by rw [bits_false hbits, setNullBits_false]⟩⟩

/-- a batch without NULLs is always taken -/
theorem appendRows_total (hpos : 0 < blockSize) {bs : List (Block α)} (hbs : ∀ b ∈ bs, b.Valid blockSize isNullable)
    {batch : List (α × Bool)} (hnull : ∀ row ∈ batch, row.2 = false) :
    ∃ bs', appendRows blockSize isNullable true UINT32_MAX bs batch = .ok bs' := by
  unfold appendRows
  cases hlast : bs.getLast? with
  | none => exact newBlocks_total isNullable hpos hnull
  | some last =>
    have hvalid : last.Valid blockSize isNullable := hbs last (List.mem_of_getLast? hlast)
    have hle := hvalid.size_le
    have hcapacity := hvalid.capacity
    -- the rows that go into the last block fit there
    have hfill : ∀ rows : List (α × Bool), rows.length ≤ last.emptyBlockSpace →
        ∃ last', last.insertData (rows.map Prod.fst) true = .ok last' := by
      intro rows hrows
      rw [Block.emptyBlockSpace] at hrows
      obtain ⟨last', h', -⟩ := Block.insertData_ok hvalid (rows.map Prod.fst) true (by rw [List.length_map]; omega)
      exact ⟨last', h'⟩
    simp only
    split_ifs with hfull hfit
    · obtain ⟨new, hnew⟩ := newBlocks_total isNullable hpos hnull
      exact ⟨bs ++ new, bind_eq_ok.2 ⟨new, hnew, rfl⟩⟩
    · obtain ⟨last', hlast'⟩ := hfill batch hfit
      refine ⟨bs.dropLast ++ [last'], bind_eq_ok.2 ⟨last', ?_, rfl⟩⟩
      exact bind_eq_ok.2 ⟨last, by rw [bits_false hnull, setNullBits_false], hlast'⟩
    · obtain ⟨last', hlast'⟩ := hfill (batch.take last.emptyBlockSpace) (List.length_take_le _ _)
      obtain ⟨new, hnew⟩ := newBlocks_total isNullable hpos
        (fun row hrow => hnull row (List.mem_of_mem_drop (i := last.emptyBlockSpace) hrow))
      refine ⟨bs.dropLast ++ last' :: new, bind_eq_ok.2 ⟨last', ?_, bind_eq_ok.2 ⟨new, hnew, rfl⟩⟩⟩
      refine bind_eq_ok.2 ⟨last', hlast', ?_⟩
      rw [bits_false fun row hrow => hnull row (List.mem_of_mem_take hrow), setNullBits_false]

end Column

end QikkDB

/-
Properties that every block of a column has, whatever is done to the column. What one function does to one block is
said by `Kept`; the functions of a column (InsertData, InsertDataOnSpecificPosition, SetIsNullable, ResizeColumn,
CopyDataToColumn) then keep the property for all blocks.

- `all_insertBatch`, `all_insertDataOnSpecificPosition`, `all_setIsNullable`, `all_resizeColumn`, `all_copyTo`: one lemma
  for each function of a column.
- `masked_kept`: the blocks of a column have a mask just when the column is nullable.
-/
import Mathlib.Tactic
import QikkDB.Core.Append
import QikkDB.Core.Resize

namespace QikkDB.BlockInvariant

open NullValues Column

variable {α : Type} [Element α]

/-- a property of the blocks of a column, by its block size and its nullability, that the functions of a block keep -/
structure Kept (P : ℕ → Bool → Block α → Prop) : Prop where
  empty (blockSize : ℕ) (isNullable saveNecessary : Bool) (index : ℕ) :
    P blockSize isNullable (Block.empty blockSize isNullable saveNecessary index)
  ofData {blockSize : ℕ} {data : List α} {isNullable count saveNecessary : Bool} {index : ℕ} {b : Block α} :
    Block.ofData blockSize data isNullable count saveNecessary index = .ok b → P blockSize isNullable b
  setNullBits {blockSize : ℕ} {isNullable : Bool} {b b' : Block α} {start : ℕ} {bits : List Bool} :
    P blockSize isNullable b → Column.setNullBits b start bits = .ok b' → P blockSize isNullable b'
  insertData {blockSize : ℕ} {isNullable : Bool} {b b' : Block α} {data : List α} {saveNecessary : Bool} :
    P blockSize isNullable b → b.insertData data saveNecessary = .ok b' → P blockSize isNullable b'
  insertDataInterval {blockSize : ℕ} {isNullable : Bool} {b b' : Block α} {newData : List α} {offset length : ℕ}
    {saveNecessary : Bool} : P blockSize isNullable b →
    b.insertDataInterval newData offset length saveNecessary = .ok b' → P blockSize isNullable b'
  insertDataOnSpecificPosition {blockSize : ℕ} {isNullable : Bool} {b b' : Block α} {index : ℕ} {data : α}
    {isNullValue saveNecessary : Bool} : P blockSize isNullable b →
    b.insertDataOnSpecificPosition index data isNullValue saveNecessary = .ok b' → P blockSize isNullable b'
  blockSplit {c : Column α} {b : Block α} {halves : Block α × Block α} : P c.blockSize c.isNullable b →
    c.blockSplit b = .ok halves → P c.blockSize c.isNullable halves.1 ∧ P c.blockSize c.isNullable halves.2
  setIsNullable {blockSize : ℕ} {isNullable : Bool} {b : Block α} (isNullable' : Bool) :
    P blockSize isNullable b → P blockSize isNullable' (b.setIsNullable isNullable')
  setNullBitmask {blockSize : ℕ} {isNullable : Bool} {b b' : Block α} {m : Mask} : P blockSize isNullable b →
    b.setNullBitmask m = .ok b' → P blockSize isNullable b'
  moveNullBitmask {blockSize : ℕ} {isNullable : Bool} {b : Block α} (m : Mask) : P blockSize isNullable b →
    P blockSize isNullable (b.moveNullBitmask m)

/-- every block of the column has the property -/
def All (P : ℕ → Bool → Block α → Prop) (c : Column α) : Prop :=
  ∀ b ∈ c.getBlocksList, P c.blockSize c.isNullable b

/-! ## Storing groups -/

section Groups

variable {P : ℕ → Bool → Block α → Prop} {c c' : Column α}

omit [Element α] in
theorem All.group (h : All P c) (groupId : ℤ) : ∀ b ∈ c.group groupId, P c.blockSize c.isNullable b :=
  fun b hb => h b (mem_group hb)

omit [Element α] in
theorem All.setGroup (h : All P c) (groupId : ℤ) (size : ℕ) {bs : List (Block α)}
    (hbs : ∀ b ∈ bs, P c.blockSize c.isNullable b) : All P { c.setGroup groupId bs with size := size } := by
  intro b hb
  rcases mem_setGroup hb with hb | hb
  · exact hbs b hb
  · exact h b hb

omit [Element α] in
theorem All.append (h : All P c) (groupId : ℤ) (size : ℕ) {b : Block α} (hb : P c.blockSize c.isNullable b) :
    All P { c.setGroup groupId (c.group groupId ++ [b]) with size := size } := by
  apply h.setGroup
  intro b' hb'
  rcases List.mem_append.1 hb' with hb' | hb'
  · exact h.group groupId b' hb'
  · obtain rfl := List.mem_singleton.1 hb'
    exact hb

omit [Element α] in
theorem All.set (h : All P c) (groupId : ℤ) (size i : ℕ) {b : Block α} (hb : P c.blockSize c.isNullable b) :
    All P { c.setGroup groupId ((c.group groupId).set i b) with size := size } := by
  apply h.setGroup
  intro b' hb'
  rcases List.mem_or_eq_of_mem_set hb' with hb' | rfl
  · exact h.group groupId b' hb'
  · exact hb

omit [Element α] in
theorem all_fresh (name : String) (blockSize : ℕ) (isNullable isUnique : Bool) :
    All P { fresh name blockSize with isNullable := isNullable, isUnique := isUnique } := by
  intro b hb
  exact absurd (show b ∈ [] from hb) List.not_mem_nil

end Groups

/-! ## Inserting -/

section Insert

/-- an insertion changes neither the block size nor the nullability -/
theorem insertBatch_shape {c c' : Column α} {rowsLimit : Option ℕ} {batch : List (α × Bool)} {groupId : ℤ}
    {saveNecessary : Bool} {index : ℕ} (hok : c.insertBatch rowsLimit batch groupId saveNecessary index = .ok c') :
    c'.blockSize = c.blockSize ∧ c'.isNullable = c.isNullable := by
  obtain ⟨-, -, hok⟩ := bind_eq_ok.1 hok
  split_ifs at hok
  obtain ⟨bs, -, hok⟩ := bind_eq_ok.1 hok
  obtain rfl := Except.ok.inj hok
  exact ⟨rfl, rfl⟩

omit [Element α] in
theorem setIsNullable_blockSize {c c' : Column α} {isNullable : Bool} (hok : c.setIsNullable isNullable = .ok c') :
    c'.blockSize = c.blockSize := by
  unfold Column.setIsNullable at hok
  simp only at hok
  split_ifs at hok <;> obtain rfl := Except.ok.inj hok <;> rfl

variable {P : ℕ → Bool → Block α → Prop} (hP : Kept P) {c c' : Column α}

include hP

theorem all_insertBatch (h : All P c) {rowsLimit : Option ℕ} {batch : List (α × Bool)} {groupId : ℤ}
    {saveNecessary : Bool} {index : ℕ} (hok : c.insertBatch rowsLimit batch groupId saveNecessary index = .ok c') :
    All P c' := by
  obtain ⟨-, -, hok⟩ := bind_eq_ok.1 hok
  split_ifs at hok
  obtain ⟨bs, hbs, hok⟩ := bind_eq_ok.1 hok
  obtain rfl := Except.ok.inj hok
  apply h.setGroup
  intro b hb
  rcases mem_appendRows hbs hb with hb | ⟨last, hlast, rows, hfill | hfill⟩ | ⟨chunk, -, hnew⟩
  · exact h.group groupId b hb
  · obtain ⟨b₁, h₁, hfill⟩ := bind_eq_ok.1 hfill
    exact hP.insertData (hP.setNullBits (h.group groupId last hlast) h₁) hfill
  · obtain ⟨b₁, h₁, hfill⟩ := bind_eq_ok.1 hfill
    exact hP.setNullBits (hP.insertData (h.group groupId last hlast) h₁) hfill
  · obtain ⟨b₁, h₁, hnew⟩ := bind_eq_ok.1 hnew
    exact hP.setNullBits (hP.ofData h₁) hnew

theorem all_insertDataMasked (h : All P c) {rowsLimit : Option ℕ} {columnData : List α} {nullMask : Mask} {groupId : ℤ}
    {saveNecessary : Bool} {index : ℕ}
    (hok : c.insertDataMasked rowsLimit columnData nullMask groupId saveNecessary index = .ok c') : All P c' := by
  unfold insertDataMasked at hok
  split_ifs at hok
  exact all_insertBatch hP h hok

theorem all_insertDataOnSpecificPosition (h : All P c) (rowsLimit : Option ℕ) (indexBlock indexInBlock : ℕ)
    (columnData : α) (groupId : ℤ) (isNullValue : Bool) :
    All P (c.insertDataOnSpecificPosition rowsLimit indexBlock indexInBlock columnData groupId isNullValue).1 := by
  obtain ⟨hsize, hnullable⟩ := insertDataOnSpecificPosition_shape c rowsLimit indexBlock indexInBlock columnData groupId
    isNullValue
  intro b hb
  rw [hsize, hnullable]
  rcases mem_insertDataOnSpecificPosition c rowsLimit hb with hb | rfl | ⟨block, hblock, block', hput, hhalf⟩
  · exact h b hb
  · exact hP.empty _ _ _ _
  · have hold : P c.blockSize c.isNullable block := by
      rw [targetBlock] at hblock
      split_ifs at hblock
      · obtain rfl := List.mem_singleton.1 (List.mem_of_getElem? hblock)
        exact hP.empty _ _ _ _
      · exact h.group groupId block (List.mem_of_getElem? hblock)
    have hnew := hP.insertDataOnSpecificPosition hold hput
    rcases hhalf with rfl | ⟨-, d, hd, hd', halves, hhalves, hb⟩
    · exact hnew
    · rw [← hd, ← hd'] at hnew ⊢
      obtain ⟨h₁, h₂⟩ := hP.blockSplit hnew hhalves
      rcases hb with rfl | rfl
      · exact h₁
      · exact h₂

theorem all_setIsNullable (h : All P c) {isNullable : Bool} (hok : c.setIsNullable isNullable = .ok c') : All P c' := by
  have hall : ∀ b ∈ (c.blocks.map fun g => (g.1, g.2.map fun b => b.setIsNullable isNullable)).flatMap Prod.snd,
      P c.blockSize isNullable b := by
    intro b hb
    obtain ⟨g', hg', hb⟩ := List.mem_flatMap.1 hb
    obtain ⟨g, hg, rfl⟩ := List.mem_map.1 hg'
    obtain ⟨b₀, hb₀, rfl⟩ := List.mem_map.1 hb
    exact hP.setIsNullable isNullable (h b₀ (List.mem_flatMap.2 ⟨g, hg, hb₀⟩))
  unfold Column.setIsNullable at hok
  simp only at hok
  split_ifs at hok with hsame htrue
  all_goals obtain rfl := Except.ok.inj hok
  · exact h
  · intro b hb
    have hb' := hall b hb
    rw [htrue] at hb'
    exact hb'
  · intro b hb
    have hb' := hall b hb
    rw [Bool.eq_false_of_not_eq_true htrue] at hb'
    exact hb'

end Insert

/-! ## ResizeColumn -/

section Resize

/-- a property of the map of blocks that storing the blocks of a group keeps -/
structure Regroups (Q : Column α → Prop) (groupId : ℤ) : Prop where
  setGroup {d : Column α} (h : Q d) (size : ℕ) (bs : List (Block α)) : Q { d.setGroup groupId bs with size := size }
  counted {d : Column α} (h : Q d) (size : ℕ) : Q { d with size := size }

omit [Element α] in
theorem regroups_any (groupId : ℤ) : Regroups (fun _ : Column α => True) groupId :=
  ⟨fun _ _ _ => trivial, fun _ _ => trivial⟩

/-- the column that rows are copied into, of the block size and nullability of `c` -/
structure Filled (P : ℕ → Bool → Block α → Prop) (Q : Column α → Prop) (c d : Column α) : Prop where
  all : All P d
  groups : Q d
  blockSize : d.blockSize = c.blockSize
  isNullable : d.isNullable = c.isNullable

variable {P : ℕ → Bool → Block α → Prop} {Q : Column α → Prop} (hP : Kept P) (hQ : Regroups Q (-1)) {c : Column α}

omit [Element α] in
theorem Filled.setGroup {d : Column α} {groupId : ℤ} (hQ : Regroups Q groupId) (h : Filled P Q c d) (size : ℕ)
    {bs : List (Block α)} (hbs : ∀ b ∈ bs, P d.blockSize d.isNullable b) :
    Filled P Q c { d.setGroup groupId bs with size := size } :=
  ⟨h.all.setGroup groupId size hbs, hQ.setGroup h.groups size bs, h.blockSize, h.isNullable⟩

omit [Element α] in
theorem Filled.counted {d : Column α} {groupId : ℤ} (hQ : Regroups Q groupId) (h : Filled P Q c d) (size : ℕ) :
    Filled P Q c { d with size := size } :=
  ⟨h.all, hQ.counted h.groups size, h.blockSize, h.isNullable⟩

omit [Element α] in
theorem Filled.set {d : Column α} {groupId : ℤ} (hQ : Regroups Q groupId) (h : Filled P Q c d) (size i : ℕ)
    {b : Block α} (hb : P d.blockSize d.isNullable b) :
    Filled P Q c { d.setGroup groupId ((d.group groupId).set i b) with size := size } :=
  ⟨h.all.set groupId size i hb, hQ.setGroup h.groups size _, h.blockSize, h.isNullable⟩

omit [Element α] in
theorem Filled.append {d : Column α} {groupId : ℤ} (hQ : Regroups Q groupId) (h : Filled P Q c d) (size : ℕ)
    {b : Block α} (hb : P d.blockSize d.isNullable b) :
    Filled P Q c { d.setGroup groupId (d.group groupId ++ [b]) with size := size } :=
  ⟨h.all.append groupId size hb, hQ.setGroup h.groups size _, h.blockSize, h.isNullable⟩

omit [Element α] in
theorem filled_andThen {r : Outcome (Target α)} {next : Target α → Outcome (Target α)} (h : Filled P Q c r.1.column)
    (hnext : ∀ d, Filled P Q c d.column → Filled P Q c (next d).1.column) : Filled P Q c (andThen r next).1.column := by
  unfold andThen
  split
  · exact hnext r.1 h
  · exact h

include hP hQ

theorem filled_insertResizing {d : Target α} (h : Filled P Q c d.column) (rowsLimit : Option ℕ) (row : α × Bool) :
    Filled P Q c (insertResizing rowsLimit d row).1.column := by
  unfold insertResizing
  split
  · exact h
  · split
    · exact h
    · rename_i block hblock
      simp only
      split
      · exact h.counted hQ _
      · rename_i block' hput
        have hnew := hP.insertDataOnSpecificPosition (h.all.group (-1) block (List.mem_of_getElem? hblock)) hput
        split_ifs
        · exact h.set hQ (d.column.size + 1) d.dstBlockIndex hnew
        · exact h.set hQ (d.column.size + 1) d.dstBlockIndex hnew

theorem filled_resizeRows (rowsLimit : Option ℕ) (rows : List (α × Bool)) {d : Target α} (h : Filled P Q c d.column) :
    Filled P Q c (resizeRows rowsLimit rows d).1.column := by
  induction rows generalizing d with
  | nil => exact h
  | cons row rows ih => exact filled_andThen (filled_insertResizing hP hQ h rowsLimit row) fun d hd => ih hd

theorem filled_resizeNullable (rowsLimit : Option ℕ) (bs : List (Block α)) {d : Target α} (h : Filled P Q c d.column) :
    Filled P Q c (resizeNullable rowsLimit bs d).1.column := by
  induction bs generalizing d with
  | nil => exact h
  | cons b bs ih =>
    unfold resizeNullable
    split_ifs
    · exact h
    · exact filled_andThen (filled_resizeRows hP hQ rowsLimit b.cells h) fun d hd => ih hd

theorem filled_insertInterval {d : Target α} (h : Filled P Q c d.column) (b : Block α) (srcRowIndex length : ℕ) :
    Filled P Q c (insertInterval d b srcRowIndex length).1 := by
  unfold insertInterval
  simp only
  split
  · exact h.counted hQ _
  · rename_i block hblock
    split
    · exact h.counted hQ _
    · rename_i block' hput
      have hnew := hP.insertDataInterval (h.all.group (-1) block (List.mem_of_getElem? hblock)) hput
      exact h.set hQ (d.column.size + length) d.dstBlockIndex hnew

theorem filled_resizeBlock (b : Block α) (fuel srcRowIndex : ℕ) {d : Target α} (h : Filled P Q c d.column) :
    Filled P Q c (resizeBlock b fuel srcRowIndex d).1.column := by
  induction fuel generalizing srcRowIndex d with
  | zero => exact h
  | succ fuel ih =>
    unfold resizeBlock
    simp only
    split_ifs
    · exact filled_andThen (filled_insertInterval hP hQ h b srcRowIndex _) fun d hd => ih _ hd
    · exact filled_insertInterval hP hQ h b srcRowIndex _
    · exact filled_insertInterval hP hQ h b srcRowIndex _

theorem filled_resizeNotNullable (bs : List (Block α)) {d : Target α} (h : Filled P Q c d.column) :
    Filled P Q c (resizeNotNullable bs d).1.column := by
  induction bs generalizing d with
  | nil => exact h
  | cons b bs ih => exact filled_andThen (filled_resizeBlock hP hQ b (b.size + 1) 0 h) fun d hd => ih hd

theorem filled_addBlocks {d : Column α} (h : Filled P Q c d) (count : ℕ) : Filled P Q c (d.addBlocks count) := by
  induction count generalizing d with
  | zero => exact h
  | succ count ih =>
    exact ih (d := d.addBlock (-1) true UINT32_MAX) (h.append hQ _ (hP.empty _ _ _ _))

theorem filled_resizeColumn (h : All P c) (hgroups : Q c) (rowsLimit : Option ℕ) (src : Column α) :
    Filled P Q c (c.resizeColumn rowsLimit src).1 := by
  have hc : Filled P Q c c := ⟨h, hgroups, rfl, rfl⟩
  unfold resizeColumn
  simp only
  split_ifs
  · exact hc
  · exact filled_resizeNullable hP hQ rowsLimit src.getBlocksList (d := ⟨_, 0, 0⟩) (filled_addBlocks hP hQ hc _)
  · exact filled_resizeNotNullable hP hQ src.getBlocksList (d := ⟨_, 0, 0⟩) (filled_addBlocks hP hQ hc _)

end Resize

/-! ## CopyDataToColumn -/

section Copy

variable {β : Type} {P : ℕ → Bool → Block α → Prop} {Q : Column α → Prop} (hP : Kept P) (conv : Conversion β α)
  {c : Column α}

include hP

omit hP in
theorem castMask_cases {b : Block β} {rows : List (α × Bool)} {new new' : Block α}
    (hok : castMask conv b rows new = .ok new') :
    (∃ m, new.setNullBitmask m = .ok new') ∨ ∃ m, new' = new.moveNullBitmask m := by
  unfold castMask at hok
  by_cases hcopies : conv.copiesMask = true
  · rw [if_pos hcopies] at hok
    split at hok
    · split_ifs at hok
      exact Or.inl ⟨_, hok⟩
    · exact Or.inl ⟨_, hok⟩
  · rw [if_neg hcopies] at hok
    exact Or.inr ⟨_, (Except.ok.inj hok).symm⟩

theorem filled_copyBlock {groupId : ℤ} (hQ : Regroups Q groupId) {dst : Column α} (h : Filled P Q c dst) (b : Block β) :
    Filled P Q c (copyBlock conv groupId b dst).1 := by
  unfold copyBlock
  split
  · exact h
  · rename_i rows _
    split
    · exact h.setGroup hQ dst.size (h.all.group groupId)
    · rename_i new hnew
      simp only
      split
      · exact h.append hQ _ (hP.ofData hnew)
      · rename_i new' hmask
        have hkept : P dst.blockSize dst.isNullable new' := by
          obtain ⟨m, hm⟩ | ⟨m, rfl⟩ := castMask_cases conv hmask
          · exact hP.setNullBitmask (hP.ofData hnew) hm
          · exact hP.moveNullBitmask m (hP.ofData hnew)
        have hadded := h.append hQ (dst.size + rows.length) (hP.ofData hnew)
        apply hadded.setGroup hQ (dst.size + rows.length)
        intro b' hb'
        rcases List.mem_append.1 hb' with hb' | hb'
        · exact h.all.group groupId b' hb'
        · obtain rfl := List.mem_singleton.1 hb'
          exact hkept

theorem filled_copyBlocks {groupId : ℤ} (hQ : Regroups Q groupId) (bs : List (Block β)) {dst : Column α}
    (h : Filled P Q c dst) :
    Filled P Q c (copyBlocks conv groupId bs dst).2.1 := by
  induction bs generalizing dst with
  | nil => exact h
  | cons b bs ih =>
    have hstep := filled_copyBlock hP conv hQ h b
    unfold copyBlocks
    split
    · rename_i dst' hcopy
      rw [hcopy] at hstep
      exact ih hstep
    · rename_i dst' e hcopy
      rw [hcopy] at hstep
      exact hstep

theorem filled_copyGroups (gs : List (ℤ × List (Block β))) (hQ : ∀ g ∈ gs, Regroups Q g.1) {dst : Column α}
    (h : Filled P Q c dst) :
    Filled P Q c (copyGroups conv gs dst).2.1 := by
  induction gs generalizing dst with
  | nil => exact h
  | cons g gs ih =>
    have hstep := filled_copyBlocks hP conv (hQ g List.mem_cons_self) g.2 h
    unfold copyGroups
    split
    · rename_i bs dst' hcopy
      rw [hcopy] at hstep
      exact ih (fun g' hg' => hQ g' (List.mem_cons_of_mem g hg')) hstep
    · rename_i bs dst' e hcopy
      rw [hcopy] at hstep
      exact hstep

/-- the target of a copy, also of one that an exception left -/
theorem filled_copyTo (conv : Option (Conversion β α)) (src : Column β) (hQ : ∀ g ∈ src.blocks, Regroups Q g.1)
    (h : All P c) (hgroups : Q c) : Filled P Q c (src.copyDataToColumn conv c).2.1 := by
  cases conv with
  | none => exact ⟨h, hgroups, rfl, rfl⟩
  | some conv => exact filled_copyGroups hP conv src.blocks hQ ⟨h, hgroups, rfl, rfl⟩

end Copy

/-! ## Masks -/

/-- the block has a mask just when the column is nullable -/
def Masked (_ : ℕ) (isNullable : Bool) (b : Block α) : Prop := b.isNullable = isNullable

section Masks

variable {b b' : Block α}

omit [Element α] in
theorem isNullable_setNullBits {start : ℕ} {bits : List Bool} (hok : Column.setNullBits b start bits = .ok b') :
    b'.isNullable = b.isNullable := by
  induction bits generalizing b start with
  | nil =>
    obtain rfl := Except.ok.inj hok
    rfl
  | cons bit bits ih =>
    cases bit with
    | false => exact ih hok
    | true =>
      simp only [Column.setNullBits, ↓reduceIte] at hok
      obtain ⟨b₁, h₁, hok⟩ := bind_eq_ok.1 hok
      rw [ih hok]
      unfold Block.setNullBit at h₁
      split at h₁
      · cases h₁
      · rename_i mask hmask
        obtain rfl := Except.ok.inj h₁
        simp [Block.isNullable, hmask]

theorem isNullable_ofData {blockSize : ℕ} {data : List α} {isNullable count saveNecessary : Bool} {index : ℕ}
    (hok : Block.ofData blockSize data isNullable count saveNecessary index = .ok b) : b.isNullable = isNullable := by
  have hempty := (Block.empty_valid (α := α) blockSize isNullable saveNecessary index).nullable
  unfold Block.ofData at hok
  split_ifs at hok with hlong hcount
  · obtain rfl := Except.ok.inj hok
    rw [Block.isNullable, (Block.setBlockStatistics_store _ _ _).bitMask]
    exact hempty
  · obtain rfl := Except.ok.inj hok
    exact hempty

theorem isNullable_insertData {data : List α} {saveNecessary : Bool}
    (hok : b.insertData data saveNecessary = .ok b') : b'.isNullable = b.isNullable := by
  unfold Block.insertData at hok
  split_ifs at hok
  obtain rfl := Except.ok.inj hok
  simp only [Block.isNullable, (Block.setBlockStatistics_store _ _ _).bitMask]

theorem isNullable_insertDataOnSpecificPosition {index : ℕ} {data : α} {isNullValue saveNecessary : Bool}
    (hok : b.insertDataOnSpecificPosition index data isNullValue saveNecessary = .ok b') :
    b'.isNullable = b.isNullable := by
  unfold Block.insertDataOnSpecificPosition at hok
  split_ifs at hok
  obtain ⟨m, hm, hok⟩ := bind_eq_ok.1 hok
  obtain rfl := Except.ok.inj hok
  simp only [Block.isNullable, (Block.updateBlockStatistics_store _ _ _).bitMask]
  unfold Block.putBit at hm
  split at hm
  · rename_i hmask
    split_ifs at hm
    obtain rfl := Except.ok.inj hm
    rw [hmask]
  · rename_i mask hmask
    split_ifs at hm <;> obtain rfl := Except.ok.inj hm <;> rw [hmask] <;> rfl

theorem isNullable_blockSplit {c : Column α} {halves : Block α × Block α} (h : b.isNullable = c.isNullable)
    (hok : c.blockSplit b = .ok halves) : halves.1.isNullable = c.isNullable ∧ halves.2.isNullable = c.isNullable := by
  obtain ⟨block1, h₁, hok⟩ := bind_eq_ok.1 hok
  obtain ⟨block2, h₂, hok⟩ := bind_eq_ok.1 hok
  split at hok
  · rename_i hc _
    obtain rfl := Except.ok.inj hok
    exact ⟨hc.symm, hc.symm⟩
  · cases hok
  · obtain rfl := Except.ok.inj hok
    exact ⟨(isNullable_ofData h₁).trans h, (isNullable_ofData h₂).trans h⟩

theorem isNullable_setNullBitmask {m : Mask} (hok : b.setNullBitmask m = .ok b') : b'.isNullable = b.isNullable := by
  unfold Block.setNullBitmask at hok
  split at hok
  · obtain rfl := Except.ok.inj hok
    rfl
  · rename_i mask hmask
    split_ifs at hok
    obtain rfl := Except.ok.inj hok
    rw [Block.isNullable, (Block.setBlockStatistics_store _ _ _).bitMask, Block.isNullable, hmask]
    rfl

theorem isNullable_moveNullBitmask (m : Mask) : (b.moveNullBitmask m).isNullable = b.isNullable := by
  obtain ⟨-, -, -, -, -, hmask⟩ := Block.moveNullBitmask_store b m
  rw [Block.isNullable, hmask, Block.isNullable, Option.isSome_map]

omit [Element α] in
theorem isNullable_setIsNullable (isNullable : Bool) : (b.setIsNullable isNullable).isNullable = isNullable := by
  unfold Block.setIsNullable
  split_ifs with hsame htrue
  · exact hsame
  · exact htrue.symm
  · exact (Bool.eq_false_of_not_eq_true htrue).symm

end Masks

/-- The blocks of a column have a mask just when the column is nullable. -/
theorem masked_kept : Kept (Masked (α := α)) where
  empty blockSize isNullable saveNecessary index :=
    (Block.empty_valid (α := α) blockSize isNullable saveNecessary index).nullable
  ofData := isNullable_ofData
  setNullBits h hok := (isNullable_setNullBits hok).trans h
  insertData h hok := (isNullable_insertData hok).trans h
  insertDataInterval h hok := (isNullable_insertData (Block.insertDataInterval_eq hok)).trans h
  insertDataOnSpecificPosition h hok := (isNullable_insertDataOnSpecificPosition hok).trans h
  blockSplit h hok := isNullable_blockSplit h hok
  setIsNullable isNullable' _ := isNullable_setIsNullable isNullable'
  setNullBitmask h hok := (isNullable_setNullBitmask hok).trans h
  moveNullBitmask m h := (isNullable_moveNullBitmask m).trans h

end QikkDB.BlockInvariant

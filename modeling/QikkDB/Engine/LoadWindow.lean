/-
LIMIT and OFFSET by partial loading (GpuSqlParser/Dispatcher/GpuSqlDispatcherVMFunctions.cu, `GetLoadSize`,
`GetBlockSize`): which rows of a block a SELECT without WHERE, GROUP BY, ORDER BY, aggregation and join loads.

The block of the first row and the block of the last row are sought by subtracting block sizes, then the window of the
current block is computed from the sizes up to these blocks. The arithmetic is that of int64_t; a result outside of its
range is `none`. Past the last block every size is 0.

Results:
- `seek_spec`: the block at which the search ends.
- `windows_select`: the loaded rows are those of LIMIT and OFFSET exactly when their sum is an int64_t, and LIMIT is 0,
  OFFSET is past the last row or OFFSET falls into the first block that has rows.
- `offset_second_block`: in the second block the window starts behind the last row.
-/
import Mathlib.Tactic

namespace QikkDB.LoadWindow

/-! ## Model -/

/-- the sizes of the blocks of a table: an int32_t number of them, each an int32_t -/
structure BlockSizes where
  sizes : List ℕ
  count : sizes.length < 2 ^ 31
  size : ∀ s ∈ sizes, s < 2 ^ 31

/-- an int64_t result -/
def int64 (z : ℤ) : Option ℤ := if -2 ^ 63 ≤ z ∧ z < 2 ^ 63 then some z else none

/-- the clauses of the query, as the listener passes them -/
structure Clauses where
  usingWhere : Bool
  usingGroupBy : Bool
  usingOrderBy : Bool
  usingAggregation : Bool
  usingJoin : Bool
  usingLoad : Bool
deriving DecidableEq, Repr

/-- a SELECT of columns with nothing but LIMIT and OFFSET -/
def plain : Clauses := ⟨false, false, false, false, false, true⟩

/-- `loadOffset_` and `loadSize_` -/
structure Window where
  loadOffset : ℤ
  loadSize : ℤ
deriving DecidableEq, Repr

/-- the loop that subtracts block sizes while `remaining` is not negative, and the decrement behind it -/
def seekFrom : List ℕ → ℤ → ℤ → Option ℤ
  | [], idx, _ => some (idx - 1)
  | s :: sizes, idx, remaining =>
    if 0 ≤ remaining then do
      let remaining ← int64 (remaining - s)
      seekFrom sizes (idx + 1) remaining
    else some (idx - 1)

def seek (sizes : List ℕ) (remaining : ℤ) : Option ℤ := seekFrom sizes 0 remaining

/-- the sum of the first sizes -/
def dataSize (sizes : List ℕ) : Option ℤ := sizes.foldlM (fun (sum : ℤ) (s : ℕ) => int64 (sum + s)) 0

/-- `GetBlockSize` of each block; no block has a size when the current block is past the last one -/
def blockSizes (t : BlockSizes) (blockIndex : ℕ) : List ℕ :=
  if blockIndex < t.sizes.length then t.sizes else t.sizes.map fun _ => 0

/-- the window after the check for the block that OFFSET falls into -/
def offsetWindow (sizes : List ℕ) (blockIndex offset offsetBlockIdx currentBlockSize : ℤ) : Option Window :=
  if blockIndex = offsetBlockIdx then do
    let offsetBlockDataSize ← dataSize (sizes.take (offsetBlockIdx + 1).toNat)
    let behind ← int64 (offsetBlockDataSize - offset)
    let loadSize := min behind currentBlockSize
    let before ← int64 (offsetBlockDataSize - loadSize)
    some ⟨min before currentBlockSize, loadSize⟩
  else some ⟨0, 0⟩

/-- the window after the check for the block that the last row falls into -/
def limitWindow (sizes : List ℕ) (blockIndex offsetLimit offsetLimitBlockIdx currentBlockSize : ℤ) (w : Window) :
    Option Window :=
  if blockIndex = offsetLimitBlockIdx then do
    let offsetLimitBlockDataSize ← dataSize (sizes.take offsetLimitBlockIdx.toNat)
    let behind ← int64 (offsetLimit - offsetLimitBlockDataSize)
    let loadSize ← int64 (min behind currentBlockSize - w.loadOffset)
    some { w with loadSize := loadSize }
  else some w

/-- `GetLoadSize` -/
def getLoadSize (t : BlockSizes) (blockIndex : ℕ) (c : Clauses) (offset limit : ℤ) : Option Window :=
  let sizes := blockSizes t blockIndex
  let currentBlockSize : ℤ := (sizes.getD blockIndex 0 : ℕ)
  if c.usingWhere || c.usingGroupBy || c.usingOrderBy || c.usingAggregation || c.usingJoin || !c.usingLoad then
    some ⟨0, currentBlockSize⟩
  else do
    let offsetBlockIdx ← seek sizes offset
    let offsetLimit ← int64 (offset + limit)
    let offsetLimitBlockIdx ← seek sizes offsetLimit
    let w ← offsetWindow sizes blockIndex offset offsetBlockIdx currentBlockSize
    let w ← limitWindow sizes blockIndex offsetLimit offsetLimitBlockIdx currentBlockSize w
    if offsetBlockIdx < blockIndex ∧ blockIndex < offsetLimitBlockIdx then
      some { w with loadSize := currentBlockSize }
    else some w

/-- the rows of a block that are loaded -/
def Window.rows {α : Type} (w : Window) (block : List α) : List α :=
  if 0 < w.loadSize then (block.drop w.loadOffset.toNat).take w.loadSize.toNat else []

/-- a row by its block and its place in it -/
def blockRows (sizes : List ℕ) : List (List (ℕ × ℕ)) :=
  sizes.zipIdx.map fun s => (List.range s.1).map fun i => (s.2, i)

/-- No call of the query overflows, the loaded rows are those of LIMIT and OFFSET, and each window lies in its block. -/
def Selects (t : BlockSizes) (offset limit : ℕ) : Prop :=
  ∃ w : ℕ → Window, (∀ b, getLoadSize t b plain offset limit = some (w b)) ∧
    ((blockRows t.sizes).zipIdx.map fun block => (w block.2).rows block.1).flatten =
      ((blockRows t.sizes).flatten.drop offset).take limit ∧
    ∀ (b s : ℕ), t.sizes[b]? = some s → 0 < (w b).loadSize →
      0 ≤ (w b).loadOffset ∧ (w b).loadOffset + (w b).loadSize ≤ s

/-- the size of the first block that has rows -/
def firstSize (sizes : List ℕ) : ℕ := (sizes.find? fun s => 0 < s).getD 0

/-! ## Loops -/

/-- rows before a block -/
def rowsBefore (sizes : List ℕ) (b : ℕ) : ℕ := (sizes.take b).sum

theorem rowsBefore_mono (sizes : List ℕ) {a b : ℕ} (h : a ≤ b) : rowsBefore sizes a ≤ rowsBefore sizes b :=
  (List.take_sublist_take_left h).sum_le_sum fun _ _ => Nat.zero_le _

theorem rowsBefore_le_sum (sizes : List ℕ) (b : ℕ) : rowsBefore sizes b ≤ sizes.sum :=
  (List.take_sublist b sizes).sum_le_sum fun _ _ => Nat.zero_le _

theorem rowsBefore_succ (sizes : List ℕ) (b : ℕ) :
    rowsBefore sizes (b + 1) = rowsBefore sizes b + sizes.getD b 0 := by
  simp only [rowsBefore, List.take_add_one, List.sum_append, List.getD_eq_getElem?_getD]
  cases sizes[b]? with
  | none => simp
  | some s => simp

theorem int64_of_mem {z : ℤ} (h : -2 ^ 63 ≤ z) (h' : z < 2 ^ 63) : int64 z = some z := if_pos ⟨h, h'⟩

/-- sizes that fit, as `GetBlockSize` gives them -/
structure Fits (sizes : List ℕ) : Prop where
  count : sizes.length < 2 ^ 31
  size : ∀ s ∈ sizes, s < 2 ^ 31

theorem fits_blockSizes (t : BlockSizes) (b : ℕ) : Fits (blockSizes t b) := by
  unfold blockSizes
  split
  · exact ⟨t.count, t.size⟩
  · exact ⟨by simpa using t.count, by simp⟩

theorem sum_le_of_fits {sizes : List ℕ} (h : Fits sizes) : sizes.sum < 2 ^ 62 := by
  have hsum : sizes.sum ≤ sizes.length * 2 ^ 31 := by
    have := List.sum_le_card_nsmul sizes (2 ^ 31) fun s hs => (h.size s hs).le
    simpa using this
  have := h.count
  omega

theorem foldlM_dataSize (sizes : List ℕ) (acc : ℕ) (h : acc + sizes.sum < 2 ^ 63) :
    sizes.foldlM (fun (sum : ℤ) (s : ℕ) => int64 (sum + s)) (acc : ℤ) = some ((acc + sizes.sum : ℕ) : ℤ) := by
  induction sizes generalizing acc with
  | nil => simp
  | cons s sizes ih =>
    simp only [List.sum_cons] at h
    rw [List.foldlM_cons, int64_of_mem (by omega) (by omega)]
    have := ih (acc + s) (by omega)
    push_cast at this ⊢
    simpa [add_assoc] using this

theorem dataSize_eq {sizes : List ℕ} (h : Fits sizes) (b : ℕ) :
    dataSize (sizes.take b) = some (rowsBefore sizes b : ℤ) := by
  have hle := rowsBefore_le_sum sizes b
  have hlt := sum_le_of_fits h
  have := foldlM_dataSize (sizes.take b) 0 (by unfold rowsBefore at hle; omega)
  simpa [dataSize, rowsBefore] using this

/-- The loop stops at a block whose rows go past `remaining`, or at the last block. -/
theorem seekFrom_spec (sizes : List ℕ) (hsize : ∀ s ∈ sizes, s < 2 ^ 31) (idx remaining : ℤ)
    (hrem : remaining < 2 ^ 63) :
    ∃ c ≤ sizes.length, seekFrom sizes idx remaining = some (idx + c - 1) ∧
      (∀ k < c, (rowsBefore sizes k : ℤ) ≤ remaining) ∧ (c < sizes.length → remaining < rowsBefore sizes c) := by
  induction sizes generalizing idx remaining with
  | nil => exact ⟨0, le_rfl, by simp [seekFrom], by simp, by simp⟩
  | cons s sizes ih =>
    by_cases hneg : 0 ≤ remaining
    · have hs := hsize s List.mem_cons_self
      obtain ⟨c, hc, heq, hbefore, hstop⟩ := ih (fun x hx => hsize x (List.mem_cons_of_mem s hx)) (idx + 1)
        (remaining - s) (by omega)
      refine ⟨c + 1, by simpa using hc, ?_, ?_, ?_⟩
      · simp only [seekFrom, hneg, if_true, int64_of_mem (show -2 ^ 63 ≤ remaining - s by omega) (by omega)]
        change seekFrom sizes (idx + 1) (remaining - s) = _
        rw [heq]
        push_cast
        congr 1
        ring
      · intro k hk
        cases k with
        | zero => simpa [rowsBefore] using hneg
        | succ k =>
          have := hbefore k (by omega)
          simp only [rowsBefore, List.take_succ_cons, List.sum_cons] at this ⊢
          omega
      · intro hlt
        have := hstop (by simpa using hlt)
        simp only [rowsBefore, List.take_succ_cons, List.sum_cons] at this ⊢
        omega
    · refine ⟨0, Nat.zero_le _, ?_, by simp, ?_⟩
      · simp [seekFrom, hneg]
      · intro _
        simpa [rowsBefore] using hneg

/-- the number of blocks up to the one that holds a row, or up to the last block -/
structure Sought (sizes : List ℕ) (row c : ℕ) : Prop where
  le : c ≤ sizes.length
  before : ∀ k < c, rowsBefore sizes k ≤ row
  stop : c < sizes.length → row < rowsBefore sizes c

theorem seek_spec {sizes : List ℕ} (h : Fits sizes) {row : ℕ} (hrow : row < 2 ^ 63) :
    ∃ c, Sought sizes row c ∧ seek sizes row = some ((c : ℤ) - 1) := by
  obtain ⟨c, hc, heq, hbefore, hstop⟩ := seekFrom_spec sizes h.size 0 row (by omega)
  refine ⟨c, ⟨hc, fun k hk => ?_, fun hlt => ?_⟩, by simpa [seek] using heq⟩
  · exact_mod_cast hbefore k hk
  · exact_mod_cast hstop hlt

theorem Sought.mono {sizes : List ℕ} {row row' c c' : ℕ} (h : Sought sizes row c) (h' : Sought sizes row' c')
    (hle : row ≤ row') : c ≤ c' := by
  by_contra hlt
  have h1 := h.before c' (by omega)
  have h2 := h'.stop (by have := h.le; omega)
  omega

/-- what `offsetWindow` gives for the block b -/
def offsetPart (sizes : List ℕ) (offset b : ℕ) : Window :=
  let size : ℤ := (sizes.getD b 0 : ℕ)
  let loadSize := min ((rowsBefore sizes (b + 1) : ℤ) - offset) size
  ⟨min (rowsBefore sizes (b + 1) - loadSize) size, loadSize⟩

/-- what `limitWindow` gives for the block b -/
def limitPart (sizes : List ℕ) (offsetLimit b : ℕ) (w : Window) : Window :=
  { w with loadSize := min ((offsetLimit : ℤ) - rowsBefore sizes b) (sizes.getD b 0 : ℕ) - w.loadOffset }

/-- the window of a block, by the numbers of blocks up to OFFSET and up to the last row -/
def windowOf (sizes : List ℕ) (offset offsetLimit c c' b : ℕ) : Window :=
  let w : Window := if b + 1 = c then offsetPart sizes offset b else ⟨0, 0⟩
  let w : Window := if b + 1 = c' then limitPart sizes offsetLimit b w else w
  if c ≤ b ∧ b + 1 < c' then { w with loadSize := (sizes.getD b 0 : ℕ) } else w

theorem getD_lt_of_fits {sizes : List ℕ} (h : Fits sizes) (b : ℕ) : sizes.getD b 0 < 2 ^ 31 := by
  rw [List.getD_eq_getElem?_getD]
  cases hb : sizes[b]? with
  | none => simp
  | some s => simpa using h.size s (List.mem_of_getElem? hb)

theorem offsetWindow_eq {sizes : List ℕ} (h : Fits sizes) {offset : ℕ} (hoffset : offset < 2 ^ 63) (b c : ℕ) :
    offsetWindow sizes b offset ((c : ℤ) - 1) (sizes.getD b 0 : ℕ) =
      some (if b + 1 = c then offsetPart sizes offset b else ⟨0, 0⟩) := by
  by_cases hbc : b + 1 = c
  · subst hbc
    have hsize := getD_lt_of_fits h b
    have hle := rowsBefore_le_sum sizes (b + 1)
    have hlt := sum_le_of_fits h
    have htake : (((b + 1 : ℕ) : ℤ) - 1 + 1).toNat = b + 1 := by omega
    rw [offsetWindow, if_pos (by omega), if_pos rfl, htake, dataSize_eq h]
    simp only [Option.bind_eq_bind, Option.bind_some]
    rw [int64_of_mem (by omega) (by omega), Option.bind_some, int64_of_mem (by omega) (by omega), Option.bind_some]
    rfl
  · rw [offsetWindow, if_neg (by omega), if_neg hbc]

theorem limitWindow_eq {sizes : List ℕ} (h : Fits sizes) {offsetLimit : ℕ} (hlimit : offsetLimit < 2 ^ 63) (b c : ℕ)
    {w : Window} (hw : 0 ≤ w.loadOffset) (hw' : w.loadOffset < 2 ^ 62) :
    limitWindow sizes b offsetLimit ((c : ℤ) - 1) (sizes.getD b 0 : ℕ) w =
      some (if b + 1 = c then limitPart sizes offsetLimit b w else w) := by
  by_cases hbc : b + 1 = c
  · subst hbc
    have hsize := getD_lt_of_fits h b
    have hle := rowsBefore_le_sum sizes b
    have hlt := sum_le_of_fits h
    have htake : (((b + 1 : ℕ) : ℤ) - 1).toNat = b := by omega
    rw [limitWindow, if_pos (by omega), if_pos rfl, htake, dataSize_eq h]
    simp only [Option.bind_eq_bind, Option.bind_some]
    rw [int64_of_mem (by omega) (by omega), Option.bind_some, int64_of_mem (by omega) (by omega), Option.bind_some]
    rfl
  · rw [limitWindow, if_neg (by omega), if_neg hbc]

theorem offsetPart_loadOffset {sizes : List ℕ} (h : Fits sizes) (offset b : ℕ) :
    0 ≤ (offsetPart sizes offset b).loadOffset ∧ (offsetPart sizes offset b).loadOffset < 2 ^ 62 := by
  have hsize := getD_lt_of_fits h b
  have hsucc := rowsBefore_succ sizes b
  simp only [offsetPart]
  omega

theorem getLoadSize_eq {t : BlockSizes} {b offset limit c c' : ℕ} (hsum : offset + limit < 2 ^ 63)
    (hseek : seek (blockSizes t b) offset = some ((c : ℤ) - 1))
    (hseek' : seek (blockSizes t b) ((offset + limit : ℕ) : ℤ) = some ((c' : ℤ) - 1)) :
    getLoadSize t b plain offset limit = some (windowOf (blockSizes t b) offset (offset + limit) c c' b) := by
  have hfits := fits_blockSizes t b
  set sizes := blockSizes t b with hsizes
  set w : Window := if b + 1 = c then offsetPart sizes offset b else ⟨0, 0⟩ with hw
  have hbound : 0 ≤ w.loadOffset ∧ w.loadOffset < 2 ^ 62 := by
    rw [hw]
    split
    · exact offsetPart_loadOffset hfits offset b
    · norm_num
  have hoffset := offsetWindow_eq hfits (show offset < 2 ^ 63 by omega) b c
  have hlimit := limitWindow_eq hfits hsum b c' hbound.1 hbound.2
  have hmiddle : ((c : ℤ) - 1 < b ∧ (b : ℤ) < (c' : ℤ) - 1) ↔ c ≤ b ∧ b + 1 < c' := by omega
  have hcast : (offset : ℤ) + limit = ((offset + limit : ℕ) : ℤ) := by push_cast; rfl
  simp only [getLoadSize, plain, Bool.or_self, Bool.not_true, Bool.false_eq_true, if_false, ← hsizes, hseek,
    Option.bind_eq_bind, Option.bind_some, hcast, int64_of_mem (show -2 ^ 63 ≤ ((offset + limit : ℕ) : ℤ) by omega)
    (by omega), hseek', hoffset, ← hw, hlimit, hmiddle]
  unfold windowOf
  simp only [← hw]
  split <;> rfl

/-- a call returns when the sum of OFFSET and LIMIT is an int64_t -/
theorem getLoadSize_isSome (t : BlockSizes) (b : ℕ) {offset limit : ℕ} (hsum : offset + limit < 2 ^ 63) :
    ∃ c c', Sought (blockSizes t b) offset c ∧ Sought (blockSizes t b) (offset + limit) c' ∧
      getLoadSize t b plain offset limit = some (windowOf (blockSizes t b) offset (offset + limit) c c' b) := by
  obtain ⟨c, hc, hseek⟩ := seek_spec (fits_blockSizes t b) (show offset < 2 ^ 63 by omega)
  obtain ⟨c', hc', hseek'⟩ := seek_spec (fits_blockSizes t b) hsum
  exact ⟨c, c', hc, hc', getLoadSize_eq hsum hseek hseek'⟩

theorem getLoadSize_overflow (t : BlockSizes) (b : ℕ) {offset limit : ℕ} (hsum : ¬ offset + limit < 2 ^ 63) :
    getLoadSize t b plain offset limit = none := by
  have hnone : int64 ((offset : ℤ) + limit) = none := if_neg (by omega)
  simp only [getLoadSize, plain, Bool.or_self, Bool.not_true, Bool.false_eq_true, if_false, hnone,
    Option.bind_eq_bind, Option.bind_none]
  cases seek (blockSizes t b) offset with
  | none => rfl
  | some _ => rfl

/-! ## Rows -/

/-- dropping and taking rows of a table, block by block -/
theorem drop_take_flatten {α : Type} (blocks : List (List α)) (offset limit : ℕ) :
    (blocks.flatten.drop offset).take limit = (blocks.zipIdx.map fun b =>
      (b.1.drop (offset - rowsBefore (blocks.map List.length) b.2)).take
        (limit - (rowsBefore (blocks.map List.length) b.2 - offset))).flatten := by
  induction blocks generalizing offset limit with
  | nil => simp
  | cons block blocks ih =>
    have hrest : ∀ i, offset - rowsBefore ((block :: blocks).map List.length) (i + 1) =
          offset - block.length - rowsBefore (blocks.map List.length) i ∧
        limit - (rowsBefore ((block :: blocks).map List.length) (i + 1) - offset) =
          limit - (block.length - offset) - (rowsBefore (blocks.map List.length) i - (offset - block.length)) := by
      intro i
      simp only [rowsBefore, List.map_cons, List.take_succ_cons, List.sum_cons]
      omega
    rw [List.flatten_cons, List.drop_append, List.take_append, List.length_drop, ih, List.zipIdx_cons,
      List.map_cons, List.flatten_cons, Nat.zero_add, List.zipIdx_succ, List.map_map]
    congr 1
    · simp [rowsBefore]
    · congr 1
      refine List.map_congr_left fun b _ => ?_
      simp only [Function.comp_apply, (hrest b.2).1, (hrest b.2).2]

theorem map_length_blockRows (sizes : List ℕ) : (blockRows sizes).map List.length = sizes := by
  simp only [blockRows, List.map_map]
  calc sizes.zipIdx.map (List.length ∘ fun s => (List.range s.1).map fun i => (s.2, i))
      = sizes.zipIdx.map Prod.fst := List.map_congr_left fun s _ => by simp
    _ = sizes := List.zipIdx_map_fst 0 sizes

theorem getElem?_blockRows (sizes : List ℕ) (b : ℕ) :
    (blockRows sizes)[b]? = sizes[b]?.map fun s => (List.range s).map fun i => (b, i) := by
  simp only [blockRows, List.getElem?_map, List.getElem?_zipIdx, Nat.zero_add, Option.map_map]
  rfl

/-! ## Windows -/

section Windows

variable {sizes : List ℕ} {offset limit c c' b : ℕ}

/-- The window is that of LIMIT and OFFSET, or nothing is loaded and no row of the block is due. -/
def Exact (sizes : List ℕ) (offset limit b : ℕ) (w : Window) : Prop :=
  (0 < w.loadSize ∧ w.loadOffset = (offset - rowsBefore sizes b : ℕ) ∧
      w.loadOffset + w.loadSize = min (sizes.getD b 0 : ℤ) (offset + limit - rowsBefore sizes b)) ∨
    (w.loadSize ≤ 0 ∧ (rowsBefore sizes (b + 1) ≤ offset ∨ limit = 0 ∨ offset + limit ≤ rowsBefore sizes b ∨
      sizes.getD b 0 = 0))

/-- the part of a block that starts at or before OFFSET -/
theorem offsetPart_eq (hbefore : rowsBefore sizes b ≤ offset) :
    offsetPart sizes offset b = ⟨min (offset : ℤ) (sizes.getD b 0 : ℕ), (rowsBefore sizes (b + 1) : ℤ) - offset⟩ := by
  have hsucc := rowsBefore_succ sizes b
  have hmin : min ((rowsBefore sizes (b + 1) : ℤ) - offset) (sizes.getD b 0 : ℕ) =
      (rowsBefore sizes (b + 1) : ℤ) - offset := min_eq_left (by omega)
  simp only [offsetPart, hmin, sub_sub_cancel]

theorem windowOf_exact (hc : Sought sizes offset c) (hc' : Sought sizes (offset + limit) c') (hb : b < sizes.length)
    (hcond : limit = 0 ∨ sizes.sum ≤ offset ∨ rowsBefore sizes (c - 1) = 0) :
    Exact sizes offset limit b (windowOf sizes offset (offset + limit) c c' b) := by
  have hle := hc.mono hc' (by omega)
  have hsucc := rowsBefore_succ sizes b
  have htotal : rowsBefore sizes sizes.length = sizes.sum := by simp [rowsBefore]
  have hlast : sizes.sum ≤ offset → c = sizes.length := by
    intro hsum
    by_contra hne
    have h1 := hc.stop (by have := hc.le; omega)
    have h2 := rowsBefore_le_sum sizes c
    omega
  rcases Nat.lt_trichotomy (b + 1) c with hlt | heq | hgt
  · -- a block before OFFSET
    have hbefore := hc.before (b + 1) hlt
    have hw : windowOf sizes offset (offset + limit) c c' b = ⟨0, 0⟩ := by
      simp only [windowOf]
      rw [if_neg (by omega), if_neg (by omega), if_neg (by omega)]
    rw [hw]
    exact Or.inr ⟨le_rfl, Or.inl hbefore⟩
  · have hbefore := hc.before b (by omega)
    have hat : b = c - 1 := by omega
    rw [← hat] at hcond
    have hend : sizes.sum ≤ offset → rowsBefore sizes (b + 1) = sizes.sum := by
      intro hsum
      rw [heq, hlast hsum, htotal]
    by_cases hc'c : b + 1 = c'
    · -- OFFSET and the last row in one block
      have hw : windowOf sizes offset (offset + limit) c c' b =
          limitPart sizes (offset + limit) b (offsetPart sizes offset b) := by
        simp only [windowOf]
        rw [if_pos heq, if_pos hc'c, if_neg (by omega)]
      rw [hw, offsetPart_eq hbefore]
      simp only [Exact, limitPart]
      rcases hcond with hzero | hsum | hfirst
      · omega
      · have := hend hsum
        omega
      · omega
    · have hstop := hc.stop (by have := hc'.le; omega)
      have hbefore' := hc'.before (b + 1) (by omega)
      have hw : windowOf sizes offset (offset + limit) c c' b = offsetPart sizes offset b := by
        simp only [windowOf]
        rw [if_pos heq, if_neg hc'c, if_neg (by omega)]
      rw [hw, offsetPart_eq hbefore]
      simp only [Exact]
      rw [← heq] at hstop
      rcases hcond with hzero | hsum | hfirst
      · omega
      · have := hend hsum
        omega
      · omega
  · -- a block behind OFFSET
    have hstop := hc.stop (by omega)
    have hmono := rowsBefore_mono sizes (show c ≤ b by omega)
    rcases Nat.lt_trichotomy (b + 1) c' with hlt' | heq' | hgt'
    · have hbefore' := hc'.before (b + 1) hlt'
      have hw : windowOf sizes offset (offset + limit) c c' b = ⟨0, (sizes.getD b 0 : ℕ)⟩ := by
        simp only [windowOf]
        rw [if_neg (show ¬ b + 1 = c by omega), if_neg (show ¬ b + 1 = c' by omega), if_pos ⟨by omega, hlt'⟩]
      rw [hw]
      simp only [Exact]
      omega
    · have hbefore' := hc'.before b (by omega)
      have hw : windowOf sizes offset (offset + limit) c c' b = limitPart sizes (offset + limit) b ⟨0, 0⟩ := by
        simp only [windowOf]
        rw [if_neg (show ¬ b + 1 = c by omega), if_pos heq', if_neg (by omega)]
      rw [hw]
      simp only [Exact, limitPart]
      omega
    · have hstop' := hc'.stop (by omega)
      have hmono' := rowsBefore_mono sizes (show c' ≤ b by omega)
      have hw : windowOf sizes offset (offset + limit) c c' b = ⟨0, 0⟩ := by
        simp only [windowOf]
        rw [if_neg (by omega), if_neg (by omega), if_neg (by omega)]
      rw [hw]
      exact Or.inr ⟨le_rfl, Or.inr (Or.inr (Or.inl (by omega)))⟩

theorem Exact.rows {α : Type} {w : Window} (h : Exact sizes offset limit b w) {block : List α}
    (hblock : block.length = sizes.getD b 0) :
    w.rows block = (block.drop (offset - rowsBefore sizes b)).take (limit - (rowsBefore sizes b - offset)) := by
  have hsucc := rowsBefore_succ sizes b
  rcases h with ⟨hpos, hoff, hsum⟩ | ⟨hnone, hwhy⟩
  · have hto : w.loadOffset.toNat = offset - rowsBefore sizes b := by omega
    rw [Window.rows, if_pos hpos, hto]
    refine List.take_eq_take_iff.2 ?_
    rw [List.length_drop]
    omega
  · rw [Window.rows, if_neg (by omega)]
    symm
    rw [List.take_eq_nil_iff, List.drop_eq_nil_iff]
    omega

theorem Exact.bounds {w : Window} (h : Exact sizes offset limit b w) (hpos : 0 < w.loadSize) :
    0 ≤ w.loadOffset ∧ w.loadOffset + w.loadSize ≤ (sizes.getD b 0 : ℕ) := by
  rcases h with ⟨-, hoff, hsum⟩ | ⟨hnone, -⟩
  · omega
  · omega

/-- The window of the block of OFFSET does not hold the first row that is due when rows come before the block. -/
theorem windowOf_misses (hc : Sought sizes offset c) (hc' : Sought sizes (offset + limit) c') (hb : b + 1 = c)
    (hrow : offset < rowsBefore sizes (b + 1)) (hfirst : rowsBefore sizes b ≠ 0) {w : Window}
    (hw : windowOf sizes offset (offset + limit) c c' b = w)
    (hin : 0 < w.loadSize → w.loadOffset + w.loadSize ≤ (sizes.getD b 0 : ℕ)) :
    w.loadSize ≤ 0 ∨ ((offset - rowsBefore sizes b : ℕ) : ℤ) < w.loadOffset := by
  have hbefore := hc.before b (by omega)
  have hsucc := rowsBefore_succ sizes b
  have hle := hc.mono hc' (by omega)
  subst hw
  by_cases hc'c : b + 1 = c'
  · have hw : windowOf sizes offset (offset + limit) c c' b =
        limitPart sizes (offset + limit) b (offsetPart sizes offset b) := by
      simp only [windowOf]
      rw [if_pos hb, if_pos hc'c, if_neg (by omega)]
    rw [hw, offsetPart_eq hbefore]
    simp only [limitPart]
    omega
  · have hw : windowOf sizes offset (offset + limit) c c' b = offsetPart sizes offset b := by
      simp only [windowOf]
      rw [if_pos hb, if_neg hc'c, if_neg (by omega)]
    rw [hw, offsetPart_eq hbefore] at hin ⊢
    simp only at hin ⊢
    omega

end Windows

/-! ## LIMIT and OFFSET -/

theorem firstSize_spec {sizes : List ℕ} {row : ℕ} (h : row < firstSize sizes) :
    ∃ b, b < sizes.length ∧ rowsBefore sizes b = 0 ∧ row < sizes.getD b 0 := by
  unfold firstSize at h
  induction sizes with
  | nil => simp at h
  | cons s sizes ih =>
    by_cases hs : 0 < s
    · refine ⟨0, by simp, rfl, ?_⟩
      simpa [List.find?_cons, hs] using h
    · obtain ⟨b, hlt, hzero, hrow⟩ := ih (by simpa [List.find?_cons, hs] using h)
      refine ⟨b + 1, by simpa using hlt, ?_, by simpa using hrow⟩
      simp only [rowsBefore, List.take_succ_cons, List.sum_cons] at hzero ⊢
      omega

theorem lt_firstSize {sizes : List ℕ} {row b : ℕ} (hzero : rowsBefore sizes b = 0) (hrow : row < sizes.getD b 0) :
    row < firstSize sizes := by
  unfold firstSize
  induction sizes generalizing b with
  | nil => simp at hrow
  | cons s sizes ih =>
    by_cases hs : 0 < s
    · cases b with
      | zero => simpa [List.find?_cons, hs] using hrow
      | succ b =>
        simp only [rowsBefore, List.take_succ_cons, List.sum_cons] at hzero
        omega
    · cases b with
      | zero =>
        simp only [List.getD_cons_zero] at hrow
        omega
      | succ b =>
        simp only [List.getD_cons_succ] at hrow
        simp only [rowsBefore, List.take_succ_cons, List.sum_cons] at hzero
        have := ih (b := b) (by unfold rowsBefore; omega) hrow
        simpa [List.find?_cons, hs] using this

theorem Sought.first {sizes : List ℕ} {offset c : ℕ} (hc : Sought sizes offset c) (h : offset < firstSize sizes) :
    rowsBefore sizes (c - 1) = 0 := by
  obtain ⟨b, hb, hzero, hrow⟩ := firstSize_spec h
  have hcb : c ≤ b + 1 := by
    by_contra hlt
    have := hc.before (b + 1) (by omega)
    rw [rowsBefore_succ] at this
    omega
  have := rowsBefore_mono sizes (show c - 1 ≤ b by omega)
  omega


theorem blockSizes_of_lt {t : BlockSizes} {b : ℕ} (hb : b < t.sizes.length) : blockSizes t b = t.sizes := if_pos hb

/-- the calls of a query that selects: the windows of all blocks, from two searches -/
theorem windows_of_lt (t : BlockSizes) {offset limit : ℕ} (hsum : offset + limit < 2 ^ 63) :
    ∃ c c', Sought t.sizes offset c ∧ Sought t.sizes (offset + limit) c' ∧ ∀ b < t.sizes.length,
      getLoadSize t b plain offset limit = some (windowOf t.sizes offset (offset + limit) c c' b) := by
  obtain ⟨c, hc, hseek⟩ := seek_spec ⟨t.count, t.size⟩ (show offset < 2 ^ 63 by omega)
  obtain ⟨c', hc', hseek'⟩ := seek_spec ⟨t.count, t.size⟩ hsum
  refine ⟨c, c', hc, hc', fun b hb => ?_⟩
  have hsizes := blockSizes_of_lt hb
  have := getLoadSize_eq hsum (t := t) (b := b) (by rw [hsizes]; exact hseek) (by rw [hsizes]; exact hseek')
  rwa [hsizes] at this

theorem selects_of_exact {t : BlockSizes} {offset limit : ℕ} {w : ℕ → Window}
    (hcalls : ∀ b, getLoadSize t b plain offset limit = some (w b))
    (hexact : ∀ b < t.sizes.length, Exact t.sizes offset limit b (w b)) : Selects t offset limit := by
  refine ⟨w, hcalls, ?_, ?_⟩
  · rw [drop_take_flatten, map_length_blockRows]
    congr 1
    refine List.map_congr_left fun block hblock => ?_
    rw [List.mem_zipIdx_iff_getElem?, getElem?_blockRows] at hblock
    obtain ⟨s, hs, hrows⟩ := Option.map_eq_some_iff.1 hblock
    refine (hexact block.2 (List.getElem?_eq_some_iff.1 hs).1).rows ?_
    rw [← hrows, List.getD_eq_getElem?_getD, hs]
    simp
  · intro b s hs hpos
    have := (hexact b (List.getElem?_eq_some_iff.1 hs).1).bounds hpos
    rwa [List.getD_eq_getElem?_getD, hs] at this

/-- the first row that is due is loaded from its block -/
theorem loaded_of_selects {t : BlockSizes} {offset limit b : ℕ} {w : ℕ → Window} (hlimit : 0 < limit)
    (hrows : ((blockRows t.sizes).zipIdx.map fun block => (w block.2).rows block.1).flatten =
      ((blockRows t.sizes).flatten.drop offset).take limit)
    (hb : rowsBefore t.sizes b ≤ offset) (hrow : offset < rowsBefore t.sizes (b + 1)) :
    0 < (w b).loadSize ∧ (w b).loadOffset ≤ (offset - rowsBefore t.sizes b : ℕ) := by
  have hsucc := rowsBefore_succ t.sizes b
  obtain ⟨s, hs⟩ : ∃ s, t.sizes[b]? = some s := by
    cases hs : t.sizes[b]? with
    | none =>
      rw [List.getD_eq_getElem?_getD, hs] at hsucc
      simp at hsucc
      omega
    | some s => exact ⟨s, rfl⟩
  have hsize : t.sizes.getD b 0 = s := by rw [List.getD_eq_getElem?_getD, hs]; rfl
  have hblock : ((blockRows t.sizes)[b]? = some ((List.range s).map fun i => (b, i))) := by
    rw [getElem?_blockRows, hs]
    rfl
  -- the row is one of those that are due
  have hdue : (b, offset - rowsBefore t.sizes b) ∈ ((blockRows t.sizes).flatten.drop offset).take limit := by
    rw [drop_take_flatten, map_length_blockRows]
    refine List.mem_flatten.2 ⟨_, List.mem_map.2 ⟨(_, b), List.mem_zipIdx_iff_getElem?.2 hblock, rfl⟩, ?_⟩
    refine List.mem_of_getElem? (i := 0) ?_
    dsimp only
    rw [List.getElem?_take_of_lt (by omega), List.getElem?_drop, List.getElem?_map,
      List.getElem?_range (by omega)]
    rfl
  rw [← hrows] at hdue
  obtain ⟨rows, hmem, hin⟩ := List.mem_flatten.1 hdue
  obtain ⟨⟨block, b'⟩, hblock', rfl⟩ := List.mem_map.1 hmem
  rw [List.mem_zipIdx_iff_getElem?, getElem?_blockRows] at hblock'
  dsimp only at hblock' hin
  obtain ⟨s', hs', rfl⟩ := Option.map_eq_some_iff.1 hblock'
  unfold Window.rows at hin
  split at hin
  · rename_i hpos
    obtain ⟨i, hi⟩ := List.mem_iff_getElem?.1 (List.mem_of_mem_take hin)
    rw [List.getElem?_drop, List.getElem?_map] at hi
    obtain ⟨j, hj, heq⟩ := Option.map_eq_some_iff.1 hi
    obtain ⟨rfl, hij⟩ := Prod.mk.inj heq
    obtain ⟨hlt, hget⟩ := List.getElem?_eq_some_iff.1 hj
    rw [List.getElem_range] at hget
    exact ⟨hpos, by omega⟩
  · cases hin

/-- **The loaded rows are those of LIMIT and OFFSET** exactly when the sum of the two is an int64_t, and no row is due
or OFFSET falls into the first block that has rows. -/
theorem windows_select (t : BlockSizes) (offset limit : ℕ) :
    Selects t offset limit ↔
      offset + limit < 2 ^ 63 ∧ (limit = 0 ∨ t.sizes.sum ≤ offset ∨ offset < firstSize t.sizes) := by
  constructor
  · rintro ⟨w, hcalls, hrows, hbounds⟩
    have hsum : offset + limit < 2 ^ 63 := by
      by_contra hsum
      have := hcalls 0
      rw [getLoadSize_overflow t 0 hsum] at this
      cases this
    refine ⟨hsum, ?_⟩
    obtain ⟨c, c', hc, hc', hwindows⟩ := windows_of_lt t hsum
    by_contra hcond
    simp only [not_or, not_le, not_lt] at hcond
    obtain ⟨hlimit, htotal, hfirst⟩ := hcond
    -- the block of OFFSET
    have hlen : 0 < t.sizes.length := by
      by_contra hlen
      have : t.sizes = [] := List.length_eq_zero_iff.1 (by omega)
      simp [this] at htotal
    have hpos : 1 ≤ c := by
      by_contra hzero
      have hstop := hc.stop (by omega)
      have : c = 0 := by omega
      subst this
      simp [rowsBefore] at hstop
    obtain ⟨b, rfl⟩ : ∃ b, c = b + 1 := ⟨c - 1, by omega⟩
    have hle := hc.le
    have hrow : offset < rowsBefore t.sizes (b + 1) := by
      rcases Nat.lt_or_ge (b + 1) t.sizes.length with hlt | hge
      · exact hc.stop hlt
      · have : rowsBefore t.sizes (b + 1) = t.sizes.sum := by
          rw [rowsBefore, List.take_of_length_le hge]
        omega
    have hbefore := hc.before b (by omega)
    have hwb : windowOf t.sizes offset (offset + limit) (b + 1) c' b = w b :=
      Option.some.inj ((hwindows b (by omega)).symm.trans (hcalls b))
    have hne : rowsBefore t.sizes b ≠ 0 := by
      intro hzero
      have hsucc := rowsBefore_succ t.sizes b
      have : offset < firstSize t.sizes := lt_firstSize hzero (by omega)
      omega
    obtain ⟨s, hs⟩ : ∃ s, t.sizes[b]? = some s := ⟨_, List.getElem?_eq_getElem (by omega)⟩
    have hsize : t.sizes.getD b 0 = s := by rw [List.getD_eq_getElem?_getD, hs]; rfl
    have hmiss := windowOf_misses hc hc' rfl hrow hne hwb fun hload => by
      rw [hsize]
      exact (hbounds b s hs hload).2
    have hload := loaded_of_selects (by omega) hrows hbefore hrow
    omega
  · rintro ⟨hsum, hcond⟩
    obtain ⟨c, c', hc, hc', hwindows⟩ := windows_of_lt t hsum
    have hcond' : limit = 0 ∨ t.sizes.sum ≤ offset ∨ rowsBefore t.sizes (c - 1) = 0 :=
      hcond.imp id (Or.imp id hc.first)
    -- past the last block there is a window too, of no block
    have hcalls : ∀ b, ∃ w, getLoadSize t b plain offset limit = some w := fun b => by
      obtain ⟨_, _, -, -, heq⟩ := getLoadSize_isSome t b hsum
      exact ⟨_, heq⟩
    choose w hw using hcalls
    refine selects_of_exact hw fun b hb => ?_
    rw [← Option.some.inj ((hwindows b hb).symm.trans (hw b))]
    exact windowOf_exact hc hc' hb hcond'

/-- two blocks of four rows -/
def twoBlocks : BlockSizes := ⟨[4, 4], by norm_num, by simp⟩

/-- **OFFSET in the second block loads none of its rows**: the window starts behind the last row. -/
theorem offset_second_block :
    getLoadSize twoBlocks 1 plain 5 2 = some ⟨4, -1⟩ ∧ ¬ Selects twoBlocks 5 2 := by
  refine ⟨by decide, ?_⟩
  rintro ⟨w, hcalls, hrows, -⟩
  have h0 : w 0 = ⟨0, 0⟩ := Option.some.inj ((hcalls 0).symm.trans (by decide))
  have h1 : w 1 = ⟨4, -1⟩ := Option.some.inj ((hcalls 1).symm.trans (by decide))
  have hdue : ((blockRows twoBlocks.sizes).flatten.drop 5).take 2 = [(1, 1), (1, 2)] := by decide
  have hloaded : ((blockRows twoBlocks.sizes).zipIdx.map fun block => (w block.2).rows block.1).flatten = [] := by
    simp [blockRows, twoBlocks, h0, h1, Window.rows]
  rw [hdue, hloaded] at hrows
  cases hrows

end QikkDB.LoadWindow

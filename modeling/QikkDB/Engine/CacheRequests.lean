/-
What a user of the GPU memory cache can rely on: that the blocks of the columns in use are not evicted, and that a hit
returns the block asked for. Both are decided by text tests on the keys.

`Evict` is meant to spare the current block of the columns on the lock list. It looks for the last character of the key
that occurs in the current block index, and expects it right behind the locked name and its underscore. The key goes on
with the other digits of the index, the load size and the load offset, so the test picks out the block only when no
digit of the index occurs there.

Results:
- `isLockedItem_iff`: when the test recognises the key of a block in use.
- `block_in_use`: the block is spared in every reachable state exactly then.
- `toldApart_iff`: no two requests share a key, or a block through a hit, exactly when they do not `Collide`.
-/
import Mathlib.Tactic
import QikkDB.Engine.GPUMemoryCache

namespace QikkDB.GPUMemoryCache

open CacheKey Decimal

/-! ## Reachable states -/

/-- a state of the cache of some device after some sequence of calls -/
def Reachable (s : St) : Prop :=
  ∃ free percent start a maximumSize ops, CudaMemAllocator.construct free percent (some start) = .ok a ∧
    Run.exec step (construct maximumSize a) ops = some s

theorem Reachable.inv {s : St} (h : Reachable s) : ∃ bufferSize, Inv bufferSize s := by
  obtain ⟨free, percent, start, a, maximumSize, ops, ha, hrun⟩ := h
  have hsmall : free * percent.toNat % 2 ^ 64 / 100 - CudaMemAllocator.RESERVED_MEMORY < 2 ^ 63 := by omega
  obtain ⟨s', hrun', hinv⟩ := Run.exec_inv step _ step_inv (construct maximumSize a) ops
    (inv_construct (CudaMemAllocator.inv_construct ha) hsmall maximumSize)
  obtain rfl := Option.some.inj (hrun.symm.trans hrun')
  exact ⟨_, hinv⟩

/-! ## The lock test -/

theorem findLastOf_eq_none {chars s : Text} : findLastOf chars s = none ↔ ∀ c ∈ s, c ∉ chars := by
  induction s with
  | nil => simp [findLastOf]
  | cons c s ih =>
    cases h : findLastOf chars s with
    | none =>
      simp only [findLastOf, h, List.mem_cons, forall_eq_or_imp]
      simpa using fun _ => ih.1 h
    | some i =>
      have : ¬ ∀ c ∈ s, c ∉ chars := fun hall => by simp [ih.2 hall] at h
      simp only [findLastOf, h, reduceCtorEq, List.mem_cons, forall_eq_or_imp, false_iff]
      exact fun hall => this hall.2

theorem findLastOf_eq_some {chars s : Text} {i : ℕ} :
    findLastOf chars s = some i ↔ ∃ pre c post, s = pre ++ c :: post ∧ pre.length = i ∧ c ∈ chars ∧
      ∀ d ∈ post, d ∉ chars := by
  induction s generalizing i with
  | nil => simp [findLastOf]
  | cons a s ih =>
    constructor
    · intro h
      cases hs : findLastOf chars s with
      | none =>
        simp only [findLastOf, hs] at h
        split_ifs at h with ha
        exact ⟨[], a, s, rfl, by simpa using h, ha, findLastOf_eq_none.1 hs⟩
      | some j =>
        obtain ⟨pre, c, post, rfl, rfl, hc, hpost⟩ := ih.1 hs
        obtain rfl : pre.length + 1 = i := by simpa [findLastOf, hs] using h
        exact ⟨a :: pre, c, post, rfl, rfl, hc, hpost⟩
    · rintro ⟨pre, c, post, hsplit, rfl, hc, hpost⟩
      rcases pre with _ | ⟨b, pre⟩
      · obtain ⟨rfl, rfl⟩ := List.cons.inj hsplit
        simp [findLastOf, findLastOf_eq_none.2 hpost, hc]
      · obtain ⟨rfl, hs⟩ := List.cons.inj hsplit
        have := (ih (i := pre.length)).2 ⟨pre, c, post, hs, rfl, hc, hpost⟩
        simp [findLastOf, this]

/-- the digits of the current block index come last, one character behind `lockedColumn`, in the key -/
def Marks (lockedColumn : Text) (b : ℕ) (key : Text) : Prop :=
  ∃ x c post, key = lockedColumn ++ x :: c :: post ∧ c ∈ decimal b ∧ ∀ d ∈ post, d ∉ decimal b

theorem isLockedItem_eq {lockList : List Text} {b : ℕ} {key : Text} :
    isLockedItem lockList b key = true ↔ ∃ l ∈ lockList, Marks l b key := by
  simp only [isLockedItem, List.any_eq_true, Bool.and_eq_true, List.isPrefixOf_iff_prefix, beq_iff_eq,
    findLastOf_eq_some]
  refine exists_congr fun l => and_congr_right fun _ => ?_
  constructor
  · rintro ⟨⟨rest, rfl⟩, pre, c, post, hsplit, hlen, hc, hpost⟩
    rcases List.append_eq_append_iff.1 hsplit with ⟨u, rfl, hu⟩ | ⟨u, rfl, hu⟩
    · obtain ⟨x, rfl⟩ : ∃ x, u = [x] := List.length_eq_one_iff.1 (by simpa using hlen)
      exact ⟨x, c, post, by simp [hu], hc, hpost⟩
    · simp at hlen
      omega
  · rintro ⟨x, c, post, rfl, hc, hpost⟩
    exact ⟨⟨x :: c :: post, rfl⟩, l ++ [x], c, post, by simp, by simp, hc, hpost⟩

/-- the name of the column itself marks its block when the index has one digit that the rest of the key does not have -/
theorem marks_own {databaseName tableAndColumnName : Text} {b : ℕ} {loadSize loadOffset : ℤ} :
    Marks (databaseName ++ '.' :: tableAndColumnName) b
      (columnBlock databaseName tableAndColumnName b loadSize loadOffset) ↔
    b < 10 ∧ ∀ c ∈ decimal b, c ∉ decimal loadSize ∧ c ∉ decimal loadOffset := by
  have hkey : columnBlock databaseName tableAndColumnName b loadSize loadOffset =
      (databaseName ++ '.' :: tableAndColumnName) ++
        '_' :: (decimal b ++ '_' :: (decimal loadSize ++ '_' :: decimal loadOffset)) := by
    simp [columnBlock]
  rw [hkey]
  constructor
  · rintro ⟨x, c, post, hsplit, hc, hpost⟩
    obtain ⟨-, hrest⟩ := List.cons.inj (List.append_cancel_left hsplit)
    -- a second digit of the index would stand behind the first one
    rcases hd : decimal b with _ | ⟨d, _ | ⟨d', ds⟩⟩
    · simp [hd] at hc
    · rw [hd] at hrest
      obtain ⟨rfl, rfl⟩ := List.cons.inj hrest
      refine ⟨decimal_length.1 (by simp [hd]), ?_⟩
      intro e he
      have he' : e ∈ decimal b := hd ▸ he
      exact ⟨fun h => hpost e (by simp [h]) he', fun h => hpost e (by simp [h]) he'⟩
    · rw [hd] at hrest
      obtain ⟨rfl, rfl⟩ := List.cons.inj hrest
      exact absurd (by simp [hd]) (hpost d' (by simp))
  · rintro ⟨hlt, hfree⟩
    rcases hd : decimal b with _ | ⟨d, _ | ⟨d', ds⟩⟩
    · exact absurd hd Nat.toDigits_ne_nil
    · refine ⟨'_', d, '_' :: (decimal loadSize ++ '_' :: decimal loadOffset), rfl, by simp [hd], ?_⟩
      intro e he hmem
      have hund : e ≠ '_' := fun h => decimal_ne_underscore b (h ▸ hmem)
      simp only [List.mem_cons, List.mem_append] at he
      rcases he with he | he | he | he
      · exact hund he
      · exact (hfree e hmem).1 he
      · exact hund he
      · exact (hfree e hmem).2 he
    · have := decimal_length.2 hlt
      simp [hd] at this

/-- when the block `b` of a locked column is recognised: the index has one digit, found neither in the load size nor in
the load offset, or the name of another locked column happens to end in the right place of the key -/
def Recognised (lockList : List Text) (databaseName tableAndColumnName : Text) (b : ℕ) (loadSize loadOffset : ℤ) :
    Prop :=
  (b < 10 ∧ ∀ c ∈ decimal b, c ∉ decimal loadSize ∧ c ∉ decimal loadOffset) ∨
    ∃ l ∈ lockList, l ≠ databaseName ++ '.' :: tableAndColumnName ∧
      Marks l b (columnBlock databaseName tableAndColumnName b loadSize loadOffset)

theorem isLockedItem_iff {lockList : List Text} {databaseName tableAndColumnName : Text} {b : ℕ}
    {loadSize loadOffset : ℤ} (hmem : databaseName ++ '.' :: tableAndColumnName ∈ lockList) :
    isLockedItem lockList b (columnBlock databaseName tableAndColumnName b loadSize loadOffset) = true ↔
      Recognised lockList databaseName tableAndColumnName b loadSize loadOffset := by
  rw [isLockedItem_eq, Recognised, ← marks_own]
  constructor
  · rintro ⟨l, hl, hmark⟩
    by_cases heq : l = databaseName ++ '.' :: tableAndColumnName
    · exact Or.inl (heq ▸ hmark)
    · exact Or.inr ⟨l, hl, heq, hmark⟩
  · rintro (hmark | ⟨l, hl, -, hmark⟩)
    · exact ⟨_, hmem, hmark⟩
    · exact ⟨l, hl, hmark⟩

/-! ## Blocks in use -/

/-- in every reachable state with these settings, neither `Evict` nor `GetColumn` takes the block from the cache -/
def NeverEvicted (lockList : List Text) (b : ℕ) (key : Text) : Prop :=
  ∀ s, Reachable s → s.lockList = lockList → s.currentBlockIndex = b → ∀ e ∈ s.cacheMap, e.key = key →
    (∀ r s', evict s = some (r, s') → e ∈ s'.cacheMap) ∧
    ∀ sizeofT databaseName tableAndColumnName blockIndex size loadSize loadOffset r s',
      getColumn s sizeofT databaseName tableAndColumnName blockIndex size loadSize loadOffset = some (r, s') →
        ∃ e' ∈ s'.cacheMap, e'.key = e.key ∧ e'.ptr = e.ptr

theorem neverEvicted_of_locked {lockList : List Text} {b : ℕ} {key : Text}
    (hlock : isLockedItem lockList b key = true) : NeverEvicted lockList b key := by
  rintro s hs rfl rfl e he rfl
  obtain ⟨bufferSize, hinv⟩ := hs.inv
  constructor
  · intro r s' heq
    obtain ⟨r₁, s₁, heq₁, -, ⟨-, rfl, -⟩ | ⟨-, hev⟩⟩ := evict_spec hinv
    · obtain ⟨rfl, rfl⟩ := Prod.mk.inj (Option.some.inj (heq.symm.trans heq₁))
      exact he
    · obtain ⟨rfl, rfl⟩ := Prod.mk.inj (Option.some.inj (heq.symm.trans heq₁))
      exact Shrunk.locked (.single hev) he hlock
  · intro t d c i n l o r s' heq
    obtain ⟨r₁, s₁, heq₁, -, hgot⟩ := getColumn_spec hinv t d c i n l o
    obtain ⟨rfl, rfl⟩ := Prod.mk.inj (Option.some.inj (heq.symm.trans heq₁))
    exact hgot.keeps e he hlock

/-- an allocator of 1000 bytes -/
def smallAllocator : CudaMemAllocator.St :=
  ⟨4096, [⟨0, false, some 0, 1000, 4096⟩], [⟨0, 1000, 0⟩], [], 1, 1⟩

/-- the cache over it that holds one block of one byte -/
def singleBlock (lockList : List Text) (b : ℕ) (key : Text) : St :=
  { maxSize := 1000
    cacheMap := [⟨0, key, 4096, 1, 0⟩]
    lruQueue := [⟨0, 0⟩]
    usedSize := 1
    lockList := lockList
    currentBlockIndex := b
    allocator := ⟨4096, [⟨0, true, some 0, 512, 4096⟩, ⟨1, false, some 1, 488, 4608⟩], [⟨1, 488, 1⟩], [(4096, 0)], 2, 2⟩
    nextEntry := 1
    nextNode := 1 }

/-- any block can be alone in the cache -/
theorem reachable_singleBlock (lockList : List Text) (b : ℕ) (databaseName tableAndColumnName : Text)
    (blockIndex loadSize loadOffset : ℤ) :
    Reachable (singleBlock lockList b
      (columnBlock databaseName tableAndColumnName blockIndex loadSize loadOffset)) :=
  ⟨256001000, 100, 4096, smallAllocator, 1000, [.setLockList lockList, .setCurrentBlockIndex b,
    .getColumn 1 databaseName tableAndColumnName blockIndex 1 loadSize loadOffset], rfl, rfl⟩

theorem evict_singleBlock {lockList : List Text} {b : ℕ} {key : Text} (hfree : isLockedItem lockList b key = false) :
    ∃ s', evict (singleBlock lockList b key) = some (.ok true, s') ∧ s'.cacheMap = [] := by
  refine ⟨{ singleBlock lockList b key with
      cacheMap := []
      lruQueue := []
      usedSize := 0
      allocator := ⟨4096, [⟨0, false, some 2, 1000, 4096⟩], [⟨2, 1000, 0⟩], [], 2, 3⟩ }, ?_, rfl⟩
  have hd : CudaMemAllocator.deallocate (singleBlock lockList b key).allocator 4096 =
      some (.ok (), ⟨4096, [⟨0, false, some 2, 1000, 4096⟩], [⟨2, 1000, 0⟩], [], 2, 3⟩) := rfl
  simp only [singleBlock] at hd
  simp [evict, evictFrom, singleBlock, NodeList.find, hfree, hd, eraseQueue, NodeList.erase, toInt64]

/-- **When a block in use is safe from eviction.** For every lock list that holds the column, every current block, load
size and load offset: the block's entry survives every call of `Evict` and `GetColumn` in every reachable state if and
only if the lock test recognises its key. -/
theorem block_in_use (lockList : List Text) (databaseName tableAndColumnName : Text) (b : ℕ) (loadSize loadOffset : ℤ)
    (hmem : databaseName ++ '.' :: tableAndColumnName ∈ lockList) :
    NeverEvicted lockList b (columnBlock databaseName tableAndColumnName b loadSize loadOffset) ↔
      Recognised lockList databaseName tableAndColumnName b loadSize loadOffset := by
  rw [← isLockedItem_iff hmem]
  constructor
  · intro hnever
    by_contra hlock
    rw [Bool.not_eq_true] at hlock
    obtain ⟨s', hev, hempty⟩ := evict_singleBlock hlock
    have := (hnever _ (reachable_singleBlock lockList b databaseName tableAndColumnName b loadSize loadOffset) rfl rfl
      _ List.mem_cons_self rfl).1 _ s' hev
    simp [hempty] at this
  · exact neverEvicted_of_locked

/-- block 1 with a load size of 100: the last '1' of the key stands in the load size, and the block is evicted -/
theorem block_in_use_evicted :
    ¬ ∀ (lockList : List Text) (databaseName tableAndColumnName : Text) (b : ℕ) (loadSize loadOffset : ℤ),
      databaseName ++ '.' :: tableAndColumnName ∈ lockList →
        NeverEvicted lockList b (columnBlock databaseName tableAndColumnName b loadSize loadOffset) := by
  intro h
  have hnever := h ["db.t.a".toList] "db".toList "t.a".toList 1 100 0 (by decide)
  have hfree : isLockedItem ["db.t.a".toList] 1 (columnBlock "db".toList "t.a".toList 1 100 0) = false := by decide
  obtain ⟨s', hev, hempty⟩ := evict_singleBlock hfree
  have := (hnever _ (reachable_singleBlock _ 1 "db".toList "t.a".toList 1 100 0) rfl rfl _ List.mem_cons_self rfl).1
    _ s' hev
  simp [hempty] at this

/-- block 1 with a load size of 80 is recognised -/
theorem block_in_use_kept :
    "db".toList ++ '.' :: "t.a".toList ∈ ["db.t.a".toList] ∧
      NeverEvicted ["db.t.a".toList] 1 (columnBlock "db".toList "t.a".toList 1 80 0) :=
  ⟨by decide, (block_in_use ["db.t.a".toList] "db".toList "t.a".toList 1 80 0 (by decide)).2
    (Or.inl ⟨by decide, by simp [show decimal 1 = ['1'] from rfl, show decimal 80 = ['8', '0'] from rfl,
      show decimal 0 = ['0'] from rfl]⟩)⟩

/-! ## Hits -/

/-- `GetColumn` for a request, `size` elements of `sizeofT` bytes -/
def request (s : St) (r : Request) (sizeofT size : ℕ) : Option (Result (ℕ × ℕ × Bool)) :=
  getColumn s sizeofT r.databaseName r.tableAndColumnName r.blockIndex size r.loadSize r.loadOffset

/-- two requests are told apart: they do not share a key, and neither gets the block of the other through a hit -/
structure ToldApart (r r' : Request) : Prop where
  key : r.key = r'.key → r = r'
  hit : ∀ s, Reachable s → ∀ sizeofT size p n fresh s₁, request s r sizeofT size = some (.ok (p, n, fresh), s₁) →
    ∀ sizeofT' size' n' s₂, request s₁ r' sizeofT' size' = some (.ok (p, n', true), s₂) → r = r'

/-- a pointer belongs to one key -/
theorem key_of_hit {bufferSize : ℕ} {s s₁ s₂ : St} (h : Inv bufferSize s) {r r' : Request}
    {sizeofT size p n sizeofT' size' n' : ℕ} {fresh : Bool}
    (h₁ : request s r sizeofT size = some (.ok (p, n, fresh), s₁))
    (h₂ : request s₁ r' sizeofT' size' = some (.ok (p, n', true), s₂)) : r.key = r'.key := by
  obtain ⟨o₁, t₁, heq₁, hinv₁, hgot₁⟩ := getColumn_spec h sizeofT r.databaseName r.tableAndColumnName r.blockIndex size
    r.loadSize r.loadOffset
  obtain ⟨rfl, rfl⟩ := Prod.mk.inj (Option.some.inj (heq₁.symm.trans h₁))
  obtain ⟨o₂, t₂, heq₂, -, hgot₂⟩ := getColumn_spec hinv₁ sizeofT' r'.databaseName r'.tableAndColumnName r'.blockIndex
    size' r'.loadSize r'.loadOffset
  obtain ⟨rfl, rfl⟩ := Prod.mk.inj (Option.some.inj (heq₂.symm.trans h₂))
  obtain ⟨e, he, hkey, hptr⟩ := hgot₁.entry p n fresh rfl
  obtain ⟨e', he', hkey', hptr'⟩ := hgot₂.cached p n' rfl
  obtain rfl : e = e' := List.inj_on_of_nodup_map hinv₁.ptrs he he' (hptr.trans hptr'.symm)
  exact hkey.symm.trans hkey'

/-- **When two requests are told apart.** For all requests, over all names: the keys tell them apart, and no hit returns
the block of another request, if and only if they do not collide. -/
theorem toldApart_iff (r r' : Request) : ToldApart r r' ↔ ¬ Collide r r' := by
  constructor
  · intro h hcol
    exact hcol.ne (h.key hcol.key_eq)
  · intro hcol
    have hinj : r.key = r'.key → r = r' := fun h => (key_inj_or_collide h).resolve_right hcol
    refine ⟨hinj, ?_⟩
    intro s hs sizeofT size p n fresh s₁ h₁ sizeofT' size' n' s₂ h₂
    obtain ⟨bufferSize, hinv⟩ := hs.inv
    exact hinj (key_of_hit hinv h₁ h₂)

/-- the null mask of column a and the data of column a_nullMask: the second request hits the block of the first -/
theorem hits_wrong_block :
    ∃ (r r' : Request) (s s₁ s₂ : St) (p n n' : ℕ), r.key = r'.key ∧ r ≠ r' ∧ Reachable s ∧
      request s r 1 1 = some (.ok (p, n, false), s₁) ∧ request s₁ r' 1 1 = some (.ok (p, n', true), s₂) :=
  ⟨⟨"db".toList, "t".toList, "a".toList, .nullMask, 0, 8, 0⟩,
    ⟨"db".toList, "t".toList, "a_nullMask".toList, .data, 0, 8, 0⟩, construct 1000 smallAllocator, _, _, 4096, _, _,
    by decide, by decide, ⟨256001000, 100, 4096, smallAllocator, 1000, [], rfl, rfl⟩, rfl, rfl⟩

end QikkDB.GPUMemoryCache
